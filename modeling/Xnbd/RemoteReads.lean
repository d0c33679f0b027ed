import Xnbd.CacheFile
import Xnbd.ReadReply

/-!
# Remote reads, from the request to the cache file

How many bytes a remote read asks for, what `nbd_server_recv_request` makes of it, and where
`nbd_client_recv_read_reply` stores what it receives, also when it fails halfway.
-/
namespace Xnbd.RemoteReads

open CInt Block Bytes Nbd NetIov Negotiate Requests Forwarder Reference ReadReply
open TargetRead (sizeofNbdReply replyBytes)

section Receive

variable {n len : Nat} {stream : List UInt8} {total : Int} {results head body : List Int}
  {m : Received}

theorem entryCells_succ (n len : Nat) :
    entryCells ⟨n, len + 1⟩ = (n : Int) :: entryCells ⟨(n + 1 : Nat), len⟩ := by
  simp only [entryCells, List.range_succ_eq_map, List.map_cons, List.map_map, Nat.cast_zero,
    Int.add_zero]
  congr 1
  apply List.map_congr_left
  intro k _
  simp only [Function.comp_apply]
  omega

/-- Two deliveries into one buffer, the second behind the first. -/
theorem entryCells_zip {first second : List UInt8} (h : first.length ≤ len) :
    (entryCells ⟨n, len⟩).zip (first ++ second) =
      (entryCells ⟨n, len⟩).zip first ++
        (entryCells ⟨(n + first.length : Nat), len - first.length⟩).zip second := by
  induction first generalizing n len with
  | nil => simp
  | cons b first ih =>
    cases len with
    | zero => simp at h
    | succ len =>
      rw [List.length_cons] at h ⊢
      have hrest := @ih (n + 1) len (by omega)
      have hplace : n + 1 + first.length = n + (first.length + 1) := by omega
      rw [entryCells_succ, List.cons_append, List.zip_cons_cons, List.zip_cons_cons, hrest, hplace,
        Nat.add_sub_add_right]
      rfl

/-- What is received into one buffer lies at its beginning, and the return value is -1 or
counts it. -/
theorem netReadvAll_single (hlen : len < 2 ^ 32)
    (h : netReadvAll [⟨n, len⟩] stream total results = some m) :
    ∃ bytes, m.stores = (entryCells ⟨n, len⟩).zip bytes ∧ bytes.length ≤ len ∧
      stream = bytes ++ m.rest ∧ (m.ret = -1 ∨ m.ret = toInt32 (total + bytes.length)) := by
  induction results generalizing n len stream total m with
  | nil => cases h
  | cons sent results ih =>
    simp only [netReadvAll] at h
    split at h
    · rename_i hmay
      obtain ⟨hcount, hcells⟩ := streamMay_count hmay
      simp only [cells_cons, cells_nil, List.append_nil, entryCells_length] at hcells h
      have htake : (stream.take sent.toNat).length ≤ len := by omega
      rcases hmay with rfl | ⟨h0, -⟩
      · -- the call fails
        simp only [netIovStep] at h
        cases h
        exact ⟨[], by simp, by simp, by simp, .inl rfl⟩
      obtain rfl | hpos := h0.eq_or_lt
      · -- the peer has closed the connection, or nothing was asked for
        simp only [netIovStep, if_true] at h
        cases h
        exact ⟨[], by simp, by simp, by simp, .inr (by simp)⟩
      have hne0 : ¬sent = 0 := by omega
      have hne1 : ¬sent = -1 := by omega
      have htotal : total + sent = total + (stream.take sent.toNat).length := by omega
      simp only [netIovStep, hne0, hne1, if_false, advance_buffer hlen hpos] at h
      split at h
      · rename_i ret hdone
        split at hdone
        · cases hdone
        cases hdone
        cases h
        refine ⟨stream.take sent.toNat, rfl, htake, (List.take_append_drop _ _).symm, .inr ?_⟩
        rw [htotal]
      · rename_i rest total' hnext
        split at hnext
        · rename_i iov hadvance
          cases hnext
          split at hadvance
          · cases hadvance
            obtain ⟨m', hrec, rfl⟩ := Option.map_eq_some_iff.mp h
            obtain ⟨bytes, hstores, hle, hstream, hret⟩ := ih (by omega) hrec
            have hzip := @entryCells_zip n len (stream.take sent.toNat) bytes htake
            rw [hcount] at hzip
            refine ⟨stream.take sent.toNat ++ bytes, ?_, ?_, ?_, ?_⟩
            · simp only [hstores, hzip]
            · rw [List.length_append]
              omega
            · rw [List.append_assoc, ← hstream, List.take_append_drop]
            · rcases hret with hret | hret
              · exact .inl hret
              · refine .inr ?_
                rw [hret, htotal, List.length_append]
                push_cast
                rw [Int.add_assoc]
          · cases hadvance
        · cases hnext
    · cases h

/-- Where `nbd_client_recv_read_reply` stores, and what it took off the stream when it
reports success. -/
theorem nbdClientRecvReadReply_stores (hlen : len < 2 ^ 32)
    (h : nbdClientRecvReadReply n len stream head body = some m) :
    ∃ bytes, m.stores = (entryCells ⟨n, len⟩).zip bytes ∧ bytes.length ≤ len ∧
      (¬m.ret < 0 → len < 2 ^ 31 ∧ bytes.length = len ∧ m.ret = 0 ∧
        sizeofNbdReply ≤ stream.length ∧
        stream = stream.take sizeofNbdReply ++ (bytes ++ m.rest)) := by
  simp only [nbdClientRecvReadReply, nbdClientRecvReadReplyIov, Option.bind_eq_some_iff] at h
  obtain ⟨hd, hhead, h⟩ := h
  split at h
  · cases h
    have hepipe : (-epipe : Int) < 0 := by decide
    exact ⟨[], by simp, by simp, fun hneg => absurd hepipe hneg⟩
  · rename_i hsign
    obtain ⟨b, hbody, rfl⟩ := Option.map_eq_some_iff.mp h
    obtain ⟨bytes, hstores, hle, hrest, hret⟩ := netReadvAll_single hlen hbody
    refine ⟨bytes, hstores, hle, fun hneg => ?_⟩
    simp only [size_cons, size_nil, Nat.add_zero] at hneg ⊢
    split at hneg
    · exact absurd (by decide) hneg
    rename_i hcount
    have hsmall : len < 2 ^ 31 := by
      by_contra hlarge
      exact hcount (large_never_complete (by omega) hlen b.ret).1
    have hint : toInt32 (len : Int) = len := toInt32_of_range (by omega) (by omega)
    have hwhole : b.ret = len := by
      unfold allOrError at hcount
      split at hcount
      · omega
      · omega
    have hok := (nbdClientRecvReplyHeader_nonneg _ _).mp (not_lt.mp hsign)
    have hheader : sizeofNbdReply ≤ (hd.stores.map Prod.snd).length := by
      rcases hok with hok | hok
      · exact hok.1.1
      · exact hok.1.1
    have htaken := header_received hhead hheader
    have hall := netReadvAll_bytes hhead
    rw [htaken, hrest] at hall
    refine ⟨hsmall, ?_, by rw [if_neg hcount], ?_, hall.symm⟩
    · rcases hret with hret | hret
      · omega
      · rw [hret, Int.zero_add, toInt32_of_range (by omega) (by omega)] at hwhole
        omega
    · rw [htaken, List.length_take] at hheader
      omega

theorem store_cons (cache : File) (n : Nat) (b : UInt8) (bytes : List UInt8) :
    store (store cache n [b]) (n + 1) bytes = store cache n (b :: bytes) := by
  funext x
  unfold store
  by_cases hlt : x < n
  · have h₁ : ¬n + 1 ≤ x := by omega
    have h₂ : ¬n ≤ x := by omega
    simp only [if_neg h₁, if_neg h₂]
  by_cases heq : x = n
  · subst heq
    simp
  · have h₁ : n + 1 ≤ x := by omega
    have h₂ : n ≤ x := by omega
    obtain ⟨k, rfl⟩ : ∃ k, x = n + 1 + k := ⟨x - (n + 1), by omega⟩
    have h₃ : n + 1 + k - n = k + 1 := by omega
    simp only [if_pos h₁, if_pos h₂, h₃, Nat.add_sub_cancel_left, List.getElem?_cons_succ,
      List.getElem?_nil, Option.getD_none]

/-- Byte by byte, the mapping takes what was received as one store at its place. -/
theorem storeAll_cells (cache : File) {bytes : List UInt8} (h : bytes.length ≤ len) :
    storeAll cache ((entryCells ⟨n, len⟩).zip bytes) = store cache n bytes := by
  induction bytes generalizing n len cache with
  | nil =>
    rw [List.zip_nil_right]
    funext x
    rw [store_outside (by simp only [List.length_nil]; omega)]
    rfl
  | cons b bytes ih =>
    cases len with
    | zero => simp at h
    | succ len =>
      have hrest := @ih (n + 1) len (store cache n [b]) (by simpa using h)
      rw [store_cons] at hrest
      rw [entryCells_succ, List.zip_cons_cons, ← hrest]
      rfl

end Receive

section Ranges

variable {disksize : Nat} {R : RefDisk} {r : Request disksize} {req : List ReadReq} {rr : ReadReq}

/-- The blocks that a request reaches into, unless the index of the last one wraps around. -/
theorem blocks_le (hd : disksize ≤ offMax) (hord : r.blockIndexStart ≤ r.blockIndexEnd)
    (hend : r.blockIndexEnd < 2 ^ 64 - 1) :
    (r.blockIndexEnd + 1 - r.blockIndexStart) * cblocksize ≤ r.iolen + 2 * cblocksize := by
  have hlow := r.admitted.lower
  have hupper := r.admitted.upper
  have hlength := r.admitted.length
  have hwithin := r.admitted.within
  simp only [offMax] at hd
  obtain ⟨ioend, hioend⟩ : ∃ n : Nat, r.iofrom + r.iolen = n :=
    ⟨(r.iofrom + r.iolen).toNat, by omega⟩
  have hsmall : ioend < 2 ^ 63 := by omega
  have hint : r.ioend = ioend := by
    rw [Request.ioend, hioend]
    exact toInt64_of_range (by omega) (by omega)
  have hpos : 0 < ioend := by
    by_contra hzero
    have hwrap := getBindexEnd_zero
    rw [Request.blockIndexEnd, hint, show ioend = 0 by omega] at hend
    simp only [Nat.cast_zero] at hend
    omega
  have hlast : r.blockIndexEnd = (ioend - 1) / cblocksize := by
    rw [Request.blockIndexEnd, hint, getBindexEnd_natCast hpos hsmall]
  by_cases h0 : 0 ≤ r.iofrom
  · have hfrom := iofrom_eq_start h0
    rw [blockIndexStart_eq h0, getBindexSta_natCast (by omega)] at hord ⊢
    rw [hlast] at hord ⊢
    unfold cblocksize at *
    omega
  · obtain ⟨k, hk⟩ : ∃ k : Nat, r.iofrom = -k := ⟨(-r.iofrom).toNat, by omega⟩
    have hdiv : (-(k : Int)).tdiv ((cblocksize : Nat) : Int) = -((k / cblocksize : Nat) : Int) := by
      rw [Int.neg_tdiv, Int.ofNat_tdiv]
    have hstart : r.blockIndexStart = toUint64 (-((k / cblocksize : Nat) : Int)) := by
      rw [Request.blockIndexStart, getBindexSta, hk, hdiv]
    rw [hstart, hlast] at hord ⊢
    unfold cblocksize toUint64 at *
    omega

/-- A remote read asks for no more than the request and the rest of its first and last block. -/
theorem entry_le (hd : disksize ≤ offMax) (h : PreparedAt R r req) (hrr : rr ∈ req) :
    rr.bindexIolen * cblocksize ≤ r.iolen + 2 * cblocksize := by
  by_cases hshort : rr.bindexIolen ≤ 2
  · exact Nat.le_trans (Nat.mul_le_mul_right _ hshort) (Nat.le_add_left _ _)
  have hfetches : ∀ k < rr.bindexIolen, Fetches req (rr.bindexIofrom + k) :=
    fun k hk => ⟨rr, hrr, by omega, by omega⟩
  have hmarks : Marks r := by
    by_contra hno
    rw [h.others hno] at hrr
    cases hrr
  have hread : ∀ hio : r.iotype = .read ∨ r.iotype = .cache,
      rr.bindexIolen * cblocksize ≤ r.iolen + 2 * cblocksize := by
    intro hio
    have hfirst := ((h.reads hio _).mp (hfetches 0 (by omega))).1
    have hlast := ((h.reads hio _).mp (hfetches (rr.bindexIolen - 1) (by omega))).1
    have hord : r.blockIndexStart ≤ r.blockIndexEnd := Nat.le_trans hfirst.1 hfirst.2
    refine Nat.le_trans (Nat.mul_le_mul_right _ ?_) (blocks_le hd hord (h.bounded hmarks hord))
    have hlow := hfirst.1
    have hhigh := hlast.2
    omega
  rcases hmarks with hio | hio | hio
  · exact hread (.inl hio)
  · exact hread (.inr hio)
  · -- a WRITE fetches single blocks, and there are two of them at most
    have h0 := (h.writes hio _).mp (hfetches 0 (by omega))
    have h1 := (h.writes hio _).mp (hfetches 1 (by omega))
    have h2 := (h.writes hio _).mp (hfetches 2 (by omega))
    omega

/-- The length of a remote read, which the remote server counts in an `int` with its reply. -/
theorem remoteRange_le (hd : disksize ≤ offMax) (h : PreparedAt R r req) (hrr : rr ∈ req) :
    (remoteRange disksize rr).2 ≤ r.iolen + 2 * cblocksize := by
  have hle := entry_le hd h hrr
  simp only [remoteRange, confineIolenWithinDisk]
  omega

end Ranges

end Xnbd.RemoteReads
