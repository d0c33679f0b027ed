import Xnbd.CowRefine

/-!
# A WRITE that the client does not finish (`target_mode_main_cow`)

The range is prepared in the top layer before the payload is read from the socket.
When the connection ends in between, the blocks are marked already, and what the
other sessions read in them is what the file of the top layer holds there.
-/
namespace Xnbd.CowInterrupt

open CInt Block Bitmap Bytes Nbd Requests NetIov CowDisk CowRefine

variable {disksize : Nat}

section Receive

/-- `net_readv_all` into one buffer, whose address is an offset of the file: the
file after it, the return value, and how many bytes came in. `results` are the
return values of `readv`. -/
def netReadvAll (v : Iovec) (file : File) (payload : List UInt8) (total : Int) :
    List Int → Option (File × Int × Nat)
  | [] => none
  | sent :: results =>
    let file := store file v.base.toNat (payload.take sent.toNat)
    match netIovStep [v] total sent with
    | .done ret => some (file, ret, sent.toNat)
    | .next (v' :: _) total' =>
      (netReadvAll v' file (payload.drop sent.toNat) total' results).map fun m =>
        (m.1, m.2.1, sent.toNat + m.2.2)
    | .next [] _ => none

/-- What came in is stored from the beginning of the buffer. -/
theorem netReadvAll_stores {results : List Int} :
    ∀ {n len k : Nat} {payload : List UInt8} {file file' : File} {total ret : Int}, len < 2 ^ 32 →
      Offered [⟨n, len⟩] total results →
      netReadvAll ⟨n, len⟩ file payload total results = some (file', ret, k) →
      file' = store file n (payload.take k) ∧ k ≤ len ∧
        netIovAll [⟨n, len⟩] total results = some (ret, total + k) := by
  induction results with
  | nil =>
    intro n len k payload file file' total ret _ _ h
    cases h
  | cons sent results ih =>
    intro n len k payload file file' total ret hlen hoff h
    obtain ⟨hlow, hhigh, hnext⟩ := hoff
    have hhigh : sent ≤ len := by simpa using hhigh
    simp only [netReadvAll, Int.toNat_natCast] at h
    cases hstep : netIovStep [⟨n, len⟩] total sent with
    | done r =>
      simp only [hstep, Option.some.injEq, Prod.mk.injEq] at h
      obtain ⟨rfl, rfl, rfl⟩ := h
      refine ⟨rfl, by omega, ?_⟩
      simp only [netIovAll, hstep]
      congr 2
      omega
    | next rest total' =>
      obtain ⟨hne, hminus, hadvance, htotal⟩ := netIovStep_next hstep
      rw [advance_buffer hlen (by omega)] at hadvance
      split at hadvance
      · rename_i hcut
        cases hadvance
        simp only [hstep, Option.map_eq_some_iff, Prod.mk.injEq] at h hnext
        obtain ⟨⟨f, r, m⟩, hrec, hf, hr, hk⟩ := h
        dsimp only at hf hr hk
        subst hf hr hk htotal
        obtain ⟨hfile, hm, hall⟩ := ih (by omega) hnext hrec
        refine ⟨?_, by omega, ?_⟩
        · rw [hfile, ← store_store file n sent.toNat (payload.take (sent.toNat + m))]
          rw [List.take_take, Nat.min_eq_left (by omega), List.drop_take,
            Nat.add_sub_cancel_left]
        · simp only [netIovAll, hstep, hall]
          congr 2
          omega
      · cases hadvance

end Receive

section Interrupted

variable {pagesize : Nat} {ds : DiskStack disksize} {r : Request disksize} {p : Prepared disksize}

/-- The transfer leaves the bitmap alone. -/
theorem same_words (p : Prepared disksize) : p.ds.top.bm.length = p.ds.top.bm.length := rfl

/-- A WRITE whose payload does not come in completely, `net_readv_all_or_abort` then
ends the worker: the stack it leaves, and how many bytes came in. -/
def interruptedWrite (pagesize : Nat) (ds : DiskStack disksize) (r : Request disksize)
    (results : List Int) : Option (DiskStack disksize × Nat) :=
  (diskStackMmapWrite pagesize ds r).bind fun p =>
    if p.marked.returned = false then none
    else
      (netReadvAll ⟨r.start, r.iolen⟩ p.ds.top.file r.data 0 results).bind fun m =>
        if CheckFin r.iolen m.2.1 then none
        else some (p.ds.withTop m.1 p.ds.top.bm (same_words p), m.2.2)

/-- When the payload does come in, it is the WRITE of `cowCommand`. -/
theorem finished_write {results : List Int} {file' : File} {ret : Int} {k : Nat}
    (hw : r.iotype = .write) (hoff : Offered [⟨r.start, r.iolen⟩] 0 results)
    (h : netReadvAll ⟨r.start, r.iolen⟩ p.ds.top.file r.data 0 results = some (file', ret, k))
    (hfin : CheckFin r.iolen ret) :
    cowCommand p r = .served (p.ds.withTop file' p.ds.top.bm rfl) ⟨true, []⟩ := by
  obtain ⟨hfile, hk, hall⟩ := netReadvAll_stores r.admitted.length hoff h
  have hsmall : r.iolen < 2 ^ 31 := by
    by_contra hge
    exact (large_never_complete (by omega) r.admitted.length ret).2 hfin
  have hint : toInt32 r.iolen = r.iolen := toInt32_of_range (by omega) (by omega)
  obtain ⟨-, -, hret⟩ := netIovAll_moved (le_refl 0) (by simp; omega) hoff hall
  have hwhole : k = r.iolen := by
    obtain ⟨hpos, heq⟩ := hfin
    omega
  have hdata : r.data.take k = r.data := List.take_of_length_le (by rw [r.payload hw, hwhole])
  have hfinish : CheckFin r.iolen (toInt32 r.iolen) := ⟨hfin.2 ▸ hfin.1, rfl⟩
  rw [hfile, hdata]
  simp only [cowCommand, hw, if_pos hfinish]

/-- A block of the range that is marked without having been copied up. -/
def Exposed (ds : DiskStack disksize) (r : Request disksize) (b : Nat) : Prop :=
  ds.topBits b = false ∧ ¬(r.getStartBlock ds.topBits = true ∧ b = r.blockIndexStart) ∧
    ¬(r.getEndBlock ds.topBits = true ∧ b = r.blockIndexEnd)

instance (ds : DiskStack disksize) (r : Request disksize) (b : Nat) : Decidable (Exposed ds r b) :=
  inferInstanceAs (Decidable (_ ∧ _))

/-- The file of the top layer in the prepared range. -/
theorem prepared_byte (h0 : 0 ≤ r.iofrom) (hp : diskStackMmapWrite pagesize ds r = some p) {x : Nat}
    (hx : x < disksize) :
    p.ds.top.file x = if Exposed ds r (x / cblocksize) then ds.top.file x else ds.logical x := by
  have hd := ds.size_max
  simp only [diskStackMmapWrite, Option.bind_eq_bind, Option.bind_eq_some_iff] at hp
  obtain ⟨mbr, hm, sta, hsta, file, hfile, hp⟩ := hp
  cases hp
  have hba := (baIobuf_eq hm hd h0).2
  have hsta' := copyEdge_byte hsta (by rw [hba]; ring) hx
  have hfile' := copyEdge_byte hfile (by rw [hba]; ring) hx
  change file x = _
  rw [hfile', hsta']
  by_cases hexposed : Exposed ds r (x / cblocksize)
  · rw [if_pos hexposed, if_neg hexposed.2.2, if_neg hexposed.2.1]
  · rw [if_neg hexposed]
    by_cases hend : r.getEndBlock ds.topBits = true ∧ x / cblocksize = r.blockIndexEnd
    · rw [if_pos hend]
    · by_cases hstart : r.getStartBlock ds.topBits = true ∧ x / cblocksize = r.blockIndexStart
      · rw [if_neg hend, if_pos hstart]
      · have ht : ds.topBits (x / cblocksize) = true := by
          by_contra hnot
          exact hexposed ⟨Bool.not_eq_true _ ▸ hnot, hstart, hend⟩
        rw [if_neg hend, if_neg hstart, logical_top ds ht]

/-- The bytes of the range that did not come in, in blocks that were marked without
having been copied up, are the same in the file of the top layer. -/
def Covered (ds : DiskStack disksize) (r : Request disksize) (k : Nat) : Prop :=
  ∀ x, r.start + k ≤ x → x < r.start + r.iolen → Exposed ds r (x / cblocksize) →
    ds.top.file x = ds.logical x

theorem interrupted_logical {results : List Int} {ds' : DiskStack disksize} {k : Nat}
    (hw : r.iotype = .write) (h0 : 0 ≤ r.iofrom) (hlen : 0 < r.iolen)
    (hoff : Offered [⟨r.start, r.iolen⟩] 0 results)
    (h : interruptedWrite pagesize ds r results = some (ds', k)) {x : Nat} (hx : x < disksize) :
    ds'.logical x =
      if r.start + k ≤ x ∧ x < r.start + r.iolen ∧ Exposed ds r (x / cblocksize) then ds.top.file x
      else store ds.logical r.start (r.data.take k) x := by
  simp only [interruptedWrite, Option.bind_eq_some_iff] at h
  obtain ⟨p, hp, h⟩ := h
  obtain ⟨hreturned, -, hbits, hkeep⟩ := diskStackMmapWrite_spec h0 hlen hp
  rw [if_neg (by simp [hreturned])] at h
  obtain ⟨⟨file', ret, n⟩, hrecv, h⟩ := Option.bind_eq_some_iff.mp h
  split at h
  · cases h
  obtain ⟨hds, hn⟩ := Prod.mk.inj (Option.some.inj h)
  subst hds
  rw [show n = k from hn] at hrecv
  obtain ⟨hfile, hk, -⟩ := netReadvAll_stores r.admitted.length hoff hrecv
  have hlength : (r.data.take k).length = k := by
    rw [List.length_take, r.payload hw]
    omega
  by_cases hcov : r.Covers x
  · have hin := inBlocks_of_covers ds.size_max h0 hcov
    have htop : (p.ds.withTop file' p.ds.top.bm rfl).topBits (x / cblocksize) = true := by
      have hb := hbits (x / cblocksize)
      simp only [hin, decide_true, Bool.or_true] at hb
      exact hb
    rw [logical_top _ htop]
    change file' x = _
    rw [hfile]
    by_cases hreceived : x < r.start + k
    · rw [if_neg (by omega)]
      exact store_congr_inside _ _ hcov.1 (by rw [hlength]; exact hreceived)
    · rw [store_outside (by rw [hlength]; omega), store_outside (by rw [hlength]; omega),
        prepared_byte h0 hp hx]
      by_cases hexposed : Exposed ds r (x / cblocksize)
      · rw [if_pos hexposed, if_pos ⟨by omega, hcov.2, hexposed⟩]
      · rw [if_neg hexposed, if_neg fun hx' => hexposed hx'.2.2]
  · have hout : ¬ (r.start + k ≤ x ∧ x < r.start + r.iolen ∧ Exposed ds r (x / cblocksize)) :=
      fun hx' => hcov ⟨by omega, hx'.2.1⟩
    have hstored : x < r.start ∨ r.start + (r.data.take k).length ≤ x := by
      rw [hlength]
      by_contra hnot
      exact hcov ⟨by omega, by omega⟩
    rw [if_neg hout, store_outside hstored, ← hkeep x hx hcov]
    cases ht : p.ds.topBits (x / cblocksize) with
    | true =>
      have htop : (p.ds.withTop file' p.ds.top.bm rfl).topBits (x / cblocksize) = true := ht
      rw [logical_top _ htop, logical_top p.ds ht]
      change file' x = _
      rw [hfile, store_outside hstored]
    | false => exact logical_withTop_lower p.ds rfl ht ht

theorem interrupted_write_iff (pagesize : Nat) (ds ds' : DiskStack disksize) (r : Request disksize)
    (results : List Int) (k : Nat) (hw : r.iotype = .write) (h0 : 0 ≤ r.iofrom)
    (hlen : 0 < r.iolen) (hoff : Offered [⟨r.start, r.iolen⟩] 0 results)
    (h : interruptedWrite pagesize ds r results = some (ds', k)) (hk : k < r.iolen) :
    (∀ x < disksize, ds'.logical x = store ds.logical r.start (r.data.take k) x) ↔
      Covered ds r k := by
  have hlength : (r.data.take k).length = k := by
    rw [List.length_take, r.payload hw]
    omega
  have hend := start_add_le ds.size_max h0
  constructor
  · intro hsame x hlow hhigh hexposed
    have hx := hsame x (by omega)
    rw [interrupted_logical hw h0 hlen hoff h (by omega), if_pos ⟨hlow, hhigh, hexposed⟩,
      store_outside (by rw [hlength]; omega)] at hx
    exact hx
  · intro hcovered x hx
    rw [interrupted_logical hw h0 hlen hoff h hx]
    split
    · rename_i hin
      rw [store_outside (by rw [hlength]; omega)]
      exact hcovered x hin.1 hin.2.1 hin.2.2
    · rfl

end Interrupted

section Example

theorem twoBytes_admitted : Admitted 4096 .write 5 2 := by constructor <;> decide

/-- A WRITE inside a block, which is copied up first. -/
def twoBytes : Request 4096 := ⟨.write, 5, 2, [7, 8], twoBytes_admitted, fun _ => rfl⟩

theorem twoBytes_covered : Covered oneBlock twoBytes 1 := by
  intro x hlow hhigh hexposed
  have hx : x = 6 := by
    have hstart : twoBytes.start = 5 := rfl
    have hlen : twoBytes.iolen = 2 := rfl
    omega
  subst hx
  exact absurd hexposed (by decide)

theorem interrupted_write_iff_two_bytes :
    ∃ ds', interruptedWrite 4096 oneBlock twoBytes [1, 0] = some (ds', 1) ∧
      ∀ x < 4096, ds'.logical x = store oneBlock.logical 5 [7] x := by
  have hends : (interruptedWrite 4096 oneBlock twoBytes [1, 0]).map Prod.snd = some 1 := by
    decide +kernel
  obtain ⟨⟨ds', k⟩, h, hk⟩ := Option.map_eq_some_iff.mp hends
  cases hk
  exact ⟨ds', h, (interrupted_write_iff 4096 oneBlock ds' twoBytes [1, 0] 1 rfl (by decide)
    (by decide) (by decide) h (by decide)).mpr twoBytes_covered⟩

theorem wholeBlock_admitted : Admitted 4096 .write 0 4096 := by constructor <;> decide

/-- A WRITE of a whole block, which is not. -/
def wholeBlock : Request 4096 :=
  ⟨.write, 0, 4096, List.replicate 4096 7, wholeBlock_admitted, fun _ => List.length_replicate⟩

/-- The client goes away before the first byte of the payload, and the block of ones
reads as zeros. -/
theorem whole_block_lost :
    ∃ ds', interruptedWrite 4096 oneBlock wholeBlock [0] = some (ds', 0) ∧
      oneBlock.logical 0 = 1 ∧ ds'.logical 0 = 0 := by
  have hends : (interruptedWrite 4096 oneBlock wholeBlock [0]).map Prod.snd = some 0 := by
    decide +kernel
  obtain ⟨⟨ds', k⟩, h, hk⟩ := Option.map_eq_some_iff.mp hends
  cases hk
  have hbyte := interrupted_logical (x := 0) rfl (by decide) (by decide) (by decide) h (by decide)
  rw [if_pos (by decide)] at hbyte
  exact ⟨ds', h, by decide, hbyte⟩

end Example

end Xnbd.CowInterrupt
