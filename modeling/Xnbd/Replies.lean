import Mathlib.Data.List.GetD
import Xnbd.CowRefine
import Xnbd.Framing
import Xnbd.TargetRead

/-!
# The replies of a worker

A session of one client on a writable disk in target mode or in copy-on-write
mode: each admitted request is served by one call of `target_mode_main_mmap`
or `target_mode_main_cow`, and what the call puts on the socket is kept apart
from what the next one puts there. The connection and the disk do not fail,
but the kernel decides how much each call moves.
-/
namespace Xnbd.Replies

open CInt Block Bytes Nbd Requests NetIov CowDisk CowRefine
open Framing (Mode)
open TargetRead (Memory sizeofNbdReply replyBytes replyBytes_length replyIov replyMemory
  replyIov_cells)

/-- `UIO_MAXIOV`: a longer list is refused with `EINVAL`. -/
def uioMaxiov : Nat := 1024

/-- `MAX_RW_COUNT`: the most one call moves. -/
def maxRwCount : Nat := 0x7ffff000

/-- The result of one `readv` or `writev`; the kernel is ready to move `ready`
bytes more than one. -/
def vectoredCall (ready : Nat) (iov : List Iovec) : Int :=
  if uioMaxiov < iov.length then -1
  else ((min (ready + 1) (min maxRwCount (size iov)) : Nat) : Int)

/-- The loop of `net_iov_all`: its return value and the addresses moved, in
order. -/
def netIovLoop (ready : Nat → Nat) : Nat → List Iovec → Int → Option (Int × List Int)
  | 0, _, _ => none
  | fuel + 1, iov, total =>
    let sent := vectoredCall (ready fuel) iov
    let moved := (cells iov).take sent.toNat
    match netIovStep iov total sent with
    | .done ret => some (ret, moved)
    | .next rest total' => (netIovLoop ready fuel rest total').map fun p => (p.1, moved ++ p.2)

/-- Every round moves a byte, so these rounds are enough. -/
def netIov (ready : Nat → Nat) (iov : List Iovec) : Option (Int × List Int) :=
  netIovLoop ready (size iov + 1) iov 0

section Transfer

variable {ready : Nat → Nat} {iov rest : List Iovec} {sent expected total ret : Int} {fuel : Nat}
  {moved : List Int}

theorem vectoredCall_cases (n : Nat) (iov : List Iovec) :
    (uioMaxiov < iov.length ∧ vectoredCall n iov = -1) ∨
      (iov.length ≤ uioMaxiov ∧ size iov = 0 ∧ vectoredCall n iov = 0) ∨
      (iov.length ≤ uioMaxiov ∧ 0 < vectoredCall n iov ∧ vectoredCall n iov ≤ size iov ∧
        vectoredCall n iov < 2 ^ 31) := by
  unfold vectoredCall uioMaxiov maxRwCount
  split <;> omega

theorem advance_length (h : advance sent expected iov = some rest) : rest.length ≤ iov.length := by
  induction iov generalizing expected with
  | nil => cases h
  | cons v tail ih =>
    simp only [advance] at h
    split at h
    · cases h
      simp
    · have := ih h
      simp only [List.length_cons]
      omega

/-- The loop returns. -/
theorem netIovLoop_returns (h : size iov < fuel) : ∃ p, netIovLoop ready fuel iov total = some p := by
  induction fuel generalizing iov total with
  | zero => omega
  | succ fuel ih =>
    simp only [netIovLoop]
    cases hstep : netIovStep iov total (vectoredCall (ready fuel) iov) with
    | done ret => exact ⟨_, rfl⟩
    | next rest total' =>
      obtain ⟨hne0, hne1, hadv, -⟩ := netIovStep_next hstep
      have hpos : 0 < vectoredCall (ready fuel) iov := by
        have := vectoredCall_cases (ready fuel) iov
        omega
      have hsize := advance_size (by omega) (le_refl 0) hpos hadv
      obtain ⟨p, hp⟩ := @ih rest total' (by omega)
      simp only [hp, Option.map_some]
      exact ⟨_, rfl⟩

/-- The return value counts what was moved, as an `int`. -/
theorem netIovLoop_ret (h : netIovLoop ready fuel iov total = some (ret, moved)) :
    ret = -1 ∨ ret = toInt32 (total + moved.length) := by
  induction fuel generalizing iov total moved with
  | zero => cases h
  | succ fuel ih =>
    simp only [netIovLoop] at h
    have hcall := vectoredCall_cases (ready fuel) iov
    have hmoved : ((cells iov).take (vectoredCall (ready fuel) iov).toNat).length =
        (vectoredCall (ready fuel) iov).toNat := by
      rw [List.length_take, cells_length]
      omega
    cases hstep : netIovStep iov total (vectoredCall (ready fuel) iov) with
    | done ret' =>
      simp only [hstep] at h
      cases h
      rw [hmoved]
      simp only [netIovStep] at hstep
      split at hstep
      · rename_i h0
        cases hstep
        simp [h0]
      split at hstep
      · cases hstep
        exact .inl rfl
      split at hstep
      · cases hstep
      · cases hstep
        right
        congr 2
        omega
    | next rest total' =>
      simp only [hstep, Option.map_eq_some_iff] at h
      obtain ⟨p, hp, hpair⟩ := h
      obtain ⟨hne0, hne1, -, htotal⟩ := netIovStep_next hstep
      cases hpair
      cases ih hp with
      | inl hneg => exact .inl hneg
      | inr hcount =>
        right
        rw [hcount, htotal, List.length_append, hmoved]
        congr 1
        omega

/-- A list that the `int` can count and the kernel takes is moved whole. -/
theorem netIovLoop_whole (h0 : 0 ≤ total) (hmax : total + size iov < 2 ^ 31)
    (hlen : iov.length ≤ uioMaxiov) (hfuel : size iov < fuel) :
    netIovLoop ready fuel iov total = some (total + size iov, cells iov) := by
  induction fuel generalizing iov total with
  | zero => omega
  | succ fuel ih =>
    have hcases := vectoredCall_cases (ready fuel) iov
    simp only [netIovLoop]
    cases hcall : netIovStep iov total (vectoredCall (ready fuel) iov) with
    | done ret =>
      simp only [netIovStep] at hcall
      split at hcall
      · rename_i hzero
        cases hcall
        have hnone : size iov = 0 := by omega
        have hcells : cells iov = [] := List.length_eq_zero_iff.mp (by rw [cells_length, hnone])
        rw [toInt32_of_range (by omega) (by omega), hcells, hnone]
        simp
      split at hcall
      · omega
      split at hcall
      · cases hcall
      · rename_i hadv
        cases hcall
        have hall := advance_none (le_refl 0) (by omega) hadv (by omega)
        have hsent : vectoredCall (ready fuel) iov = size iov := by omega
        rw [hsent, toInt32_of_range (by omega) (by omega), Int.toNat_natCast,
          List.take_of_length_le (by rw [cells_length])]
    | next rest total' =>
      obtain ⟨hne0, hne1, hadv, rfl⟩ := netIovStep_next hcall
      obtain ⟨hcells, hsize⟩ := advance_cells (le_refl 0) (by omega) hadv (by omega)
      have hrest := @ih rest (total + vectoredCall (ready fuel) iov) (by omega) (by omega)
        (Nat.le_trans (advance_length hadv) hlen) (by omega)
      have hsum : total + vectoredCall (ready fuel) iov + size rest = total + size iov := by omega
      simp only [hrest, Option.map_some, hcells, Int.sub_zero, List.take_append_drop, hsum]

theorem netIov_returns (ready : Nat → Nat) (iov : List Iovec) :
    ∃ ret moved, netIov ready iov = some (ret, moved) := by
  obtain ⟨p, hp⟩ := @netIovLoop_returns ready iov 0 (size iov + 1) (by omega)
  exact ⟨p.1, p.2, hp⟩

theorem netIov_ret (h : netIov ready iov = some (ret, moved)) :
    ret = -1 ∨ ret = toInt32 moved.length := by
  simpa using netIovLoop_ret h

theorem netIov_whole (hmax : size iov < 2 ^ 31) (hlen : iov.length ≤ uioMaxiov) :
    netIov ready iov = some ((size iov : Int), cells iov) := by
  have h := @netIovLoop_whole ready iov 0 (size iov + 1) (le_refl 0) (by omega) hlen (by omega)
  rwa [Int.zero_add] at h

/-- A list longer than the kernel takes is refused at the first call. -/
theorem netIov_refused (hlen : uioMaxiov < iov.length) : netIov ready iov = some (-1, []) := by
  simp [netIov, netIovLoop, vectoredCall, hlen, netIovStep]

end Transfer

section Rounds

variable {disksize : Nat}

/-- `net_writev_all_or_abort` and `net_send_all_or_abort`: what went out. -/
def writevAllOrAbort (ready : Nat → Nat) (iov : List Iovec) (mem : Memory) :
    Option (List UInt8) :=
  (netIov ready iov).bind fun p => if CheckDone p.1 then some (p.2.map mem) else none

/-- `net_send_all_or_abort(csock, &reply, sizeof(reply))` with error 0. -/
def sendReply (ready : Nat → Nat) (handle : Nat) : Option (List UInt8) :=
  writevAllOrAbort ready [⟨-16, sizeofNbdReply⟩] (replyMemory 0 handle fun _ => 0)

def recvAllOrError (ready : Nat → Nat) (bufflen : Nat) : Int :=
  match netIov ready [⟨0, bufflen⟩] with
  | some p => allOrError bufflen p.1
  | none => -1

/-- What the kernel is ready to move at each call of the transfers of one round:
the payload of a WRITE or the disk read of a READ, the reply, and the data that
copy-on-write mode sends apart from it. -/
structure Calls where
  payload : Nat → Nat
  reply : Nat → Nat
  data : Nat → Nat

/-- An admitted request with its handle. -/
structure Query (disksize : Nat) where
  request : Request disksize
  handle : Nat
  calls : Calls

/-- `target_mode_main_mmap` on an admitted request: the disk and what went out,
unless the worker ends. `errno` is never `EIO`, as the disk does not fail. A
TRIM punches its hole and falls into the default branch. -/
def targetModeMainMmap (pagesize : Nat) (disk : File) (q : Query disksize) :
    Option (File × List UInt8) :=
  match q.request.iotype with
  | .write =>
    match mmapRegionCreate pagesize q.request.iofrom q.request.iolen with
    | some _ =>
      if recvAllOrError q.calls.payload q.request.iolen < 0 then none
      else (sendReply q.calls.reply q.handle).map
        fun out => (store disk q.request.start q.request.data, out)
    | none => none
  | .read =>
    if q.request.iofrom < 0 then none
    else if recvAllOrError q.calls.payload q.request.iolen < 0 then none
    else (writevAllOrAbort q.calls.reply (replyIov 0 q.request.iolen)
      (replyMemory 0 q.handle fun a => disk (q.request.start + a.toNat))).map fun out => (disk, out)
  | .flush => (sendReply q.calls.reply q.handle).map fun out => (disk, out)
  | _ => none

/-- The entries of a gather list; the addresses only tell the chunks apart. -/
def chunkIov : Nat → List Chunk → List Iovec
  | _, [] => []
  | base, c :: rest => ⟨base, c.iolen⟩ :: chunkIov (base + c.iolen) rest

def chunkMemory (iov : List Chunk) : Memory := fun a => (iov.flatMap Chunk.bytes).getD a.toNat 0

/-- What `target_mode_main_cow` sends: the header if the branch of the command
sends one, then the gather list of a READ. -/
def sendCow (pagesize : Nat) (ds : DiskStack disksize) (q : Query disksize) (header : Bool) :
    Option (List UInt8) :=
  if header then
    (sendReply q.calls.reply q.handle).bind fun out =>
      if q.request.iotype = .read then
        (diskStackMmapRead pagesize ds q.request).bind fun iov =>
          (writevAllOrAbort q.calls.data (chunkIov 0 iov) (chunkMemory iov)).map (out ++ ·)
      else some out
  else some []

/-- The disk behind a session. -/
inductive Disk (disksize : Nat) where
  | target (file : File)
  | cow (ds : DiskStack disksize)

def Disk.mode : Disk disksize → Mode
  | .target _ => .target
  | .cow _ => .cow

/-- One admitted request on a writable disk. -/
def round (pagesize : Nat) : Disk disksize → Query disksize → Option (Disk disksize × List UInt8)
  | .target file, q =>
    (targetModeMainMmap pagesize file q).map fun p => (.target p.1, p.2)
  | .cow ds, q =>
    match targetModeMainCow pagesize false ds q.request with
    | .served ds' reply => (sendCow pagesize ds q reply.header).map fun out => (.cow ds', out)
    | .ended _ => none

/-- The worker's loop, with what each round put on the socket; `none` if the
worker ended. -/
def session (pagesize : Nat) :
    Disk disksize → List (Query disksize) → Option (Disk disksize × List (List UInt8))
  | d, [] => some (d, [])
  | d, q :: rest =>
    (round pagesize d q).bind fun p =>
      (session pagesize p.1 rest).map fun t => (t.1, p.2 :: t.2)

/-- One reply with the handle and error 0, and `iolen` bytes behind it exactly
for a READ. -/
def Answers (q : Query disksize) (out : List UInt8) : Prop :=
  ∃ data, out = replyBytes 0 q.handle ++ data ∧
    data.length = if q.request.iotype = .read then q.request.iolen else 0

/-- Every request is answered, in order, and the worker waits for the next one. -/
def Answered (pagesize : Nat) (d : Disk disksize) (qs : List (Query disksize)) : Prop :=
  ∃ d' outs, session pagesize d qs = some (d', outs) ∧ List.Forall₂ Answers qs outs

/-- The requests the session is about. -/
def Asked (r : Request disksize) : Prop := Served r ∨ r.iotype = .flush

/-- Which requests each mode answers. Target mode counts a reply in an `int`;
copy-on-write mode maps whole blocks and sends a READ in one list. -/
def Answerable (mode : Mode) (r : Request disksize) : Prop :=
  match mode, r.iotype with
  | .target, .read => r.iolen + sizeofNbdReply < 2 ^ 31
  | .target, .write => r.iolen < 2 ^ 31
  | .target, .flush => True
  | .cow, .read => r.start + r.iolen + cblocksize ≤ offMax + 1 ∧
      r.blockIndexEnd + 1 - r.blockIndexStart ≤ uioMaxiov
  | .cow, .write => r.start + r.iolen + cblocksize ≤ offMax + 1 ∧ r.iolen < 2 ^ 31
  | _, _ => False

end Rounds

section Sending

variable {disksize : Nat} {ready : Nat → Nat}

theorem recvAllOrError_complete {bufflen : Nat} (h : bufflen < 2 ^ 32) :
    ¬recvAllOrError ready bufflen < 0 ↔ bufflen < 2 ^ 31 := by
  obtain ⟨ret, moved, hret⟩ := netIov_returns ready [⟨0, bufflen⟩]
  constructor
  · intro hok
    by_contra hlarge
    have hnever := (large_never_complete (by omega) h ret).1
    simp only [recvAllOrError, hret] at hok
    exact hok hnever
  · intro hsmall
    have hsize : size [⟨0, bufflen⟩] = bufflen := by simp
    have hwhole := @netIov_whole ready [⟨0, bufflen⟩] (by omega) (by simp [uioMaxiov])
    simp only [recvAllOrError, hwhole, hsize, allOrError_self hsmall]
    omega

/-- A transfer that goes through and is counted right sends the whole list. -/
theorem writevAllOrAbort_whole {iov : List Iovec} {mem : Memory} (hmax : size iov < 2 ^ 31)
    (hlen : iov.length ≤ uioMaxiov) :
    writevAllOrAbort ready iov mem = some ((cells iov).map mem) := by
  have hdone : CheckDone (size iov) := Int.natCast_nonneg _
  simp only [writevAllOrAbort, netIov_whole hmax hlen, Option.bind_some, hdone, if_true]

theorem writevAllOrAbort_count {iov : List Iovec} {mem : Memory} {out : List UInt8}
    (h : writevAllOrAbort ready iov mem = some out) : 0 ≤ toInt32 out.length := by
  simp only [writevAllOrAbort, Option.bind_eq_some_iff] at h
  obtain ⟨⟨ret, moved⟩, hnet, hout⟩ := h
  split at hout
  · rename_i hdone
    simp only [CheckDone] at hdone
    cases hout
    rw [List.length_map]
    cases netIov_ret hnet with
    | inl hneg => omega
    | inr hcount => rwa [← hcount]
  · cases hout

@[simp] theorem sendReply_eq (ready : Nat → Nat) (handle : Nat) :
    sendReply ready handle = some (replyBytes 0 handle) :=
  writevAllOrAbort_whole (by decide) (by decide)

theorem answers_header {q : Query disksize} (h : q.request.iotype ≠ .read) :
    Answers q (replyBytes 0 q.handle) := ⟨[], by simp, by simp [h]⟩

/-- Target mode. -/
theorem targetModeMainMmap_answers_iff (pagesize : Nat) (disk : File) {q : Query disksize}
    (hd : disksize ≤ offMax) (hq : Asked q.request) :
    (∃ disk' out, targetModeMainMmap pagesize disk q = some (disk', out) ∧ Answers q out) ↔
      Answerable .target q.request := by
  have hlen := q.request.admitted.length
  cases hio : q.request.iotype with
  | read =>
    have hserved : Served q.request := by simpa [Asked, hio] using hq
    have hfrom : ¬q.request.iofrom < 0 := by
      have := hserved.2.1
      omega
    have hrecv := @recvAllOrError_complete q.calls.payload _ hlen
    simp only [targetModeMainMmap, Answerable, hio, hfrom, if_false]
    constructor
    · rintro ⟨disk', out, hround, data, hout, hdata⟩
      split at hround
      · cases hround
      · rename_i hok
        have hsmall := hrecv.mp hok
        obtain ⟨out', hsent, hpair⟩ := Option.map_eq_some_iff.mp hround
        cases hpair
        have hcount := writevAllOrAbort_count hsent
        rw [hout, List.length_append, replyBytes_length, hdata, if_pos hio] at hcount
        simp only [sizeofNbdReply, toInt32] at hcount ⊢
        omega
    · intro hsmall
      have hok : ¬recvAllOrError q.calls.payload q.request.iolen < 0 := hrecv.mpr (by omega)
      have hsize : size (replyIov 0 q.request.iolen) = sizeofNbdReply + q.request.iolen := by
        simp [replyIov]
      rw [if_neg hok, writevAllOrAbort_whole (by omega) (by simp [replyIov, uioMaxiov]),
        replyIov_cells fun k _ => rfl]
      exact ⟨disk, _, rfl, _, rfl, by simp [hio]⟩
  | write =>
    have hserved : Served q.request := by simpa [Asked, hio] using hq
    have hrecv := @recvAllOrError_complete q.calls.payload _ hlen
    have hin := start_add_le hd hserved.2.1
    have hfrom := iofrom_eq_start hserved.2.1
    obtain ⟨mr, hmr⟩ := Option.isSome_iff_exists.mp
      (@mmapRegionCreate_isSome pagesize _ _ hserved.2.1
        (show q.request.iofrom + q.request.iolen ≤ offMax by omega))
    simp only [targetModeMainMmap, Answerable, hio, hmr, sendReply_eq, Option.map_some]
    constructor
    · rintro ⟨disk', out, hround, -⟩
      split at hround
      · cases hround
      · rename_i hok
        exact hrecv.mp hok
    · intro hsmall
      rw [if_neg (hrecv.mpr hsmall)]
      exact ⟨_, _, rfl, answers_header (by simp [hio])⟩
  | flush =>
    simp only [targetModeMainMmap, Answerable, hio, sendReply_eq, Option.map_some, iff_true]
    exact ⟨_, _, rfl, answers_header (by simp [hio])⟩
  | _ => simp [targetModeMainMmap, Answerable, hio]

end Sending

section Gathering

theorem chunkIov_length (base : Nat) (iov : List Chunk) : (chunkIov base iov).length = iov.length := by
  induction iov generalizing base with
  | nil => rfl
  | cons c rest ih => simp [chunkIov, ih]

theorem chunkIov_bytes_behind (sent : List UInt8) (iov : List Chunk) :
    (cells (chunkIov sent.length iov)).map
      (fun a => (sent ++ iov.flatMap Chunk.bytes).getD a.toNat 0) = iov.flatMap Chunk.bytes := by
  induction iov generalizing sent with
  | nil => rfl
  | cons c rest ih =>
    have hlen : (sent ++ c.bytes).length = sent.length + c.iolen := by simp [Chunk.bytes]
    have hhead : (entryCells ⟨sent.length, c.iolen⟩).map
        (fun a => (sent ++ (c.bytes ++ rest.flatMap Chunk.bytes)).getD a.toNat 0) = c.bytes := by
      apply List.ext_getElem
      · simp [Chunk.bytes]
      · intro k h₁ h₂
        have hindex : ((sent.length : Int) + (k : Int)).toNat = sent.length + k := by omega
        simp only [entryCells, List.getElem_map, List.getElem_range, hindex]
        rw [List.getD_append_right _ _ _ _ (by omega), Nat.add_sub_cancel_left,
          List.getD_append _ _ _ _ h₂, List.getD_eq_getElem _ _ h₂]
    have htail := ih (sent ++ c.bytes)
    rw [hlen, List.append_assoc] at htail
    simp only [chunkIov, cells_cons, List.map_append, List.flatMap_cons, hhead, htail]

theorem chunkIov_bytes (iov : List Chunk) :
    (cells (chunkIov 0 iov)).map (chunkMemory iov) = iov.flatMap Chunk.bytes := by
  exact chunkIov_bytes_behind [] iov

theorem chunkIov_size (iov : List Chunk) :
    size (chunkIov 0 iov) = (iov.flatMap Chunk.bytes).length := by
  rw [← chunkIov_bytes iov, List.length_map, cells_length]

end Gathering

section Cow

variable {disksize pagesize : Nat} {ds ds' : DiskStack disksize} {q : Query disksize}
  {r : Request disksize}

theorem mapped_iff (pagesize : Nat) (ds : DiskStack disksize) (hr : Served r) :
    (mmapBlockRegionCreate pagesize disksize r.iofrom r.iolen).isSome ↔
      r.start + r.iolen + cblocksize ≤ offMax + 1 := by
  rw [iofrom_eq_start hr.2.1]
  exact mmapBlockRegionCreate_isSome_iff pagesize ds.size_max (start_add_le ds.size_max hr.2.1)

theorem diskStackMmapRead_cases (pagesize : Nat) (ds : DiskStack disksize) (hr : Served r) :
    (r.start + r.iolen + cblocksize ≤ offMax + 1 ∧ ∃ iov,
      diskStackMmapRead pagesize ds r = some iov ∧
        iov.length = r.blockIndexEnd + 1 - r.blockIndexStart) ∨
      (¬r.start + r.iolen + cblocksize ≤ offMax + 1 ∧ diskStackMmapRead pagesize ds r = none) := by
  have hcount := blockCount_lt ds.size_max hr.2.1 hr.2.2
  rw [← mapped_iff pagesize ds hr]
  cases hm : mmapBlockRegionCreate pagesize disksize r.iofrom r.iolen with
  | none => simp [diskStackMmapRead, hm]
  | some mbr =>
    simp only [diskStackMmapRead, hm, hcount, if_true]
    exact .inl ⟨rfl, _, rfl, by simp⟩

theorem round_cow_read (hio : q.request.iotype = .read) :
    round pagesize (.cow ds) q = (diskStackMmapRead pagesize ds q.request).bind fun iov =>
      (writevAllOrAbort q.calls.data (chunkIov 0 iov) (chunkMemory iov)).map
        fun data => (.cow ds, replyBytes 0 q.handle ++ data) := by
  simp only [round, targetModeMainCow, hio, reduceCtorEq, or_self, and_false, if_false, if_true]
  cases hread : diskStackMmapRead pagesize ds q.request with
  | none => rfl
  | some iov =>
    simp only [sendCow, hio, sendReply_eq, hread, Option.bind_some, if_true, Option.map_map]
    rfl

/-- The list of a READ goes out whole if the kernel takes it at all. -/
theorem cow_read_answers_iff (hio : q.request.iotype = .read) (hr : Served q.request) :
    (∃ d out, round pagesize (.cow ds) q = some (d, out) ∧ Answers q out) ↔
      Answerable .cow q.request := by
  rw [round_cow_read hio]
  simp only [Answerable, hio]
  cases diskStackMmapRead_cases pagesize ds hr with
  | inr hno =>
    rw [hno.2]
    constructor
    · rintro ⟨d, out, hround, -⟩
      cases hround
    · intro h
      exact absurd h.1 hno.1
  | inl hyes =>
    obtain ⟨hmapped, iov, hread, hlength⟩ := hyes
    have hbytes := diskStackMmapRead_spec hr.2.1 hr.2.2 hread
    have hsize := chunkIov_size iov
    rw [hbytes, slice_length] at hsize
    rw [hread, Option.bind_some]
    by_cases hcount : q.request.blockIndexEnd + 1 - q.request.blockIndexStart ≤ uioMaxiov
    · have hspan : q.request.iolen ≤ cblocksize * uioMaxiov := by
        have hle := start_add_le ds.size_max hr.2.1
        have hmax := ds.size_max
        have hlen := hr.2.2
        unfold offMax at hmax
        rw [blockIndexEnd_eq ds.size_max hr.2.1, blockIndexStart_eq hr.2.1,
          getBindexEnd_natCast (by omega) (by omega), getBindexSta_natCast (by omega)] at hcount
        unfold cblocksize uioMaxiov at *
        omega
      have hsmall : cblocksize * uioMaxiov < 2 ^ 31 := by decide
      rw [writevAllOrAbort_whole (by omega) (by rw [chunkIov_length]; omega), chunkIov_bytes, hbytes]
      constructor
      · intro _
        exact ⟨hmapped, hcount⟩
      · intro _
        exact ⟨_, _, rfl, _, rfl, by simp [hio]⟩
    · have hrefused := @netIov_refused q.calls.data (chunkIov 0 iov)
        (by rw [chunkIov_length]; omega)
      have hdone : ¬CheckDone (-1) := by decide
      constructor
      · rintro ⟨d, out, hround, -⟩
        simp [writevAllOrAbort, hrefused, hdone] at hround
      · intro h
        exact absurd h.2 hcount

/-- A WRITE that is served had its range mapped and its payload received. -/
theorem targetModeMainCow_write {reply : Reply} (hio : r.iotype = .write)
    (h : targetModeMainCow pagesize false ds r = .served ds' reply) :
    reply.header = true ∧ (mmapBlockRegionCreate pagesize disksize r.iofrom r.iolen).isSome ∧
      r.iolen < 2 ^ 31 := by
  simp only [targetModeMainCow, hio, Bool.false_eq_true, false_and, reduceCtorEq, or_self,
    if_false] at h
  cases hp : diskStackMmapWrite pagesize ds r with
  | none =>
    rw [hp] at h
    cases h
  | some p =>
    rw [hp] at h
    simp only [cowCommand, hio] at h
    split at h
    · split at h
      · rename_i hfin
        cases h
        simp only [diskStackMmapWrite, Option.bind_eq_bind, Option.bind_eq_some_iff] at hp
        obtain ⟨mbr, hmbr, -⟩ := hp
        refine ⟨rfl, by rw [hmbr]; rfl, ?_⟩
        have hlen := r.admitted.length
        by_contra hlarge
        exact (large_never_complete (by omega) hlen _).2 hfin
      · cases h
    · cases h

theorem cow_write_answers_iff (hio : q.request.iotype = .write) (hr : Served q.request) :
    (∃ d out, round pagesize (.cow ds) q = some (d, out) ∧ Answers q out) ↔
      Answerable .cow q.request := by
  simp only [Answerable, hio, round]
  constructor
  · rintro ⟨d, out, hround, -⟩
    split at hround
    · rename_i ds' reply hserved
      obtain ⟨-, hmapped, hsmall⟩ := targetModeMainCow_write hio hserved
      exact ⟨(mapped_iff pagesize ds hr).mp hmapped, hsmall⟩
    · cases hround
  · intro ⟨hmapped, hsmall⟩
    obtain ⟨mbr, hmbr⟩ := Option.isSome_iff_exists.mp ((mapped_iff pagesize ds hr).mpr hmapped)
    obtain ⟨ds', reply, hserved⟩ :=
      targetModeMainCow_serves_mapped ds hr hmbr (fun _ => rfl) fun _ => hsmall
    rw [hserved]
    have hheader := (targetModeMainCow_write hio hserved).1
    simp only [hheader, sendCow, hio, sendReply_eq, reduceCtorEq, if_true, if_false,
      Option.bind_some, Option.map_some]
    exact ⟨_, _, rfl, answers_header (by simp [hio])⟩

/-- The TRIM of copy-on-write mode sends nothing. -/
theorem cow_trim_silent (hio : q.request.iotype = .trim) {d : Disk disksize} {out : List UInt8}
    (h : round pagesize (.cow ds) q = some (d, out)) : out = [] := by
  simp only [round] at h
  split at h
  · rename_i ds' reply hserved
    have hheader : reply.header = false := by
      simp only [targetModeMainCow, hio, Bool.false_eq_true, false_and, reduceCtorEq, or_self,
        if_false] at hserved
      split at hserved
      · rename_i p hp
        simp only [cowCommand, hio] at hserved
        split at hserved
        · cases hserved
          rfl
        · cases hserved
      · cases hserved
    simp only [hheader, sendCow, Bool.false_eq_true, if_false, Option.map_some,
      Option.some.injEq, Prod.mk.injEq] at h
    exact h.2.symm
  · cases h

/-- Copy-on-write mode. -/
theorem cow_answers_iff (pagesize : Nat) (ds : DiskStack disksize) (hq : Asked q.request) :
    (∃ d out, round pagesize (.cow ds) q = some (d, out) ∧ Answers q out) ↔
      Answerable .cow q.request := by
  cases hq with
  | inr hflush =>
    obtain ⟨p, -, hended, -⟩ := flush_effect pagesize false ds hflush
    simp [round, hended, Answerable, hflush]
  | inl hr =>
    obtain hio | hio | hio := hr.1
    · exact cow_read_answers_iff hio hr
    · exact cow_write_answers_iff hio hr
    · simp only [Answerable, hio, iff_false]
      rintro ⟨d, out, hround, data, hout, -⟩
      rw [cow_trim_silent hio hround] at hout
      have := congrArg List.length hout
      simp only [List.length_nil, List.length_append, replyBytes_length, sizeofNbdReply] at this
      omega

end Cow

section Session

variable {disksize pagesize : Nat}

theorem round_mode {d d' : Disk disksize} {q : Query disksize} {out : List UInt8}
    (h : round pagesize d q = some (d', out)) : d'.mode = d.mode := by
  cases d with
  | target file =>
    obtain ⟨p, -, hp⟩ := Option.map_eq_some_iff.mp h
    cases hp
    rfl
  | cow ds =>
    simp only [round] at h
    split at h
    · obtain ⟨o, -, ho⟩ := Option.map_eq_some_iff.mp h
      cases ho
      rfl
    · cases h

theorem round_answers_iff (pagesize : Nat) (hd : disksize ≤ offMax) (d : Disk disksize)
    {q : Query disksize} (hq : Asked q.request) :
    (∃ d' out, round pagesize d q = some (d', out) ∧ Answers q out) ↔
      Answerable d.mode q.request := by
  cases d with
  | cow ds => exact cow_answers_iff pagesize ds hq
  | target file =>
    simp only [Disk.mode]
    rw [← targetModeMainMmap_answers_iff pagesize file hd hq]
    constructor
    · rintro ⟨d', out, hround, hans⟩
      obtain ⟨p, hp, hpair⟩ := Option.map_eq_some_iff.mp hround
      cases hpair
      exact ⟨p.1, p.2, hp, hans⟩
    · rintro ⟨file', out, hround, hans⟩
      exact ⟨.target file', out, by simp [round, hround], hans⟩

/-- The next request is answered and so is the rest of the session. -/
theorem answered_cons (pagesize : Nat) (d : Disk disksize) (q : Query disksize)
    (rest : List (Query disksize)) :
    Answered pagesize d (q :: rest) ↔
      ∃ d' out, round pagesize d q = some (d', out) ∧ Answers q out ∧
        Answered pagesize d' rest := by
  constructor
  · rintro ⟨d'', outs, hsession, hans⟩
    simp only [session, Option.bind_eq_some_iff, Option.map_eq_some_iff] at hsession
    obtain ⟨p, hround, t, hrest, hpair⟩ := hsession
    cases hpair
    cases hans with
    | cons hfirst htail => exact ⟨p.1, p.2, hround, hfirst, t.1, t.2, hrest, htail⟩
  · rintro ⟨d', out, hround, hfirst, d'', outs, hrest, htail⟩
    exact ⟨d'', out :: outs, by simp [session, hround, hrest], .cons hfirst htail⟩

/-- A session is answered exactly if the mode answers each of its requests. -/
theorem session_answered_iff (pagesize : Nat) (hd : disksize ≤ offMax) (d : Disk disksize)
    (qs : List (Query disksize)) (hqs : ∀ q ∈ qs, Asked q.request) :
    Answered pagesize d qs ↔ ∀ q ∈ qs, Answerable d.mode q.request := by
  induction qs generalizing d with
  | nil =>
    have hnil : Answered pagesize d [] := ⟨d, [], rfl, .nil⟩
    simp [hnil]
  | cons q rest ih =>
    simp only [List.mem_cons, forall_eq_or_imp] at hqs ⊢
    rw [answered_cons, ← round_answers_iff pagesize hd d hqs.1]
    constructor
    · rintro ⟨d', out, hround, hans, hrest⟩
      rw [ih d' hqs.2, round_mode hround] at hrest
      exact ⟨⟨d', out, hround, hans⟩, hrest⟩
    · rintro ⟨⟨d', out, hround, hans⟩, hrest⟩
      rw [← round_mode hround, ← ih d' hqs.2] at hrest
      exact ⟨d', out, hround, hans, hrest⟩

/-- The kernel moves one byte at a time. -/
def byteByByte : Calls := ⟨fun _ => 0, fun _ => 0, fun _ => 0⟩

def writeRead : List (Query 4096) := [⟨writeByte, 7, byteByByte⟩, ⟨readBytes, 8, byteByByte⟩]

theorem session_answered_iff_write_read :
    (∀ q ∈ writeRead, Answerable .cow q.request) ∧
      Answered 4096 (.cow oneBlock) writeRead := by
  have hable : ∀ q ∈ writeRead, Answerable .cow q.request := by
    intro q hq
    simp only [writeRead, List.mem_cons, List.not_mem_nil, or_false] at hq
    obtain rfl | rfl := hq
    · exact And.intro (by decide) (by decide)
    · exact And.intro (by decide) (by decide)
  have hasked : ∀ q ∈ writeRead, Asked q.request := by
    intro q hq
    simp only [writeRead, List.mem_cons, List.not_mem_nil, or_false] at hq
    obtain rfl | rfl := hq
    · exact .inl (by decide)
    · exact .inl (by decide)
  exact ⟨hable, (session_answered_iff 4096 (by decide) (.cow oneBlock) writeRead hasked).mpr hable⟩

def trimByte : Request 4096 where
  iotype := .trim
  iofrom := 0
  iolen := 1
  data := []
  admitted := by constructor <;> decide
  payload := by decide

/-- A TRIM of one byte gets no reply in either mode, nor does the FLUSH of
copy-on-write mode. -/
theorem session_unanswered :
    ¬Answered 4096 (.target fun _ => 0) [⟨trimByte, 7, byteByByte⟩] ∧
      ¬Answered 4096 (.cow oneBlock) [⟨trimByte, 7, byteByByte⟩] ∧
      ¬Answered 4096 (.cow oneBlock) [⟨flushRequest, 7, byteByByte⟩] := by
  have hno : ∀ (d : Disk 4096) (q : Query 4096), Asked q.request → ¬Answerable d.mode q.request →
      ¬Answered 4096 d [q] := by
    intro d q hq hnot hans
    rw [answered_cons] at hans
    obtain ⟨d', out, hround, hfirst, -⟩ := hans
    exact hnot ((round_answers_iff 4096 (by decide) d hq).mp ⟨d', out, hround, hfirst⟩)
  exact ⟨hno _ _ (.inl (by decide)) id, hno _ _ (.inl (by decide)) id, hno _ _ (.inr rfl) id⟩

end Session

end Xnbd.Replies
