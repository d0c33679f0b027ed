import Mathlib.Logic.Function.Basic
import Xnbd.NetIov
import Xnbd.Requests
import Xnbd.Run

/-!
# Concurrent READs of target workers (`xnbd_target.c`)

The master opens the disk file once and forks a worker for every client, so
the descriptors of all workers share one file offset. A READ seeks and then
reads until its buffer is full; each system call is one step of the system,
and the calls of different workers interleave freely.
-/
namespace Xnbd.TargetRead

open CInt Block Bytes Nbd Requests NetIov Run

/-- A worker's memory by address: the reply header lies at `[-16, 0)`, the
buffer of a READ at `[0, iolen)`. -/
abbrev Memory := Int → UInt8

/-- `sizeof(struct nbd_reply)`. -/
def sizeofNbdReply : Nat := 16

/-- `EIO`. -/
def eio : Nat := 5

def encodeBE : Nat → Nat → List UInt8
  | 0, _ => []
  | width + 1, n => encodeBE width (n / 256) ++ [UInt8.ofNat (n % 256)]

/-- `struct nbd_reply` in wire order. -/
def replyBytes (error handle : Nat) : List UInt8 :=
  encodeBE 4 nbdReplyMagic ++ encodeBE 4 error ++ encodeBE 8 handle

/-- The iovec entries of a reply: the header, and the buffer when there is data. -/
def replyIov (error iolen : Nat) : List Iovec :=
  if error = 0 then [⟨-16, sizeofNbdReply⟩, ⟨0, iolen⟩] else [⟨-16, sizeofNbdReply⟩]

/-- The memory of a worker that is about to reply. -/
def replyMemory (error handle : Nat) (buf : Memory) : Memory := fun a =>
  if a < 0 then (replyBytes error handle).getD (a + 16).toNat 0 else buf a

/-- Where a worker stands in the READ branch of `target_mode_main_mmap`. -/
inductive Worker (disksize : Nat) where
  | idle
  | seek (r : Request disksize) (handle : Nat)
  | reading (r : Request disksize) (handle : Nat) (iov : List Iovec) (total : Int) (buf : Memory)
  | writing (r : Request disksize) (handle error : Nat) (iov : List Iovec) (total : Int)
      (mem : Memory) (out : List UInt8)
  | gone

/-- What went out on a worker's socket for one READ; `complete` if the worker
went on to its next request. -/
structure Reply (disksize : Nat) where
  request : Request disksize
  handle : Nat
  error : Nat
  out : List UInt8
  complete : Bool

structure State (disksize : Nat) where
  offset : Nat
  workers : Nat → Worker disksize
  replies : List (Reply disksize)

inductive Action (disksize : Nat) where
  | recv (w : Nat) (r : Request disksize) (handle : Nat)
  | lseek (w : Nat) (junk : Memory)
  | readv (w : Nat) (sent : Int) (errnoIsEio : Bool)
  | writev (w : Nat) (sent : Int)

variable {disksize : Nat}

/-- The results `readv` may give on the disk file: an error, or a count that
stays within the list and the file and is 0 only for want of either. -/
def ReadvMay (disksize offset : Nat) (iov : List Iovec) (sent : Int) : Prop :=
  sent = -1 ∨ (0 ≤ sent ∧ sent ≤ size iov ∧ sent ≤ ((disksize - offset : Nat) : Int) ∧
    (sent = 0 → size iov = 0 ∨ disksize ≤ offset))

/-- The results `writev` may give on a socket. -/
def WritevMay (iov : List Iovec) (sent : Int) : Prop :=
  sent = -1 ∨ (0 < sent ∧ sent ≤ size iov)

instance (disksize offset : Nat) (iov : List Iovec) (sent : Int) :
    Decidable (ReadvMay disksize offset iov sent) := inferInstanceAs (Decidable (_ ∨ _))
instance (iov : List Iovec) (sent : Int) : Decidable (WritevMay iov sent) :=
  inferInstanceAs (Decidable (_ ∨ _))

/-- The bytes a call delivers, put into the buffers of the list in order. -/
def fill (buf : Memory) : List Iovec → List UInt8 → Memory
  | [], _ => buf
  | v :: rest, bytes =>
    fill (fun a =>
      if v.base ≤ a ∧ a < v.base + (min v.len bytes.length : Nat) then
        bytes.getD (a - v.base).toNat 0
      else buf a) rest (bytes.drop v.len)

def State.setWorker (s : State disksize) (w : Nat) (p : Worker disksize) : State disksize :=
  { s with workers := Function.update s.workers w p }

/-- After `net_recv_all_or_error`: the reply carries the buffer, an error code,
or the worker gives up. -/
def afterRead (r : Request disksize) (handle : Nat) (ret : Int) (errnoIsEio : Bool)
    (buf : Memory) : Worker disksize :=
  if 0 ≤ allOrError r.iolen ret then
    .writing r handle 0 (replyIov 0 r.iolen) 0 (replyMemory 0 handle buf) []
  else if errnoIsEio then
    .writing r handle eio (replyIov eio r.iolen) 0 (replyMemory eio handle buf) []
  else .gone

def readvStep (disk : File) (s : State disksize) (w : Nat) (sent : Int) (errnoIsEio : Bool) :
    Option (State disksize) :=
  match s.workers w with
  | .reading r handle iov total buf =>
    if ReadvMay disksize s.offset iov sent then
      let buf' := fill buf iov (slice disk s.offset sent.toNat)
      let s' := { s with offset := s.offset + sent.toNat }
      match netIovStep iov total sent with
      | .next rest total' => some (s'.setWorker w (.reading r handle rest total' buf'))
      | .done ret => some (s'.setWorker w (afterRead r handle ret errnoIsEio buf'))
    else none
  | _ => none

def writevStep (s : State disksize) (w : Nat) (sent : Int) : Option (State disksize) :=
  match s.workers w with
  | .writing r handle error iov total mem out =>
    if WritevMay iov sent then
      let out' := out ++ ((cells iov).take sent.toNat).map mem
      match netIovStep iov total sent with
      | .next rest total' => some (s.setWorker w (.writing r handle error rest total' mem out'))
      | .done ret =>
        let reply := ⟨r, handle, error, out', decide (CheckDone ret)⟩
        let s' := { s with replies := s.replies ++ [reply] }
        some (s'.setWorker w (if CheckDone ret then .idle else .gone))
    else none
  | _ => none

/-- One system call of one worker. No WRITE is in progress: the disk is fixed. -/
def step (disk : File) (s : State disksize) : Action disksize → Option (State disksize)
  | .recv w r handle =>
    match s.workers w with
    | .idle => if r.iotype = .read then some (s.setWorker w (.seek r handle)) else none
    | _ => none
  | .lseek w junk =>
    match s.workers w with
    | .seek r handle =>
      if r.iofrom < 0 then some (s.setWorker w .gone)
      else some ({ s with offset := r.start }.setWorker w
        (.reading r handle [⟨0, r.iolen⟩] 0 junk))
    | _ => none
  | .readv w sent errnoIsEio => readvStep disk s w sent errnoIsEio
  | .writev w sent => writevStep s w sent

/-- All workers wait for a request. -/
def initial (offset : Nat) : State disksize := ⟨offset, fun _ => .idle, []⟩

/-- A reply without error is the header followed by the requested bytes; one
that was cut short by a broken connection is a prefix of it. -/
structure Reply.Correct (disk : File) (reply : Reply disksize) : Prop where
  sent : reply.error = 0 → reply.out <+: replyBytes 0 reply.handle ++
    slice disk reply.request.start reply.request.iolen
  whole : reply.error = 0 → reply.complete = true → reply.out =
    replyBytes 0 reply.handle ++ slice disk reply.request.start reply.request.iolen

section Layout

@[simp] theorem encodeBE_length (width n : Nat) : (encodeBE width n).length = width := by
  induction width generalizing n with
  | zero => rfl
  | succ width ih => simp [encodeBE, ih]

@[simp] theorem replyBytes_length (error handle : Nat) :
    (replyBytes error handle).length = sizeofNbdReply := by
  simp [replyBytes, sizeofNbdReply]

/-- The gather list of a reply with data is the header and then the buffer. -/
theorem replyIov_cells {buf : Memory} {disk : File} {start iolen handle : Nat}
    (h : ∀ k : Nat, k < iolen → buf k = disk (start + k)) :
    (cells (replyIov 0 iolen)).map (replyMemory 0 handle buf) =
      replyBytes 0 handle ++ slice disk start iolen := by
  have hhead : (entryCells ⟨-16, sizeofNbdReply⟩).map (replyMemory 0 handle buf) =
      replyBytes 0 handle := rfl
  simp only [replyIov, if_true, cells_cons, cells_nil, List.append_nil, List.map_append, hhead]
  congr 1
  simp only [entryCells, List.map_map, slice]
  apply List.map_congr_left
  intro k hk
  have hpos : ¬((k : Int) < 0) := by omega
  simp only [Function.comp_apply, replyMemory, Int.zero_add, if_neg hpos]
  exact h k (List.mem_range.mp hk)

/-- Filling the only entry of a list touches the delivered addresses alone. -/
theorem fill_single (buf : Memory) (disk : File) {n len offset count : Nat} (hc : count ≤ len)
    (k : Nat) :
    fill buf [⟨n, len⟩] (slice disk offset count) k =
      if n ≤ k ∧ k < n + count then disk (offset + (k - n)) else buf k := by
  have hmin : min len count = count := by omega
  simp only [fill, slice_length, hmin]
  by_cases h : n ≤ k ∧ k < n + count
  · have h' : (n : Int) ≤ (k : Int) ∧ (k : Int) < (n : Int) + (count : Int) := by omega
    have hidx : ((k : Int) - (n : Int)).toNat = k - n := by omega
    rw [if_pos h', if_pos h, hidx, List.getD_eq_getElem?_getD,
      slice_getElem? disk offset count (k - n) (by omega), Option.getD_some]
  · have h' : ¬((n : Int) ≤ (k : Int) ∧ (k : Int) < (n : Int) + (count : Int)) := by omega
    rw [if_neg h', if_neg h]

end Layout

section Exclusive

/-- A length whose reply fits in the `int` that counts it, or one that is too
large to be read at all. -/
def Sized (r : Request disksize) : Prop :=
  r.iolen + sizeofNbdReply < 2 ^ 31 ∨ 2 ^ 31 ≤ r.iolen

instance (r : Request disksize) : Decidable (Sized r) := inferInstanceAs (Decidable (_ ∨ _))

/-- Between its `lseek` and its last `readv`. -/
def Worker.Reading : Worker disksize → Prop
  | .reading .. => True
  | _ => False

/-- No worker seeks while another one is reading, and lengths are sized. -/
def Exclusive (s : State disksize) : Action disksize → Prop
  | .recv _ r _ => Sized r
  | .lseek w _ => ∀ w', w' ≠ w → ¬(s.workers w').Reading
  | _ => True

/-- What a worker's place says about the shared offset and its buffer. -/
def WorkerOk (disk : File) (offset : Nat) : Worker disksize → Prop
  | .seek r _ => Sized r
  | .reading r _ iov total buf => Sized r ∧ 0 ≤ r.iofrom ∧ (r.iolen < 2 ^ 31 →
      ∃ n : Nat, n ≤ r.iolen ∧ total = n ∧ iov = [⟨n, r.iolen - n⟩] ∧ offset = r.start + n ∧
        ∀ k : Nat, k < n → buf k = disk (r.start + k))
  | .writing r handle error iov total mem out => error = 0 → 0 ≤ total ∧
      total + size iov < 2 ^ 31 ∧
      out ++ (cells iov).map mem = replyBytes 0 handle ++ slice disk r.start r.iolen
  | _ => True

theorem workerOk_of_not_reading {disk : File} {p : Worker disksize} {m n : Nat}
    (hp : ¬p.Reading) (h : WorkerOk disk m p) : WorkerOk disk n p := by
  cases p with
  | reading => exact absurd trivial hp
  | _ => exact h

structure Inv (disk : File) (s : State disksize) : Prop where
  workers : ∀ w, WorkerOk disk s.offset (s.workers w)
  single : ∀ w w', (s.workers w).Reading → (s.workers w').Reading → w = w'
  replies : ∀ reply ∈ s.replies, reply.Correct disk

/-- A step of one worker keeps the invariant if that worker's new place is in
order and no one else depended on the offset it moved. -/
theorem Inv.setWorker {disk : File} {s : State disksize} {w offset : Nat} {p : Worker disksize}
    {replies : List (Reply disksize)} (hs : Inv disk s) (hp : WorkerOk disk offset p)
    (hoff : offset = s.offset ∨ ∀ w', w' ≠ w → ¬(s.workers w').Reading)
    (hread : p.Reading → ∀ w', w' ≠ w → ¬(s.workers w').Reading)
    (hr : ∀ reply ∈ replies, reply.Correct disk) :
    Inv disk (State.setWorker ⟨offset, s.workers, replies⟩ w p) where
  workers w' := by
    by_cases hw : w' = w
    · subst w'
      simpa [State.setWorker] using hp
    · have hold := hs.workers w'
      simp only [State.setWorker, Function.update_of_ne hw]
      rcases hoff with rfl | hno
      · exact hold
      · exact workerOk_of_not_reading (hno w' hw) hold
  single a b ha hb := by
    simp only [State.setWorker] at ha hb
    by_cases haw : a = w
    · by_cases hbw : b = w
      · rw [haw, hbw]
      · rw [haw, Function.update_self] at ha
        rw [Function.update_of_ne hbw] at hb
        exact absurd hb (hread ha b hbw)
    · rw [Function.update_of_ne haw] at ha
      by_cases hbw : b = w
      · rw [hbw, Function.update_self] at hb
        exact absurd ha (hread hb a haw)
      · rw [Function.update_of_ne hbw] at hb
        exact hs.single a b ha hb
  replies := hr

variable {disk : File} {s t : State disksize} {w : Nat} {sent : Int} {errnoIsEio : Bool}

/-- A worker whose buffer is filled from its own offset replies with the disk's
bytes; one that was cut short replies an error or is gone. -/
theorem afterRead_ok {r : Request disksize} {handle n : Nat} {ret : Int} {buf : Memory}
    {offset : Nat} (hsized : Sized r) (hret : r.iolen < 2 ^ 31 → ret = -1 ∨ ret = n)
    (hbuf : r.iolen < 2 ^ 31 → ∀ k : Nat, k < n → buf k = disk (r.start + k)) :
    WorkerOk disk offset (afterRead r handle ret errnoIsEio buf) := by
  unfold afterRead
  split
  · rename_i hok
    have hl := r.admitted.length
    have hsmall : r.iolen < 2 ^ 31 := by
      by_contra hge
      have := (large_never_complete (by omega) hl ret).1
      omega
    have hfull : ret = r.iolen := by
      have hint : toInt32 r.iolen = r.iolen := toInt32_of_range (by omega) (by omega)
      unfold allOrError at hok
      rw [hint] at hok
      split at hok <;> omega
    have hn : n = r.iolen := by
      rcases hret hsmall with h | h <;> omega
    intro _
    refine ⟨le_refl 0, ?_, ?_⟩
    · unfold Sized at hsized
      simp only [replyIov, if_true, size_cons, size_nil]
      unfold sizeofNbdReply at *
      omega
    · rw [List.nil_append]
      exact replyIov_cells fun k hk => hbuf hsmall k (by omega)
  · split
    · intro h
      exact absurd h (by decide)
    · trivial

theorem afterRead_not_reading (r : Request disksize) (handle : Nat) (ret : Int) (buf : Memory) :
    ¬(afterRead r handle ret errnoIsEio buf).Reading := by
  unfold afterRead
  split
  · exact id
  · split <;> exact id

/-- What one `readv` of an undisturbed worker leaves: the delivered bytes are
those of the disk behind the ones it has, and a return reports their count. -/
theorem readv_progress {iolen n start offset : Nat} {buf : Memory} (hn : n ≤ iolen)
    (hsmall : iolen < 2 ^ 31) (hoff : offset = start + n)
    (hbuf : ∀ k : Nat, k < n → buf k = disk (start + k))
    (hmay : ReadvMay disksize offset [⟨n, iolen - n⟩] sent) :
    (∀ k : Nat, k < n + sent.toNat →
        fill buf [⟨n, iolen - n⟩] (slice disk offset sent.toNat) k = disk (start + k)) ∧
      (netIovStep [⟨n, iolen - n⟩] n sent = .done (-1) ∨
        netIovStep [⟨n, iolen - n⟩] n sent = .done ((n + sent.toNat : Nat) : Int) ∨
        n + sent.toNat ≤ iolen ∧ netIovStep [⟨n, iolen - n⟩] n sent =
          .next [⟨((n + sent.toNat : Nat) : Int), iolen - (n + sent.toNat)⟩]
            ((n + sent.toNat : Nat) : Int)) := by
  have hcount : sent.toNat ≤ iolen - n := by
    rcases hmay with rfl | ⟨-, hle, -⟩
    · simp
    · simp only [size_cons, size_nil] at hle
      omega
  constructor
  · intro k hk
    rw [fill_single buf disk hcount]
    split
    · congr 1
      omega
    · exact hbuf k (by omega)
  · rcases hmay with rfl | ⟨h0, hle, -, -⟩
    · exact .inl (by simp [netIovStep])
    · simp only [size_cons, size_nil] at hle
      rcases Int.lt_or_eq_of_le h0 with hpos | rfl
      · have hsum : (n : Int) + sent = ((n + sent.toNat : Nat) : Int) := by omega
        have hint : toInt32 ((n + sent.toNat : Nat) : Int) = ((n + sent.toNat : Nat) : Int) :=
          toInt32_of_range (by omega) (by omega)
        have hsub : iolen - n - sent.toNat = iolen - (n + sent.toNat) := by omega
        rw [netIovStep_single (by omega) hpos, hsum, hint, hsub]
        split
        · exact .inr (.inr ⟨by omega, rfl⟩)
        · exact .inr (.inl rfl)
      · right; left
        have hint : toInt32 (n : Int) = n := toInt32_of_range (by omega) (by omega)
        simp [netIovStep, hint]

theorem readvStep_inv (hs : Inv disk s) (h : readvStep disk s w sent errnoIsEio = some t) :
    Inv disk t := by
  unfold readvStep at h
  split at h
  · rename_i r handle iov total buf hw
    have hok := hs.workers w
    rw [hw] at hok
    obtain ⟨hsized, hfrom, hplace⟩ := hok
    have hothers : ∀ w', w' ≠ w → ¬(s.workers w').Reading := fun w' hne hr =>
      hne (hs.single w' w hr (by rw [hw]; trivial))
    split at h
    · rename_i hmay
      dsimp only at h
      split at h
      · rename_i rest total' hnext
        cases h
        apply hs.setWorker _ (.inr hothers) (fun _ => hothers) hs.replies
        refine ⟨hsized, hfrom, fun hsmall => ?_⟩
        obtain ⟨n, hn, rfl, rfl, hoff, hbuf⟩ := hplace hsmall
        obtain ⟨hfill, hcase⟩ := readv_progress hn hsmall hoff hbuf hmay
        rw [hnext] at hcase
        rcases hcase with hcase | hcase | ⟨hle, hcase⟩
        · cases hcase
        · cases hcase
        · cases hcase
          exact ⟨_, hle, rfl, rfl, by omega, hfill⟩
      · rename_i ret hdone
        cases h
        apply hs.setWorker _ (.inr hothers)
          (fun hr => absurd hr (afterRead_not_reading r handle ret _)) hs.replies
        by_cases hsmall : r.iolen < 2 ^ 31
        · obtain ⟨n, hn, rfl, rfl, hoff, hbuf⟩ := hplace hsmall
          obtain ⟨hfill, hcase⟩ := readv_progress hn hsmall hoff hbuf hmay
          rw [hdone] at hcase
          apply afterRead_ok (n := n + sent.toNat) hsized _ fun _ => hfill
          intro _
          rcases hcase with hcase | hcase | ⟨-, hcase⟩
          · cases hcase
            exact .inl rfl
          · cases hcase
            exact .inr rfl
          · cases hcase
        · exact afterRead_ok (n := 0) hsized (fun h => absurd h hsmall) (fun h => absurd h hsmall)
    · cases h
  · cases h

/-- A transfer returns only when a call failed or nothing is left over. -/
theorem writev_done {iov : List Iovec} {total ret : Int} (h0 : 0 ≤ total)
    (hmax : total + size iov < 2 ^ 31) (hmay : WritevMay iov sent)
    (h : netIovStep iov total sent = .done ret) :
    ret = -1 ∨ (cells iov).take sent.toNat = cells iov := by
  rcases hmay with rfl | ⟨hpos, hle⟩
  · left
    simpa [netIovStep] using h.symm
  · right
    have hne0 : sent ≠ 0 := by omega
    have hne1 : sent ≠ -1 := by omega
    simp only [netIovStep, hne0, hne1, if_false] at h
    split at h
    · cases h
    · rename_i hadv
      have hall := advance_none (le_refl 0) (by omega) hadv (by omega)
      exact List.take_of_length_le (by rw [cells_length]; omega)

/-- What was sent and what the cut list names are still the reply. -/
theorem writev_next {iov rest : List Iovec} {total total' : Int} (h0 : 0 ≤ total)
    (hmax : total + size iov < 2 ^ 31) (hpos : 0 < sent)
    (h : netIovStep iov total sent = .next rest total') (mem : Memory) (out : List UInt8) :
    0 ≤ total' ∧ total' + size rest = total + size iov ∧
      out ++ ((cells iov).take sent.toNat).map mem ++ (cells rest).map mem =
        out ++ (cells iov).map mem := by
  obtain ⟨-, -, hadvance, rfl⟩ := netIovStep_next h
  obtain ⟨hcells, hsize⟩ := advance_cells (le_refl 0) (by omega) hadvance (Int.le_of_lt hpos)
  refine ⟨by omega, by omega, ?_⟩
  rw [hcells, Int.sub_zero, List.append_assoc, ← List.map_append, List.take_append_drop]

/-- A writing worker has sent the part of its reply that the list no longer
names. -/
theorem writevStep_inv (hs : Inv disk s) (h : writevStep s w sent = some t) : Inv disk t := by
  unfold writevStep at h
  split at h
  · rename_i r handle error iov total mem out hw
    have hok := hs.workers w
    rw [hw] at hok
    split at h
    · rename_i hmay
      dsimp only at h
      split at h
      · rename_i rest total' hnext
        cases h
        apply hs.setWorker _ (.inl rfl) (fun hr => absurd hr id) hs.replies
        intro herr
        obtain ⟨h0, hmax, hout⟩ := hok herr
        rcases hmay with rfl | ⟨hpos, hle⟩
        · simp [netIovStep] at hnext
        · obtain ⟨hnonneg, hsum, hsame⟩ := writev_next h0 hmax hpos hnext mem out
          exact ⟨hnonneg, by omega, hsame.trans hout⟩
      · rename_i ret hdone
        cases h
        have hplace : WorkerOk disk s.offset
            (if CheckDone ret then (.idle : Worker disksize) else .gone) := by
          split <;> trivial
        have hnot : ¬(if CheckDone ret then (.idle : Worker disksize) else .gone).Reading := by
          split <;> exact id
        apply hs.setWorker hplace (.inl rfl) (fun hr => absurd hr hnot)
        intro reply hmem
        rcases List.mem_append.mp hmem with hold | hnew
        · exact hs.replies reply hold
        · rw [List.mem_singleton] at hnew
          subst hnew
          constructor
          · intro herr
            obtain ⟨-, -, hout⟩ := hok herr
            simp only [← hout]
            rw [List.prefix_append_right_inj]
            exact (List.take_prefix _ _).map mem
          · intro herr hcomplete
            obtain ⟨h0, hmax, hout⟩ := hok herr
            rcases writev_done h0 hmax hmay hdone with hret | hall
            · simp [hret, CheckDone] at hcomplete
            · simp only [hall, hout]
    · cases h
  · cases h

/-- One system call keeps the invariant when it meets the condition. -/
theorem step_inv (a : Action disksize) (hs : Inv disk s) (hp : Exclusive s a)
    (h : step disk s a = some t) : Inv disk t := by
  cases a with
  | recv w r handle =>
    simp only [step] at h
    split at h
    · split at h
      · cases h
        exact hs.setWorker hp (.inl rfl) (fun hr => absurd hr id) hs.replies
      · cases h
    · cases h
  | lseek w junk =>
    simp only [step] at h
    split at h
    · rename_i r handle hw
      have hok := hs.workers w
      rw [hw] at hok
      split at h
      · cases h
        exact hs.setWorker trivial (.inl rfl) (fun hr => absurd hr id) hs.replies
      · rename_i hfrom
        cases h
        refine hs.setWorker ⟨hok, by omega, fun _ => ?_⟩ (.inr hp) (fun _ => hp) hs.replies
        exact ⟨0, by omega, rfl, rfl, rfl, fun k hk => absurd hk (by omega)⟩
    · cases h
  | readv w sent errnoIsEio => exact readvStep_inv hs h
  | writev w sent => exact writevStep_inv hs h

theorem initial_inv (disk : File) (offset : Nat) :
    Inv disk (initial offset : State disksize) where
  workers _ := trivial
  single _ _ h := absurd h id
  replies _ h := by cases h

/-- In every run in which no worker seeks while another one is between its seek
and its last read, every READ is answered with the bytes of the disk file. -/
theorem target_reads_correct (disk : File) (offset : Nat) (acts : List (Action disksize))
    (t : State disksize) (hp : Along (step disk) Exclusive (initial offset) acts)
    (h : run (step disk) (initial offset) acts = some t) :
    ∀ reply ∈ t.replies, reply.Correct disk :=
  (run_invariant (fun _ a _ hs hp h => step_inv a hs hp h) (initial_inv disk offset) hp h).replies

end Exclusive

section Turns

def Action.worker : Action disksize → Nat
  | .recv w _ _ => w
  | .lseek w _ => w
  | .readv w _ _ => w
  | .writev w _ => w

theorem step_other {disk : File} {s t : State disksize} {a : Action disksize} {w : Nat}
    (h : step disk s a = some t) (hw : w ≠ a.worker) : t.workers w = s.workers w := by
  have hset : ∀ (s' : State disksize) (p : Worker disksize), s'.workers = s.workers →
      (s'.setWorker a.worker p).workers w = s.workers w := by
    intro s' p hs
    simp [State.setWorker, hs, Function.update_of_ne hw]
  cases a with
  | recv v r handle =>
    simp only [step] at h
    split at h
    · split at h
      · cases h
        exact hset s _ rfl
      · cases h
    · cases h
  | lseek v junk =>
    simp only [step] at h
    split at h
    · split at h
      · cases h
        exact hset s _ rfl
      · cases h
        exact hset _ _ rfl
    · cases h
  | readv v sent errnoIsEio =>
    simp only [step, readvStep] at h
    split at h
    · split at h
      · split at h
        · cases h
          exact hset _ _ rfl
        · cases h
          exact hset _ _ rfl
      · cases h
    · cases h
  | writev v sent =>
    simp only [step, writevStep] at h
    split at h
    · split at h
      · split at h
        · cases h
          exact hset s _ rfl
        · cases h
          exact hset _ _ rfl
      · cases h
    · cases h

/-- `Exclusive` looked at the workers below `n` only. -/
def ExclusiveBelow (n : Nat) (s : State disksize) : Action disksize → Prop
  | .recv _ r _ => Sized r
  | .lseek w _ => ∀ w' < n, w' ≠ w → ¬(s.workers w').Reading
  | _ => True

instance (p : Worker disksize) : Decidable p.Reading := by
  cases p <;> unfold Worker.Reading <;> infer_instance

instance (n : Nat) (s : State disksize) (a : Action disksize) : Decidable (ExclusiveBelow n s a) := by
  cases a <;> unfold ExclusiveBelow <;> infer_instance

/-- Where only the workers below `n` act, the others are never reading. -/
theorem along_below {disk : File} {n : Nat} {acts : List (Action disksize)} {s : State disksize}
    (hidle : ∀ w, n ≤ w → ¬(s.workers w).Reading) (hw : ∀ a ∈ acts, a.worker < n)
    (h : Along (step disk) (ExclusiveBelow n) s acts) : Along (step disk) Exclusive s acts := by
  induction acts generalizing s with
  | nil => trivial
  | cons a rest ih =>
    have haw := hw a List.mem_cons_self
    refine ⟨?_, fun t ht => ih (fun w hle => ?_) (fun b hb => hw b (List.mem_cons_of_mem _ hb))
      (h.2 t ht)⟩
    · cases a with
      | recv => exact h.1
      | lseek v junk =>
        intro w hne
        rcases Nat.lt_or_ge w n with hlt | hge
        · exact h.1 w hlt hne
        · exact hidle w hge
      | readv => trivial
      | writev => trivial
    · rw [step_other ht (by omega)]
      exact hidle w hle

end Turns

section Example

/-- The disk whose byte at `x` is `x`. -/
def counting : File := fun x => UInt8.ofNat x

def readOne (x : Nat) (h : x < 2) : Request 2 where
  iotype := .read
  iofrom := x
  iolen := 1
  data := []
  admitted := by
    constructor
    · omega
    · omega
    · decide
    · omega
    · intro h
      cases h
    · decide
  payload := by
    intro h
    cases h

/-- Both workers are between `lseek` and reply at one time, and each has read before the
other one seeks. -/
def turnActs : List (Action 2) :=
  [.recv 0 (readOne 0 (by decide)) 7, .recv 1 (readOne 1 (by decide)) 8, .lseek 0 fun _ => 0,
    .readv 0 1 false, .lseek 1 fun _ => 0, .writev 0 17, .readv 1 1 false, .writev 1 17]

theorem target_reads_correct_turns :
    Along (step counting) Exclusive (initial 0) turnActs ∧
      ∃ t, run (step counting) (initial 0) turnActs = some t ∧
        t.replies.map Reply.out = [replyBytes 0 7 ++ [0], replyBytes 0 8 ++ [1]] ∧
        ∀ reply ∈ t.replies, reply.Correct counting := by
  have halong : Along (step counting) Exclusive (initial 0) turnActs :=
    along_below (n := 2) (fun _ _ => id) (by decide) (by decide +kernel)
  have hrun : (run (step counting) (initial 0) turnActs).map (fun t => t.replies.map Reply.out) =
      some [replyBytes 0 7 ++ [0], replyBytes 0 8 ++ [1]] := by decide
  obtain ⟨t, ht, hout⟩ := Option.map_eq_some_iff.mp hrun
  exact ⟨halong, t, ht, hout, target_reads_correct counting 0 turnActs t halong ht⟩

/-- Both workers seek before the first one reads, so the first worker answers
the READ of byte 0 with byte 1. -/
def mixedActs : List (Action 2) :=
  [.recv 0 (readOne 0 (by decide)) 7, .recv 1 (readOne 1 (by decide)) 8, .lseek 0 fun _ => 0,
    .lseek 1 fun _ => 0, .readv 0 1 false, .writev 0 17]

theorem target_reads_mixed :
    ¬∀ (acts : List (Action 2)) (t : State 2), run (step counting) (initial 0) acts = some t →
      ∀ reply ∈ t.replies, reply.Correct counting := by
  intro hall
  have hrun : (run (step counting) (initial 0) mixedActs).map (fun t => t.replies.any
      fun r => decide (r.error = 0) && r.complete && decide (r.out ≠ replyBytes 0 r.handle ++
        slice counting r.request.start r.request.iolen)) = some true := by decide
  obtain ⟨t, ht, hany⟩ := Option.map_eq_some_iff.mp hrun
  obtain ⟨reply, hmem, hbad⟩ := List.any_eq_true.mp hany
  simp only [Bool.and_eq_true, decide_eq_true_eq] at hbad
  exact hbad.2 ((hall mixedActs t ht reply hmem).whole hbad.1.1 hbad.1.2)

end Example

end Xnbd.TargetRead
