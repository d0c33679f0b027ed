import Xnbd.TargetRead

/-!
# How much of a READ reply is sent (`target_mode_main_mmap`)

One worker serves one READ that lies within the disk. No call fails: every `readv`
and `writev` moves some of the bytes it is asked for. `net_iov_all` adds up lengths
in an `int`, and `net_writev_all_or_abort` looks at the sign of the sum only, so
near 2^31 the worker may go on although part of the reply was never sent.
-/
namespace Xnbd.ReplyLength

open CInt Block Bytes Nbd Requests NetIov TargetRead Run

variable {disksize : Nat}

/-- A call of the worker that moves some bytes. As no call fails, `errno` is what an
earlier request left there. -/
def Moves (errnoIsEio : Bool) : Action disksize → Prop
  | .recv .. => False
  | .lseek w _ => w = 0
  | .readv w sent errno => w = 0 ∧ 0 < sent ∧ errno = errnoIsEio
  | .writev w sent => w = 0 ∧ 0 < sent

/-- The reply without error, with the whole range behind the header. -/
def wholeReply (disk : File) (r : Request disksize) (handle : Nat) : Reply disksize :=
  ⟨r, handle, 0, replyBytes 0 handle ++ slice disk r.start r.iolen, true⟩

theorem wholeReply_length (disk : File) (r : Request disksize) (handle : Nat) :
    (wholeReply disk r handle).out.length = 16 + r.iolen := by
  rw [wholeReply, List.length_append, replyBytes_length, slice_length, sizeofNbdReply]

/-- Serving the READ comes to an end, and then the worker is gone or has sent the
whole reply. -/
def Completes (disk : File) (r : Request disksize) (handle : Nat) (errnoIsEio : Bool) : Prop :=
  ∀ offset acts t, (∀ a ∈ acts, Moves errnoIsEio a) →
    run (step disk) (initial offset) (.recv 0 r handle :: acts) = some t →
    acts.length ≤ 2 * r.iolen + 17 ∧
      ((∃ a, Moves errnoIsEio a ∧ (step disk t a).isSome) ∨ t.workers 0 = .gone ∨
        t.workers 0 = .idle ∧ t.replies = [wholeReply disk r handle])

/-- The `int` holds the length of the reply; or it does not even hold that of the
range, and the READ is not answered with an error either. -/
def Counted (r : Request disksize) (errnoIsEio : Bool) : Prop :=
  sizeofNbdReply + r.iolen < 2 ^ 31 ∨ (2 ^ 31 ≤ r.iolen ∧ errnoIsEio = false)

instance (r : Request disksize) (errnoIsEio : Bool) : Decidable (Counted r errnoIsEio) :=
  inferInstanceAs (Decidable (_ ∨ _))

/-- The calls a worker may still make. -/
def left : Worker disksize → Nat
  | .seek r _ => 2 * r.iolen + 17
  | .reading r _ iov _ _ => size iov + (r.iolen + 16)
  | .writing _ _ _ iov _ _ _ => size iov
  | _ => 0

section Reading

variable {iolen : Nat} {sent : Int}

/-- A `readv` that moves some bytes: more are to come, or the loop is left, with a full
buffer unless the length is negative as an `int`. -/
theorem readv_moves {n : Nat} (hn : n < iolen) (hpos : 0 < sent)
    (hlen : iolen < 2 ^ 32) (hfirst : 0 < n → iolen < 2 ^ 31)
    (hle : sent ≤ size [⟨n, iolen - n⟩]) :
    (iolen < 2 ^ 31 ∧ n + sent.toNat < iolen ∧ netIovStep [⟨n, iolen - n⟩] n sent =
        .next [⟨((n + sent.toNat : Nat) : Int), iolen - (n + sent.toNat)⟩]
          ((n + sent.toNat : Nat) : Int)) ∨
      ∃ ret, netIovStep [⟨n, iolen - n⟩] n sent = .done ret ∧
        (iolen < 2 ^ 31 → n + sent.toNat = iolen ∧ ret = iolen) := by
  simp only [size_cons, size_nil] at hle
  have hne0 : sent ≠ 0 := by omega
  have hne1 : sent ≠ -1 := by omega
  unfold netIovStep
  rw [if_neg hne0, if_neg hne1, advance_buffer (by omega) hpos]
  by_cases hmore : iolen - n < 2 ^ 31 ∧ sent < (iolen - n : Nat)
  · left
    have hsum : (n : Int) + sent = ((n + sent.toNat : Nat) : Int) := by omega
    have hrest : iolen - n - sent.toNat = iolen - (n + sent.toNat) := by omega
    rw [if_pos hmore, hsum, hrest]
    exact ⟨by omega, by omega, rfl⟩
  · right
    rw [if_neg hmore]
    refine ⟨_, rfl, fun hsmall => ?_⟩
    have hall : (n : Int) + sent = iolen := by omega
    rw [hall, toInt32_of_range (by omega) (by omega)]
    omega

end Reading

section Serving

variable {disk : File} {r : Request disksize} {handle : Nat} {errnoIsEio : Bool}
  {s t : State disksize} {sent : Int}

/-- The bytes of the whole reply. -/
abbrev replyOf (disk : File) (r : Request disksize) (handle : Nat) : List UInt8 :=
  replyBytes 0 handle ++ slice disk r.start r.iolen

/-- What the worker's place says about the READ it serves. A range that the `int`
cannot hold is read by one call; a reply that it can hold is sent without a gap. -/
def Place (disk : File) (r : Request disksize) (handle : Nat) (errnoIsEio : Bool)
    (s : State disksize) : Worker disksize → Prop
  | .seek r' handle' => r' = r ∧ handle' = handle ∧ s.replies = []
  | .reading r' handle' iov total buf => r' = r ∧ handle' = handle ∧ s.replies = [] ∧
      ∃ n : Nat, n < r.iolen ∧ (0 < n → r.iolen < 2 ^ 31) ∧ total = n ∧
        iov = [⟨n, r.iolen - n⟩] ∧ s.offset = r.start + n ∧
        ∀ k : Nat, k < n → buf k = disk (r.start + k)
  | .writing r' handle' error iov total mem out => r' = r ∧ handle' = handle ∧ s.replies = [] ∧
      0 < size iov ∧ (error = 0 ∧ r.iolen < 2 ^ 31 ∨ 2 ^ 31 ≤ r.iolen ∧ errnoIsEio = true) ∧
      (sizeofNbdReply + r.iolen < 2 ^ 31 → 0 ≤ total ∧ total + size iov < 2 ^ 31 ∧
        out ++ (cells iov).map mem = replyOf disk r handle)
  | .idle => ∃ error out, s.replies = [⟨r, handle, error, out, true⟩] ∧
      (sizeofNbdReply + r.iolen < 2 ^ 31 → error = 0 ∧ out = replyOf disk r handle) ∧
      (2 ^ 31 ≤ r.iolen → errnoIsEio = true)
  | .gone => True

/-- The invariant of serving the READ. -/
def Served (disk : File) (r : Request disksize) (handle : Nat) (errnoIsEio : Bool)
    (s : State disksize) : Prop :=
  Place disk r handle errnoIsEio s (s.workers 0)

@[simp] theorem setWorker_self (s : State disksize) (p : Worker disksize) :
    (s.setWorker 0 p).workers 0 = p := by simp [State.setWorker]

theorem served_setWorker {p : Worker disksize} (h : Place disk r handle errnoIsEio s p) :
    Served disk r handle errnoIsEio (s.setWorker 0 p) := by
  rw [Served, setWorker_self]
  cases p <;> exact h

theorem size_replyIov (error iolen : Nat) : size (replyIov error iolen) ≤ iolen + 16 ∧
    0 < size (replyIov error iolen) := by
  unfold replyIov sizeofNbdReply
  split
  · simp only [size_cons, size_nil]
    omega
  · simp

/-- Behind the read: the reply with the buffer, or the range was too long for an `int`. -/
theorem afterRead_place {ret : Int} {buf : Memory} (hnone : s.replies = [])
    (hread : r.iolen < 2 ^ 31 → ret = r.iolen ∧
      ∀ k : Nat, k < r.iolen → buf k = disk (r.start + k)) :
    Place disk r handle errnoIsEio s (afterRead r handle ret errnoIsEio buf) ∧
      left (afterRead r handle ret errnoIsEio buf) ≤ r.iolen + 16 := by
  have hlen := r.admitted.length
  have hsize := fun error => size_replyIov error r.iolen
  unfold afterRead
  by_cases hsmall : r.iolen < 2 ^ 31
  · obtain ⟨hret, hbuf⟩ := hread hsmall
    have hok : 0 ≤ allOrError r.iolen ret := by
      rw [hret, allOrError_self hsmall]
      omega
    rw [if_pos hok]
    refine ⟨⟨rfl, rfl, hnone, (hsize 0).2, .inl ⟨rfl, hsmall⟩, fun hfits => ⟨le_refl 0, ?_, ?_⟩⟩,
      (hsize 0).1⟩
    · have hle := (hsize 0).1
      simp only [sizeofNbdReply] at hfits
      omega
    · rw [List.nil_append]
      exact replyIov_cells hbuf
  · have hbad := (large_never_complete (by omega) hlen ret).1
    rw [if_neg (by omega)]
    cases errnoIsEio with
    | false => exact ⟨trivial, Nat.zero_le _⟩
    | true =>
      refine ⟨⟨rfl, rfl, hnone, (hsize eio).2, .inr ⟨by omega, rfl⟩, fun hfits => ?_⟩,
        (hsize eio).1⟩
      simp only [sizeofNbdReply] at hfits
      omega

theorem readvStep_served (hs : Served disk r handle errnoIsEio s) (hpos : 0 < sent)
    (h : readvStep disk s 0 sent errnoIsEio = some t) :
    Served disk r handle errnoIsEio t ∧ left (t.workers 0) < left (s.workers 0) := by
  unfold readvStep at h
  split at h
  · rename_i r' handle' iov total buf hw
    rw [Served, hw] at hs
    obtain ⟨rfl, rfl, hnone, n, hn, hfirst, rfl, rfl, hoff, hbuf⟩ := hs
    split at h
    · rename_i hmay
      have hle : sent ≤ size [⟨(n : Int), r'.iolen - n⟩] := by
        obtain hminus | ⟨-, hle, -⟩ := hmay
        · omega
        · exact hle
      have hsize : size [⟨(n : Int), r'.iolen - n⟩] = r'.iolen - n := by simp
      rw [hw]
      dsimp only at h
      obtain ⟨hsmall, hmore, hstep⟩ | ⟨ret, hstep, hret⟩ :=
        readv_moves hn hpos r'.admitted.length hfirst hle
      · have hfill := (readv_progress (Nat.le_of_lt hn) hsmall hoff hbuf hmay).1
        simp only [hstep] at h
        cases h
        refine ⟨served_setWorker ⟨rfl, rfl, hnone, _, hmore, fun _ => hsmall, rfl, rfl, ?_, hfill⟩,
          ?_⟩
        · simp only [hoff]
          omega
        · simp only [setWorker_self, left, size_cons, size_nil]
          omega
      · simp only [hstep] at h
        cases h
        have hafter := @afterRead_place disksize disk r' handle' errnoIsEio
          { s with offset := s.offset + sent.toNat } ret _ hnone fun hsmall =>
            ⟨(hret hsmall).2, fun k hk => (readv_progress (Nat.le_of_lt hn) hsmall hoff hbuf
              hmay).1 k (by rw [(hret hsmall).1]; exact hk)⟩
        refine ⟨served_setWorker hafter.1, ?_⟩
        rw [setWorker_self]
        refine Nat.lt_of_le_of_lt hafter.2 ?_
        simp only [left, size_cons, size_nil]
        omega
    · cases h
  · cases h

theorem writevStep_served (hs : Served disk r handle errnoIsEio s) (hpos : 0 < sent)
    (h : writevStep s 0 sent = some t) :
    Served disk r handle errnoIsEio t ∧ left (t.workers 0) < left (s.workers 0) := by
  unfold writevStep at h
  split at h
  · rename_i r' handle' error iov total mem out hw
    rw [Served, hw] at hs
    obtain ⟨rfl, rfl, hnone, hsize, herror, hwhole⟩ := hs
    rw [hw]
    split at h
    · rename_i hmay
      dsimp only at h
      split at h
      · rename_i rest total' hnext
        cases h
        obtain ⟨-, -, hadvance, -⟩ := netIovStep_next hnext
        have hless := advance_size (by omega) (le_refl 0) hpos hadvance
        refine ⟨served_setWorker ⟨rfl, rfl, hnone, advance_pos hpos hadvance, herror,
          fun hfits => ?_⟩, ?_⟩
        · obtain ⟨h0, hmax, hout⟩ := hwhole hfits
          obtain ⟨hnonneg, hsum, hsame⟩ := writev_next h0 hmax hpos hnext mem out
          exact ⟨hnonneg, by omega, hsame.trans hout⟩
        · simp only [setWorker_self, left]
          omega
      · rename_i ret hdone
        cases h
        by_cases hok : CheckDone ret
        · rw [if_pos hok]
          refine ⟨served_setWorker ⟨error, out ++ ((cells iov).take sent.toNat).map mem, ?_,
            fun hfits => ⟨?_, ?_⟩, fun hlarge => ?_⟩, ?_⟩
          · simp only [hnone, List.nil_append, hok, decide_true]
          · obtain ⟨hzero, -⟩ | ⟨hlarge, -⟩ := herror
            · exact hzero
            · simp only [sizeofNbdReply] at hfits
              omega
          · obtain ⟨h0, hmax, hout⟩ := hwhole hfits
            obtain hret | hall := writev_done h0 hmax hmay hdone
            · simp [hret, CheckDone] at hok
            · rw [hall, hout]
          · obtain ⟨-, hsmall⟩ | ⟨-, herrno⟩ := herror
            · omega
            · exact herrno
          · simpa [left] using hsize
        · rw [if_neg hok]
          exact ⟨served_setWorker trivial, by simpa [left] using hsize⟩
    · cases h
  · cases h

/-- Every call of the worker keeps the invariant and leaves fewer calls to make. -/
theorem step_served {a : Action disksize} (h0 : 0 ≤ r.iofrom) (hlen : 0 < r.iolen)
    (hs : Served disk r handle errnoIsEio s) (ha : Moves errnoIsEio a)
    (h : step disk s a = some t) :
    Served disk r handle errnoIsEio t ∧ left (t.workers 0) < left (s.workers 0) := by
  cases a with
  | recv => exact absurd ha id
  | lseek w junk =>
    obtain rfl : w = 0 := ha
    simp only [step] at h
    split at h
    · rename_i r' handle' hw
      rw [Served, hw] at hs
      obtain ⟨rfl, rfl, hnone⟩ := hs
      rw [if_neg (by omega)] at h
      cases h
      refine ⟨served_setWorker ⟨rfl, rfl, hnone, 0, hlen, fun hpos => absurd hpos (by omega), rfl,
        rfl, rfl, fun k hk => absurd hk (by omega)⟩, ?_⟩
      rw [hw, setWorker_self]
      simp only [left, size_cons, size_nil]
      omega
    · cases h
  | readv w sent errno =>
    obtain ⟨rfl, hpos, rfl⟩ := ha
    exact readvStep_served hs hpos h
  | writev w sent =>
    obtain ⟨rfl, hpos⟩ := ha
    exact writevStep_served hs hpos h

/-- The end of the range lies on the disk. -/
theorem ioend_le (h0 : 0 ≤ r.iofrom) : r.start + r.iolen ≤ disksize := by
  have hupper := r.admitted.upper
  have hlength := r.admitted.length
  have hwithin := r.admitted.within
  unfold Request.start
  omega

/-- A worker that has not finished can make a call, whatever it has done so far. -/
theorem served_goes_on (h0 : 0 ≤ r.iofrom) (hs : Served disk r handle errnoIsEio s) :
    (∃ a, Moves errnoIsEio a ∧ (step disk s a).isSome) ∨ s.workers 0 = .gone ∨
      s.workers 0 = .idle := by
  have hend := ioend_le h0
  rw [Served] at hs
  cases hw : s.workers 0 with
  | idle => exact .inr (.inr rfl)
  | gone => exact .inr (.inl rfl)
  | seek r' handle' =>
    left
    refine ⟨.lseek 0 fun _ => 0, rfl, ?_⟩
    simp only [step, hw]
    split <;> rfl
  | reading r' handle' iov total buf =>
    rw [hw] at hs
    obtain ⟨rfl, rfl, -, n, hn, -, rfl, rfl, hoff, -⟩ := hs
    have hmay : ReadvMay disksize s.offset [⟨(n : Int), r'.iolen - n⟩] 1 := by
      right
      simp only [size_cons, size_nil]
      omega
    left
    refine ⟨.readv 0 1 errnoIsEio, ⟨rfl, by decide, rfl⟩, ?_⟩
    simp only [step, readvStep, hw, if_pos hmay]
    split <;> rfl
  | writing r' handle' error iov total mem out =>
    rw [hw] at hs
    obtain ⟨-, -, -, hsize, -⟩ := hs
    have hmay : WritevMay iov 1 := by
      right
      omega
    left
    refine ⟨.writev 0 1, ⟨rfl, by decide⟩, ?_⟩
    simp only [step, writevStep, hw, if_pos hmay]
    split <;> rfl

/-- The worker has received the READ. -/
theorem recv_step (hr : r.iotype = .read) (offset : Nat) :
    step disk (initial offset) (.recv 0 r handle) =
      some ((initial offset).setWorker 0 (.seek r handle)) := by
  simp only [step, initial, hr, if_true]

end Serving

section Short

variable {disk : File} {r : Request disksize} {handle : Nat} {errnoIsEio : Bool}

/-- The range is read by one call, and the first `writev` takes the header. -/
def headerFirst (r : Request disksize) (errnoIsEio : Bool) : List (Action disksize) :=
  [.lseek 0 fun _ => 0, .readv 0 r.iolen errnoIsEio, .writev 0 16]

theorem headerFirst_moves (hlen : 0 < r.iolen) : ∀ a ∈ headerFirst r errnoIsEio,
    Moves errnoIsEio a := by
  intro a ha
  simp only [headerFirst, List.mem_cons, List.not_mem_nil, or_false] at ha
  obtain rfl | rfl | rfl := ha
  · rfl
  · exact ⟨rfl, by omega, rfl⟩
  · exact ⟨rfl, by decide⟩

/-- With the header sent, the loop takes the reply for sent: there is nothing else in
it, or its length is negative as an `int`. -/
theorem header_ends {error iolen : Nat}
    (h : error ≠ 0 ∨ 2 ^ 31 ≤ sizeofNbdReply + iolen ∧ iolen < 2 ^ 31) :
    netIovStep (replyIov error iolen) 0 16 = .done 16 := by
  have hhead : toInt32 (0 + (sizeofNbdReply : Int)) = 16 := by decide
  have hnone : advance 16 0 (replyIov error iolen) = none := by
    unfold replyIov
    by_cases herror : error = 0
    · obtain ⟨hlow, hhigh⟩ := h.resolve_left (not_not.mpr herror)
      have hwrap : toInt32 (16 + (iolen : Int)) = 16 + iolen - 2 ^ 32 := by
        simp only [sizeofNbdReply] at hlow
        unfold toInt32
        omega
      have hover : ¬(16 : Int) < 16 + iolen - 2 ^ 32 := by omega
      rw [if_pos herror]
      simp only [advance, hhead, hwrap, lt_irrefl, hover, if_false]
    · rw [if_neg herror]
      simp only [advance, hhead, lt_irrefl, if_false]
  simp only [netIovStep, hnone]
  decide

/-- Outside the condition the reply is one of the two that end behind the header. -/
theorem afterRead_short {ret : Int} {buf : Memory} (hbad : ¬Counted r errnoIsEio)
    (hread : r.iolen < 2 ^ 31 → ret = r.iolen) :
    ∃ error, (error ≠ 0 ∨ 2 ^ 31 ≤ sizeofNbdReply + r.iolen ∧ r.iolen < 2 ^ 31) ∧
      afterRead r handle ret errnoIsEio buf =
        .writing r handle error (replyIov error r.iolen) 0 (replyMemory error handle buf) [] := by
  rw [Counted, not_or, not_lt] at hbad
  have hlen := r.admitted.length
  unfold afterRead
  by_cases hsmall : r.iolen < 2 ^ 31
  · have hok : 0 ≤ allOrError r.iolen ret := by
      rw [hread hsmall, allOrError_self hsmall]
      omega
    rw [if_pos hok]
    exact ⟨0, .inr ⟨hbad.1, hsmall⟩, rfl⟩
  · have hlarge := (large_never_complete (by omega) hlen ret).1
    have herrno : errnoIsEio = true := by
      by_contra hfalse
      exact hbad.2 ⟨by omega, Bool.not_eq_true _ ▸ hfalse⟩
    rw [if_neg (by omega), herrno, if_pos rfl]
    exact ⟨eio, .inl (by decide), rfl⟩

/-- Outside the condition the worker may go on behind a bare header. -/
theorem short_reply (disk : File) (handle : Nat) (hr : r.iotype = .read) (h0 : 0 ≤ r.iofrom)
    (hlen : 0 < r.iolen) (hbad : ¬Counted r errnoIsEio) (offset : Nat) :
    ∃ t reply, run (step disk) (initial offset)
        (.recv 0 r handle :: headerFirst r errnoIsEio) = some t ∧
      t.workers 0 = .idle ∧ t.replies = [reply] ∧ reply.out.length = 16 := by
  have hend := ioend_le h0
  have hmay : ReadvMay disksize r.start [⟨0, r.iolen⟩] r.iolen := by
    right
    simp only [size_cons, size_nil]
    omega
  obtain ⟨ret, hstep, hret⟩ : ∃ ret, netIovStep [⟨0, r.iolen⟩] 0 r.iolen = .done ret ∧
      (r.iolen < 2 ^ 31 → ret = r.iolen) := by
    obtain ⟨-, hmore, -⟩ | ⟨ret, hstep, hret⟩ := @readv_moves r.iolen r.iolen 0 hlen
      (by omega) r.admitted.length (fun h => absurd h (by omega)) (by simp)
    · omega
    · exact ⟨ret, hstep, fun hsmall => (hret hsmall).2⟩
  obtain ⟨error, hcase, hafter⟩ := @afterRead_short disksize r handle errnoIsEio ret
    (fill (fun _ => 0) [⟨0, r.iolen⟩] (slice disk r.start r.iolen)) hbad hret
  have hsize : 16 ≤ size (replyIov error r.iolen) := by
    unfold replyIov sizeofNbdReply
    split <;> simp
  have hwritev : WritevMay (replyIov error r.iolen) 16 := .inr ⟨by decide, by omega⟩
  have hdone := header_ends hcase
  have hcheck : CheckDone 16 := by decide
  obtain ⟨s₁, h₁, hw₁, hoff₁, hrep₁⟩ : ∃ t, step disk ((initial offset).setWorker 0
      (.seek r handle)) (.lseek 0 fun _ => 0) = some t ∧
      t.workers 0 = .reading r handle [⟨0, r.iolen⟩] 0 (fun _ => 0) ∧ t.offset = r.start ∧
      t.replies = [] := by
    simp only [step, setWorker_self, if_neg (not_lt.mpr h0)]
    exact ⟨_, rfl, setWorker_self _ _, rfl, rfl⟩
  obtain ⟨s₂, h₂, hw₂, hrep₂⟩ : ∃ t, step disk s₁ (.readv 0 r.iolen errnoIsEio) = some t ∧
      t.workers 0 = .writing r handle error (replyIov error r.iolen) 0
        (replyMemory error handle (fill (fun _ => 0) [⟨0, r.iolen⟩]
          (slice disk r.start r.iolen))) [] ∧ t.replies = [] := by
    simp only [step, readvStep, hw₁, hoff₁, if_pos hmay, hstep, Int.toNat_natCast, hafter]
    exact ⟨_, rfl, setWorker_self _ _, hrep₁⟩
  obtain ⟨s₃, h₃, hw₃, reply, hrep₃, hout⟩ : ∃ t, step disk s₂ (.writev 0 16) = some t ∧
      t.workers 0 = .idle ∧ ∃ reply, t.replies = [reply] ∧ reply.out.length = 16 := by
    simp only [step, writevStep, hw₂, if_pos hwritev, hdone, if_pos hcheck, hrep₂]
    refine ⟨_, rfl, setWorker_self _ _, _, rfl, ?_⟩
    rw [List.nil_append, List.length_map, List.length_take, cells_length]
    exact Nat.min_eq_left hsize
  refine ⟨s₃, reply, ?_, hw₃, hrep₃, hout⟩
  rw [run_step (recv_step hr offset), headerFirst, run_step h₁, run_step h₂, run_step h₃, run_nil]

/-- The replies to a READ are complete exactly if its length is counted right. -/
theorem read_reply_complete_iff (disk : File) (r : Request disksize) (handle : Nat)
    (errnoIsEio : Bool) (hr : r.iotype = .read) (h0 : 0 ≤ r.iofrom) (hlen : 0 < r.iolen) :
    Completes disk r handle errnoIsEio ↔ Counted r errnoIsEio := by
  constructor
  · intro hall
    by_contra hbad
    obtain ⟨t, reply, hrun, hidle, hreplies, hout⟩ :=
      short_reply disk handle hr h0 hlen hbad 0
    obtain ⟨-, hmore⟩ := hall 0 _ t (headerFirst_moves hlen) hrun
    obtain ⟨a, ha, hstep⟩ | hgone | ⟨-, hwhole⟩ := hmore
    · -- an idle worker makes no call
      cases a with
      | recv => exact ha
      | lseek w junk =>
        obtain rfl : w = 0 := ha
        simp [step, hidle] at hstep
      | readv w sent errno =>
        obtain ⟨rfl, -⟩ := ha
        simp [step, readvStep, hidle] at hstep
      | writev w sent =>
        obtain ⟨rfl, -⟩ := ha
        simp [step, writevStep, hidle] at hstep
    · rw [hidle] at hgone
      cases hgone
    · rw [hreplies] at hwhole
      cases hwhole
      rw [wholeReply_length] at hout
      omega
  · intro hcounted offset acts t hacts hrun
    rw [run_step (recv_step hr offset)] at hrun
    have hstart : Served disk r handle errnoIsEio
        ((initial offset).setWorker 0 (.seek r handle)) := served_setWorker ⟨rfl, rfl, rfl⟩
    have hstep := fun s a t hs ha h => @step_served disksize disk r handle errnoIsEio s t a
      h0 hlen hs ha h
    have hbound := run_bounded hstep hstart (along_forall hacts) hrun
    have hs := run_invariant (fun s a t hs ha h => (hstep s a t hs ha h).1) hstart
      (along_forall hacts) hrun
    simp only [setWorker_self, left] at hbound
    refine ⟨by omega, ?_⟩
    obtain hmore | hgone | hidle := served_goes_on h0 hs
    · exact .inl hmore
    · exact .inr (.inl hgone)
    · right
      right
      rw [Served, hidle] at hs
      obtain ⟨error, out, hreplies, hfits, hlarge⟩ := hs
      cases hcounted with
      | inl hsmall =>
        obtain ⟨rfl, rfl⟩ := hfits hsmall
        exact ⟨hidle, hreplies⟩
      | inr hno =>
        rw [hlarge hno.1] at hno
        exact absurd hno.2 (by decide)

/-- A byte of a small disk, sent in whatever parts. -/
theorem read_reply_complete_iff_byte :
    Counted (readOne 1 (by decide)) false ∧
      Completes counting (readOne 1 (by decide)) 7 false :=
  ⟨by decide, (read_reply_complete_iff counting (readOne 1 (by decide)) 7 false rfl (by decide)
    (by decide)).mpr (by decide)⟩

theorem largeRead_admitted : Admitted (2 ^ 31) .read 0 (2 ^ 31 - 16) := by constructor <;> decide

/-- The shortest range whose reply the `int` does not hold. -/
def largeRead : Request (2 ^ 31) :=
  ⟨.read, 0, 2 ^ 31 - 16, [], largeRead_admitted, nofun⟩

/-- The first `writev` sends the 16 bytes of the header, and the worker waits for the
next request. -/
theorem large_read_cut_short :
    ¬∀ offset acts t, (∀ a ∈ acts, Moves false a) →
      run (step counting) (initial offset) (.recv 0 largeRead 7 :: acts) = some t →
      t.workers 0 = .idle → t.replies = [wholeReply counting largeRead 7] := by
  intro hall
  obtain ⟨t, reply, hrun, hidle, hreplies, hout⟩ :=
    @short_reply _ largeRead false counting 7 rfl (by decide) (by decide) (by decide) 0
  have hwhole := hall 0 _ t (headerFirst_moves (by decide)) hrun hidle
  rw [hreplies] at hwhole
  cases hwhole
  rw [wholeReply_length] at hout
  exact absurd hout (by decide)

end Short

end Xnbd.ReplyLength
