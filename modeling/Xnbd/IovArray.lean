import Xnbd.NetIov
import Xnbd.Run

/-!
# Whole transfers on the caller's array (`lib/net.c`)

After a partial transfer `net_iov_all` cuts the unfinished entry in place and goes on with
a pointer to it and a smaller count. The list of entries that `NetIov` works on is what
the pointer and the count stand for.
-/
namespace Xnbd.IovArray

open CInt NetIov Run

section Model

/-- A call of `readv` or `writev`: its arguments, with `next_iov` as an index into the
array, and its result. -/
structure Call where
  nextIov : Nat
  nextCount : Nat
  result : Int
  deriving DecidableEq, Repr

/-- `net_iov_all` is about to call, has returned, or has left the array. -/
inductive Phase where
  | calling
  | returned (ret : Int)
  | outside
  deriving DecidableEq, Repr

/-- `net_iov_all` between two calls. `calls` and `moved` record the calls and the addresses
of the bytes that they moved; no step reads them. -/
structure Transfer where
  iov : List Iovec
  nextIov : Nat
  nextCount : Nat
  total : Int
  phase : Phase
  calls : List Call
  moved : List Int
  deriving DecidableEq, Repr

def enter (iov : List Iovec) : Transfer := ⟨iov, 0, iov.length, 0, .calling, [], []⟩

/-- The entries that the next call works on. -/
def Transfer.offered (s : Transfer) : List Iovec := (s.iov.drop s.nextIov).take s.nextCount

/-- The end of the loop over the entries: all of them are done, entry `i` was cut, or
there is no such entry. -/
inductive Scan where
  | finished
  | cut (iov : List Iovec) (i : Nat)
  | outside
  deriving DecidableEq, Repr

/-- The loop over the entries at `i`, with `rounds` for `next_count - i`. -/
def cutEntry (iov : List Iovec) (nextIov : Nat) (sent : Int) : Nat → Nat → Int → Scan
  | 0, _, _ => .finished
  | rounds + 1, i, expected =>
    match iov[nextIov + i]? with
    | none => .outside
    | some v =>
      let expected := toInt32 (expected + v.len)
      if sent < expected then
        let restInBlock := toInt32 (expected - sent)
        let sentInBlock := toInt32 (v.len - restInBlock)
        .cut (iov.set (nextIov + i) ⟨v.base + sentInBlock, toUint64 restInBlock⟩) i
      else cutEntry iov nextIov sent rounds (i + 1) expected

/-- What is recorded of a call: it moves the first bytes of what it is offered. -/
def Transfer.record (s : Transfer) (sent : Int) : Transfer :=
  { s with
    calls := s.calls ++ [⟨s.nextIov, s.nextCount, sent⟩]
    moved := s.moved ++ (cells s.offered).take sent.toNat }

/-- What follows the call. -/
def Transfer.handle (s : Transfer) (sent : Int) : Transfer :=
  if sent = 0 then { s with phase := .returned (toInt32 s.total) }
  else if sent = -1 then { s with phase := .returned (-1) }
  else
    let total := s.total + sent
    match cutEntry s.iov s.nextIov sent s.nextCount 0 0 with
    | .finished => { s with total := total, phase := .returned (toInt32 total) }
    | .cut iov i =>
      { s with iov := iov, total := total, nextIov := s.nextIov + i, nextCount := s.nextCount - i }
    | .outside => { s with phase := .outside }

/-- A round of the loop: a call with its result. -/
def step (s : Transfer) (sent : Int) : Option Transfer :=
  if s.phase = .calling then some ((s.record sent).handle sent) else none

/-- The results that a call may have: never more than it was offered. -/
def Answer (s : Transfer) (sent : Int) : Prop :=
  sent = -1 ∨ 0 ≤ sent ∧ sent ≤ size s.offered

instance (s : Transfer) (sent : Int) : Decidable (Answer s sent) :=
  inferInstanceAs (Decidable (_ ∨ _))

def Transfer.results (s : Transfer) : List Int := s.calls.map Call.result

/-- The sum of the positive results. -/
def positives (results : List Int) : Nat := (results.map Int.toNat).sum

/-- A transfer as it should be, after the calls with the given results. There is at most
one call for each byte. -/
structure Exact (iov : List Iovec) (results : List Int) (s : Transfer) : Prop where
  moved : s.moved = (cells iov).take (positives results)
  calls : s.results = results
  inside : ∀ c ∈ s.calls, 0 < c.nextCount ∧ c.nextIov + c.nextCount = iov.length
  bounded : results.length ≤ size iov
  stays : s.phase ≠ .outside
  goesOn : s.phase = .calling → results.length < size iov ∧ ∀ sent, (step s sent).isSome = true
  complete : ∀ ret, s.phase = .returned ret →
    (ret = size iov ↔ positives results = size iov ∧ -1 ∉ results)
  short : ∀ ret, s.phase = .returned ret → 0 ∈ results →
    ret = positives results ∧ positives results < size iov
  failed : ∀ ret, s.phase = .returned ret → -1 ∈ results → ret = -1

end Model

section Scans

variable {iov : List Iovec} {nextIov : Nat} {sent expected : Int}

/-- The loop over the array cuts as the one over the list from `next_iov` does. -/
theorem cutEntry_advance (rounds i : Nat) (h : nextIov + i + rounds = iov.length) :
    (advance sent expected (iov.drop (nextIov + i)) = none ∧
      cutEntry iov nextIov sent rounds i expected = .finished) ∨
    ∃ iov' j, cutEntry iov nextIov sent rounds i expected = .cut iov' j ∧ j < i + rounds ∧
      iov'.length = iov.length ∧
      advance sent expected (iov.drop (nextIov + i)) = some (iov'.drop (nextIov + j)) := by
  induction rounds generalizing i expected with
  | zero =>
    have hnil : iov.drop (nextIov + i) = [] := List.drop_eq_nil_of_le (by omega)
    rw [hnil]
    exact .inl ⟨rfl, rfl⟩
  | succ rounds ih =>
    have hlt : nextIov + i < iov.length := by omega
    have hdrop : iov.drop (nextIov + i) = iov[nextIov + i] :: iov.drop (nextIov + i + 1) :=
      List.drop_eq_getElem_cons hlt
    simp only [cutEntry, List.getElem?_eq_getElem hlt, hdrop, advance]
    split
    · right
      refine ⟨_, i, rfl, by omega, by rw [List.length_set], ?_⟩
      have hset : nextIov + i < (iov.set (nextIov + i)
          ⟨iov[nextIov + i].base + toInt32 (iov[nextIov + i].len -
              toInt32 (toInt32 (expected + iov[nextIov + i].len) - sent)),
            toUint64 (toInt32 (toInt32 (expected + iov[nextIov + i].len) - sent))⟩).length := by
        rw [List.length_set]
        exact hlt
      rw [List.drop_eq_getElem_cons hset, List.getElem_set_self, List.drop_set_of_lt (by omega)]
    · obtain hdone | ⟨iov', j, hcut, hj, hlength, hadv⟩ :=
        @ih (toInt32 (expected + iov[nextIov + i].len)) (i + 1) (by omega)
      · exact .inl hdone
      · exact .inr ⟨iov', j, hcut, by omega, hlength, hadv⟩

end Scans

section Rounds

variable {s t : Transfer} {sent ret : Int} {results : List Int}

/-- The pointer and the count stay within the array: what is offered is its end. -/
def Bounded (s : Transfer) : Prop := s.nextIov + s.nextCount = s.iov.length

theorem bounded_enter (iov : List Iovec) : Bounded (enter iov) := Nat.zero_add _

theorem offered_eq (h : Bounded s) : s.offered = s.iov.drop s.nextIov := by
  simp only [Bounded] at h
  rw [Transfer.offered, List.take_of_length_le (by rw [List.length_drop]; omega)]

theorem offered_enter (iov : List Iovec) : (enter iov).offered = iov :=
  offered_eq (bounded_enter iov)

theorem handle_records (s : Transfer) (sent : Int) :
    (s.handle sent).calls = s.calls ∧ (s.handle sent).moved = s.moved := by
  simp only [Transfer.handle]
  split
  · exact ⟨rfl, rfl⟩
  · split
    · exact ⟨rfl, rfl⟩
    · split <;> exact ⟨rfl, rfl⟩

/-- Everything a call is followed by. -/
theorem handle_cases (h : Bounded s) (hphase : s.phase = .calling) (sent : Int) :
    (sent = 0 ∧ (s.handle sent).phase = .returned (toInt32 s.total) ∧
      (s.handle sent).total = s.total) ∨
    (sent = -1 ∧ (s.handle sent).phase = .returned (-1) ∧ (s.handle sent).total = s.total) ∨
    (sent ≠ 0 ∧ sent ≠ -1 ∧ (s.handle sent).total = s.total + sent ∧
      (advance sent 0 s.offered = none ∧
          (s.handle sent).phase = .returned (toInt32 (s.total + sent)) ∨
        advance sent 0 s.offered = some (s.handle sent).offered ∧
          (s.handle sent).phase = .calling ∧ Bounded (s.handle sent) ∧
          (s.handle sent).iov.length = s.iov.length)) := by
  by_cases h0 : sent = 0
  · exact .inl ⟨h0, by simp [Transfer.handle, h0], by simp [Transfer.handle, h0]⟩
  by_cases h1 : sent = -1
  · exact .inr (.inl ⟨h1, by simp [Transfer.handle, h1], by simp [Transfer.handle, h1]⟩)
  right
  right
  refine ⟨h0, h1, ?_⟩
  rw [offered_eq h]
  obtain ⟨hadv, hscan⟩ | ⟨iov', j, hscan, hj, hlength, hadv⟩ :=
    @cutEntry_advance s.iov s.nextIov sent 0 s.nextCount 0 h
  · have ht : s.handle sent = { s with
        total := s.total + sent, phase := .returned (toInt32 (s.total + sent)) } := by
      simp only [Transfer.handle, h0, h1, if_false, hscan]
    rw [ht]
    exact ⟨rfl, .inl ⟨hadv, rfl⟩⟩
  · have ht : s.handle sent = { s with
        iov := iov', total := s.total + sent, nextIov := s.nextIov + j,
        nextCount := s.nextCount - j } := by
      simp only [Transfer.handle, h0, h1, if_false, hscan]
    have hbounded : Bounded (s.handle sent) := by
      simp only [Bounded] at h
      simp only [Bounded, ht, hlength]
      omega
    refine ⟨by rw [ht], .inr ⟨?_, by rw [ht]; exact hphase, hbounded, by rw [ht]; exact hlength⟩⟩
    rw [offered_eq hbounded, ht]
    exact hadv

/-- A round is a call, with its record, and what follows it. -/
theorem step_eq (hs : step s sent = some t) :
    s.phase = .calling ∧ t = (s.record sent).handle sent := by
  simp only [step] at hs
  split at hs
  · rename_i hphase
    cases hs
    exact ⟨hphase, rfl⟩
  · cases hs

/-- A round on the array is one on the list. -/
theorem step_netIovStep (h : Bounded s) (hanswer : Answer s sent) (hs : step s sent = some t) :
    (∃ ret, netIovStep s.offered s.total sent = .done ret ∧ t.phase = .returned ret ∧
      t.total = s.total + max sent 0) ∨
    (netIovStep s.offered s.total sent = .next t.offered t.total ∧ t.phase = .calling ∧
      Bounded t) := by
  obtain ⟨hphase, rfl⟩ := step_eq hs
  have hsame : (s.record sent).offered = s.offered ∧ (s.record sent).total = s.total := ⟨rfl, rfl⟩
  obtain ⟨rfl, hret, htotal⟩ | ⟨rfl, hret, htotal⟩ | ⟨h0, h1, htotal, hrest⟩ :=
    handle_cases (s := s.record sent) h hphase sent
  · exact .inl ⟨toInt32 s.total, rfl, hret, htotal.trans (Int.add_zero _).symm⟩
  · exact .inl ⟨-1, rfl, hret, htotal.trans (Int.add_zero _).symm⟩
  · rw [hsame.1, hsame.2] at hrest
    obtain ⟨hadv, hret⟩ | ⟨hadv, hcalling, hbounded, -⟩ := hrest
    · have hpos : max sent 0 = sent := by
        cases hanswer with
        | inl hfailed => exact absurd hfailed h1
        | inr hoffered => exact max_eq_left hoffered.1
      refine .inl ⟨toInt32 (s.total + sent), ?_, hret, by rw [htotal, hpos, hsame.2]⟩
      simp only [netIovStep, h0, h1, if_false, hadv]
    · refine .inr ⟨?_, hcalling, hbounded⟩
      rw [htotal, hsame.2]
      simp only [netIovStep, h0, h1, if_false, hadv]

theorem answer_offered (hanswer : Answer s sent) : -1 ≤ sent ∧ sent ≤ size s.offered := by
  cases hanswer with
  | inl hfailed => omega
  | inr hoffered => omega

/-- A transfer on the array is one on the list of its entries. -/
theorem run_netIovAll (h : Bounded s) (hphase : s.phase = .calling)
    (hanswers : Along step Answer s results) (hrun : run step s results = some t)
    (hret : t.phase = .returned ret) :
    Offered s.offered s.total results ∧
      netIovAll s.offered s.total results = some (ret, t.total) := by
  induction results generalizing s with
  | nil =>
    cases hrun
    rw [hphase] at hret
    cases hret
  | cons sent results ih =>
    obtain ⟨m, hm, hrest⟩ := run_cons_some hrun
    obtain ⟨hanswer, hlater⟩ := hanswers
    obtain ⟨hlow, hhigh⟩ := answer_offered hanswer
    obtain ⟨ret', hdone, hreturned, htotal⟩ | ⟨hnext, hcalling, hbounded⟩ :=
      step_netIovStep h hanswer hm
    · -- nothing is called any more
      cases results with
      | nil =>
        cases hrest
        rw [hret] at hreturned
        cases hreturned
        simp only [Offered, netIovAll, hdone, htotal]
        exact ⟨⟨hlow, hhigh, trivial⟩, trivial⟩
      | cons sent' results =>
        obtain ⟨m', hm', -⟩ := run_cons_some hrest
        rw [(step_eq hm').1] at hreturned
        cases hreturned
    · obtain ⟨hoffered, hall⟩ := ih hbounded hcalling (hlater m hm) hrest
      simp only [Offered, netIovAll, hnext]
      exact ⟨⟨hlow, hhigh, hoffered⟩, hall⟩

end Rounds

section Progress

variable {iov : List Iovec} {s t : Transfer} {sent ret : Int} {results : List Int}

@[simp] theorem positives_append (results : List Int) (sent : Int) :
    positives (results ++ [sent]) = positives results + sent.toNat := by
  simp [positives]

/-- Before a call: the bytes of the positive results are done, and there are more. -/
structure Going (iov : List Iovec) (s : Transfer) : Prop where
  bounded : Bounded s
  array : s.iov.length = iov.length
  total : s.total = positives s.results
  rest : cells s.offered = (cells iov).drop (positives s.results)
  more : positives s.results < size iov
  progress : s.results.length ≤ positives s.results
  positive : ∀ r ∈ s.results, 0 < r

/-- The three ways to return. -/
inductive Ending (iov : List Iovec) (results : List Int) (ret : Int) : Prop where
  | complete (hall : positives results = size iov) (hret : ret = size iov)
      (hpositive : ∀ r ∈ results, 0 < r)
  | short (before : List Int) (hlast : results = before ++ [0]) (hpositive : ∀ r ∈ before, 0 < r)
      (hless : positives results < size iov) (hret : ret = positives results)
  | failed (before : List Int) (hlast : results = before ++ [-1])
      (hpositive : ∀ r ∈ before, 0 < r) (hless : positives results < size iov) (hret : ret = -1)

structure Inv (iov : List Iovec) (s : Transfer) : Prop where
  moved : s.moved = (cells iov).take (positives s.results)
  inside : ∀ c ∈ s.calls, 0 < c.nextCount ∧ c.nextIov + c.nextCount = iov.length
  bounded : s.results.length ≤ size iov
  phase : match s.phase with
    | .calling => Going iov s
    | .returned ret => Ending iov s.results ret
    | .outside => False

/-- What is offered is what is missing. -/
theorem Going.left (h : Going iov s) : size s.offered + positives s.results = size iov := by
  have hlength := congrArg List.length h.rest
  have hmore := h.more
  rw [cells_length, List.length_drop, cells_length] at hlength
  omega

/-- A call is made on entries of the array. -/
theorem Going.call (h : Going iov s) :
    0 < s.nextCount ∧ s.nextIov + s.nextCount = iov.length := by
  refine ⟨?_, h.bounded.trans h.array⟩
  by_contra hzero
  have hnone : s.offered = [] := by
    rw [Transfer.offered, show s.nextCount = 0 by omega, List.take_zero]
  have hleft := h.left
  have hmore := h.more
  rw [hnone, size_nil] at hleft
  omega

theorem inv_enter (hpos : 1 ≤ size iov) : Inv iov (enter iov) where
  moved := rfl
  inside := by simp [enter]
  bounded := Nat.zero_le _
  phase := {
    bounded := bounded_enter iov
    array := rfl
    total := rfl
    rest := by rw [offered_enter]; rfl
    more := hpos
    progress := Nat.le_refl _
    positive := by simp [enter, Transfer.results] }

theorem record_results (s : Transfer) (sent : Int) :
    ((s.record sent).handle sent).results = s.results ++ [sent] := by
  rw [Transfer.results, (handle_records _ sent).1]
  simp [Transfer.record, Transfer.results]

/-- What a call moves follows what was moved before it. -/
theorem record_moved (h : Going iov s) (hmoved : s.moved = (cells iov).take (positives s.results))
    (sent : Int) : ((s.record sent).handle sent).moved =
      (cells iov).take (positives (s.results ++ [sent])) := by
  rw [(handle_records _ sent).2, positives_append, List.take_add, ← hmoved, ← h.rest]
  rfl

/-- Behind the last entry all bytes are done. -/
theorem Going.finished (h : Going iov s) (hmax : size iov < 2 ^ 31) (hanswer : 0 ≤ sent)
    (hhigh : sent ≤ size s.offered) (hadv : advance sent 0 s.offered = none) :
    positives (s.results ++ [sent]) = size iov ∧ toInt32 (s.total + sent) = size iov := by
  have hleft := h.left
  have hsize := advance_none (le_refl 0) (by omega) hadv hanswer
  have hall : positives (s.results ++ [sent]) = size iov := by
    rw [positives_append]
    omega
  have hsum : s.total + sent = size iov := by
    rw [h.total]
    omega
  rw [hsum, toInt32_of_range (by omega) (by omega)]
  exact ⟨hall, rfl⟩

/-- The list that was cut is what the call has left over. -/
theorem Going.next (h : Going iov s) (hmax : size iov < 2 ^ 31) (hpos : 0 < sent)
    (hadv : advance sent 0 s.offered = some t.offered) (hresults : t.results = s.results ++ [sent])
    (hbounded : Bounded t) (harray : t.iov.length = s.iov.length)
    (htotal : t.total = s.total + sent) : Going iov t := by
  have hleft := h.left
  obtain ⟨hcells, hsize⟩ := advance_cells (le_refl 0) (by omega) hadv (by omega)
  have hmore := advance_pos hpos hadv
  have hsum : positives t.results = positives s.results + sent.toNat := by
    rw [hresults, positives_append]
  refine ⟨hbounded, harray.trans h.array, ?_, ?_, ?_, ?_, ?_⟩
  · rw [htotal, h.total, hsum]
    omega
  · rw [hcells, h.rest, List.drop_drop, hsum, Int.sub_zero]
  · omega
  · have hprogress := h.progress
    rw [hsum, hresults, List.length_append, List.length_singleton]
    omega
  · intro r hr
    rw [hresults] at hr
    cases List.mem_append.mp hr with
    | inl hold => exact h.positive r hold
    | inr hnew =>
      rw [List.mem_singleton.mp hnew]
      exact hpos

theorem step_inv (hmax : size iov < 2 ^ 31) (h : Inv iov s) (hanswer : Answer s sent)
    (hs : step s sent = some t) : Inv iov t := by
  obtain ⟨hphase, rfl⟩ := step_eq hs
  have hgoing : Going iov s := by
    have hcalling := h.phase
    rw [hphase] at hcalling
    exact hcalling
  have hresults := record_results s sent
  have hmore := hgoing.more
  have hprogress := hgoing.progress
  obtain ⟨-, hhigh⟩ := answer_offered hanswer
  refine ⟨?_, ?_, ?_, ?_⟩
  · rw [hresults]
    exact record_moved hgoing h.moved sent
  · intro c hc
    rw [(handle_records _ sent).1] at hc
    cases List.mem_append.mp hc with
    | inl hold => exact h.inside c hold
    | inr hnew =>
      rw [List.mem_singleton.mp hnew]
      exact hgoing.call
  · rw [hresults, List.length_append, List.length_singleton]
    omega
  · obtain ⟨rfl, hret, -⟩ | ⟨rfl, hret, -⟩ | ⟨h0, h1, htotal, hrest⟩ :=
      handle_cases (s := s.record sent) hgoing.bounded hphase sent
    · have hsum : positives (s.results ++ [0]) = positives s.results := by simp
      have hint : toInt32 s.total = positives s.results := by
        rw [hgoing.total, toInt32_of_range (by omega) (by omega)]
      rw [hret, hresults]
      exact .short s.results rfl hgoing.positive (by omega) (by rw [hsum]; exact hint)
    · have hsum : positives (s.results ++ [-1]) = positives s.results := by simp
      rw [hret, hresults]
      exact .failed s.results rfl hgoing.positive (by omega) rfl
    · have hpos : 0 < sent := by
        cases hanswer with
        | inl hfailed => exact absurd hfailed h1
        | inr hoffered => omega
      obtain ⟨hadv, hret⟩ | ⟨hadv, hcalling, hbounded, harray⟩ := hrest
      · obtain ⟨hall, hint⟩ := hgoing.finished hmax (Int.le_of_lt hpos) hhigh hadv
        rw [hret, hresults]
        refine .complete hall hint fun r hr => ?_
        cases List.mem_append.mp hr with
        | inl hold => exact hgoing.positive r hold
        | inr hnew =>
          rw [List.mem_singleton.mp hnew]
          exact hpos
      · rw [hcalling]
        exact hgoing.next hmax hpos hadv hresults hbounded harray htotal

theorem run_results (hrun : run step s results = some t) : t.results = s.results ++ results := by
  induction results generalizing s with
  | nil =>
    cases hrun
    rw [List.append_nil]
  | cons sent results ih =>
    obtain ⟨m, hm, hrest⟩ := run_cons_some hrun
    obtain ⟨-, rfl⟩ := step_eq hm
    rw [ih hrest, record_results, List.append_assoc]
    rfl

theorem Ending.complete_iff (h : Ending iov results ret) :
    ret = size iov ↔ positives results = size iov ∧ -1 ∉ results := by
  cases h with
  | complete hall hret hpositive =>
    have hnone : -1 ∉ results := by
      intro hmem
      have := hpositive _ hmem
      omega
    exact ⟨fun _ => ⟨hall, hnone⟩, fun _ => hret⟩
  | short before _ _ hless hret => exact ⟨fun _ => by omega, fun _ => by omega⟩
  | failed before _ _ hless hret => exact ⟨fun _ => by omega, fun _ => by omega⟩

theorem Ending.of_zero (h : Ending iov results ret) (hzero : 0 ∈ results) :
    ret = positives results ∧ positives results < size iov := by
  cases h with
  | complete _ _ hpositive => exact absurd (hpositive 0 hzero) (by decide)
  | short before _ _ hless hret => exact ⟨hret, hless⟩
  | failed before hlast hpositive _ _ =>
    subst hlast
    cases List.mem_append.mp hzero with
    | inl hold => exact absurd (hpositive 0 hold) (by decide)
    | inr hnew => exact absurd (List.mem_singleton.mp hnew) (by decide)

theorem Ending.of_failed (h : Ending iov results ret) (hfailed : -1 ∈ results) : ret = -1 := by
  cases h with
  | complete _ _ hpositive => exact absurd (hpositive (-1) hfailed) (by decide)
  | short before hlast hpositive _ _ =>
    subst hlast
    cases List.mem_append.mp hfailed with
    | inl hold => exact absurd (hpositive (-1) hold) (by decide)
    | inr hnew => exact absurd (List.mem_singleton.mp hnew) (by decide)
  | failed _ _ _ _ hret => exact hret

theorem Inv.ending (h : Inv iov s) (hret : s.phase = .returned ret) : Ending iov s.results ret := by
  have hphase := h.phase
  rw [hret] at hphase
  exact hphase

theorem Inv.exact (h : Inv iov s) : Exact iov s.results s where
  moved := h.moved
  calls := rfl
  inside := h.inside
  bounded := h.bounded
  stays := fun houtside => by
    have hphase := h.phase
    rw [houtside] at hphase
    exact hphase
  goesOn := fun hcalling => by
    have hphase := h.phase
    rw [hcalling] at hphase
    refine ⟨Nat.lt_of_le_of_lt hphase.progress hphase.more, fun sent => ?_⟩
    rw [step, if_pos hcalling]
    rfl
  complete := fun _ hret => (h.ending hret).complete_iff
  short := fun _ hret => (h.ending hret).of_zero
  failed := fun _ hret => (h.ending hret).of_failed

/-- What holds after the calls of a transfer. -/
theorem run_inv (hpos : 1 ≤ size iov) (hmax : size iov < 2 ^ 31)
    (hrun : run step (enter iov) results = some s)
    (hanswers : Along step Answer (enter iov) results) : Inv iov s ∧ s.results = results :=
  ⟨run_invariant (fun _ _ _ hi ha hs => step_inv hmax hi ha hs) (inv_enter hpos) hanswers hrun,
    run_results hrun⟩

end Progress

theorem net_iov_all_exact (iov : List Iovec) (hpos : 1 ≤ size iov) (hmax : size iov < 2 ^ 31)
    (results : List Int) (s : Transfer) (hrun : run step (enter iov) results = some s)
    (hanswers : Along step Answer (enter iov) results) : Exact iov results s := by
  obtain ⟨h, rfl⟩ := run_inv hpos hmax hrun hanswers
  exact h.exact

/-- Empty entries around two buffers; the counts end inside the first buffer, and at its
end. -/
def gathered : List Iovec := [⟨0, 0⟩, ⟨100, 3⟩, ⟨0, 0⟩, ⟨200, 2⟩]

theorem net_iov_all_exact_partial :
    ∃ s, run step (enter gathered) [1, 2, 2] = some s ∧ s.phase = .returned 5 ∧
      s.moved = [100, 101, 102, 200, 201] ∧ Exact gathered [1, 2, 2] s :=
  ⟨_, rfl, by decide, by decide, net_iov_all_exact gathered (by decide) (by decide) [1, 2, 2] _ rfl
    (by decide)⟩

end Xnbd.IovArray
