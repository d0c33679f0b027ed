import Xnbd.CInt
import Xnbd.Monitor

/-!
# The bounded queue of `xnbd_bgctl.c`

`SizedAsyncQueue` is a queue behind a lock with two conditions: a push waits for room,
a pop waits for an entry.
-/
namespace Xnbd.SizedQueue

open CInt Run Monitor

section Queue

variable {α : Type}

/-- The head of the list is the head of the `GQueue`. -/
structure SizedAsyncQueue (α : Type) where
  queue : List α
  maxSize : Nat
  size : Nat
  deriving DecidableEq

def sizedAsyncQueueNew (maxSize : Nat) : SizedAsyncQueue α := ⟨[], maxSize, 0⟩

inductive Op (α : Type) where
  | push (data : α)
  | pop
  deriving DecidableEq

inductive Cond where
  | pop
  | push
  deriving DecidableEq

/-- The code under the lock of `sized_async_queue_push`, behind its loop. -/
def sizedAsyncQueuePush (data : α) (q : SizedAsyncQueue α) :
    Effect (SizedAsyncQueue α) (Option α) Cond where
  shared := { q with queue := data :: q.queue, size := toUint64 (q.size + 1) }
  result := none
  signal := some .pop

/-- The code under the lock of `sized_async_queue_pop`, behind its loop. -/
def sizedAsyncQueuePop (q : SizedAsyncQueue α) :
    Effect (SizedAsyncQueue α) (Option α) Cond where
  shared := { q with queue := q.queue.dropLast, size := toUint64 (q.size - 1) }
  result := q.queue.getLast?
  signal := if toUint64 (q.size - 1) < q.maxSize then some .push else none

def sizedAsyncQueue (α : Type) :
    Operations (SizedAsyncQueue α) (Op α) (Option α) Cond where
  cond
    | .push _ => .push
    | .pop => .pop
  ready
    | .push _, q => q.size < q.maxSize
    | .pop, q => q.queue.getLast?.isSome
  body
    | .push data, q => sizedAsyncQueuePush data q
    | .pop, q => sizedAsyncQueuePop q

/-- The data of the pushes, and what the pops have returned. -/
def pushed (log : List (Op α × Option α)) : List α :=
  log.filterMap fun
    | (.push data, _) => some data
    | (.pop, _) => none

def popped (log : List (Op α × Option α)) : List α :=
  log.filterMap fun
    | (.push _, _) => none
    | (.pop, result) => result

@[simp] theorem pushed_push (log : List (Op α × Option α)) (data : α) (result : Option α) :
    pushed (log ++ [(.push data, result)]) = pushed log ++ [data] := by
  simp [pushed]

@[simp] theorem pushed_pop (log : List (Op α × Option α)) (result : Option α) :
    pushed (log ++ [(.pop, result)]) = pushed log := by
  simp [pushed]

@[simp] theorem popped_push (log : List (Op α × Option α)) (data : α) (result : Option α) :
    popped (log ++ [(.push data, result)]) = popped log := by
  simp [popped]

@[simp] theorem popped_pop (log : List (Op α × Option α)) (result : Option α) :
    popped (log ++ [(.pop, result)]) = popped log ++ result.toList := by
  cases result <;> simp [popped]

/-- `size` is the length of the queue, and the queue is not longer than allowed. -/
structure Sound (q : SizedAsyncQueue α) : Prop where
  size_eq : q.size = q.queue.length
  size_le : q.size ≤ q.maxSize
  max_lt : q.maxSize < 2 ^ 64

/-- How many pops, and how many pushes, the queue allows. -/
def allowed : Cond → SizedAsyncQueue α → Nat
  | .pop, q => q.queue.length
  | .push, q => q.maxSize - q.size

theorem sound_new {maxSize : Nat} (h : maxSize < 2 ^ 64) :
    Sound (sizedAsyncQueueNew maxSize : SizedAsyncQueue α) :=
  ⟨rfl, Nat.zero_le _, h⟩

theorem ready_pop {q : SizedAsyncQueue α} :
    (sizedAsyncQueue α).ready .pop q = true ↔ q.queue ≠ [] := by
  simp [sizedAsyncQueue]

theorem ready_push {q : SizedAsyncQueue α} {data : α} :
    (sizedAsyncQueue α).ready (.push data) q = true ↔ q.size < q.maxSize := by
  simp [sizedAsyncQueue]

/-- The size does not wrap around when it is raised. -/
theorem body_push {q : SizedAsyncQueue α} {data : α} (hq : Sound q) (h : q.size < q.maxSize) :
    ((sizedAsyncQueue α).body (.push data) q).shared =
      ⟨data :: q.queue, q.maxSize, q.size + 1⟩ := by
  have hmax := hq.max_lt
  have hsize : toUint64 (q.size + 1 : Int) = q.size + 1 := by
    rw [toUint64_of_range (by omega) (by omega)]
    omega
  simp only [sizedAsyncQueue, sizedAsyncQueuePush, hsize]

/-- Nor when it is lowered, and there is always room for a push then. -/
theorem body_pop {q : SizedAsyncQueue α} (hq : Sound q) (h : q.queue ≠ []) :
    0 < q.size ∧ (sizedAsyncQueue α).body .pop q =
      ⟨⟨q.queue.dropLast, q.maxSize, q.size - 1⟩, q.queue.getLast?, some .push⟩ := by
  have hmax := hq.max_lt
  have hle := hq.size_le
  have hpos : 0 < q.size := by
    rw [hq.size_eq]
    exact List.length_pos_iff.mpr h
  have hsize : toUint64 (q.size - 1 : Int) = q.size - 1 := by
    rw [toUint64_of_range (by omega) (by omega)]
    omega
  refine ⟨hpos, ?_⟩
  simp only [sizedAsyncQueue, sizedAsyncQueuePop, hsize]
  rw [if_pos (by omega)]

theorem body_sound {q : SizedAsyncQueue α} {op : Op α} (hq : Sound q)
    (h : (sizedAsyncQueue α).ready op q = true) :
    Sound ((sizedAsyncQueue α).body op q).shared := by
  have hle := hq.size_le
  cases op with
  | push data =>
    have hlt := ready_push.mp h
    rw [body_push hq hlt]
    refine ⟨?_, hlt, hq.max_lt⟩
    rw [List.length_cons, ← hq.size_eq]
  | pop =>
    obtain ⟨_, hbody⟩ := body_pop hq (ready_pop.mp h)
    rw [hbody]
    refine ⟨?_, by show q.size - 1 ≤ q.maxSize; omega, hq.max_lt⟩
    rw [List.length_dropLast, ← hq.size_eq]

/-- A push allows one more pop and announces it; a pop allows one more push and announces it. -/
theorem gauge_allowed : Gauge (sizedAsyncQueue α) Sound allowed where
  ready_iff := by
    intro op q hq
    cases op with
    | push data =>
      rw [ready_push]
      show _ ↔ 0 < q.maxSize - q.size
      omega
    | pop =>
      rw [ready_pop]
      exact List.length_pos_iff.symm
  keeps := body_sound
  takes := by
    intro op q hq h
    cases op with
    | push data =>
      have hlt := ready_push.mp h
      rw [body_push hq hlt]
      show q.maxSize - (q.size + 1) < q.maxSize - q.size
      omega
    | pop =>
      have hne := ready_pop.mp h
      have hpos := List.length_pos_iff.mpr hne
      rw [(body_pop hq hne).2]
      show q.queue.dropLast.length < q.queue.length
      rw [List.length_dropLast]
      omega
  announces := by
    intro op q hq h c
    cases op with
    | push data =>
      rw [body_push hq (ready_push.mp h)]
      cases c with
      | pop => exact Nat.le_refl _
      | push => exact Nat.le_add_right_of_le (Nat.sub_le_sub_left (Nat.le_succ _) _)
    | pop =>
      obtain ⟨hpos, hbody⟩ := body_pop hq (ready_pop.mp h)
      rw [hbody]
      cases c with
      | pop =>
        refine Nat.le_add_right_of_le ?_
        show q.queue.dropLast.length ≤ q.queue.length
        rw [List.length_dropLast]
        omega
      | push =>
        show q.maxSize - (q.size - 1) ≤ q.maxSize - q.size + 1
        omega

/-- First in, first out: what was pushed is what was popped and then what is in the queue. -/
theorem sequential_fifo {q₀ q : SizedAsyncQueue α} {log : List (Op α × Option α)}
    (hq₀ : q₀.queue = []) (h : Sequential (sizedAsyncQueue α) q₀ log q) :
    pushed log = popped log ++ q.queue.reverse ∧ q.maxSize = q₀.maxSize := by
  let I : SizedAsyncQueue α → List (Op α × Option α) → Prop := fun q log =>
    pushed log = popped log ++ q.queue.reverse ∧ q.maxSize = q₀.maxSize
  have hstart : I q₀ [] := by
    refine ⟨?_, rfl⟩
    rw [hq₀]
    rfl
  refine sequential_invariant (I := I) ?_ hstart h
  rintro past q op ⟨hfifo, hmax⟩ hready
  refine ⟨?_, ?_⟩
  · cases op with
    | push data =>
      rw [pushed_push, popped_push, hfifo]
      show _ = _ ++ (data :: q.queue).reverse
      rw [List.reverse_cons, List.append_assoc]
    | pop =>
      have hne := ready_pop.mp hready
      rw [pushed_pop, popped_pop, hfifo]
      show _ = _ ++ (q.queue.getLast?).toList ++ q.queue.dropLast.reverse
      conv_lhs => rw [← List.dropLast_append_getLast hne]
      rw [List.getLast?_eq_some_getLast hne, List.reverse_append, List.append_assoc]
      rfl
  · cases op <;> exact hmax

/-- What holds between the steps of the threads that share a queue. -/
structure Invariant (maxSize : Nat) (s : State (SizedAsyncQueue α) (Op α) (Option α)) : Prop where
  exclusive : Exclusive s
  sequential : Sequential (sizedAsyncQueue α) (sizedAsyncQueueNew maxSize) s.log s.shared
  sound : Sound s.shared
  noneForgotten : NoneForgotten (sizedAsyncQueue α) allowed s

theorem initial_invariant {maxSize : Nat} (hmax : maxSize < 2 ^ 64) (threads : Nat) :
    Invariant (α := α) maxSize (initial (sizedAsyncQueueNew maxSize) threads) where
  exclusive := (Nat.le_of_eq (total_replicate _ rfl threads)).trans (Nat.zero_le 1)
  sequential := rfl
  sound := sound_new hmax
  noneForgotten := initial_noneForgotten _ _ threads

theorem step_queue {maxSize : Nat} {s s' : State (SizedAsyncQueue α) (Op α) (Option α)}
    {a : Action (Op α)} (hs : Invariant maxSize s)
    (h : Monitor.step (sizedAsyncQueue α) s a = some s') : Invariant maxSize s' := by
  obtain ⟨hsound, hnone⟩ := step_noneForgotten gauge_allowed hs.sound hs.noneForgotten h
  exact ⟨step_exclusive hs.exclusive h, step_sequential hs.sequential h, hsound, hnone⟩

variable {maxSize : Nat} {s : State (SizedAsyncQueue α) (Op α) (Option α)}

theorem Invariant.fifo (hs : Invariant maxSize s) :
    pushed s.log = popped s.log ++ s.shared.queue.reverse :=
  (sequential_fifo rfl hs.sequential).1

theorem Invariant.maxSize_eq (hs : Invariant maxSize s) : s.shared.maxSize = maxSize :=
  (sequential_fifo rfl hs.sequential).2

theorem Invariant.pop_waits (hs : Invariant maxSize s) (hstuck : Stuck (sizedAsyncQueue α) s)
    (hmem : .asleep .pop ∈ s.threads) : s.shared.queue = [] := by
  have hwaits := stuck_waits gauge_allowed hs.sound hs.noneForgotten hstuck hmem
  by_contra hne
  rw [ready_pop.mpr hne] at hwaits
  cases hwaits

theorem Invariant.push_waits (hs : Invariant maxSize s) (hstuck : Stuck (sizedAsyncQueue α) s)
    {data : α} (hmem : .asleep (.push data) ∈ s.threads) : s.shared.size = maxSize := by
  have hwaits := stuck_waits gauge_allowed hs.sound hs.noneForgotten hstuck hmem
  by_contra hne
  have hle := hs.sound.size_le
  rw [hs.maxSize_eq] at hle
  rw [ready_push.mpr (by rw [hs.maxSize_eq]; omega)] at hwaits
  cases hwaits

/-- The threads that still have something to do all push to a full queue, or all pop from
an empty one. -/
def OnlyWaits (maxSize : Nat) (s : State (SizedAsyncQueue α) (Op α) (Option α)) : Prop :=
  (∀ phase ∈ s.threads, phase = .outside ∨ phase = .asleep .pop) ∧
      (.asleep .pop ∈ s.threads → s.shared.queue = []) ∨
    (∀ phase ∈ s.threads, phase = .outside ∨ ∃ data, phase = .asleep (.push data)) ∧
      s.shared.size = maxSize

theorem Invariant.onlyWaits (hs : Invariant maxSize s) (hpos : 0 < maxSize)
    (hstuck : Stuck (sizedAsyncQueue α) s) : OnlyWaits maxSize s := by
  by_cases hpush : ∃ data, .asleep (.push data) ∈ s.threads
  · obtain ⟨data, hdata⟩ := hpush
    have hfull := hs.push_waits hstuck hdata
    refine .inr ⟨fun phase hphase => ?_, hfull⟩
    rcases stuck_phase hstuck hphase with rfl | ⟨op, rfl⟩
    · exact .inl rfl
    · cases op with
      | push data => exact .inr ⟨data, rfl⟩
      | pop =>
        have hempty := hs.pop_waits hstuck hphase
        have hsize := hs.sound.size_eq
        rw [hempty, hfull] at hsize
        exact absurd hsize (by simp; omega)
  · refine .inl ⟨fun phase hphase => ?_, hs.pop_waits hstuck⟩
    rcases stuck_phase hstuck hphase with rfl | ⟨op, rfl⟩
    · exact .inl rfl
    · cases op with
      | push data => exact absurd ⟨data, hphase⟩ hpush
      | pop => exact .inr rfl

/-- Any number of threads share a queue: one at a time changes it, it is a FIFO of at most
`maxSize` entries, no wakeup is lost, and the calls pay for every step. -/
theorem sized_async_queue_runs {threads : Nat} {acts : List (Action (Op α))} (hpos : 0 < maxSize)
    (hmax : maxSize < 2 ^ 64)
    (h : run (Monitor.step (sizedAsyncQueue α))
      (initial (sizedAsyncQueueNew maxSize) threads) acts = some s) :
    Exclusive s ∧ pushed s.log = popped s.log ++ s.shared.queue.reverse ∧
      s.shared.size = s.shared.queue.length ∧ s.shared.size ≤ maxSize ∧
      (Stuck (sizedAsyncQueue α) s → OnlyWaits maxSize s) ∧
      acts.length ≤ (acts.map cost).sum := by
  have hs : Invariant maxSize s :=
    run_invariant (P := fun _ _ => True) (fun _ _ _ hi _ hstep => step_queue hi hstep)
      (initial_invariant hmax threads) (along_true _ _ _) h
  have hle := hs.sound.size_le
  rw [hs.maxSize_eq] at hle
  have hlength := run_length_le h
  rw [initial, total_replicate weight rfl] at hlength
  exact ⟨hs.exclusive, hs.fifo, hs.sound.size_eq, hle, hs.onlyWaits hpos, by omega⟩

/-- A pop that waits is woken by a push. -/
theorem sized_async_queue_runs_woken :
    let acts : List (Action (Op Nat)) :=
      [.call 0 .pop, .lock 0, .wait 0, .call 1 (.push 7), .lock 1, .pass 1 (some 0), .unlock 1,
        .lock 0, .pass 0 none, .unlock 0]
    ∃ s, run (Monitor.step (sizedAsyncQueue Nat)) (initial (sizedAsyncQueueNew 1) 2) acts = some s ∧
      popped s.log = [7] ∧ acts.length ≤ (acts.map cost).sum := by
  intro acts
  have hrun : run (Monitor.step (sizedAsyncQueue Nat)) (initial (sizedAsyncQueueNew 1) 2) acts =
      some ⟨⟨[], 1, 0⟩, [.outside, .outside], [(.push 7, none), (.pop, some 7)]⟩ := rfl
  exact ⟨_, hrun, rfl, (sized_async_queue_runs (by decide) (by decide) hrun).2.2.2.2.2⟩

end Queue

end Xnbd.SizedQueue
