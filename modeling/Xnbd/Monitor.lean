import Xnbd.Run
import Mathlib.Algebra.Order.BigOperators.Group.List
import Mathlib.Algebra.Order.Group.Nat
import Mathlib.Algebra.Ring.Nat

/-!
# Monitors

Threads share data and call operations on it. An operation takes the lock, waits on a
condition until its test is passed, changes the data, signals at most one condition
and gives the lock back. A waiting thread has given the lock back; once it is woken it
takes the lock again and repeats its test. A signal wakes one of the threads that wait
on the condition, and a thread may wake up without a signal.
-/
namespace Xnbd.Monitor

open Run

variable {σ ω ρ κ : Type}

/-- What an operation does under the lock once its test is passed. -/
structure Effect (σ ρ κ : Type) where
  shared : σ
  result : ρ
  signal : Option κ

structure Operations (σ ω ρ κ : Type) where
  cond : ω → κ
  ready : ω → σ → Bool
  body : ω → σ → Effect σ ρ κ

/-- Where a thread is in an operation. -/
inductive Phase (ω ρ : Type) where
  | outside
  | locking (op : ω)
  | testing (op : ω)
  | asleep (op : ω)
  | woken (op : ω)
  | unlocking (op : ω) (result : ρ)
  deriving DecidableEq

/-- The data, the threads, and the operations in the order in which they changed the data. -/
structure State (σ ω ρ : Type) where
  shared : σ
  threads : List (Phase ω ρ)
  log : List (ω × ρ)
  deriving DecidableEq

inductive Action (ω : Type) where
  | call (t : Nat) (op : ω)
  | lock (t : Nat)
  | wait (t : Nat)
  /-- The test is passed; the second thread is the one that the signal wakes. -/
  | pass (t : Nat) (waked : Option Nat)
  | spurious (t : Nat)
  | unlock (t : Nat)
  deriving DecidableEq

/-- The thread has the lock. -/
def holds : Phase ω ρ → Bool
  | .testing _ | .unlocking _ _ => true
  | _ => false

section Steps

variable [DecidableEq κ] (m : Operations σ ω ρ κ)

def sleepsOn (c : κ) : Phase ω ρ → Bool
  | .asleep op => m.cond op = c
  | _ => false

/-- `g_cond_signal`, with the thread that it wakes. -/
def wake (threads : List (Phase ω ρ)) : Option κ → Option Nat → Option (List (Phase ω ρ))
  | none, none => some threads
  | none, some _ => none
  | some c, none => if threads.any (sleepsOn m c) then none else some threads
  | some c, some v =>
    match threads[v]? with
    | some (.asleep op) => if m.cond op = c then some (threads.set v (.woken op)) else none
    | _ => none

def step (s : State σ ω ρ) : Action ω → Option (State σ ω ρ)
  | .call t op =>
    match s.threads[t]? with
    | some .outside => some { s with threads := s.threads.set t (.locking op) }
    | _ => none
  | .lock t =>
    if s.threads.any holds then none
    else
      match s.threads[t]? with
      | some (.locking op) => some { s with threads := s.threads.set t (.testing op) }
      | some (.woken op) => some { s with threads := s.threads.set t (.testing op) }
      | _ => none
  | .wait t =>
    match s.threads[t]? with
    | some (.testing op) =>
      if m.ready op s.shared then none
      else some { s with threads := s.threads.set t (.asleep op) }
    | _ => none
  | .pass t waked =>
    match s.threads[t]? with
    | some (.testing op) =>
      if m.ready op s.shared then
        let e := m.body op s.shared
        (wake m (s.threads.set t (.unlocking op e.result)) e.signal waked).map fun threads =>
          ⟨e.shared, threads, s.log ++ [(op, e.result)]⟩
      else none
    | _ => none
  | .spurious t =>
    match s.threads[t]? with
    | some (.asleep op) => some { s with threads := s.threads.set t (.woken op) }
    | _ => none
  | .unlock t =>
    match s.threads[t]? with
    | some (.unlocking _ _) => some { s with threads := s.threads.set t .outside }
    | _ => none

/-- The data at the start, and threads that are all outside. -/
def initial (shared : σ) (threads : Nat) : State σ ω ρ :=
  ⟨shared, List.replicate threads .outside, []⟩

/-- What a signal does to the threads: nothing where nobody has to be woken, or one thread
that waits on the condition is woken. -/
inductive Waked (threads : List (Phase ω ρ)) : Option κ → List (Phase ω ρ) → Prop where
  | nobody {signal : Option κ} (h : ∀ c ∈ signal, threads.any (sleepsOn m c) = false) :
      Waked threads signal threads
  | one {v : Nat} {op : ω} (h : threads[v]? = some (.asleep op)) :
      Waked threads (some (m.cond op)) (threads.set v (.woken op))

/-- What a step can do. -/
inductive Move (s : State σ ω ρ) : Action ω → State σ ω ρ → Prop where
  | call {t : Nat} {op : ω} (h : s.threads[t]? = some .outside) :
      Move s (.call t op) { s with threads := s.threads.set t (.locking op) }
  | lock {t : Nat} {op : ω} {old : Phase ω ρ} (h : s.threads[t]? = some old)
      (hold : old = .locking op ∨ old = .woken op) (hfree : s.threads.any holds = false) :
      Move s (.lock t) { s with threads := s.threads.set t (.testing op) }
  | wait {t : Nat} {op : ω} (h : s.threads[t]? = some (.testing op))
      (hready : m.ready op s.shared = false) :
      Move s (.wait t) { s with threads := s.threads.set t (.asleep op) }
  | pass {t : Nat} {op : ω} {waked : Option Nat} {threads : List (Phase ω ρ)}
      (h : s.threads[t]? = some (.testing op)) (hready : m.ready op s.shared = true)
      (hwaked : Waked m (s.threads.set t (.unlocking op (m.body op s.shared).result))
        (m.body op s.shared).signal threads) :
      Move s (.pass t waked)
        ⟨(m.body op s.shared).shared, threads, s.log ++ [(op, (m.body op s.shared).result)]⟩
  | spurious {t : Nat} {op : ω} (h : s.threads[t]? = some (.asleep op)) :
      Move s (.spurious t) { s with threads := s.threads.set t (.woken op) }
  | unlock {t : Nat} {op : ω} {result : ρ} (h : s.threads[t]? = some (.unlocking op result)) :
      Move s (.unlock t) { s with threads := s.threads.set t .outside }

variable {m}

theorem wake_waked {threads after : List (Phase ω ρ)} {signal : Option κ} {waked : Option Nat}
    (h : wake m threads signal waked = some after) : Waked m threads signal after := by
  cases signal with
  | none =>
    cases waked with
    | none =>
      cases h
      exact .nobody (by simp)
    | some v => cases h
  | some c =>
    cases waked with
    | none =>
      simp only [wake] at h
      split at h
      · cases h
      · rename_i hnone
        cases h
        refine .nobody fun d hd => ?_
        cases hd
        simpa using hnone
    | some v =>
      simp only [wake] at h
      split at h
      · rename_i op hv
        split at h
        · rename_i hc
          cases h
          subst hc
          exact .one hv
        · cases h
      · cases h

theorem step_move {s s' : State σ ω ρ} {a : Action ω} (h : step m s a = some s') :
    Move m s a s' := by
  cases a with
  | call t op =>
    simp only [step] at h
    split at h
    · rename_i ht
      cases h
      exact .call ht
    · cases h
  | lock t =>
    simp only [step] at h
    split at h
    · cases h
    · rename_i hfree
      have hfree : s.threads.any holds = false := by simpa using hfree
      split at h
      · rename_i op ht
        cases h
        exact .lock ht (.inl rfl) hfree
      · rename_i op ht
        cases h
        exact .lock ht (.inr rfl) hfree
      · cases h
  | wait t =>
    simp only [step] at h
    split at h
    · rename_i op ht
      split at h
      · cases h
      · rename_i hready
        cases h
        exact .wait ht (by simpa using hready)
    · cases h
  | pass t waked =>
    simp only [step] at h
    split at h
    · rename_i op ht
      split at h
      · rename_i hready
        obtain ⟨threads, hw, rfl⟩ := Option.map_eq_some_iff.mp h
        exact .pass ht hready (wake_waked hw)
      · cases h
    · cases h
  | spurious t =>
    simp only [step] at h
    split at h
    · rename_i op ht
      cases h
      exact .spurious ht
    · cases h
  | unlock t =>
    simp only [step] at h
    split at h
    · rename_i op result ht
      cases h
      exact .unlock ht
    · cases h

end Steps

section Totals

/-- The sum of a measure over the threads. -/
def total (f : Phase ω ρ → Nat) (threads : List (Phase ω ρ)) : Nat := (threads.map f).sum

theorem total_set (f : Phase ω ρ → Nat) {threads : List (Phase ω ρ)} {t : Nat} {old : Phase ω ρ}
    (h : threads[t]? = some old) (new : Phase ω ρ) :
    total f (threads.set t new) + f old = total f threads + f new := by
  induction threads generalizing t with
  | nil => simp at h
  | cons head tail ih =>
    cases t with
    | zero =>
      cases h
      simp only [total, List.set_cons_zero, List.map_cons, List.sum_cons]
      omega
    | succ t =>
      have hrest := ih (t := t) (by simpa using h)
      simp only [total, List.set_cons_succ, List.map_cons, List.sum_cons] at hrest ⊢
      omega

theorem total_le (f : Phase ω ρ → Nat) {threads : List (Phase ω ρ)} {t : Nat} {old : Phase ω ρ}
    (h : threads[t]? = some old) : f old ≤ total f threads := by
  exact List.le_sum_of_mem (List.mem_map_of_mem (List.mem_of_getElem? h))

theorem total_replicate (f : Phase ω ρ → Nat) (h : f .outside = 0) (n : Nat) :
    total f (List.replicate n .outside) = 0 := by
  simp [total, h]

/-- What a predicate counts. -/
def indicator (p : Phase ω ρ → Bool) (phase : Phase ω ρ) : Nat := (p phase).toNat

theorem total_indicator_zero {p : Phase ω ρ → Bool} {threads : List (Phase ω ρ)} :
    total (indicator p) threads = 0 ↔ threads.any p = false := by
  induction threads with
  | nil => simp [total]
  | cons head tail ih =>
    rw [List.any_cons, Bool.or_eq_false_iff, ← ih]
    simp [total, indicator]

end Totals

section Exclusion

variable [DecidableEq κ] {m : Operations σ ω ρ κ}

/-- A signal does not touch the threads that have the lock. -/
theorem waked_holders {threads after : List (Phase ω ρ)} {signal : Option κ}
    (h : Waked m threads signal after) :
    total (indicator holds) after = total (indicator holds) threads := by
  cases h with
  | nobody => rfl
  | @one v op hv =>
    have hset := total_set (indicator holds) hv (.woken op)
    exact hset

/-- At most one thread has the lock. -/
def Exclusive (s : State σ ω ρ) : Prop := total (indicator holds) s.threads ≤ 1

theorem step_exclusive {s s' : State σ ω ρ} {a : Action ω} (hs : Exclusive s)
    (h : step m s a = some s') : Exclusive s' := by
  unfold Exclusive at *
  cases step_move h with
  | @call t op ht =>
    have hset := total_set (indicator holds) ht (.locking op)
    exact (Nat.le_of_eq hset).trans hs
  | @lock t op old ht hold hfree =>
    have hset := total_set (indicator holds) ht (.testing op)
    have hzero := total_indicator_zero.mpr hfree
    have hnew : indicator holds (.testing op : Phase ω ρ) = 1 := rfl
    show total (indicator holds) (s.threads.set t (.testing op)) ≤ 1
    omega
  | @wait t op ht hready =>
    have hset := total_set (indicator holds) ht (.asleep op)
    have hold : indicator holds (.testing op : Phase ω ρ) = 1 := rfl
    have hnew : indicator holds (.asleep op : Phase ω ρ) = 0 := rfl
    show total (indicator holds) (s.threads.set t (.asleep op)) ≤ 1
    omega
  | @pass t op waked threads ht hready hw =>
    have hset := total_set (indicator holds) ht (.unlocking op (m.body op s.shared).result)
    rw [waked_holders hw]
    exact (Nat.le_of_eq (Nat.add_right_cancel hset)).trans hs
  | @spurious t op ht =>
    have hset := total_set (indicator holds) ht (.woken op)
    exact (Nat.le_of_eq hset).trans hs
  | @unlock t op result ht =>
    have hset := total_set (indicator holds) ht .outside
    have hold : indicator holds (.unlocking op result : Phase ω ρ) = 1 := rfl
    have hnew : indicator holds (.outside : Phase ω ρ) = 0 := rfl
    show total (indicator holds) (s.threads.set t .outside) ≤ 1
    omega

end Exclusion

section Order

variable (m : Operations σ ω ρ κ)

/-- The operations, one after the other, each with its test passed. -/
def Sequential : σ → List (ω × ρ) → σ → Prop
  | s, [], t => s = t
  | s, (op, result) :: rest, t =>
    m.ready op s = true ∧ (m.body op s).result = result ∧ Sequential (m.body op s).shared rest t

variable {m}

theorem sequential_concat {s t : σ} {log : List (ω × ρ)} {op : ω} (h : Sequential m s log t)
    (hready : m.ready op t = true) :
    Sequential m s (log ++ [(op, (m.body op t).result)]) (m.body op t).shared := by
  induction log generalizing s with
  | nil =>
    cases h
    exact ⟨hready, rfl, rfl⟩
  | cons entry rest ih => exact ⟨h.1, h.2.1, ih h.2.2⟩

/-- What every operation keeps holds after any sequence of them. -/
theorem sequential_invariant {I : σ → List (ω × ρ) → Prop} {s t : σ} {past log : List (ω × ρ)}
    (hbody : ∀ past s op, I s past → m.ready op s = true →
      I (m.body op s).shared (past ++ [(op, (m.body op s).result)]))
    (hs : I s past) (h : Sequential m s log t) : I t (past ++ log) := by
  induction log generalizing s past with
  | nil =>
    cases h
    simpa using hs
  | cons entry rest ih =>
    obtain ⟨hready, hresult, hrest⟩ := h
    have hnext := ih (hbody past s entry.1 hs hready) hrest
    rw [hresult] at hnext
    simpa using hnext

variable [DecidableEq κ]

/-- The operations take effect one after the other, in the order of the log. -/
theorem step_sequential {s₀ : σ} {s s' : State σ ω ρ} {a : Action ω}
    (hs : Sequential m s₀ s.log s.shared) (h : step m s a = some s') :
    Sequential m s₀ s'.log s'.shared := by
  cases step_move h with
  | pass _ hready _ => exact sequential_concat hs hready
  | call _ => exact hs
  | lock _ _ _ => exact hs
  | wait _ _ => exact hs
  | spurious _ => exact hs
  | unlock _ => exact hs

end Order

section Refinement

/-- An operation as its caller sees it: called, then done, in one step that nobody can
look into. -/
inductive Status (ω ρ : Type) where
  | out
  | called (op : ω)
  | done (op : ω) (result : ρ)
  deriving DecidableEq

def status : Phase ω ρ → Status ω ρ
  | .outside => .out
  | .locking op | .testing op | .asleep op | .woken op => .called op
  | .unlocking op result => .done op result

/-- The data, the calls and the log, without the lock and the conditions. -/
structure Atomic (σ ω ρ : Type) where
  shared : σ
  calls : List (Status ω ρ)
  log : List (ω × ρ)

def atomic (s : State σ ω ρ) : Atomic σ ω ρ := ⟨s.shared, s.threads.map status, s.log⟩

variable [DecidableEq κ] (m : Operations σ ω ρ κ)

/-- The steps of the atomic data: the other actions leave it as it is. -/
inductive AtomicMove (s : Atomic σ ω ρ) : Action ω → Atomic σ ω ρ → Prop where
  | call {t : Nat} {op : ω} (h : s.calls[t]? = some .out) :
      AtomicMove s (.call t op) { s with calls := s.calls.set t (.called op) }
  | pass {t : Nat} {op : ω} {waked : Option Nat} (h : s.calls[t]? = some (.called op))
      (hready : m.ready op s.shared = true) :
      AtomicMove s (.pass t waked)
        ⟨(m.body op s.shared).shared, s.calls.set t (.done op (m.body op s.shared).result),
          s.log ++ [(op, (m.body op s.shared).result)]⟩
  | unlock {t : Nat} {op : ω} {result : ρ} (h : s.calls[t]? = some (.done op result)) :
      AtomicMove s (.unlock t) { s with calls := s.calls.set t .out }
  | lock {t : Nat} : AtomicMove s (.lock t) s
  | wait {t : Nat} : AtomicMove s (.wait t) s
  | spurious {t : Nat} : AtomicMove s (.spurious t) s

variable {m}

theorem map_status_get {threads : List (Phase ω ρ)} {t : Nat} {phase : Phase ω ρ}
    (h : threads[t]? = some phase) : (threads.map status)[t]? = some (status phase) := by
  rw [List.getElem?_map, h]
  rfl

theorem map_status_set {threads : List (Phase ω ρ)} {t : Nat} {old new : Phase ω ρ}
    (h : threads[t]? = some old) (hsame : status new = status old) :
    (threads.set t new).map status = threads.map status := by
  rw [List.map_set, hsame]
  obtain ⟨hlt, rfl⟩ := List.getElem?_eq_some_iff.mp h
  exact List.ext_getElem? fun i => by
    rw [List.getElem?_set]
    split
    · rename_i he
      subst he
      simp [hlt]
    · rfl

theorem atomic_set {s : State σ ω ρ} {t : Nat} {old new : Phase ω ρ}
    (h : s.threads[t]? = some old) (hsame : status new = status old) :
    atomic { s with threads := s.threads.set t new } = atomic s := by
  rw [atomic, atomic, map_status_set h hsame]

theorem waked_status {threads after : List (Phase ω ρ)} {signal : Option κ}
    (h : Waked m threads signal after) : after.map status = threads.map status := by
  cases h with
  | nobody => rfl
  | one hv => exact map_status_set hv rfl

/-- The monitor refines the atomic data. -/
theorem step_atomic {s s' : State σ ω ρ} {a : Action ω} (h : step m s a = some s') :
    AtomicMove m (atomic s) a (atomic s') := by
  cases step_move h with
  | @call t op ht =>
    have hmap : (s.threads.set t (.locking op)).map status =
        (s.threads.map status).set t (.called op) := List.map_set
    rw [atomic, atomic, hmap]
    exact .call (map_status_get ht)
  | @lock t op old ht hold _ =>
    have hsame : status (.testing op : Phase ω ρ) = status old := by
      rcases hold with rfl | rfl <;> rfl
    rw [atomic_set ht hsame]
    exact .lock
  | @wait t op ht _ =>
    have hsame : status (.asleep op : Phase ω ρ) = status (.testing op) := rfl
    rw [atomic_set ht hsame]
    exact .wait
  | @pass t op waked threads ht hready hw =>
    rw [atomic, atomic, waked_status hw, List.map_set]
    exact .pass (map_status_get ht) hready
  | @spurious t op ht =>
    have hsame : status (.woken op : Phase ω ρ) = status (.asleep op) := rfl
    rw [atomic_set ht hsame]
    exact .spurious
  | @unlock t op result ht =>
    rw [atomic, atomic, List.map_set]
    exact .unlock (map_status_get ht)

end Refinement

section Wakeups

variable [DecidableEq κ] (m : Operations σ ω ρ κ)

/-- A thread that is about to repeat its test, or to make it for the first time. -/
def awakeFor (c : κ) : Phase ω ρ → Bool
  | .testing op | .woken op => m.cond op = c
  | _ => false

/-- For each condition, a count of how many of its operations the data allows. An
operation that allows another one more signals that one's condition. -/
structure Gauge (I : σ → Prop) (g : κ → σ → Nat) : Prop where
  ready_iff : ∀ {op s}, I s → (m.ready op s = true ↔ 0 < g (m.cond op) s)
  keeps : ∀ {op s}, I s → m.ready op s = true → I (m.body op s).shared
  takes : ∀ {op s}, I s → m.ready op s = true →
    g (m.cond op) (m.body op s).shared < g (m.cond op) s
  announces : ∀ {op s}, I s → m.ready op s = true → ∀ c,
    g c (m.body op s).shared ≤ g c s + if (m.body op s).signal = some c then 1 else 0

/-- Nobody waits on a condition while the data allows more of its operations than there
are threads about to test it. -/
def NoneForgotten (g : κ → σ → Nat) (s : State σ ω ρ) : Prop :=
  ∀ c, total (indicator (sleepsOn m c)) s.threads = 0 ∨
    g c s.shared ≤ total (indicator (awakeFor m c)) s.threads

variable {m}

theorem initial_noneForgotten (g : κ → σ → Nat) (shared : σ) (n : Nat) :
    NoneForgotten m g (initial shared n) :=
  fun _ => .inl (total_replicate _ rfl n)

/-- A thread that moves between phases that neither sleep nor are about to test. -/
theorem noneForgotten_set {g : κ → σ → Nat} {s : State σ ω ρ} {t : Nat} {old new : Phase ω ρ}
    (hs : NoneForgotten m g s) (ht : s.threads[t]? = some old)
    (hsleep : ∀ c, indicator (sleepsOn m c) new ≤ indicator (sleepsOn m c) old)
    (hawake : ∀ c, indicator (awakeFor m c) old ≤ indicator (awakeFor m c) new) :
    NoneForgotten m g { s with threads := s.threads.set t new } := by
  intro c
  have hsleepers := total_set (indicator (sleepsOn m c)) ht new
  have hawakers := total_set (indicator (awakeFor m c)) ht new
  have hle := hsleep c
  have hge := hawake c
  rcases hs c with hnone | hfew
  · exact .inl (by show total _ (s.threads.set t new) = 0; omega)
  · exact .inr (by show g c s.shared ≤ total _ (s.threads.set t new); omega)

variable {I : σ → Prop} {g : κ → σ → Nat}

/-- An operation uses up what it waited for, and announces what it allows. -/
theorem pass_noneForgotten (hg : Gauge m I g) {s : State σ ω ρ} {t : Nat} {op : ω}
    {threads : List (Phase ω ρ)} (hI : I s.shared) (hs : NoneForgotten m g s)
    (ht : s.threads[t]? = some (.testing op)) (hready : m.ready op s.shared = true)
    (hw : Waked m (s.threads.set t (.unlocking op (m.body op s.shared).result))
      (m.body op s.shared).signal threads) (log : List (ω × ρ)) :
    NoneForgotten m g ⟨(m.body op s.shared).shared, threads, log⟩ := by
  intro c
  have hsleepers := total_set (indicator (sleepsOn m c)) ht
    (.unlocking op (m.body op s.shared).result)
  have hawakers := total_set (indicator (awakeFor m c)) ht
    (.unlocking op (m.body op s.shared).result)
  have hannounces := hg.announces hI hready c
  have htakes : m.cond op = c → g c (m.body op s.shared).shared < g c s.shared := by
    rintro rfl
    exact hg.takes hI hready
  have htester : indicator (awakeFor m c) (.testing op : Phase ω ρ) =
      if m.cond op = c then 1 else 0 := by
    by_cases hc : m.cond op = c <;> simp [indicator, awakeFor, hc]
  simp only [htester, show indicator (sleepsOn m c) (.testing op : Phase ω ρ) = 0 from rfl,
    show indicator (sleepsOn m c) (.unlocking op (m.body op s.shared).result) = 0 from rfl,
    show indicator (awakeFor m c) (.unlocking op (m.body op s.shared).result) = 0 from rfl]
    at hsleepers hawakers
  generalize hsig : (m.body op s.shared).signal = signal at hw hannounces
  cases hw with
  | nobody hnobody =>
    by_cases hc : signal = some c
    · exact .inl (total_indicator_zero.mpr (hnobody c hc))
    · rw [if_neg hc] at hannounces
      rcases hs c with hnone | hfew
      · exact .inl (by dsimp only; omega)
      · refine .inr ?_
        dsimp only
        split at hawakers
        · rename_i hown
          have hless := htakes hown
          omega
        · omega
  | @one v op' hv =>
    have hsleepers' := total_set (indicator (sleepsOn m c)) hv (.woken op')
    have hawakers' := total_set (indicator (awakeFor m c)) hv (.woken op')
    have hsleeper : indicator (sleepsOn m c) (.asleep op' : Phase ω ρ) =
        if m.cond op' = c then 1 else 0 := by
      by_cases hc : m.cond op' = c <;> simp [indicator, sleepsOn, hc]
    have hwoken : indicator (awakeFor m c) (.woken op' : Phase ω ρ) =
        if m.cond op' = c then 1 else 0 := by
      by_cases hc : m.cond op' = c <;> simp [indicator, awakeFor, hc]
    simp only [hsleeper, hwoken, show indicator (sleepsOn m c) (.woken op' : Phase ω ρ) = 0 from rfl,
      show indicator (awakeFor m c) (.asleep op' : Phase ω ρ) = 0 from rfl] at hsleepers' hawakers'
    simp only [Option.some.injEq] at hannounces
    rcases hs c with hnone | hfew
    · exact .inl (by dsimp only; omega)
    · refine .inr ?_
      dsimp only
      split at hawakers
      · rename_i hown
        have hless := htakes hown
        split at hawakers' <;> omega
      · split at hawakers' <;> simp_all <;> omega

theorem step_noneForgotten (hg : Gauge m I g) {s s' : State σ ω ρ} {a : Action ω}
    (hI : I s.shared) (hs : NoneForgotten m g s) (h : step m s a = some s') :
    I s'.shared ∧ NoneForgotten m g s' := by
  cases step_move h with
  | call ht => exact ⟨hI, noneForgotten_set hs ht (fun _ => Nat.le_refl _) fun _ => Nat.le_refl _⟩
  | lock ht hold _ =>
    refine ⟨hI, noneForgotten_set hs ht (fun _ => Nat.zero_le _) fun c => ?_⟩
    rcases hold with rfl | rfl
    · exact Nat.zero_le _
    · exact Nat.le_refl _
  | @wait t op ht hready =>
    refine ⟨hI, fun c => ?_⟩
    by_cases hc : m.cond op = c
    · -- the test has failed, so the data allows none of its operations
      subst hc
      have hzero : ¬0 < g (m.cond op) s.shared := by
        rw [← hg.ready_iff hI, hready]
        simp
      exact .inr (by dsimp only; omega)
    · have hsleepers := total_set (indicator (sleepsOn m c)) ht (.asleep op)
      have hawakers := total_set (indicator (awakeFor m c)) ht (.asleep op)
      simp only [indicator, sleepsOn, awakeFor, hc, decide_false, Bool.toNat_false,
        Nat.add_zero] at hsleepers hawakers
      rcases hs c with hnone | hfew
      · exact .inl (hsleepers.trans hnone)
      · exact .inr (hfew.trans (Nat.le_of_eq hawakers.symm))
  | pass ht hready hw => exact ⟨hg.keeps hI hready, pass_noneForgotten hg hI hs ht hready hw _⟩
  | spurious ht =>
    exact ⟨hI, noneForgotten_set hs ht (fun _ => Nat.zero_le _) fun _ => Nat.zero_le _⟩
  | unlock ht => exact ⟨hI, noneForgotten_set hs ht (fun _ => Nat.le_refl _) fun _ => Nat.le_refl _⟩

end Wakeups

section Progress

variable [DecidableEq κ] {m : Operations σ ω ρ κ}

/-- No thread goes on unless it calls an operation or wakes up without a signal. -/
def Stuck (m : Operations σ ω ρ κ) (s : State σ ω ρ) : Prop :=
  ∀ a, (∀ t op, a ≠ .call t op) → (∀ t, a ≠ .spurious t) → step m s a = none

/-- A signal can always be sent. -/
theorem wake_possible (threads : List (Phase ω ρ)) (signal : Option κ) :
    ∃ waked after, wake m threads signal waked = some after := by
  cases signal with
  | none => exact ⟨none, threads, rfl⟩
  | some c =>
    cases hany : threads.any (sleepsOn m c) with
    | false => exact ⟨none, threads, by simp [wake, hany]⟩
    | true =>
      obtain ⟨phase, hmem, hsleeps⟩ := List.any_eq_true.mp hany
      obtain ⟨v, hv⟩ := List.mem_iff_getElem?.mp hmem
      cases phase with
      | asleep op =>
        have hc : m.cond op = c := by simpa [sleepsOn] using hsleeps
        exact ⟨some v, threads.set v (.woken op), by simp [wake, hv, hc]⟩
      | _ => simp [sleepsOn] at hsleeps

theorem stuck_phase {s : State σ ω ρ} (h : Stuck m s) {phase : Phase ω ρ}
    (hmem : phase ∈ s.threads) : phase = .outside ∨ ∃ op, phase = .asleep op := by
  have hfree : s.threads.any holds = false := by
    rw [Bool.eq_false_iff]
    intro hany
    obtain ⟨holder, hholder, hholds⟩ := List.any_eq_true.mp hany
    obtain ⟨t, ht⟩ := List.mem_iff_getElem?.mp hholder
    cases holder with
    | testing op =>
      cases hready : m.ready op s.shared with
      | false =>
        have hnone := h (.wait t) (by simp) (by simp)
        simp [step, ht, hready] at hnone
      | true =>
        obtain ⟨waked, after, hwake⟩ := wake_possible (m := m)
          (s.threads.set t (.unlocking op (m.body op s.shared).result))
          (m.body op s.shared).signal
        have hnone := h (.pass t waked) (by simp) (by simp)
        simp [step, ht, hready, hwake] at hnone
    | unlocking op result =>
      have hnone := h (.unlock t) (by simp) (by simp)
      simp [step, ht] at hnone
    | _ => simp [holds] at hholds
  obtain ⟨t, ht⟩ := List.mem_iff_getElem?.mp hmem
  have hlock := h (.lock t) (by simp) (by simp)
  cases phase with
  | outside => exact .inl rfl
  | asleep op => exact .inr ⟨op, rfl⟩
  | locking op => simp [step, hfree, ht] at hlock
  | woken op => simp [step, hfree, ht] at hlock
  | testing op =>
    rw [List.any_eq_false] at hfree
    exact absurd rfl (hfree _ hmem)
  | unlocking op result =>
    rw [List.any_eq_false] at hfree
    exact absurd rfl (hfree _ hmem)

/-- The threads are stuck only where each of them waits for what the data does not allow. -/
theorem stuck_waits {I : σ → Prop} {g : κ → σ → Nat} (hg : Gauge m I g) {s : State σ ω ρ}
    (hI : I s.shared) (hs : NoneForgotten m g s) (h : Stuck m s) {op : ω}
    (hmem : .asleep op ∈ s.threads) : m.ready op s.shared = false := by
  obtain ⟨t, ht⟩ := List.mem_iff_getElem?.mp hmem
  have hawake : total (indicator (awakeFor m (m.cond op))) s.threads = 0 := by
    rw [total_indicator_zero, List.any_eq_false]
    intro phase hphase
    rcases stuck_phase h hphase with rfl | ⟨op', rfl⟩ <;> simp [awakeFor]
  have hsleeper := total_le (indicator (sleepsOn m (m.cond op))) ht
  have hone : indicator (sleepsOn m (m.cond op)) (.asleep op : Phase ω ρ) = 1 := by
    simp [indicator, sleepsOn]
  rw [Bool.eq_false_iff]
  intro hready
  have hpos := (hg.ready_iff hI).mp hready
  rcases hs (m.cond op) with hnone | hfew
  · omega
  · omega

/-- What a thread still has to do in the operation that it is in, counting the thread that
its signal wakes. -/
def weight : Phase ω ρ → Nat
  | .outside => 0
  | .unlocking _ _ => 1
  | .asleep _ => 3
  | .testing _ => 4
  | .locking _ | .woken _ => 5

/-- What a step adds to the work. -/
def cost : Action ω → Nat
  | .call _ _ => 6
  | .spurious _ => 3
  | _ => 0

theorem waked_weight {threads after : List (Phase ω ρ)} {signal : Option κ}
    (h : Waked m threads signal after) : total weight after ≤ total weight threads + 2 := by
  cases h with
  | nobody => exact Nat.le_add_right _ _
  | @one v op hv =>
    have hset := total_set weight hv (.woken op)
    simp only [weight] at hset
    omega

theorem step_weight {s s' : State σ ω ρ} {a : Action ω} (h : step m s a = some s') :
    total weight s'.threads + 1 ≤ total weight s.threads + cost a := by
  cases step_move h with
  | @call t op ht =>
    have hset := total_set weight ht (.locking op)
    simp only [weight, cost] at hset ⊢
    omega
  | @lock t op old ht hold _ =>
    have hset := total_set weight ht (.testing op)
    rcases hold with rfl | rfl <;>
    · simp only [weight, cost] at hset ⊢
      omega
  | @wait t op ht _ =>
    have hset := total_set weight ht (.asleep op)
    simp only [weight, cost] at hset ⊢
    omega
  | @pass t op _ _ ht _ hw =>
    have hset := total_set weight ht (.unlocking op (m.body op s.shared).result)
    have hle := waked_weight hw
    simp only [weight, cost] at hset ⊢
    omega
  | @spurious t op ht =>
    have hset := total_set weight ht (.woken op)
    simp only [weight, cost] at hset ⊢
    omega
  | @unlock t op result ht =>
    have hset := total_set weight ht .outside
    simp only [weight, cost] at hset ⊢
    omega

/-- Threads cannot keep each other busy: the calls and the spurious wakeups pay for every
step. -/
theorem run_length_le {s s' : State σ ω ρ} {acts : List (Action ω)}
    (h : run (step m) s acts = some s') :
    acts.length + total weight s'.threads ≤ total weight s.threads + (acts.map cost).sum :=
  run_paid (I := fun _ => True) (fun _ _ _ _ hstep => ⟨trivial, step_weight hstep⟩) trivial h

end Progress

end Xnbd.Monitor
