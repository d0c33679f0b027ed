import Mathlib.Algebra.Ring.Nat
import Mathlib.Logic.Basic

/-!
# Runs of guarded transition systems

A system is a partial step function: `none` means that the action is not
enabled in the state. A run is a finite list of actions. Conditions on a run
speak about each state together with the action taken from it, so that a
theorem can be about exactly those runs whose steps all meet a condition.
-/
namespace Xnbd.Run

variable {σ α : Type}

def run (step : σ → α → Option σ) : σ → List α → Option σ
  | s, [] => some s
  | s, a :: rest => (step s a).bind fun t => run step t rest

@[simp] theorem run_nil (step : σ → α → Option σ) (s : σ) : run step s [] = some s := rfl

theorem run_cons (step : σ → α → Option σ) (s : σ) (a : α) (rest : List α) :
    run step s (a :: rest) = (step s a).bind fun t => run step t rest := rfl

/-- The first step of a nonempty run, with the rest of the run after it. -/
theorem run_cons_some {step : σ → α → Option σ} {s t : σ} {a : α} {rest : List α}
    (h : run step s (a :: rest) = some t) :
    ∃ m, step s a = some m ∧ run step m rest = some t := by
  rw [run_cons] at h
  cases hm : step s a with
  | none => simp [hm] at h
  | some m => exact ⟨m, rfl, by simpa [hm] using h⟩

theorem run_step {step : σ → α → Option σ} {s t : σ} {a : α} (h : step s a = some t)
    (rest : List α) : run step s (a :: rest) = run step t rest := by
  rw [run_cons, h]
  rfl

theorem run_append (step : σ → α → Option σ) (s : σ) (as bs : List α) :
    run step s (as ++ bs) = (run step s as).bind fun t => run step t bs := by
  induction as generalizing s with
  | nil => rfl
  | cons a rest ih =>
    rw [List.cons_append, run_cons, run_cons]
    cases step s a with
    | none => rfl
    | some t => exact ih t

/-- A run that goes on where another one ended. -/
theorem run_join {step : σ → α → Option σ} {s t u : σ} {as bs : List α}
    (h₁ : run step s as = some t) (h₂ : run step t bs = some u) :
    run step s (as ++ bs) = some u := by
  rw [run_append, h₁]
  exact h₂

/-- Every step of the run is taken in a state where the condition allows it. -/
def Along (step : σ → α → Option σ) (P : σ → α → Prop) : σ → List α → Prop
  | _, [] => True
  | s, a :: rest => P s a ∧ ∀ t ∈ step s a, Along step P t rest

theorem along_true (step : σ → α → Option σ) (s : σ) (acts : List α) :
    Along step (fun _ _ => True) s acts := by
  induction acts generalizing s with
  | nil => trivial
  | cons a rest ih => exact ⟨trivial, fun t _ => ih t⟩

theorem along_forall {step : σ → α → Option σ} {P : α → Prop} {s : σ} {acts : List α}
    (h : ∀ a ∈ acts, P a) : Along step (fun _ a => P a) s acts := by
  induction acts generalizing s with
  | nil => trivial
  | cons a rest ih =>
    exact ⟨h a List.mem_cons_self, fun t _ => ih fun b hb => h b (List.mem_cons_of_mem _ hb)⟩

/-- Conditions on a run that goes on where another one ended. -/
theorem along_join {step : σ → α → Option σ} {P : σ → α → Prop} {s t : σ} {as bs : List α}
    (h₁ : Along step P s as) (h : run step s as = some t) (h₂ : Along step P t bs) :
    Along step P s (as ++ bs) := by
  induction as generalizing s with
  | nil =>
    cases h
    exact h₂
  | cons a rest ih =>
    obtain ⟨m, hm, hrest⟩ := run_cons_some h
    refine ⟨h₁.1, fun u hu => ?_⟩
    cases hm.symm.trans hu
    exact ih (h₁.2 m hm) hrest

/-- The invariant rule: what every allowed step preserves holds after the run. -/
theorem run_invariant {step : σ → α → Option σ} {P : σ → α → Prop} {I : σ → Prop}
    (hstep : ∀ s a t, I s → P s a → step s a = some t → I t)
    {s t : σ} {acts : List α} (hs : I s) (hp : Along step P s acts)
    (h : run step s acts = some t) : I t := by
  induction acts generalizing s with
  | nil =>
    cases h
    exact hs
  | cons a rest ih =>
    obtain ⟨m, hm, hrest⟩ := run_cons_some h
    exact ih (hstep s a m hs hp.1 hm) (hp.2 m hm) hrest

/-- A measure that every allowed step lowers bounds the length of the run. -/
theorem run_bounded {step : σ → α → Option σ} {P : σ → α → Prop} {I : σ → Prop} {left : σ → Nat}
    (hstep : ∀ s a t, I s → P s a → step s a = some t → I t ∧ left t < left s)
    {s t : σ} {acts : List α} (hs : I s) (hp : Along step P s acts)
    (h : run step s acts = some t) : acts.length + left t ≤ left s := by
  induction acts generalizing s with
  | nil =>
    cases h
    simp
  | cons a rest ih =>
    obtain ⟨m, hm, hrest⟩ := run_cons_some h
    obtain ⟨hi, hlt⟩ := hstep s a m hs hp.1 hm
    have hle := ih hi (hp.2 m hm) hrest
    rw [List.length_cons]
    omega

/-- When every step lowers the measure, up to what its action costs, the costs bound the
length of the run. -/
theorem run_paid {step : σ → α → Option σ} {I : σ → Prop} {left : σ → Nat} {cost : α → Nat}
    (hstep : ∀ s a t, I s → step s a = some t → I t ∧ left t + 1 ≤ left s + cost a)
    {s t : σ} {acts : List α} (hs : I s) (h : run step s acts = some t) :
    acts.length + left t ≤ left s + (acts.map cost).sum := by
  induction acts generalizing s with
  | nil =>
    cases h
    simp
  | cons a rest ih =>
    obtain ⟨m, hm, hrest⟩ := run_cons_some h
    obtain ⟨hi, hpaid⟩ := hstep s a m hs hm
    have hle := ih hi hrest
    rw [List.length_cons, List.map_cons, List.sum_cons]
    omega

instance instDecidableAlong (step : σ → α → Option σ) (P : σ → α → Prop)
    [∀ s a, Decidable (P s a)] (s : σ) (acts : List α) : Decidable (Along step P s acts) :=
  match acts with
  | [] => isTrue trivial
  | a :: rest =>
    match hs : step s a with
    | none =>
      decidable_of_iff (P s a) ⟨fun h => ⟨h, fun t ht => by simp [hs] at ht⟩, fun h => h.1⟩
    | some m =>
      have : Decidable (Along step P m rest) := instDecidableAlong step P m rest
      decidable_of_iff (P s a ∧ Along step P m rest)
        ⟨fun h => ⟨h.1, fun t ht => by
          have he : m = t := by simpa [hs] using ht
          exact he ▸ h.2⟩, fun h => ⟨h.1, h.2 m (by simp [hs])⟩⟩

end Xnbd.Run
