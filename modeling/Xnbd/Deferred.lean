import Mathlib.Data.List.Basic

/-!
# Deferred execution

A front end takes decisions about a request at once, as if everything before
it had been carried out; the effects follow later and in order. What the front
end promised about each pending request is stated at the reference state in
which the request will be carried out.
-/
namespace Xnbd.Deferred

variable {σ α : Type}

/-- Every pending request was promised at the state the ones before it lead to. -/
def Chain (step : σ → α → σ) (ok : σ → α → Prop) : σ → List α → Prop
  | _, [] => True
  | s, a :: rest => ok s a ∧ Chain step ok (step s a) rest

variable {step : σ → α → σ} {ok : σ → α → Prop} {s : σ}

@[simp] theorem chain_nil : Chain step ok s [] := trivial

@[simp] theorem chain_cons {a : α} {rest : List α} :
    Chain step ok s (a :: rest) ↔ ok s a ∧ Chain step ok (step s a) rest := Iff.rfl

theorem chain_append {xs ys : List α} :
    Chain step ok s (xs ++ ys) ↔ Chain step ok s xs ∧ Chain step ok (xs.foldl step s) ys := by
  induction xs generalizing s with
  | nil => simp
  | cons a rest ih => simp [ih, and_assoc]

/-- Deferring one more request at the end. -/
theorem chain_concat {xs : List α} {a : α} (h : Chain step ok s xs) (ha : ok (xs.foldl step s) a) :
    Chain step ok s (xs ++ [a]) := chain_append.mpr ⟨h, ha, trivial⟩

/-- A pending request was promised at the state of the ones before it. -/
theorem chain_mem {pre post : List α} {a : α} (h : Chain step ok s (pre ++ a :: post)) :
    ok (pre.foldl step s) a := (chain_append.mp h).2.1

end Xnbd.Deferred
