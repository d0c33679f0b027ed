import Mathlib.Data.List.Basic

/-!
# Components named by their place

The components of a system form a list and are named by their place in it. A step
changes one of them or adds one behind the others. The rules say what has to be shown
for a property of each component with its name.
-/
namespace Xnbd.Places

variable {α : Type} {l : List α} {k : Nat} {a : α} {P : Nat → α → Prop}

/-- One component changes. -/
theorem forall_set (hother : ∀ j b, l[j]? = some b → j ≠ k → P j b) (hk : P k a) :
    ∀ j b, (l.set k a)[j]? = some b → P j b := by
  intro j b hj
  rw [List.getElem?_set] at hj
  split at hj
  · rename_i heq
    subst heq
    split at hj
    · cases hj
      exact hk
    · cases hj
  · rename_i hne
    exact hother j b hj fun heq => hne heq.symm

/-- One component is added. -/
theorem forall_append (hold : ∀ j b, l[j]? = some b → P j b) (hnew : P l.length a) :
    ∀ j b, (l ++ [a])[j]? = some b → P j b := by
  intro j b hj
  rw [List.getElem?_append] at hj
  split at hj
  · exact hold j b hj
  · rename_i hout
    rw [List.getElem?_singleton] at hj
    split at hj
    · rename_i hzero
      cases hj
      have heq : j = l.length := by omega
      rw [heq]
      exact hnew
    · cases hj

/-- How many components have a property, when one of them changes. -/
theorem countP_change {b : α} (p : α → Bool) (hk : l[k]? = some b) :
    (l.set k a).countP p + (p b).toNat = l.countP p + (p a).toNat := by
  obtain ⟨hlt, rfl⟩ := List.getElem?_eq_some_iff.mp hk
  have hle := List.boole_getElem_le_countP (p := p) hlt
  rw [List.countP_set hlt]
  cases hold : p l[k] <;> cases p a <;>
    simp only [hold, Bool.toNat_true, Bool.toNat_false, if_true, if_false, Bool.false_eq_true] at hle ⊢ <;>
    omega

end Xnbd.Places
