import Mathlib.Data.List.Perm.Basic
import Mathlib.Order.Basic

/-!
# Listing an unordered collection by repeated selection

The collection can only be walked, each time in some order. A first walk finds the
smallest key. Every further walk emits the element with the current key and finds
the next larger one. A key `top` that no element has ends the work.
-/
namespace Xnbd.Selection

variable {α : Type} (key : α → Nat)

/-- The smallest key below `bound` that a walk meets. -/
def smallest (bound : Nat) (walk : List α) : Nat :=
  walk.foldl (fun m a => if key a < m then key a else m) bound

/-- The walks that emit, one for each key; the fuel bounds their number. -/
def select (top : Nat) (walks : Nat → List α) : Nat → Nat → List α → Option (List α)
  | 0, _, _ => none
  | fuel + 1, current, out =>
    if current < top then
      select top walks fuel (smallest key top ((walks fuel).filter fun a => current < key a))
        (out ++ (walks fuel).filter fun a => key a = current)
    else some out

/-- The order of the walk does not matter. -/
theorem smallest_perm (bound : Nat) {walk₁ walk₂ : List α} (h : walk₁.Perm walk₂) :
    smallest key bound walk₁ = smallest key bound walk₂ := by
  have hmin : ∀ m a, (if key a < m then key a else m) = min m (key a) := by
    intro m a
    split <;> omega
  apply h.foldl_eq'
  intro a _ b _ m
  simp only [hmin]
  omega

/-- In a sorted walk it is the first key. -/
theorem smallest_sorted {bound : Nat} {walk : List α} (hsorted : walk.Pairwise (key · < key ·))
    (hbound : ∀ a ∈ walk, key a < bound) :
    smallest key bound walk = (walk.head?.map key).getD bound := by
  cases walk with
  | nil => rfl
  | cons a walk =>
    obtain ⟨hfirst, -⟩ := List.pairwise_cons.mp hsorted
    have hkeeps : ∀ rest : List α, (∀ b ∈ rest, key a < key b) → smallest key (key a) rest = key a := by
      intro rest
      induction rest with
      | nil => exact fun _ => rfl
      | cons b rest ih =>
        intro hrest
        have hb := hrest b List.mem_cons_self
        rw [smallest, List.foldl_cons, if_neg (by omega)]
        exact ih fun c hc => hrest c (List.mem_cons_of_mem _ hc)
    have hstart : smallest key bound (a :: walk) = smallest key (key a) walk := by
      rw [smallest, List.foldl_cons, if_pos (hbound a List.mem_cons_self)]
      rfl
    rw [hstart, hkeeps walk hfirst]
    rfl

section Sorted

variable {before rest : List α} {a : α}

/-- What a walk emits when the elements before the current one are done. -/
theorem filter_current {walk : List α} (hsorted : (before ++ a :: rest).Pairwise (key · < key ·))
    (hwalk : walk.Perm (before ++ a :: rest)) : walk.filter (fun b => key b = key a) = [a] := by
  obtain ⟨-, hafter, hacross⟩ := List.pairwise_append.mp hsorted
  obtain ⟨hlater, -⟩ := List.pairwise_cons.mp hafter
  have hbefore : before.filter (fun b => key b = key a) = [] := by
    rw [List.filter_eq_nil_iff]
    intro b hb
    have := hacross b hb a List.mem_cons_self
    simp only [decide_eq_true_eq]
    omega
  have hrest : rest.filter (fun b => key b = key a) = [] := by
    rw [List.filter_eq_nil_iff]
    intro b hb
    have := hlater b hb
    simp only [decide_eq_true_eq]
    omega
  have hone : (before ++ a :: rest).filter (fun b => key b = key a) = [a] := by
    rw [List.filter_append, List.filter_cons_of_pos (by simp), hbefore, hrest]
    rfl
  exact List.perm_singleton.mp (hone ▸ hwalk.filter _)

/-- The elements still to come are those with larger keys. -/
theorem filter_later (hsorted : (before ++ a :: rest).Pairwise (key · < key ·)) :
    (before ++ a :: rest).filter (fun b => key a < key b) = rest := by
  obtain ⟨-, hafter, hacross⟩ := List.pairwise_append.mp hsorted
  obtain ⟨hlater, -⟩ := List.pairwise_cons.mp hafter
  have hbefore : before.filter (fun b => key a < key b) = [] := by
    rw [List.filter_eq_nil_iff]
    intro b hb
    have := hacross b hb a List.mem_cons_self
    simp only [decide_eq_true_eq]
    omega
  have hrest : rest.filter (fun b => key a < key b) = rest := by
    rw [List.filter_eq_self]
    intro b hb
    simpa using hlater b hb
  rw [List.filter_append, List.filter_cons_of_neg (by simp), hbefore, hrest]
  rfl

end Sorted

/-- The work from the middle on. -/
theorem select_from {top : Nat} {walks : Nat → List α} {rest : List α} :
    ∀ {before : List α} {fuel : Nat}, (before ++ rest).Pairwise (key · < key ·) →
      (∀ a ∈ before ++ rest, key a < top) → (∀ n, (walks n).Perm (before ++ rest)) →
      rest.length < fuel →
      select key top walks fuel ((rest.head?.map key).getD top) before = some (before ++ rest) := by
  induction rest with
  | nil =>
    intro before fuel _ _ _ hfuel
    obtain ⟨fuel, rfl⟩ := Nat.exists_eq_add_of_lt hfuel
    simp [select]
  | cons a rest ih =>
    intro before fuel hsorted htop hwalks hfuel
    cases fuel with
    | zero => exact absurd hfuel (Nat.not_lt_zero _)
    | succ fuel =>
      have hgo : key a < top := htop a (by simp)
      have hlater : rest.Pairwise (key · < key ·) :=
        (List.pairwise_cons.mp (List.pairwise_append.mp hsorted).2.1).2
      have hnext : smallest key top ((walks fuel).filter fun b => key a < key b) =
          (rest.head?.map key).getD top := by
        rw [smallest_perm key top ((hwalks fuel).filter _), filter_later key hsorted]
        exact smallest_sorted key hlater fun b hb => htop b (by simp [hb])
      have hassoc : before ++ a :: rest = (before ++ [a]) ++ rest := by simp
      have hcurrent : ((a :: rest).head?.map key).getD top = key a := rfl
      rw [hcurrent, select, if_pos hgo, hnext, filter_current key hsorted (hwalks fuel)]
      rw [hassoc] at hsorted htop hwalks ⊢
      exact ih hsorted htop hwalks (by rw [List.length_cons] at hfuel; omega)

/-- The elements come out in the order of their keys, each of them once. -/
theorem select_sorted {top : Nat} {walks : Nat → List α} {first sorted : List α} {fuel : Nat}
    (hsorted : sorted.Pairwise (key · < key ·)) (htop : ∀ a ∈ sorted, key a < top)
    (hfirst : first.Perm sorted) (hwalks : ∀ n, (walks n).Perm sorted) (hfuel : sorted.length < fuel) :
    select key top walks fuel (smallest key top first) [] = some sorted := by
  rw [smallest_perm key top hfirst, smallest_sorted key hsorted htop]
  exact @select_from _ key top walks sorted [] fuel hsorted htop hwalks hfuel

end Xnbd.Selection
