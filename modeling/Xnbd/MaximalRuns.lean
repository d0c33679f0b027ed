import Mathlib.Data.Set.Card

/-!
# Maximal runs of a predicate on an interval

A maximal run is a longest part of an interval of natural numbers on which a predicate
holds. Two of them neither overlap nor touch, so a run is known by its first number, and
there are as many runs as numbers at which the predicate begins to hold.
-/
namespace Xnbd.MaximalRuns

/-- `[lo, hi)` is a longest part of `[first, stop)` on which `p` holds. -/
structure MaximalRun (p : Nat → Bool) (first stop lo hi : Nat) : Prop where
  nonempty : lo < hi
  lower : first ≤ lo
  upper : hi ≤ stop
  holds : ∀ b, lo ≤ b → b < hi → p b = true
  left : lo = first ∨ p (lo - 1) = false
  right : hi = stop ∨ p hi = false

def maximalRuns (p : Nat → Bool) (first stop : Nat) : Set (Nat × Nat) :=
  {r | MaximalRun p first stop r.1 r.2}

/-- The predicate begins to hold here. -/
def starts (p : Nat → Bool) (first b : Nat) : Bool :=
  p b && (decide (b = first) || !p (b - 1))

variable {p : Nat → Bool} {first stop lo hi lo' hi' : Nat}

theorem starts_iff : starts p first lo = true ↔ p lo = true ∧ (lo = first ∨ p (lo - 1) = false) := by
  simp [starts]

/-- A run that begins in another one or right behind it ends with it. -/
theorem MaximalRun.hi_le (h : MaximalRun p first stop lo hi) (h' : MaximalRun p first stop lo' hi')
    (hlo : lo' ≤ hi) : hi' ≤ hi := by
  by_contra hlt
  have hin := h'.holds hi hlo (by omega)
  cases h.right with
  | inl hstop =>
    have := h'.upper
    omega
  | inr hfalse =>
    rw [hfalse] at hin
    cases hin

theorem MaximalRun.hi_eq (h : MaximalRun p first stop lo hi) (h' : MaximalRun p first stop lo hi') :
    hi = hi' :=
  Nat.le_antisymm (h'.hi_le h (Nat.le_of_lt h'.nonempty)) (h.hi_le h' (Nat.le_of_lt h.nonempty))

/-- Between two runs there is a number without the property. -/
theorem MaximalRun.apart (h : MaximalRun p first stop lo hi) (h' : MaximalRun p first stop lo' hi')
    (hlt : lo < lo') : hi < lo' := by
  by_contra hle
  cases h'.left with
  | inl hfirst =>
    have := h.lower
    omega
  | inr hfalse =>
    have hin := h.holds (lo' - 1) (by omega) (by omega)
    rw [hfalse] at hin
    cases hin

/-- The runs of a number are the same. -/
theorem MaximalRun.eq_of_mem (h : MaximalRun p first stop lo hi)
    (h' : MaximalRun p first stop lo' hi') (hlo : lo ≤ lo') (hhi : lo' < hi) :
    lo = lo' ∧ hi = hi' := by
  have heq : lo = lo' := by
    by_contra hne
    have := h.apart h' (by omega)
    omega
  subst heq
  exact ⟨rfl, h.hi_eq h'⟩

theorem MaximalRun.starts_lo (h : MaximalRun p first stop lo hi) : starts p first lo = true :=
  starts_iff.mpr ⟨h.holds lo (Nat.le_refl _) h.nonempty, h.left⟩

/-- Where the predicate begins to hold, there is a run. -/
theorem exists_maximalRun (hs : starts p first lo = true) (hfirst : first ≤ lo) (hlt : lo < stop) :
    ∃ hi, MaximalRun p first stop lo hi := by
  obtain ⟨hlo, hleft⟩ := starts_iff.mp hs
  have hone : ∀ b, lo ≤ b → b < lo + 1 → p b = true := by
    intro b h0 h1
    have heq : b = lo := by omega
    rw [heq]
    exact hlo
  induction stop, hlt using Nat.le_induction with
  | base =>
    exact ⟨lo + 1, Nat.lt_succ_self _, hfirst, Nat.le_refl _, hone, hleft, .inl rfl⟩
  | succ stop hle ih =>
    obtain ⟨hi, h⟩ := ih
    by_cases hgrows : hi = stop ∧ p hi = true
    · -- the run reaches the new number
      obtain ⟨rfl, hhi⟩ := hgrows
      refine ⟨hi + 1, by have := h.nonempty; omega, hfirst, Nat.le_refl _, ?_, hleft, .inl rfl⟩
      intro b h0 h1
      by_cases hb : b = hi
      · rw [hb]
        exact hhi
      · exact h.holds b h0 (by omega)
    · have hright : p hi = false := by
        cases h.right with
        | inl hstop => simpa [hstop] using hgrows
        | inr hfalse => exact hfalse
      exact ⟨hi, h.nonempty, hfirst, Nat.le_succ_of_le h.upper, h.holds, hleft, .inr hright⟩

theorem ncard_maximalRuns (p : Nat → Bool) (first n : Nat) :
    (maximalRuns p first (first + n)).ncard = (List.range' first n).countP (starts p first) := by
  have hinj : Set.InjOn Prod.fst (maximalRuns p first (first + n)) := by
    intro r hr r' hr' heq
    have hrun : MaximalRun p first (first + n) r.1 r'.2 := by
      rw [show r.1 = r'.1 from heq]
      exact hr'
    exact Prod.ext heq (MaximalRun.hi_eq hr hrun)
  have himage : Prod.fst '' maximalRuns p first (first + n) =
      ((List.range' first n).filter (starts p first)).toFinset := by
    ext lo
    rw [Set.mem_image, List.coe_toFinset, Set.mem_ofPred_eq, List.mem_filter, List.mem_range'_1]
    constructor
    · intro h
      obtain ⟨⟨lo, hi⟩, hrun, rfl⟩ := h
      have hlt := MaximalRun.nonempty hrun
      have hupper := MaximalRun.upper hrun
      exact ⟨⟨MaximalRun.lower hrun, by omega⟩, MaximalRun.starts_lo hrun⟩
    · intro h
      obtain ⟨hi, hrun⟩ := exists_maximalRun h.2 h.1.1 h.1.2
      exact ⟨(lo, hi), hrun, rfl⟩
  have hnodup : ((List.range' first n).filter (starts p first)).Nodup :=
    List.Nodup.filter _ List.nodup_range'
  rw [← hinj.ncard_image, himage, Set.ncard_coe_finset, List.toFinset_card_of_nodup hnodup,
    List.countP_eq_length_filter]

end Xnbd.MaximalRuns
