import Mathlib.Algebra.Ring.Nat
import Mathlib.Logic.Basic

/-!
# Counting loops over `unsigned long`

`for (unsigned long i = first; i <= last; i++)` with a body that may end the
process. The counter is a 64-bit value, so a loop up to the largest one is
never left. The fuel bounds the number of rounds that are looked at.
-/
namespace Xnbd.Loop

variable {σ : Type}

/-- A loop after a number of rounds: left behind its last round, ended by its
body at a value of the counter, or still going. -/
inductive Outcome (σ : Type) where
  | left (s : σ)
  | stopped (i : Nat)
  | running
  deriving DecidableEq, Repr

def forLoop (body : σ → Nat → Option σ) (last : Nat) : Nat → Nat → σ → Outcome σ
  | 0, _, _ => .running
  | fuel + 1, i, s =>
    if i ≤ last then
      match body s i with
      | some s' => forLoop body last fuel ((i + 1) % 2 ^ 64) s'
      | none => .stopped i
    else .left s

/-- What the invariant of a loop says about its outcome. -/
def Within (body : σ → Nat → Option σ) (I : Nat → σ → Prop) (first last : Nat) :
    Outcome σ → Prop
  | .left s => I (last + 1) s
  | .stopped i => first ≤ i ∧ i ≤ last ∧ ∃ s, I i s ∧ body s i = none
  | .running => False

variable (body : σ → Nat → Option σ) (I : Nat → σ → Prop) {first last fuel : Nat} {s : σ}

/-- The body ends a loop only at a value that is still in range. -/
theorem forLoop_stopped {i : Nat} (h : forLoop body last fuel first s = .stopped i) : i ≤ last := by
  induction fuel generalizing first s with
  | zero => cases h
  | succ fuel ih =>
    simp only [forLoop] at h
    by_cases hle : first ≤ last
    · rw [if_pos hle] at h
      cases hb : body s first with
      | none =>
        simp only [hb] at h
        cases h
        exact hle
      | some s' =>
        simp only [hb] at h
        exact ih h
    · rw [if_neg hle] at h
      cases h

/-- The invariant rule. The loop is over, ended by its body only where the invariant held,
or there were too few rounds. -/
theorem forLoop_outcome (hlast : last < 2 ^ 64 - 1) (hfirst : first ≤ last + 1) (hs : I first s)
    (hbody : ∀ i s s', first ≤ i → i ≤ last → I i s → body s i = some s' → I (i + 1) s') :
    forLoop body last fuel first s = .running ∧ fuel + first < last + 2 ∨
      Within body I first last (forLoop body last fuel first s) := by
  induction fuel generalizing first s with
  | zero => exact .inl ⟨rfl, by omega⟩
  | succ fuel ih =>
    simp only [forLoop]
    by_cases hle : first ≤ last
    · rw [if_pos hle]
      cases hb : body s first with
      | none => exact .inr ⟨Nat.le_refl _, hle, s, hs, hb⟩
      | some s' =>
        have hnext : (first + 1) % 2 ^ 64 = first + 1 := Nat.mod_eq_of_lt (by omega)
        have h := @ih (first + 1) s' (by omega)
          (hbody first s s' (Nat.le_refl _) hle hs hb)
          (fun i t t' hi => hbody i t t' (by omega))
        simp only [hnext]
        cases ho : forLoop body last fuel (first + 1) s' with
        | left t =>
          rw [ho] at h
          exact .inr (h.resolve_left nofun)
        | stopped i =>
          rw [ho] at h
          obtain ⟨h0, hrest⟩ := h.resolve_left nofun
          exact .inr ⟨by omega, hrest⟩
        | running =>
          rw [ho] at h
          have hfew := (h.resolve_right id).2
          exact .inl ⟨rfl, by omega⟩
    · rw [if_neg hle]
      have he : first = last + 1 := by omega
      exact .inr (he ▸ hs)

/-- With enough rounds the loop is over. -/
theorem forLoop_within (hlast : last < 2 ^ 64 - 1) (hfirst : first ≤ last + 1)
    (hfuel : last + 2 ≤ fuel + first) (hs : I first s)
    (hbody : ∀ i s s', first ≤ i → i ≤ last → I i s → body s i = some s' → I (i + 1) s') :
    Within body I first last (forLoop body last fuel first s) :=
  (forLoop_outcome body I hlast hfirst hs hbody).resolve_left fun hfew => by omega

/-- A loop that was left keeps the invariant, however many rounds it took. -/
theorem forLoop_invariant {s' : σ} (hlast : last < 2 ^ 64 - 1) (hfirst : first ≤ last + 1)
    (hs : I first s)
    (hbody : ∀ i s s', first ≤ i → i ≤ last → I i s → body s i = some s' → I (i + 1) s')
    (h : forLoop body last fuel first s = .left s') : I (last + 1) s' := by
  have hout : forLoop body last fuel first s = .running ∧ fuel + first < last + 2 ∨
      Within body I first last (forLoop body last fuel first s) :=
    forLoop_outcome body I hlast hfirst hs hbody
  rw [h] at hout
  exact hout.resolve_left nofun

/-- A loop whose body never ends it is left. -/
theorem forLoop_left (hlast : last < 2 ^ 64 - 1) (hfirst : first ≤ last + 1)
    (hfuel : last + 2 ≤ fuel + first) (hs : I first s)
    (hbody : ∀ i s, first ≤ i → i ≤ last → I i s → ∃ s', body s i = some s' ∧ I (i + 1) s') :
    ∃ s', forLoop body last fuel first s = .left s' ∧ I (last + 1) s' := by
  have h := forLoop_within body I hlast hfirst hfuel hs (fun i t t' h0 h1 ht hb => by
    obtain ⟨u, hu, hI⟩ := hbody i t h0 h1 ht
    rw [hu] at hb
    cases hb
    exact hI)
  cases ho : forLoop body last fuel first s with
  | left s' =>
    rw [ho] at h
    exact ⟨s', rfl, h⟩
  | stopped i =>
    rw [ho] at h
    obtain ⟨h0, h1, t, ht, hb⟩ := h
    obtain ⟨u, hu, -⟩ := hbody i t h0 h1 ht
    rw [hu] at hb
    cases hb
  | running =>
    rw [ho] at h
    exact h.elim

end Xnbd.Loop
