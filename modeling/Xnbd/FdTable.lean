import Mathlib.Data.List.Basic

/-!
# Descriptor tables

A table gives each number that is in use what it refers to. A new descriptor gets
the lowest number that is free, and a number that is closed is free at once.
-/
namespace Xnbd.FdTable

variable {α : Type}

abbrev Table (α : Type) := List (Option α)

/-- What a number refers to. -/
def refers (table : Table α) (fd : Nat) : Option α := (table[fd]?).join

/-- The lowest number that is free. -/
def lowestFree (table : Table α) : Nat := table.findIdx fun entry => entry.isNone

/-- A new descriptor. -/
def allocate (table : Table α) (owner : α) : Table α :=
  (table ++ [none]).set (lowestFree table) (some owner)

/-- `close`. A number that is free stays so. -/
def close (table : Table α) (fd : Nat) : Table α := table.set fd none

@[simp] theorem refers_lowestFree (table : Table α) : refers table (lowestFree table) = none := by
  by_cases h : lowestFree table < table.length
  · have hfree := List.findIdx_getElem (w := h)
    rw [refers, List.getElem?_eq_getElem h, Option.join_some]
    exact Option.isNone_iff_eq_none.mp hfree
  · rw [refers, List.getElem?_eq_none (by omega)]
    rfl

theorem refers_allocate (table : Table α) (owner : α) (fd : Nat) :
    refers (allocate table owner) fd =
      if fd = lowestFree table then some owner else refers table fd := by
  have hle : lowestFree table ≤ table.length := List.findIdx_le_length
  rw [refers, allocate, List.getElem?_set]
  by_cases h : fd = lowestFree table
  · rw [if_pos h.symm, if_pos h, if_pos (by simp; omega)]
    rfl
  · rw [if_neg (fun he => h he.symm), if_neg h, refers, List.getElem?_append]
    split
    · rfl
    · rename_i hout
      rw [List.getElem?_eq_none (Nat.not_lt.mp hout)]
      cases fd - table.length with
      | zero => rfl
      | succ n => rfl

theorem refers_close (table : Table α) (fd i : Nat) :
    refers (close table fd) i = if i = fd then none else refers table i := by
  rw [refers, close, List.getElem?_set]
  by_cases h : i = fd
  · rw [if_pos h.symm, if_pos h]
    split <;> rfl
  · rw [if_neg (fun he => h he.symm), if_neg h, refers]

/-- A number in use does not change its meaning when another one is allocated. -/
theorem refers_allocate_used {table : Table α} {fd : Nat} {old : α}
    (h : refers table fd = some old) (owner : α) : refers (allocate table owner) fd = some old := by
  rw [refers_allocate, if_neg, h]
  rintro rfl
  rw [refers_lowestFree] at h
  cases h

/-- Closing a descriptor does not touch those that refer to something else. -/
theorem refers_close_other {table : Table α} {fd i : Nat} {a b : α} (hfd : refers table fd = some a)
    (hi : refers table i = some b) (hne : b ≠ a) : refers (close table fd) i = some b := by
  rw [refers_close, if_neg, hi]
  rintro rfl
  rw [hfd] at hi
  exact hne (Option.some.inj hi).symm

/-- Closing a free number changes nothing. -/
theorem refers_close_free {table : Table α} {fd : Nat} (h : refers table fd = none) (i : Nat) :
    refers (close table fd) i = refers table i := by
  rw [refers_close]
  split
  · rename_i heq
    rw [heq, h]
  · rfl

end Xnbd.FdTable
