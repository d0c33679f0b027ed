import Mathlib.Data.List.Basic

/-!
# Files as byte functions

A file is a function from offsets to bytes; its length is kept by whoever owns
it. The operations are those a mapped file sees: reading a range, storing a
buffer, storing from another file, and punching a hole.
-/
namespace Xnbd.Bytes

abbrev File := Nat → UInt8

/-- The bytes `[iofrom, iofrom + iolen)` of a file. -/
def slice (f : File) (iofrom iolen : Nat) : List UInt8 :=
  (List.range iolen).map fun k => f (iofrom + k)

/-- `memcpy` of a buffer into the file at `iofrom`. -/
def store (f : File) (iofrom : Nat) (buf : List UInt8) : File := fun x =>
  if iofrom ≤ x then (buf[x - iofrom]?).getD (f x) else f x

/-- The file with `[iofrom, iofrom + iolen)` read as zero. -/
def zero (f : File) (iofrom iolen : Nat) : File := fun x =>
  if iofrom ≤ x ∧ x < iofrom + iolen then 0 else f x

@[simp] theorem slice_length (f : File) (iofrom iolen : Nat) :
    (slice f iofrom iolen).length = iolen := by simp [slice]

theorem slice_getElem? (f : File) (iofrom iolen k : Nat) (h : k < iolen) :
    (slice f iofrom iolen)[k]? = some (f (iofrom + k)) := by
  simp [slice, h]

theorem slice_add (f : File) (iofrom m n : Nat) :
    slice f iofrom (m + n) = slice f iofrom m ++ slice f (iofrom + m) n := by
  simp only [slice, List.range_add, List.map_append, List.map_map]
  congr 1
  apply List.map_congr_left
  intro k _
  simp [Nat.add_assoc]

/-- Two files that agree on a range have the same slice there. -/
theorem slice_congr {f g : File} {iofrom iolen : Nat}
    (h : ∀ x, iofrom ≤ x → x < iofrom + iolen → f x = g x) :
    slice f iofrom iolen = slice g iofrom iolen := by
  apply List.map_congr_left
  intro k hk
  have hk : k < iolen := List.mem_range.mp hk
  exact h (iofrom + k) (by omega) (by omega)

theorem store_inside {f : File} {iofrom x : Nat} {buf : List UInt8} (h0 : iofrom ≤ x)
    (h1 : x < iofrom + buf.length) : some (store f iofrom buf x) = buf[x - iofrom]? := by
  have hx : x - iofrom < buf.length := by omega
  simp [store, h0, hx]

theorem store_outside {f : File} {iofrom x : Nat} {buf : List UInt8}
    (h : x < iofrom ∨ iofrom + buf.length ≤ x) : store f iofrom buf x = f x := by
  unfold store
  split
  · have hx : buf.length ≤ x - iofrom := by omega
    simp [List.getElem?_eq_none hx]
  · rfl

/-- A store decides the bytes of its own range without looking at the old file. -/
theorem store_congr_inside (f g : File) {iofrom x : Nat} {buf : List UInt8} (h0 : iofrom ≤ x)
    (h1 : x < iofrom + buf.length) : store f iofrom buf x = store g iofrom buf x := by
  apply Option.some.inj
  rw [store_inside h0 h1, store_inside h0 h1]

theorem store_slice_inside (f g : File) {iofrom iolen off x : Nat} (h0 : iofrom ≤ x)
    (h1 : x < iofrom + iolen) :
    store f iofrom (slice g off iolen) x = g (off + (x - iofrom)) := by
  have hx : x - iofrom < iolen := by omega
  simp [store, h0, slice_getElem? g off iolen (x - iofrom) hx]

/-- Bytes stored one after the other are stored as one. -/
theorem store_store (f : File) (start n : Nat) (bytes : List UInt8) :
    store (store f start (bytes.take n)) (start + n) (bytes.drop n) = store f start bytes := by
  funext x
  simp only [store]
  grind

theorem zero_inside {f : File} {iofrom iolen x : Nat} (h0 : iofrom ≤ x)
    (h1 : x < iofrom + iolen) : zero f iofrom iolen x = 0 := by simp [zero, h0, h1]

theorem zero_outside {f : File} {iofrom iolen x : Nat}
    (h : x < iofrom ∨ iofrom + iolen ≤ x) : zero f iofrom iolen x = f x := by
  unfold zero
  split
  · omega
  · rfl

end Xnbd.Bytes
