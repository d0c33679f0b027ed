import Mathlib.Algebra.Ring.Int.Defs
import Mathlib.Algebra.Ring.Nat

/-!
# Integer conversions of an LP64 C compiler

Values are integers; a conversion is explicit. Conversions to a signed type
wrap around, as the compilers in use define them.
-/
namespace Xnbd.CInt

/-- Conversion to `int`. -/
def toInt32 (x : Int) : Int :=
  if x % 2 ^ 32 < 2 ^ 31 then x % 2 ^ 32 else x % 2 ^ 32 - 2 ^ 32

/-- Conversion to a signed 64-bit type: `off_t`, `ssize_t`, `long`. -/
def toInt64 (x : Int) : Int :=
  if x % 2 ^ 64 < 2 ^ 63 then x % 2 ^ 64 else x % 2 ^ 64 - 2 ^ 64

/-- Conversion to an unsigned 64-bit type: `size_t`, `uint64_t`, `unsigned long`. -/
def toUint64 (x : Int) : Nat := (x % 2 ^ 64).toNat

theorem toInt32_of_range {x : Int} (h0 : -2 ^ 31 ≤ x) (h1 : x < 2 ^ 31) : toInt32 x = x := by
  unfold toInt32
  omega

theorem toInt64_of_range {x : Int} (h0 : -2 ^ 63 ≤ x) (h1 : x < 2 ^ 63) : toInt64 x = x := by
  unfold toInt64
  omega

theorem toInt64_range (x : Int) : -2 ^ 63 ≤ toInt64 x ∧ toInt64 x < 2 ^ 63 := by
  unfold toInt64
  omega

theorem toUint64_of_range {x : Int} (h0 : 0 ≤ x) (h1 : x < 2 ^ 64) : toUint64 x = x.toNat := by
  unfold toUint64
  omega

/-- A signed 64-bit value keeps its residue, so modular sums do not see the conversion. -/
theorem toInt64_add_emod (x y : Int) : (toInt64 x + y) % 2 ^ 64 = (x + y) % 2 ^ 64 := by
  unfold toInt64
  omega

end Xnbd.CInt
