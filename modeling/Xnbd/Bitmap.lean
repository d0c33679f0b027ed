import Mathlib.Data.List.Basic
import Mathlib.Data.BitVec
import Xnbd.Block

/-!
# Block bitmaps (`lib/bitmap.c`)

A bitmap is the array of `unsigned long` words that the file maps. Indexing
past the last word is outside the mapping: the callers' models test
`Inside` before every access and stop the process otherwise.
-/
namespace Xnbd.Bitmap

abbrev Words := List (BitVec 64)

/-- `BITS_TO_LONGS(nbits)`, the number of words `bitmap_open_file` maps. -/
def bitsToLongs (nbits : Nat) : Nat := (nbits + 63) / 64

/-- The word that holds the bit exists. -/
def Inside (bm : Words) (index : Nat) : Prop := index / 64 < bm.length

instance (bm : Words) (index : Nat) : Decidable (Inside bm index) :=
  inferInstanceAs (Decidable (_ < _))

def bitmapTest (bm : Words) (index : Nat) : Bool :=
  decide (0#64 < bm.getD (index / 64) 0#64 &&& 1#64 <<< (index % 64))

def bitmapOn (bm : Words) (index : Nat) : Words :=
  bm.modify (index / 64) fun word => word ||| 1#64 <<< (index % 64)

theorem lt_iff_index (bm : Words) (index : Nat) : Inside bm index ↔ index < 64 * bm.length := by
  unfold Inside
  omega

theorem and_bit_pos (word : BitVec 64) {k : Nat} (hk : k < 64) :
    decide (0#64 < word &&& 1#64 <<< k) = word.getLsbD k := by
  cases hw : word.getLsbD k with
  | true =>
    have hne : word &&& 1#64 <<< k ≠ 0#64 := by
      intro he
      have hk' := congrArg (fun v : BitVec 64 => v.getLsbD k) he
      simp only [BitVec.getLsbD_and, hw, BitVec.getLsbD_shiftLeft, BitVec.getLsbD_one] at hk'
      simp [hk] at hk'
    simpa [BitVec.pos_iff_ne_zero] using hne
  | false =>
    have he : word &&& 1#64 <<< k = 0#64 := by
      apply BitVec.eq_of_getLsbD_eq
      intro i hi
      by_cases h : i = k
      · subst i; simp [hw]
      · simp only [BitVec.getLsbD_and, BitVec.getLsbD_shiftLeft, BitVec.getLsbD_one]
        by_cases hlt : i < k
        · simp [hlt]
        · have : i - k ≠ 0 := by omega
          simp [this]
    simp [he]

/-- The C mask test is the bit of the word. -/
theorem bitmapTest_eq (bm : Words) (index : Nat) :
    bitmapTest bm index = (bm.getD (index / 64) 0#64).getLsbD (index % 64) :=
  and_bit_pos _ (Nat.mod_lt _ (by decide))

@[simp] theorem bitmapOn_length (bm : Words) (index : Nat) :
    (bitmapOn bm index).length = bm.length := by simp [bitmapOn]

theorem or_bit_getLsbD (word : BitVec 64) {i k : Nat} (hk : k < 64) :
    (word ||| 1#64 <<< i).getLsbD k = (word.getLsbD k || decide (k = i)) := by
  simp only [BitVec.getLsbD_or, BitVec.getLsbD_shiftLeft, BitVec.getLsbD_one]
  by_cases h : k = i
  · simp [h]; omega
  · by_cases hlt : k < i
    · simp [hlt, h]
    · have : k - i ≠ 0 := by omega
      simp [this, h]

/-- Setting a bit inside the mapping changes that bit and no other, in its own
word or elsewhere. -/
theorem bitmapTest_bitmapOn {bm : Words} {i : Nat} (hi : Inside bm i) (j : Nat) :
    bitmapTest (bitmapOn bm i) j = (bitmapTest bm j || decide (j = i)) := by
  rw [bitmapTest_eq, bitmapTest_eq]
  unfold bitmapOn
  by_cases hw : i / 64 = j / 64
  · have hj : j / 64 < bm.length := hw ▸ hi
    have hmod : (j % 64 = i % 64) = (j = i) := propext ⟨fun h => by omega, fun h => by omega⟩
    rw [hw]
    simp only [List.getD_eq_getElem?_getD, List.getElem?_modify_eq, List.getElem?_eq_getElem hj,
      Option.map_eq_map, Option.map_some, Option.getD_some]
    rw [or_bit_getLsbD _ (Nat.mod_lt _ (by decide))]
    simp only [hmod]
  · have hne : j ≠ i := by
      intro h
      exact hw (by rw [h])
    simp [List.getD_eq_getElem?_getD, hw, hne]

/-- `bitmap_popcount`. -/
def bitmapPopcount (bm : Words) (nbits : Nat) : Nat :=
  (List.range nbits).foldl (fun cached index => if bitmapTest bm index then cached + 1 else cached) 0

theorem bitmapPopcount_eq (bm : Words) (nbits : Nat) :
    bitmapPopcount bm nbits = (List.range nbits).countP (bitmapTest bm) := by
  have hcount (l : List Nat) (cached : Nat) :
      l.foldl (fun cached index => if bitmapTest bm index then cached + 1 else cached) cached =
        cached + l.countP (bitmapTest bm) := by
    induction l generalizing cached with
    | nil => rfl
    | cons index rest ih =>
      rw [List.foldl_cons, ih, List.countP_cons]
      split <;> omega
  rw [bitmapPopcount, hcount, Nat.zero_add]

/-- The count is complete exactly if every bit is set. -/
theorem bitmapPopcount_eq_iff {bm : Words} {nbits : Nat} :
    bitmapPopcount bm nbits = nbits ↔ ∀ i < nbits, bitmapTest bm i = true := by
  have hall := List.countP_eq_length (p := bitmapTest bm) (l := List.range nbits)
  rw [List.length_range] at hall
  rw [bitmapPopcount_eq, hall]
  simp only [List.mem_range]

section Disk

open Block

variable {disksize : Nat}

theorem nblocks_le_words : getDiskNblocks disksize ≤ 64 * bitsToLongs (getDiskNblocks disksize) := by
  unfold bitsToLongs
  omega

/-- No index inside the bitmap of a disk is the largest `unsigned long`. -/
theorem words_lt (hd : disksize ≤ offMax) :
    64 * bitsToLongs (getDiskNblocks disksize) < 2 ^ 64 - 1 := by
  unfold offMax at hd
  unfold bitsToLongs getDiskNblocks cblocksize
  split <;> omega

end Disk

end Xnbd.Bitmap
