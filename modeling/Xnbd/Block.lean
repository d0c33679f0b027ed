import Mathlib.Tactic.ByContra
import Xnbd.CInt

/-!
# Block arithmetic (`lib/io.h`, `lib/io.c`, `xnbd.h`, `xnbd_common.c`)

Offsets are `off_t`, lengths are `size_t`, block indices are `unsigned long`.
The functions are those of the source with its conversions written out, so
they are defined on negative and empty ranges as well.
-/
namespace Xnbd.Block

open CInt

/-- `CBLOCKSIZE`. -/
def cblocksize : Nat := 4096

/-- `OFF_MAX`, the largest `off_t`. -/
def offMax : Nat := 2 ^ 63 - 1

def getBindexSta (blocksize : Nat) (iofrom : Int) : Nat := toUint64 (iofrom.tdiv blocksize)

def getBindexEnd (blocksize : Nat) (ioend : Int) : Nat :=
  if ioend.tmod blocksize = 0 then toUint64 (ioend.tdiv blocksize - 1)
  else toUint64 (ioend.tdiv blocksize)

def getDiskNblocks (disksize : Nat) : Nat :=
  disksize / cblocksize + if disksize % cblocksize ≠ 0 then 1 else 0

def confineIolenWithinDisk (disksize iofrom : Int) (iolen : Nat) : Nat :=
  min (toUint64 (disksize - iofrom)) iolen

/-- The kernel refuses a mapping that starts before the file or ends past the
largest file offset. -/
def MmapOk (offset : Int) (length : Nat) : Prop := 0 ≤ offset ∧ offset + length ≤ offMax

instance (offset : Int) (length : Nat) : Decidable (MmapOk offset length) :=
  inferInstanceAs (Decidable (_ ∧ _))

/-- A mapping. `iobuf` is the file offset that the source's `iobuf` pointer
addresses; clearing the low bits of a power of two is subtracting the residue. -/
structure MmapRegion where
  mmapFrom : Int
  mmapLen : Nat
  iobuf : Int
  deriving DecidableEq, Repr

def mmapRegionCreate (pagesize : Nat) (iofrom : Int) (iolen : Nat) : Option MmapRegion :=
  let paIofrom := iofrom - iofrom % pagesize
  let mmapLen := toUint64 (iolen + (iofrom - paIofrom))
  if mmapLen = 0 ∨ MmapOk paIofrom mmapLen then
    some ⟨paIofrom, mmapLen, paIofrom + (iofrom - paIofrom)⟩
  else none

structure MmapBlockRegion where
  mr : MmapRegion
  baIobuf : Int
  iobuf : Int
  baIofrom : Int
  deriving DecidableEq, Repr

/-- The first byte of the block that holds `iofrom`. -/
def baIofrom (iofrom : Int) : Int := iofrom - iofrom % cblocksize

/-- The end is rounded up in unsigned arithmetic and converted back to `off_t`
before it is compared with the disk size. -/
def baIoend (disksize : Nat) (iofrom : Int) (iolen : Nat) : Int :=
  let sum := (iofrom + iolen + (cblocksize - 1)) % 2 ^ 64
  let rounded := toInt64 (sum - sum % cblocksize)
  if rounded > disksize then disksize else rounded

/-- `none` is the `err()` of a refused mapping. -/
def mmapBlockRegionCreate (pagesize : Nat) (disksize : Nat) (iofrom : Int) (iolen : Nat) :
    Option MmapBlockRegion :=
  let iolen' := toUint64 (baIoend disksize iofrom iolen - baIofrom iofrom)
  (mmapRegionCreate pagesize (baIofrom iofrom) iolen').map fun mr =>
    ⟨mr, mr.iobuf, mr.iobuf + (iofrom - baIofrom iofrom), baIofrom iofrom⟩

section Indices

variable {n iofrom iolen x : Nat}

theorem getBindexSta_natCast (h : n < 2 ^ 63) : getBindexSta cblocksize n = n / cblocksize := by
  simp only [getBindexSta]
  rw [Int.tdiv_eq_ediv_of_nonneg (Int.natCast_nonneg n), toUint64_of_range]
  · simp only [cblocksize]; omega
  · simp only [cblocksize]; omega
  · simp only [cblocksize]; omega

/-- The last block of a range that ends at `n`. -/
theorem getBindexEnd_natCast (h0 : 0 < n) (h : n < 2 ^ 63) :
    getBindexEnd cblocksize n = (n - 1) / cblocksize := by
  simp only [getBindexEnd]
  rw [Int.tmod_eq_emod_of_nonneg (Int.natCast_nonneg n),
    Int.tdiv_eq_ediv_of_nonneg (Int.natCast_nonneg n)]
  unfold cblocksize
  split
  · rw [toUint64_of_range (by omega) (by omega)]
    omega
  · rw [toUint64_of_range (by omega) (by omega)]
    omega

/-- An empty range at offset zero ends in the largest block index there is. -/
theorem getBindexEnd_zero : getBindexEnd cblocksize 0 = 2 ^ 64 - 1 := by decide

theorem block_lt_nblocks (h : x < n) : x / cblocksize < getDiskNblocks n := by
  unfold getDiskNblocks cblocksize
  split <;> omega

/-- A block of the disk starts on the disk. -/
theorem block_start_lt (h : x < getDiskNblocks n) : x * cblocksize < n := by
  unfold getDiskNblocks at h
  unfold cblocksize at h ⊢
  split at h <;> omega

theorem getDiskNblocks_pos (h : 0 < n) : 0 < getDiskNblocks n :=
  Nat.lt_of_le_of_lt (Nat.zero_le _) (block_lt_nblocks h)

/-- What is left of the disk behind an offset on it. -/
theorem confineIolenWithinDisk_natCast (hn : n ≤ offMax) (h : iofrom ≤ n) :
    confineIolenWithinDisk n iofrom iolen = min (n - iofrom) iolen := by
  simp only [offMax] at hn
  have hrest : toUint64 ((n : Int) - iofrom) = n - iofrom := by
    rw [toUint64_of_range (by omega) (by omega)]
    omega
  rw [confineIolenWithinDisk, hrest]

/-- A byte of the range lies in a block of the range. -/
theorem block_of_mem (h0 : iofrom ≤ x) (h1 : x < iofrom + iolen) (h : iofrom + iolen < 2 ^ 63) :
    getBindexSta cblocksize iofrom ≤ x / cblocksize ∧
      x / cblocksize ≤ getBindexEnd cblocksize ((iofrom + iolen : Nat) : Int) := by
  rw [getBindexSta_natCast (by omega), getBindexEnd_natCast (by omega) h]
  simp only [cblocksize]
  omega

/-- A byte in a block of the range but outside the range lies in the first
block, before an unaligned start, or in the last one, behind an unaligned end. -/
theorem edge_of_not_mem (hs : getBindexSta cblocksize iofrom ≤ x / cblocksize)
    (he : x / cblocksize ≤ getBindexEnd cblocksize ((iofrom + iolen : Nat) : Int))
    (h0 : 0 < iofrom + iolen) (h : iofrom + iolen < 2 ^ 63)
    (hx : ¬(iofrom ≤ x ∧ x < iofrom + iolen)) :
    (x < iofrom ∧ x / cblocksize = getBindexSta cblocksize iofrom ∧ iofrom % cblocksize ≠ 0) ∨
      (iofrom + iolen ≤ x ∧
        x / cblocksize = getBindexEnd cblocksize ((iofrom + iolen : Nat) : Int) ∧
        (iofrom + iolen) % cblocksize ≠ 0) := by
  rw [getBindexSta_natCast (by omega)] at *
  rw [getBindexEnd_natCast h0 h] at *
  simp only [cblocksize] at *
  omega

theorem bindex_lt_nblocks {disksize b : Nat} (h0 : 0 < iofrom + iolen)
    (h : iofrom + iolen ≤ disksize) (hd : disksize ≤ offMax)
    (he : b ≤ getBindexEnd cblocksize ((iofrom + iolen : Nat) : Int)) :
    b < getDiskNblocks disksize := by
  simp only [offMax] at hd
  rw [getBindexEnd_natCast h0 (by omega)] at he
  exact Nat.lt_of_le_of_lt he (block_lt_nblocks (by omega))

end Indices

section Mapping

variable {pagesize disksize iolen : Nat} {iofrom : Int} {mbr : MmapBlockRegion}

theorem mmapRegionCreate_some {mr : MmapRegion}
    (h : mmapRegionCreate pagesize iofrom iolen = some mr) :
    mr.iobuf = iofrom ∧ (mr.mmapLen = 0 ∨ MmapOk mr.mmapFrom mr.mmapLen) ∧
      mr.mmapFrom = iofrom - iofrom % pagesize ∧
      mr.mmapLen = toUint64 (iolen + iofrom % pagesize) := by
  simp only [mmapRegionCreate] at h
  split at h
  · rename_i hok
    cases h
    refine ⟨by simp only; omega, hok, rfl, ?_⟩
    have he : iofrom - (iofrom - iofrom % pagesize) = iofrom % pagesize := by omega
    simp only [he]
  · cases h

theorem residue_bounds (h0 : 0 ≤ iofrom) (pagesize : Nat) :
    0 ≤ iofrom % pagesize ∧ iofrom % pagesize ≤ iofrom := by
  obtain ⟨n, rfl⟩ := Int.eq_ofNat_of_zero_le h0
  have hle := Nat.mod_le n pagesize
  exact ⟨by exact_mod_cast Nat.zero_le (n % pagesize), by exact_mod_cast hle⟩

/-- A region that ends inside the offset range is always mapped. -/
theorem mmapRegionCreate_isSome (h0 : 0 ≤ iofrom) (h : iofrom + iolen ≤ offMax) :
    (mmapRegionCreate pagesize iofrom iolen).isSome := by
  simp only [offMax] at h
  obtain ⟨hr0, hr1⟩ := residue_bounds h0 pagesize
  have hok : MmapOk (iofrom - iofrom % pagesize)
      (toUint64 (iolen + (iofrom - (iofrom - iofrom % pagesize)))) := by
    rw [toUint64_of_range (by omega) (by omega)]
    simp only [MmapOk, offMax]
    omega
  simp only [mmapRegionCreate, hok, or_true, if_true, Option.isSome_some]

/-- The pointers of a created region address the file offsets they stand for. -/
theorem mmapBlockRegionCreate_pointers
    (h : mmapBlockRegionCreate pagesize disksize iofrom iolen = some mbr) :
    mbr.iobuf = iofrom ∧ mbr.baIobuf = baIofrom iofrom ∧ mbr.baIofrom = baIofrom iofrom := by
  simp only [mmapBlockRegionCreate, Option.map_eq_some_iff] at h
  obtain ⟨mr, hmr, rfl⟩ := h
  have hp := (mmapRegionCreate_some hmr).1
  simp only [hp]
  exact ⟨by omega, trivial, trivial⟩

theorem baIoend_of_range {start : Nat} (hend : start + iolen + cblocksize ≤ offMax + 1)
    (hin : start + iolen ≤ disksize) :
    baIofrom start ≤ baIoend disksize start iolen ∧ baIoend disksize start iolen ≤ disksize := by
  simp only [offMax, cblocksize] at hend
  unfold baIofrom baIoend cblocksize toInt64
  dsimp only
  omega

/-- A range inside the disk is mapped exactly if its last block does not cross
the largest offset. -/
theorem mmapBlockRegionCreate_isSome_iff (pagesize : Nat) {start : Nat} (hd : disksize ≤ offMax)
    (hin : start + iolen ≤ disksize) :
    (mmapBlockRegionCreate pagesize disksize start iolen).isSome ↔
      start + iolen + cblocksize ≤ offMax + 1 := by
  have h0 : 0 ≤ baIofrom start := by
    simp only [baIofrom, cblocksize]
    omega
  simp only [mmapBlockRegionCreate, Option.isSome_map]
  constructor
  · intro h
    by_contra hover
    obtain ⟨mr, hmr⟩ := Option.isSome_iff_exists.mp h
    obtain ⟨-, hok, hfrom, hlen⟩ := mmapRegionCreate_some hmr
    -- the rounded end wraps to the smallest offset
    have hend : baIoend disksize start iolen = -2 ^ 63 := by
      simp only [offMax, cblocksize] at *
      unfold baIoend cblocksize toInt64
      dsimp only
      omega
    have hle : baIofrom start ≤ start := by
      simp only [baIofrom, cblocksize]
      omega
    obtain ⟨hr0, hr1⟩ := residue_bounds h0 pagesize
    simp only [offMax] at hd
    have hpart : toUint64 (baIoend disksize start iolen - baIofrom start) =
        (2 ^ 63 - baIofrom start).toNat := by
      rw [hend]
      unfold toUint64
      omega
    rw [hpart, toUint64_of_range (by omega) (by omega)] at hlen
    simp only [MmapOk, offMax] at hok
    omega
  · intro hend
    obtain ⟨hle, hdisk⟩ := baIoend_of_range hend hin
    simp only [cblocksize, offMax] at *
    rw [toUint64_of_range (by omega) (by omega)]
    apply mmapRegionCreate_isSome h0
    simp only [offMax]
    omega

/-- Only a range inside the disk is ever mapped: an offset that the admission
test let through although it is negative is refused by the kernel. -/
theorem mmapBlockRegionCreate_range (hp : pagesize ≤ 2 ^ 32) (hp0 : 0 < pagesize)
    (hd : disksize ≤ offMax) (hlo : -2 ^ 63 ≤ iofrom) (hhi : iofrom < 2 ^ 63)
    (hlen : iolen < 2 ^ 32) (hadm : (iofrom + iolen) % 2 ^ 64 ≤ disksize)
    (h : mmapBlockRegionCreate pagesize disksize iofrom iolen = some mbr) :
    0 ≤ iofrom ∧ iofrom + iolen ≤ disksize := by
  simp only [offMax] at hd
  have hnn : 0 ≤ iofrom := by
    by_contra hneg
    simp only [mmapBlockRegionCreate, Option.map_eq_some_iff] at h
    obtain ⟨mr, hmr, -⟩ := h
    obtain ⟨-, hok, hfrom, hl⟩ := mmapRegionCreate_some hmr
    have hpage := Int.emod_nonneg (baIofrom iofrom) (show (pagesize : Int) ≠ 0 by omega)
    have hpage' := Int.emod_lt_of_pos (baIofrom iofrom) (show 0 < (pagesize : Int) by omega)
    have hba : -2 ^ 33 ≤ baIofrom iofrom ∧ baIofrom iofrom < 0 := by
      simp only [baIofrom, cblocksize]
      omega
    have hend : 0 ≤ baIoend disksize iofrom iolen ∧ baIoend disksize iofrom iolen < 2 ^ 33 := by
      unfold baIoend cblocksize toInt64
      dsimp only
      omega
    rcases hok with hzero | ⟨hstart, -⟩
    · have hlen' : toUint64 (baIoend disksize iofrom iolen - baIofrom iofrom) =
          (baIoend disksize iofrom iolen - baIofrom iofrom).toNat :=
        toUint64_of_range (by omega) (by omega)
      rw [hzero, hlen', toUint64_of_range (by omega) (by omega)] at hl
      omega
    · omega
  exact ⟨hnn, by omega⟩

end Mapping

end Xnbd.Block
