import Xnbd.Bytes
import Xnbd.Nbd

/-!
# Admitted requests and their blocks

A request carries the outcome of the admission test, so every mode works on
admitted requests only. The block range and the two edge decisions are common
to the proxy and the copy-on-write mode; they are taken over any predicate
that says which blocks are already present.
-/
namespace Xnbd.Requests

open CInt Block Nbd Bytes

/-- A request as `nbd_server_recv_request` handed it on, with the payload that
followed it on the wire. -/
structure Request (disksize : Nat) where
  iotype : Iotype
  iofrom : Int
  iolen : Nat
  data : List UInt8
  admitted : Admitted disksize iotype iofrom iolen
  payload : iotype = .write → data.length = iolen
  deriving DecidableEq

namespace Request

variable {disksize : Nat} (r : Request disksize)

/-- The offset as an unsigned number; it is the offset once the range is mapped. -/
def start : Nat := r.iofrom.toNat

/-- `iofrom + iolen` as the `off_t` that is passed on. -/
def ioend : Int := toInt64 (r.iofrom + r.iolen)

def blockIndexStart : Nat := getBindexSta cblocksize r.iofrom

def blockIndexEnd : Nat := getBindexEnd cblocksize r.ioend

def Covers (x : Nat) : Prop := r.start ≤ x ∧ x < r.start + r.iolen

def InBlocks (b : Nat) : Prop := r.blockIndexStart ≤ b ∧ b ≤ r.blockIndexEnd

instance (x : Nat) : Decidable (r.Covers x) := inferInstanceAs (Decidable (_ ∧ _))
instance (b : Nat) : Decidable (r.InBlocks b) := inferInstanceAs (Decidable (_ ∧ _))

/-- `get_start_block`: an unaligned start in a block that is not present. -/
def getStartBlock (present : Nat → Bool) : Bool :=
  decide (r.iofrom.tmod cblocksize ≠ 0) && !present r.blockIndexStart

/-- `get_end_block`: an unaligned end in a block that is not present and is not
already fetched as the start block. -/
def getEndBlock (present : Nat → Bool) : Bool :=
  decide (r.ioend.tmod cblocksize ≠ 0) &&
    (decide (r.blockIndexEnd > r.blockIndexStart) ||
      (decide (r.blockIndexEnd = r.blockIndexStart) && !r.getStartBlock present)) &&
    !present r.blockIndexEnd

end Request

section Range

variable {disksize : Nat} {r : Request disksize} {x b : Nat} {present : Nat → Bool}

theorem iofrom_eq_start (h : 0 ≤ r.iofrom) : r.iofrom = r.start := by
  simp only [Request.start]
  omega

theorem start_add_le (hd : disksize ≤ offMax) (h : 0 ≤ r.iofrom) :
    r.start + r.iolen ≤ disksize := by
  have hw := r.admitted.within
  have hu := r.admitted.upper
  have hl := r.admitted.length
  have hs := iofrom_eq_start h
  simp only [offMax] at hd
  omega

theorem ioend_eq (hd : disksize ≤ offMax) (h : 0 ≤ r.iofrom) :
    r.ioend = ((r.start + r.iolen : Nat) : Int) := by
  have hle := start_add_le hd h
  have hs := iofrom_eq_start h
  simp only [offMax] at hd
  simp only [Request.ioend]
  rw [toInt64_of_range (by omega) (by omega)]
  omega

theorem blockIndexStart_eq (h : 0 ≤ r.iofrom) :
    r.blockIndexStart = getBindexSta cblocksize r.start := by
  simp only [Request.blockIndexStart]
  rw [iofrom_eq_start h]

theorem blockIndexEnd_eq (hd : disksize ≤ offMax) (h : 0 ≤ r.iofrom) :
    r.blockIndexEnd = getBindexEnd cblocksize ((r.start + r.iolen : Nat) : Int) := by
  simp only [Request.blockIndexEnd]
  rw [ioend_eq hd h]

theorem inBlocks_of_covers (hd : disksize ≤ offMax) (h : 0 ≤ r.iofrom) (hx : r.Covers x) :
    r.InBlocks (x / cblocksize) := by
  have hle := start_add_le hd h
  simp only [offMax] at hd
  simp only [Request.InBlocks]
  rw [blockIndexStart_eq h, blockIndexEnd_eq (by unfold offMax; omega) h]
  exact block_of_mem hx.1 hx.2 (by omega)

theorem inBlocks_lt (hd : disksize ≤ offMax) (h : 0 ≤ r.iofrom) (h0 : 0 < r.start + r.iolen)
    (hb : r.InBlocks b) : b < getDiskNblocks disksize := by
  have he := hb.2
  rw [blockIndexEnd_eq hd h] at he
  exact bindex_lt_nblocks h0 (start_add_le hd h) hd he

/-- The bytes of the range's blocks that the request does not cover lie in a
present block or in one of the two blocks fetched beforehand. -/
theorem edge_fetched (hd : disksize ≤ offMax) (h : 0 ≤ r.iofrom) (h0 : 0 < r.start + r.iolen)
    (hb : r.InBlocks (x / cblocksize)) (hx : ¬r.Covers x)
    (hp : present (x / cblocksize) = false) :
    (r.getStartBlock present = true ∧ x / cblocksize = r.blockIndexStart) ∨
      (r.getEndBlock present = true ∧ x / cblocksize = r.blockIndexEnd) := by
  have hle := start_add_le hd h
  have hs := blockIndexStart_eq h
  have he := blockIndexEnd_eq hd h
  have hlt : r.start + r.iolen < 2 ^ 63 := by
    simp only [offMax] at hd
    omega
  have hedge := edge_of_not_mem (hs ▸ hb.1) (he ▸ hb.2) h0 hlt hx
  have htmod : ∀ n : Nat, ((n : Int).tmod cblocksize ≠ 0) ↔ n % cblocksize ≠ 0 := by
    intro n
    rw [Int.tmod_eq_emod_of_nonneg (Int.natCast_nonneg n)]
    omega
  rcases hedge with ⟨-, hblk, hmod⟩ | ⟨-, hblk, hmod⟩
  · left
    rw [← hs] at hblk
    refine ⟨?_, hblk⟩
    simp only [Request.getStartBlock]
    rw [iofrom_eq_start h, ← hblk, hp]
    simpa using (htmod _).mpr hmod
  · rw [← he] at hblk
    by_cases hst : r.getStartBlock present = true ∧ r.blockIndexEnd = r.blockIndexStart
    · exact .inl ⟨hst.1, hblk.trans hst.2⟩
    · right
      refine ⟨?_, hblk⟩
      have hord : r.blockIndexStart ≤ r.blockIndexEnd := Nat.le_trans hb.1 hb.2
      have hcase : r.blockIndexEnd > r.blockIndexStart ∨
          r.blockIndexEnd = r.blockIndexStart ∧ r.getStartBlock present = false := by
        rcases Nat.lt_or_eq_of_le hord with hlt | heq
        · exact .inl hlt
        · exact .inr ⟨heq.symm, by simpa [heq] using hst⟩
      have hend : r.ioend.tmod cblocksize ≠ 0 := by
        rw [ioend_eq hd h]
        exact (htmod _).mpr hmod
      simp only [Request.getEndBlock]
      rw [← hblk, hp, hblk]
      rcases hcase with hgt | ⟨heq, hst'⟩
      · simp [hend, hgt]
      · simp [hend, heq, hst']

end Range

end Xnbd.Requests
