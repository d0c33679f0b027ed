import Xnbd.CowRefine
import Xnbd.Forwarder
import Xnbd.Loop

/-!
# The block ranges of requests

Every mode turns the byte range of a request into the blocks from
`get_bindex_sta` to `get_bindex_end` and runs through them with one index of
a bitmap after the other. The whole loops are put together here from their
bodies.
-/
namespace Xnbd.Ranges

open CInt Block Bitmap Nbd Requests CowDisk CowRefine Forwarder Loop

variable {disksize : Nat}

section Loops

/-- The loop of `prepare_read_priv`; it is ended by an access outside the bitmap
and by a full table of remote reads. -/
def prepareReadPriv (cbitmap : Words) (r : Request disksize) (fuel : Nat) :
    Outcome (Words × List ReadReq) :=
  forLoop (fun s i => prepareReadBlock s.1 s.2 i) r.blockIndexEnd fuel r.blockIndexStart
    (cbitmap, [])

/-- The loop of `prepare_write_priv`. -/
def prepareWritePriv (cbitmap : Words) (r : Request disksize) (fuel : Nat) : Outcome Words :=
  forLoop prepareWriteBlock r.blockIndexEnd fuel r.blockIndexStart cbitmap

/-- The reading loop of `disk_stack_mmap`: the bits of the layers are tested from
the top down, then the entry of the block is filled in. All layers' bitmaps
have one size. -/
def diskStackMmapGather (ds : DiskStack disksize) (mbr : MmapBlockRegion) (r : Request disksize)
    (fuel : Nat) : Outcome (List Chunk) :=
  forLoop (fun iov index =>
      if Inside ds.top.bm index then
        some (iov ++ [readChunk ds mbr r.iofrom r.ioend r.blockIndexStart index])
      else none)
    r.blockIndexEnd fuel r.blockIndexStart []

end Loops

/-- The bitmap has the size that `bitmap_open_file` gives it for the disk. -/
def Sized (disksize : Nat) (bm : Words) : Prop := bm.length = bitsToLongs (getDiskNblocks disksize)

instance (bm : Words) : Decidable (Sized disksize bm) :=
  inferInstanceAs (Decidable (bm.length = bitsToLongs (getDiskNblocks disksize)))

/-- The blocks of a request lie on the disk, every loop over them comes to an
end and indexes words of the bitmap only, and they are the blocks that the
bytes of the request lie in. -/
structure StaysInside (r : Request disksize) : Prop where
  blocks : ∀ i, r.blockIndexStart ≤ i → i ≤ r.blockIndexEnd → i < getDiskNblocks disksize
  readPriv : ∀ cbitmap, Sized disksize cbitmap →
    (∃ fuel, prepareReadPriv cbitmap r fuel ≠ .running) ∧
      ∀ fuel i, prepareReadPriv cbitmap r fuel = .stopped i → Inside cbitmap i
  writePriv : ∀ cbitmap, Sized disksize cbitmap →
    EdgesInside cbitmap r ∧ ∃ fuel bm, prepareWritePriv cbitmap r fuel = .left bm
  cowRead : ∀ ds mbr, ∃ fuel iov, diskStackMmapGather ds mbr r fuel = .left iov
  cowWrite : ∀ ds : DiskStack disksize,
    (markLoop r.blockIndexEnd (markFuel ds.top.bm) r.blockIndexStart ds.top.bm).returned = true ∧
      ∀ index ∈ (markLoop r.blockIndexEnd (markFuel ds.top.bm) r.blockIndexStart
        ds.top.bm).touched, Inside ds.top.bm index
  intersecting : 1 ≤ r.iolen → ∀ i, (r.blockIndexStart ≤ i ∧ i ≤ r.blockIndexEnd) ↔
    ∃ x, r.Covers x ∧ x / cblocksize = i

section Inside

variable {r : Request disksize} {bm : Words}

theorem inside_of_lt (hbm : Sized disksize bm) {i : Nat} (hi : i < getDiskNblocks disksize) :
    Inside bm i := by
  have hw := @nblocks_le_words disksize
  rw [lt_iff_index, hbm]
  omega

/-- The indices of a nonempty prefix of the disk: the loop starts at most one
block behind its end, and its end is on the disk. -/
theorem bounds (hd : disksize ≤ offMax) (h0 : 0 ≤ r.iofrom) (hpos : 0 < r.start + r.iolen) :
    r.blockIndexStart ≤ r.blockIndexEnd + 1 ∧ r.blockIndexEnd < getDiskNblocks disksize ∧
      r.blockIndexEnd < 2 ^ 64 - 1 := by
  have hle := start_add_le hd h0
  have hend : r.blockIndexEnd < getDiskNblocks disksize := by
    rw [blockIndexEnd_eq hd h0]
    exact bindex_lt_nblocks hpos hle hd (Nat.le_refl _)
  have hw := @nblocks_le_words disksize
  have hlt := words_lt hd
  have hord : r.blockIndexStart ≤ r.blockIndexEnd + 1 := by
    simp only [offMax] at hd
    rw [blockIndexStart_eq h0, blockIndexEnd_eq (by simp only [offMax]; omega) h0,
      getBindexSta_natCast (by omega), getBindexEnd_natCast hpos (by omega)]
    simp only [cblocksize]
    omega
  exact ⟨hord, hend, by omega⟩

/-- A marking loop inside the bitmap touches the words of its range only. -/
theorem markLoop_touched {indexEnd fuel index : Nat} (hend : indexEnd < 64 * bm.length)
    (hlen : 64 * bm.length < 2 ^ 64) :
    ∀ i ∈ (markLoop indexEnd fuel index bm).touched, Inside bm i := by
  induction fuel generalizing index bm with
  | zero =>
    intro i hi
    cases hi
  | succ fuel ih =>
    intro i hi
    simp only [markLoop] at hi
    split at hi
    · rename_i hle
      have hin : Inside bm index := (lt_iff_index bm index).mpr (by omega)
      rw [if_pos hin] at hi
      cases hi with
      | head => exact hin
      | tail _ hi =>
        have h := ih (by simpa using hend) (by simpa using hlen) i hi
        simpa [Inside] using h
    · cases hi

theorem readPriv_inside (hd : disksize ≤ offMax) (h0 : 0 ≤ r.iofrom)
    (hpos : 0 < r.start + r.iolen) (hbm : Sized disksize bm) :
    (∃ fuel, prepareReadPriv bm r fuel ≠ .running) ∧
      ∀ fuel i, prepareReadPriv bm r fuel = .stopped i → Inside bm i := by
  obtain ⟨hord, hend, hmax⟩ := bounds hd h0 hpos
  constructor
  · have h := forLoop_within (s := (bm, [])) (fun s i => prepareReadBlock s.1 s.2 i)
      (fun _ _ => True) hmax hord (Nat.le_add_right _ _) trivial (fun _ _ _ _ _ _ _ => trivial)
    refine ⟨r.blockIndexEnd + 2, fun hrun => ?_⟩
    simp only [prepareReadPriv] at hrun
    rw [hrun] at h
    exact h
  · intro fuel i hstop
    have hle := forLoop_stopped _ hstop
    exact inside_of_lt hbm (by omega)

theorem writePriv_inside (hd : disksize ≤ offMax) (h0 : 0 ≤ r.iofrom)
    (hpos : 0 < r.start + r.iolen) (hbm : Sized disksize bm) :
    EdgesInside bm r ∧ ∃ fuel bm', prepareWritePriv bm r fuel = .left bm' := by
  obtain ⟨hord, hend, hmax⟩ := bounds hd h0 hpos
  have hlast : Inside bm r.blockIndexEnd := inside_of_lt hbm hend
  have hfirst : r.iofrom.tmod cblocksize ≠ 0 → Inside bm r.blockIndexStart := by
    intro hmod
    -- an unaligned start lies in the block of the byte before it
    have hle := start_add_le hd h0
    have hs := iofrom_eq_start h0
    have hmod' : r.start % cblocksize ≠ 0 := by
      rw [hs, Int.tmod_eq_emod_of_nonneg (Int.natCast_nonneg _)] at hmod
      omega
    simp only [offMax] at hd
    rw [blockIndexStart_eq h0, getBindexSta_natCast (by omega)]
    have hlt : (r.start - 1) / cblocksize < getDiskNblocks disksize := by
      simp only [cblocksize] at hmod'
      exact block_lt_nblocks (by omega)
    have he : r.start / cblocksize = (r.start - 1) / cblocksize := by
      simp only [cblocksize] at hmod' ⊢
      omega
    exact inside_of_lt hbm (he ▸ hlt)
  have hloop := forLoop_left prepareWriteBlock (fun _ w => Sized disksize w) hmax hord
    (Nat.le_add_right _ _) hbm (fun i w _ hi hw => by
      have hin : Inside w i := inside_of_lt hw (by omega)
      refine ⟨if bitmapTest w i then w else bitmapOn w i,
        by simp only [prepareWriteBlock, hin, if_true], ?_⟩
      cases bitmapTest w i with
      | true => exact hw
      | false => simpa [Sized] using hw)
  obtain ⟨bm', hleft, -⟩ := hloop
  exact ⟨⟨hfirst, fun _ _ => hlast⟩, r.blockIndexEnd + 2, bm', hleft⟩

/-- The loop leaves the gather list that `disk_stack_mmap` returns. -/
theorem cowRead_inside (hd : disksize ≤ offMax) (h0 : 0 ≤ r.iofrom)
    (hpos : 0 < r.start + r.iolen) (ds : DiskStack disksize) (mbr : MmapBlockRegion) :
    ∃ fuel, diskStackMmapGather ds mbr r fuel =
      .left ((List.range' r.blockIndexStart (r.blockIndexEnd + 1 - r.blockIndexStart)).map
        (readChunk ds mbr r.iofrom r.ioend r.blockIndexStart)) := by
  obtain ⟨hord, hend, hmax⟩ := bounds hd h0 hpos
  obtain ⟨iov, hleft, rfl⟩ := forLoop_left (s := []) (fun iov index =>
      if Inside ds.top.bm index then
        some (iov ++ [readChunk ds mbr r.iofrom r.ioend r.blockIndexStart index])
      else none)
    (fun i iov => iov = (List.range' r.blockIndexStart (i - r.blockIndexStart)).map
      (readChunk ds mbr r.iofrom r.ioend r.blockIndexStart))
    hmax hord (Nat.le_add_right _ _) (by simp) (fun i iov hi hle hiov => by
      have hin : Inside ds.top.bm i := inside_of_lt ds.top_words (by omega)
      have hone : i + 1 - r.blockIndexStart = (i - r.blockIndexStart) + 1 := by omega
      have hat : r.blockIndexStart + 1 * (i - r.blockIndexStart) = i := by omega
      refine ⟨_, if_pos hin, ?_⟩
      rw [hone, List.range'_concat, hat, List.map_append, ← hiov]
      rfl)
  exact ⟨r.blockIndexEnd + 2, hleft⟩

theorem cowWrite_inside (hd : disksize ≤ offMax) (h0 : 0 ≤ r.iofrom)
    (hpos : 0 < r.start + r.iolen) (ds : DiskStack disksize) :
    (markLoop r.blockIndexEnd (markFuel ds.top.bm) r.blockIndexStart ds.top.bm).returned = true ∧
      ∀ index ∈ (markLoop r.blockIndexEnd (markFuel ds.top.bm) r.blockIndexStart
        ds.top.bm).touched, Inside ds.top.bm index := by
  obtain ⟨hord, hend, -⟩ := bounds hd h0 hpos
  have hlt := topWords_lt ds
  have hw := nblocks_le_topWords ds
  have hfuel : r.blockIndexEnd + 2 ≤ markFuel ds.top.bm + r.blockIndexStart := by
    simp only [markFuel]
    omega
  exact ⟨(markLoop_inside hlt (by omega) hord hfuel).1, markLoop_touched (by omega) hlt⟩

theorem intersecting_blocks (hd : disksize ≤ offMax) (h0 : 0 ≤ r.iofrom) (hlen : 1 ≤ r.iolen)
    (i : Nat) : (r.blockIndexStart ≤ i ∧ i ≤ r.blockIndexEnd) ↔
      ∃ x, r.Covers x ∧ x / cblocksize = i := by
  have hle := start_add_le hd h0
  constructor
  · intro hi
    simp only [offMax] at hd
    rw [blockIndexStart_eq h0, blockIndexEnd_eq (by simp only [offMax]; omega) h0,
      getBindexSta_natCast (by omega), getBindexEnd_natCast (by omega) (by omega)] at hi
    -- the first byte of the block, or the first byte of the request in it
    refine ⟨max r.start (i * cblocksize), ?_, ?_⟩
    · simp only [Request.Covers, cblocksize] at hi ⊢
      omega
    · simp only [cblocksize] at hi ⊢
      omega
  · intro hx
    obtain ⟨x, hx, rfl⟩ := hx
    exact inBlocks_of_covers hd h0 hx

end Inside

/-- The only range that leaves the bitmap is the empty one at offset zero: its
last block index is that of the byte before the disk, converted to `unsigned
long`. -/
theorem staysInside_iff (disksize : Nat) (hd : disksize ≤ offMax) (r : Request disksize)
    (h0 : 0 ≤ r.iofrom) : StaysInside r ↔ ¬(r.iofrom = 0 ∧ r.iolen = 0) := by
  constructor
  · intro h hz
    have hend : r.blockIndexEnd = 2 ^ 64 - 1 := by
      have he : r.ioend = 0 := by
        simp only [Request.ioend, hz.1, hz.2]
        decide
      rw [Request.blockIndexEnd, he]
      exact getBindexEnd_zero
    have hsta : r.blockIndexStart = 0 := by
      rw [Request.blockIndexStart, hz.1]
      decide
    have hw := @nblocks_le_words disksize
    have hlt := words_lt hd
    have hbad := h.blocks (getDiskNblocks disksize) (by omega) (by omega)
    omega
  · intro hz
    have hs := iofrom_eq_start h0
    have hpos : 0 < r.start + r.iolen := by omega
    obtain ⟨-, hend, -⟩ := bounds hd h0 hpos
    constructor
    · intro i _ hi
      omega
    · intro bm hbm
      exact readPriv_inside hd h0 hpos hbm
    · intro bm hbm
      exact writePriv_inside hd h0 hpos hbm
    · intro ds mbr
      obtain ⟨fuel, h⟩ := cowRead_inside hd h0 hpos ds mbr
      exact ⟨fuel, _, h⟩
    · intro ds
      exact cowWrite_inside hd h0 hpos ds
    · exact intersecting_blocks hd h0

def zeroRead : Request 4096 where
  iotype := .read
  iofrom := 0
  iolen := 0
  data := []
  admitted := by constructor <;> decide
  payload := by decide

theorem staysInside_iff_read : ¬(readBytes.iofrom = 0 ∧ readBytes.iolen = 0) ∧
    StaysInside readBytes := by
  have h : ¬(readBytes.iofrom = 0 ∧ readBytes.iolen = 0) := by decide
  exact ⟨h, (staysInside_iff 4096 (by decide) readBytes (by decide)).mpr h⟩

/-- A READ of nothing at offset zero is admitted, and its range has the block
behind the last one of the disk. -/
theorem staysInside_zeroRead : ¬StaysInside zeroRead := by
  intro h
  have hbad := h.blocks 1 (by decide) (by decide)
  exact absurd hbad (by decide)

end Xnbd.Ranges
