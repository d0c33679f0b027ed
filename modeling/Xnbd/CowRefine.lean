import Xnbd.CowDisk
import Xnbd.FlatDisk

/-!
# The copy-on-write mode refines a flat disk

One request processed by a worker changes the logical disk as a flat disk
would change, and a READ sends the bytes of the logical disk. The FLUSH case
is apart: its empty range runs through the same marking loop.
-/
namespace Xnbd.CowRefine

open CInt Block Bitmap Bytes Nbd Requests NetIov CowDisk FlatDisk

variable {disksize : Nat}

section MarkLoop

variable {indexEnd fuel index : Nat} {bm : Words}

/-- A range inside the bitmap is marked completely, and nothing else is. -/
theorem markLoop_inside (hlen : 64 * bm.length < 2 ^ 64) (hend : indexEnd < 64 * bm.length)
    (hindex : index ≤ indexEnd + 1) (hfuel : indexEnd + 2 ≤ fuel + index) :
    (markLoop indexEnd fuel index bm).returned = true ∧
      ∀ b, bitmapTest (markLoop indexEnd fuel index bm).bm b =
        (bitmapTest bm b || decide (index ≤ b ∧ b ≤ indexEnd)) := by
  induction fuel generalizing index bm with
  | zero => omega
  | succ fuel ih =>
    by_cases hle : index ≤ indexEnd
    · have hin : Inside bm index := (lt_iff_index bm index).mpr (by omega)
      have hnext : (index + 1) % 2 ^ 64 = index + 1 := Nat.mod_eq_of_lt (by omega)
      have h := @ih (index + 1) (bitmapOn bm index) (by simpa using hlen)
        (by simpa using hend) (by omega) (by omega)
      simp only [markLoop, hle, hin, hnext, ↓reduceIte]
      refine ⟨h.1, fun b => ?_⟩
      rw [h.2 b, bitmapTest_bitmapOn hin, Bool.or_assoc]
      congr 1
      rw [← Bool.decide_or]
      exact decide_eq_decide.mpr (by omega)
    · simp only [markLoop, hle, ↓reduceIte, true_and]
      intro b
      have hno : ¬(index ≤ b ∧ b ≤ indexEnd) := by omega
      simp [hno]

/-- The loop to the largest index never leaves normally: it marks every bit of
the mapping and then stores behind it. -/
theorem markLoop_endless (hlen : 64 * bm.length < 2 ^ 64) (hindex : index ≤ 64 * bm.length)
    (hfuel : 64 * bm.length + 1 ≤ fuel + index) :
    (markLoop (2 ^ 64 - 1) fuel index bm).returned = false ∧
      (∀ i, index ≤ i → i ≤ 64 * bm.length → i ∈ (markLoop (2 ^ 64 - 1) fuel index bm).touched) ∧
      ∀ b, bitmapTest (markLoop (2 ^ 64 - 1) fuel index bm).bm b =
        (bitmapTest bm b || decide (index ≤ b ∧ b < 64 * bm.length)) := by
  induction fuel generalizing index bm with
  | zero => omega
  | succ fuel ih =>
    have hle : index ≤ 2 ^ 64 - 1 := by omega
    by_cases hin : Inside bm index
    · have hlt := (lt_iff_index bm index).mp hin
      have hnext : (index + 1) % 2 ^ 64 = index + 1 := Nat.mod_eq_of_lt (by omega)
      have h := @ih (index + 1) (bitmapOn bm index) (by simpa using hlen)
        (by simp; omega) (by simp; omega)
      simp only [bitmapOn_length] at h
      simp only [markLoop, hle, hin, hnext, ↓reduceIte]
      refine ⟨h.1, fun i h0 h1 => ?_, fun b => ?_⟩
      · rcases Nat.lt_or_eq_of_le h0 with hi | hi
        · exact List.mem_cons_of_mem _ (h.2.1 i hi h1)
        · simp [hi]
      · rw [h.2.2 b, bitmapTest_bitmapOn hin, Bool.or_assoc]
        congr 1
        rw [← Bool.decide_or]
        exact decide_eq_decide.mpr (by omega)
    · have hge : 64 * bm.length ≤ index := by
        by_contra hlt
        exact hin ((lt_iff_index bm index).mpr (by omega))
      simp only [markLoop, hle, hin, ↓reduceIte, true_and]
      refine ⟨fun i h0 h1 => by simp; omega, fun b => ?_⟩
      have hno : ¬(index ≤ b ∧ b < 64 * bm.length) := by omega
      simp [hno]

end MarkLoop

section Layers

variable (ds : DiskStack disksize)

theorem topWords_lt : 64 * ds.top.bm.length < 2 ^ 64 := by
  have hlt := words_lt ds.size_max
  rw [ds.top_words]
  omega

theorem nblocks_le_topWords : getDiskNblocks disksize ≤ 64 * ds.top.bm.length := by
  rw [ds.top_words]
  exact nblocks_le_words

theorem findLayer_top {index : Nat} (h : ds.topBits index = true) :
    ds.findLayer index = some ds.top := by
  simp only [DiskStack.topBits] at h
  simp [DiskStack.findLayer, h]

theorem findLayer_lower {index : Nat} (h : ds.topBits index = false) :
    ds.findLayer index = ds.lower.reverse.find? fun di => bitmapTest di.bm index := by
  simp only [DiskStack.topBits] at h
  simp [DiskStack.findLayer, h]

/-- Some layer has every block of the disk, since the base layer does. -/
theorem findLayer_isSome {index : Nat} (h : index < getDiskNblocks disksize) :
    ∃ di, ds.findLayer index = some di := by
  cases ht : ds.topBits index with
  | true => exact ⟨_, findLayer_top ds ht⟩
  | false =>
    rw [findLayer_lower ds ht, ← Option.isSome_iff_exists, List.find?_isSome]
    exact ⟨ds.lower.head ds.lower_ne, by simp, ds.base_full index h⟩

theorem logical_of_layer {x : Nat} {di : DiskImage}
    (h : ds.findLayer (x / cblocksize) = some di) : ds.logical x = di.file x := by
  simp [DiskStack.logical, h]

theorem logical_top {x : Nat} (h : ds.topBits (x / cblocksize) = true) :
    ds.logical x = ds.top.file x := logical_of_layer ds (findLayer_top ds h)

/-- Blocks the top layer does not have are decided by the lower layers alone. -/
theorem logical_withTop_lower {file : File} {bm : Words} (h : bm.length = ds.top.bm.length)
    {x : Nat} (hold : ds.topBits (x / cblocksize) = false)
    (hnew : bitmapTest bm (x / cblocksize) = false) :
    (ds.withTop file bm h).logical x = ds.logical x := by
  have hnew' : (ds.withTop file bm h).topBits (x / cblocksize) = false := hnew
  simp only [DiskStack.logical, findLayer_lower _ hold, findLayer_lower _ hnew']
  rfl

end Layers

section Prepare

variable {pagesize : Nat} {ds : DiskStack disksize} {r : Request disksize} {mbr : MmapBlockRegion}

theorem baIobuf_eq (h : mmapBlockRegionCreate pagesize disksize r.iofrom r.iolen = some mbr)
    (hd : disksize ≤ offMax) (h0 : 0 ≤ r.iofrom) :
    mbr.iobuf = r.start ∧ mbr.baIobuf = (r.blockIndexStart : Int) * cblocksize := by
  obtain ⟨hio, hba, -⟩ := mmapBlockRegionCreate_pointers h
  have hle := start_add_le hd h0
  simp only [offMax] at hd
  rw [hio, hba, blockIndexStart_eq h0, getBindexSta_natCast (by omega), iofrom_eq_start h0]
  unfold baIofrom cblocksize
  omega

/-- A block stored over from another file, cut at the end of the disk. -/
theorem storeBlock_byte (hmax : disksize ≤ offMax) (top src : File) {index offset : Nat}
    (hoff : offset = index * cblocksize) {x : Nat} (hx : x < disksize) :
    store top offset
        (slice src offset (confineIolenWithinDisk disksize (index * cblocksize) cblocksize)) x =
      if x / cblocksize = index then src x else top x := by
  rw [hoff]
  split
  · rename_i hblk
    have hlow : index * cblocksize ≤ x := by
      simp only [cblocksize] at *
      omega
    have hlen : x < index * cblocksize +
        confineIolenWithinDisk disksize (index * cblocksize) cblocksize := by
      rw [← Int.natCast_mul, confineIolenWithinDisk_natCast hmax (by omega)]
      simp only [cblocksize] at *
      omega
    rw [store_slice_inside _ _ hlow hlen]
    congr 1
    omega
  · rename_i hblk
    apply store_outside
    have hcap : confineIolenWithinDisk disksize (index * cblocksize) cblocksize ≤ cblocksize :=
      Nat.min_le_right _ _
    rw [slice_length]
    simp only [cblocksize] at *
    omega

/-- A copied block shows the logical content in the top layer; the bytes of
other blocks stay as they were. -/
theorem copyBlockToTopLayer_byte {top file : File} {index startIndex : Nat}
    (h : copyBlockToTopLayer ds mbr top index startIndex = some file)
    (hoff : mbr.baIobuf + ((index : Int) - startIndex) * cblocksize = (index : Int) * cblocksize)
    {x : Nat} (hx : x < disksize) :
    file x = if x / cblocksize = index then ds.logical x else top x := by
  simp only [copyBlockToTopLayer, Option.map_eq_some_iff] at h
  obtain ⟨di, hdi, rfl⟩ := h
  rw [storeBlock_byte ds.size_max top di.file (by rw [hoff]; omega) hx]
  split
  · rename_i hblk
    rw [logical_of_layer ds (hblk ▸ hdi)]
  · rfl

theorem copyEdge_byte {needed : Bool} {top file : File} {index startIndex : Nat}
    (h : copyEdge needed ds mbr top index startIndex = some file)
    (hoff : mbr.baIobuf + ((index : Int) - startIndex) * cblocksize = (index : Int) * cblocksize)
    {x : Nat} (hx : x < disksize) :
    file x = if needed = true ∧ x / cblocksize = index then ds.logical x else top x := by
  simp only [copyEdge] at h
  cases needed with
  | true => simpa using copyBlockToTopLayer_byte (by simpa using h) hoff hx
  | false =>
    cases h
    simp

theorem blockIndexEnd_lt (hd : disksize ≤ offMax) (h0 : 0 ≤ r.iofrom) (hlen : 0 < r.iolen) :
    r.blockIndexStart ≤ r.blockIndexEnd ∧ r.blockIndexEnd < getDiskNblocks disksize := by
  have hc := inBlocks_of_covers (r := r) (x := r.start) hd h0 ⟨by omega, by omega⟩
  have hle : r.blockIndexStart ≤ r.blockIndexEnd := Nat.le_trans hc.1 hc.2
  exact ⟨hle, inBlocks_lt hd h0 (by omega) ⟨hle, le_refl _⟩⟩

/-- The gather list of a READ has few enough entries. -/
theorem blockCount_lt (hd : disksize ≤ offMax) (h0 : 0 ≤ r.iofrom) (hlen : 0 < r.iolen) :
    r.blockIndexEnd + 1 - r.blockIndexStart < 2 ^ 32 := by
  have hl := r.admitted.length
  have hle := start_add_le hd h0
  simp only [offMax] at hd
  rw [blockIndexEnd_eq (by unfold offMax; omega) h0, blockIndexStart_eq h0,
    getBindexEnd_natCast (by omega) (by omega), getBindexSta_natCast (by omega)]
  simp only [cblocksize]
  omega

/-- The writing branch leaves every byte outside the request as it was seen
before, marks the whole range in the top layer, and returns. -/
theorem diskStackMmapWrite_spec {p : Prepared disksize} (h0 : 0 ≤ r.iofrom) (hlen : 0 < r.iolen)
    (h : diskStackMmapWrite pagesize ds r = some p) :
    p.marked.returned = true ∧ p.ds.lower = ds.lower ∧
      (∀ b, p.ds.topBits b = (ds.topBits b || decide (r.InBlocks b))) ∧
      ∀ x < disksize, ¬r.Covers x → p.ds.logical x = ds.logical x := by
  have hd := ds.size_max
  simp only [diskStackMmapWrite, Option.bind_eq_bind, Option.bind_eq_some_iff] at h
  obtain ⟨mbr, hm, sta, hsta, file, hfile, hp⟩ := h
  cases hp
  obtain ⟨hord, hlt⟩ := blockIndexEnd_lt hd h0 hlen
  have hwords := nblocks_le_topWords ds
  have hmark := markLoop_inside (topWords_lt ds) (Nat.lt_of_lt_of_le hlt hwords)
    (show r.blockIndexStart ≤ r.blockIndexEnd + 1 by omega)
    (show r.blockIndexEnd + 2 ≤ markFuel ds.top.bm + r.blockIndexStart by unfold markFuel; omega)
  have hbits : ∀ b, bitmapTest (markLoop r.blockIndexEnd (markFuel ds.top.bm) r.blockIndexStart
      ds.top.bm).bm b = (ds.topBits b || decide (r.InBlocks b)) := hmark.2
  refine ⟨hmark.1, rfl, hbits, fun x hx hcov => ?_⟩
  have hba := (baIobuf_eq hm hd h0).2
  have hsta' := copyEdge_byte hsta (by rw [hba]; ring) hx
  have hfile' := copyEdge_byte hfile (by rw [hba]; ring) hx
  by_cases hin : r.InBlocks (x / cblocksize)
  · rw [logical_top]
    · change file x = ds.logical x
      cases ht : ds.topBits (x / cblocksize) with
      | true =>
        rw [hfile', hsta', logical_top ds ht]
        simp
      | false =>
        rw [hfile', hsta']
        rcases edge_fetched hd h0 (by omega) hin hcov ht with he | he
        · simp [he]
        · simp [he]
    · exact (hbits _).trans (by simp [hin])
  · cases ht : ds.topBits (x / cblocksize) with
    | true =>
      have hne₁ : x / cblocksize ≠ r.blockIndexStart := fun h => hin ⟨by omega, by omega⟩
      have hne₂ : x / cblocksize ≠ r.blockIndexEnd := fun h => hin ⟨by omega, by omega⟩
      rw [logical_top, logical_top ds ht]
      · change file x = ds.top.file x
        rw [hfile', hsta']
        simp [hne₁, hne₂]
      · exact (hbits _).trans (by simp [ht])
    | false =>
      exact logical_withTop_lower ds (markLoop_length ..) ht ((hbits _).trans (by simp [ht, hin]))

end Prepare

section Gather

variable {pagesize : Nat} {ds : DiskStack disksize} {r : Request disksize} {mbr : MmapBlockRegion}

/-- The length of the part of a block that a range covers, as it is computed. -/
theorem chunk_length {start iolen index : Nat} (hlen : 0 < iolen) (hmax : start + iolen < 2 ^ 63)
    (hsta : start / cblocksize ≤ index) (hend : index ≤ (start + iolen - 1) / cblocksize) :
    toUint64 (min ((start + iolen : Nat) : Int) (((index : Int) + 1) * cblocksize) -
      max (start : Int) ((index : Int) * cblocksize)) =
      min (start + iolen) ((index + 1) * cblocksize) - max start (index * cblocksize) := by
  simp only [cblocksize] at *
  rw [toUint64_of_range (by omega) (by omega)]
  omega

/-- One entry of the gather list is the part of the block that the request
covers, read through the stack. -/
theorem readChunk_bytes (h : mmapBlockRegionCreate pagesize disksize r.iofrom r.iolen = some mbr)
    (h0 : 0 ≤ r.iofrom) (hlen : 0 < r.iolen) {index : Nat} (hin : r.InBlocks index) :
    (readChunk ds mbr r.iofrom r.ioend r.blockIndexStart index).bytes =
      slice ds.logical (max r.start (index * cblocksize))
        (min (r.start + r.iolen) ((index + 1) * cblocksize) -
          max r.start (index * cblocksize)) := by
  have hd := ds.size_max
  have hle := start_add_le hd h0
  obtain ⟨hio, hba⟩ := baIobuf_eq h hd h0
  obtain ⟨di, hdi⟩ := findLayer_isSome ds (inBlocks_lt hd h0 (by omega) hin)
  have hbuf : max (r.start : Int) ((r.blockIndexStart : Int) * cblocksize +
      ((index : Int) - r.blockIndexStart) * cblocksize) =
      ((max r.start (index * cblocksize) : Nat) : Int) := by
    simp only [cblocksize]
    omega
  have hsta := hin.1
  have hend := hin.2
  have hoff : r.start + r.iolen < 2 ^ 63 := by
    simp only [offMax] at hd
    omega
  rw [blockIndexStart_eq h0, getBindexSta_natCast (by omega)] at hsta
  rw [blockIndexEnd_eq hd h0, getBindexEnd_natCast (by omega) hoff] at hend
  have hchunk : toUint64 (min r.ioend (((index : Int) + 1) * cblocksize) -
      max r.iofrom ((index : Int) * cblocksize)) =
      min (r.start + r.iolen) ((index + 1) * cblocksize) - max r.start (index * cblocksize) := by
    rw [ioend_eq hd h0, iofrom_eq_start h0]
    exact chunk_length hlen hoff hsta hend
  simp only [readChunk, hdi, Chunk.bytes, hio, hba, hbuf, hchunk, Int.toNat_natCast]
  apply slice_congr
  intro x hx0 hx1
  have hx : x / cblocksize = index := by
    simp only [cblocksize] at *
    omega
  exact (logical_of_layer ds (hx ▸ hdi)).symm

/-- The entries of the first `k` blocks together are the bytes up to the end of
the last of them. -/
theorem readChunks_bytes (h : mmapBlockRegionCreate pagesize disksize r.iofrom r.iolen = some mbr)
    (h0 : 0 ≤ r.iofrom) (hlen : 0 < r.iolen) {k : Nat}
    (hk : k ≤ r.blockIndexEnd + 1 - r.blockIndexStart) :
    ((List.range' r.blockIndexStart k).map
        (readChunk ds mbr r.iofrom r.ioend r.blockIndexStart)).flatMap Chunk.bytes =
      slice ds.logical r.start
        (min (r.start + r.iolen) ((r.blockIndexStart + k) * cblocksize) - r.start) := by
  have hsta : r.blockIndexStart * cblocksize ≤ r.start ∧
      r.start < (r.blockIndexStart + 1) * cblocksize := by
    have hle := start_add_le ds.size_max h0
    have hd := ds.size_max
    simp only [offMax] at hd
    rw [blockIndexStart_eq h0, getBindexSta_natCast (by omega)]
    simp only [cblocksize]
    omega
  induction k with
  | zero =>
    have hz : min (r.start + r.iolen) ((r.blockIndexStart + 0) * cblocksize) - r.start = 0 := by
      simp only [cblocksize] at *
      omega
    rw [hz]
    rfl
  | succ k ih =>
    have hin : r.InBlocks (r.blockIndexStart + k) := ⟨by omega, by omega⟩
    rw [List.range'_1_concat, List.map_append, List.flatMap_append, ih (by omega)]
    simp only [List.map_cons, List.map_nil, List.flatMap_cons, List.flatMap_nil, List.append_nil]
    rw [readChunk_bytes h h0 hlen hin]
    have hlast : (r.blockIndexStart + k) * cblocksize < r.start + r.iolen := by
      have hd := ds.size_max
      have hle := start_add_le hd h0
      have hend := hin.2
      simp only [offMax] at hd
      rw [blockIndexEnd_eq (by unfold offMax; omega) h0,
        getBindexEnd_natCast (by omega) (by omega)] at hend
      simp only [cblocksize] at *
      omega
    have hjoin : max r.start ((r.blockIndexStart + k) * cblocksize) =
        r.start + (min (r.start + r.iolen) ((r.blockIndexStart + k) * cblocksize) - r.start) := by
      omega
    rw [hjoin, ← slice_add]
    congr 1
    simp only [cblocksize] at *
    omega

/-- The gather list of a READ is the requested range of the logical disk. -/
theorem diskStackMmapRead_spec {iov : List Chunk} (h0 : 0 ≤ r.iofrom) (hlen : 0 < r.iolen)
    (h : diskStackMmapRead pagesize ds r = some iov) :
    iov.flatMap Chunk.bytes = slice ds.logical r.start r.iolen := by
  simp only [diskStackMmapRead] at h
  split at h
  · cases h
  rename_i mbr hm
  split at h
  · cases h
    rw [readChunks_bytes hm h0 hlen (le_refl _)]
    congr 1
    have hd := ds.size_max
    have hle := start_add_le hd h0
    have hord := (blockIndexEnd_lt hd h0 hlen).1
    have hend := blockIndexEnd_eq (r := r) hd h0
    simp only [offMax] at hd
    rw [getBindexEnd_natCast (by omega) (by omega)] at hend
    simp only [cblocksize] at *
    omega
  · cases h

end Gather

section Serve

variable {pagesize : Nat} {readonly : Bool} {ds ds' : DiskStack disksize} {r : Request disksize}

/-- The requests the refinement is about: a nonempty range inside the disk. -/
def Served (r : Request disksize) : Prop :=
  (r.iotype = .read ∨ r.iotype = .write ∨ r.iotype = .trim) ∧ 0 ≤ r.iofrom ∧ 0 < r.iolen

instance (r : Request disksize) : Decidable (Served r) := inferInstanceAs (Decidable (_ ∧ _))

/-- A WRITE or TRIM in the prepared range of the top layer is seen as such on
the logical disk, and nothing else of it moves. -/
theorem logical_flatStep_top {p : Prepared disksize} (h0 : 0 ≤ r.iofrom) (hlen : 0 < r.iolen)
    (hr : r.iotype = .write ∨ r.iotype = .trim) (hp : diskStackMmapWrite pagesize ds r = some p)
    {x : Nat} (hx : x < disksize) :
    (p.ds.withTop (flatStep p.ds.top.file r) p.ds.top.bm rfl).logical x =
      flatStep ds.logical r x := by
  obtain ⟨-, -, hbits, hkeep⟩ := diskStackMmapWrite_spec h0 hlen hp
  have htop : ∀ ht : p.ds.topBits (x / cblocksize) = true,
      (p.ds.withTop (flatStep p.ds.top.file r) p.ds.top.bm rfl).logical x =
        flatStep p.ds.top.file r x := fun ht => logical_top _ ht
  by_cases hc : r.Covers x
  · have hin := inBlocks_of_covers ds.size_max h0 hc
    rw [htop (by simp [hbits, hin])]
    exact flatStep_inside _ _ hc hr
  · rw [flatStep_outside hc, ← hkeep x hx hc]
    cases ht : p.ds.topBits (x / cblocksize) with
    | true => rw [htop ht, flatStep_outside hc, logical_top p.ds ht]
    | false => exact logical_withTop_lower p.ds rfl ht ht

theorem cowCommand_served {p : Prepared disksize} {reply : Reply}
    (hr : r.iotype = .write ∨ r.iotype = .trim) (h : cowCommand p r = .served ds' reply) :
    ds' = p.ds.withTop (flatStep p.ds.top.file r) p.ds.top.bm rfl ∧ reply.data = [] := by
  rcases hr with ht | ht
  · simp only [cowCommand, ht] at h
    split at h
    · cases h
      simp only [flatStep, ht, and_self]
    · cases h
  · simp only [cowCommand, ht] at h
    cases h
    simp only [flatStep, ht, and_self]

/-- One served request: the stack behaves as the flat disk it shows. -/
theorem targetModeMainCow_refines {reply : Reply} (hr : Served r)
    (h : targetModeMainCow pagesize readonly ds r = .served ds' reply) :
    (∀ x < disksize, ds'.logical x = flatStep ds.logical r x) ∧
      reply.data = flatReply ds.logical r ∧ ds'.lower = ds.lower := by
  obtain ⟨htype, h0, hlen⟩ := hr
  simp only [targetModeMainCow] at h
  split at h
  · cases h
  split at h
  · cases h
  split at h
  · rename_i hread
    split at h
    · rename_i iov hiov
      cases h
      simp only [flatStep, flatReply, hread, implies_true, true_and, and_true]
      exact diskStackMmapRead_spec h0 hlen hiov
    · cases h
  · rename_i hread
    have hmod := htype.resolve_left hread
    split at h
    · rename_i p hp
      obtain ⟨hret, hlower, -, -⟩ := diskStackMmapWrite_spec h0 hlen hp
      rw [hret, if_pos rfl] at h
      obtain ⟨rfl, hdata⟩ := cowCommand_served hmod h
      refine ⟨fun x hx => logical_flatStep_top h0 hlen hmod hp hx, ?_, hlower⟩
      rcases hmod with ht | ht <;> simp [flatReply, ht, hdata]
    · cases h

/-- The disk is small enough that rounding the end of a range up to a block
stays inside the offsets, and a process that is to write may. -/
structure Mappable (disksize : Nat) (readonly : Bool) (r : Request disksize) : Prop where
  size : disksize + cblocksize ≤ offMax + 1
  writable : r.iotype = .write ∨ r.iotype = .trim → readonly = false
  received : r.iotype = .write → r.iolen < 2 ^ 31

theorem not_refused (hw : r.iotype = .write ∨ r.iotype = .trim → readonly = false) :
    ¬(readonly = true ∧ (r.iotype = .write ∨ r.iotype = .trim)) := by
  rintro ⟨hro, hio⟩
  rw [hw hio] at hro
  cases hro

/-- A request whose range is mapped does not end the worker. -/
theorem targetModeMainCow_serves_mapped {mbr : MmapBlockRegion} (ds : DiskStack disksize)
    (hr : Served r) (hmbr : mmapBlockRegionCreate pagesize disksize r.iofrom r.iolen = some mbr)
    (hw : r.iotype = .write ∨ r.iotype = .trim → readonly = false)
    (hreceived : r.iotype = .write → r.iolen < 2 ^ 31) :
    ∃ ds' reply, targetModeMainCow pagesize readonly ds r = .served ds' reply := by
  obtain ⟨htype, h0, hlen⟩ := hr
  have hd := ds.size_max
  have hle := start_add_le hd h0
  obtain ⟨hord, hlt⟩ := blockIndexEnd_lt hd h0 hlen
  have hcopy : ∀ needed top index startIndex, index < getDiskNblocks disksize →
      ∃ file, copyEdge needed ds mbr top index startIndex = some file := by
    intro needed top index startIndex hindex
    obtain ⟨di, hdi⟩ := findLayer_isSome ds hindex
    cases needed <;> simp [copyEdge, copyBlockToTopLayer, hdi]
  simp only [targetModeMainCow]
  rw [if_neg (not_refused hw), if_neg (by rcases htype with h | h | h <;> simp [h])]
  by_cases hread : r.iotype = .read
  · rw [if_pos hread]
    have hcount := blockCount_lt hd h0 hlen
    simp only [diskStackMmapRead, hmbr, hcount, if_true]
    exact ⟨_, _, rfl⟩
  · rw [if_neg hread]
    have hmod := htype.resolve_left hread
    obtain ⟨sta, hsta⟩ := hcopy (r.getStartBlock ds.topBits) ds.top.file r.blockIndexStart
      r.blockIndexStart (by omega)
    obtain ⟨file, hfile⟩ := hcopy (r.getEndBlock ds.topBits) sta r.blockIndexEnd
      r.blockIndexStart hlt
    obtain ⟨p, hp⟩ : ∃ p, diskStackMmapWrite pagesize ds r = some p := by
      simp only [diskStackMmapWrite, hmbr, hsta, hfile, Option.bind_eq_bind, Option.bind_some]
      exact ⟨_, rfl⟩
    simp only [hp, (diskStackMmapWrite_spec h0 hlen hp).1, if_true]
    rcases hmod with ht | ht
    · have hrecv := hreceived ht
      have hfin : CheckFin r.iolen (toInt32 r.iolen) := by
        unfold CheckFin
        rw [toInt32_of_range (by omega) (by omega)]
        omega
      simp only [cowCommand, ht, hfin, if_true]
      exact ⟨_, _, rfl⟩
    · simp only [cowCommand, ht]
      exact ⟨_, _, rfl⟩

/-- No served request ends the worker. -/
theorem targetModeMainCow_serves (pagesize : Nat) (ds : DiskStack disksize) (hr : Served r)
    (hm : Mappable disksize readonly r) :
    ∃ ds' reply, targetModeMainCow pagesize readonly ds r = .served ds' reply := by
  have hle := start_add_le ds.size_max hr.2.1
  have hsize := hm.size
  have hsome := (mmapBlockRegionCreate_isSome_iff pagesize ds.size_max hle).mpr (by omega)
  obtain ⟨mbr, hmbr⟩ := Option.isSome_iff_exists.mp hsome
  rw [← iofrom_eq_start hr.2.1] at hmbr
  exact targetModeMainCow_serves_mapped ds hr hmbr hm.writable hm.received

theorem diskStackMmapWrite_lower {p : Prepared disksize}
    (h : diskStackMmapWrite pagesize ds r = some p) : p.ds.lower = ds.lower := by
  simp only [diskStackMmapWrite, Option.bind_eq_bind, Option.bind_eq_some_iff] at h
  obtain ⟨_, -, _, -, _, -, hp⟩ := h
  cases hp
  rfl

/-- A worker that ends on a request leaves the lower layers alone as well. -/
theorem targetModeMainCow_ended_lower
    (h : targetModeMainCow pagesize readonly ds r = .ended ds') : ds'.lower = ds.lower := by
  simp only [targetModeMainCow] at h
  split at h
  · cases h; rfl
  split at h
  · cases h; rfl
  split at h
  · split at h
    · cases h
    · cases h; rfl
  · split at h
    · rename_i p hp
      have hlower := diskStackMmapWrite_lower hp
      split at h
      · simp only [cowCommand] at h
        split at h
        · split at h <;> cases h
          exact hlower
        · cases h
        · cases h
        · cases h
          exact hlower
      · cases h
        exact hlower
    · cases h; rfl

/-- A worker that serves a sequence of requests, one at a time; `none` if it
ended on one of them. -/
def cowServe (pagesize : Nat) (readonly : Bool) :
    DiskStack disksize → List (Request disksize) → Option (DiskStack disksize × List Reply)
  | ds, [] => some (ds, [])
  | ds, r :: rest =>
    match targetModeMainCow pagesize readonly ds r with
    | .served ds' reply =>
      (cowServe pagesize readonly ds' rest).map fun e => (e.1, reply :: e.2)
    | .ended _ => none

/-- Every served sequence acts on the logical disk as on a flat one and sends
its bytes, the lower layers stay as they are, and the worker ends on no
request that can be mapped and received. -/
theorem cowServe_refines_flat (pagesize : Nat) (readonly : Bool) (ds : DiskStack disksize)
    (reqs : List (Request disksize)) (hreq : ∀ r ∈ reqs, Served r) :
    (∀ ds' replies, cowServe pagesize readonly ds reqs = some (ds', replies) →
      (∀ x < disksize, ds'.logical x = flatRun ds.logical reqs x) ∧
        replies.map Reply.data = flatReplies ds.logical reqs ∧ ds'.lower = ds.lower ∧
        ∀ r last, targetModeMainCow pagesize readonly ds' r = .ended last →
          last.lower = ds.lower) ∧
      ((∀ r ∈ reqs, Mappable disksize readonly r) →
        ∃ ds' replies, cowServe pagesize readonly ds reqs = some (ds', replies)) := by
  induction reqs generalizing ds with
  | nil =>
    refine ⟨fun ds' replies h => ?_, fun _ => ⟨ds, [], rfl⟩⟩
    cases h
    exact ⟨fun x _ => rfl, rfl, rfl, fun r last h => targetModeMainCow_ended_lower h⟩
  | cons r rest ih =>
    simp only [List.mem_cons, forall_eq_or_imp] at hreq
    constructor
    · intro ds' replies h
      simp only [cowServe] at h
      split at h
      · rename_i mid reply hserved
        obtain ⟨⟨last, tail⟩, htail, he⟩ := Option.map_eq_some_iff.mp h
        cases he
        obtain ⟨hlog, hdata, hlower⟩ := targetModeMainCow_refines hreq.1 hserved
        obtain ⟨hlog', hdata', hlower', hend⟩ := (ih mid hreq.2).1 last tail htail
        refine ⟨fun x hx => ?_, ?_, hlower'.trans hlower, fun q left hq => ?_⟩
        · rw [hlog' x hx]
          exact flatRun_congr rest (hlog x hx)
        · rw [List.map_cons, hdata, hdata', flatReplies,
            flatReplies_congr ds.size_max (fun q hq => (hreq.2 q hq).2.1) hlog]
        · exact (hend q left hq).trans hlower
      · cases h
    · intro hmap
      simp only [List.mem_cons, forall_eq_or_imp] at hmap
      obtain ⟨mid, reply, hserved⟩ := targetModeMainCow_serves pagesize ds hreq.1 hmap.1
      obtain ⟨ds', replies, htail⟩ := (ih mid hreq.2).2 hmap.2
      exact ⟨ds', reply :: replies, by simp [cowServe, hserved, htail]⟩

end Serve

section Example

/-- One block over a full base layer of ones; the top layer is empty. -/
def oneBlock : DiskStack 4096 where
  lower := [⟨fun _ => 1, [1#64]⟩]
  top := ⟨fun _ => 0, [0#64]⟩
  size_pos := by decide
  size_max := by decide
  lower_ne := by simp
  layers_le := by decide
  top_words := by decide
  lower_words := by simp; decide
  base_full := by decide

def writeByte : Request 4096 where
  iotype := .write
  iofrom := 5
  iolen := 1
  data := [7]
  admitted := by constructor <;> decide
  payload := by decide

def readBytes : Request 4096 where
  iotype := .read
  iofrom := 4
  iolen := 3
  data := []
  admitted := by constructor <;> decide
  payload := by decide

theorem cowServe_refines_flat_write_read :
    ∃ ds' replies, cowServe 4096 false oneBlock [writeByte, readBytes] = some (ds', replies) ∧
      replies.map Reply.data = [[], [1, 7, 1]] ∧ ds'.lower = oneBlock.lower := by
  obtain ⟨hrefine, hserve⟩ :=
    cowServe_refines_flat 4096 false oneBlock [writeByte, readBytes] (by decide)
  obtain ⟨ds', replies, h⟩ := hserve (by
    intro r hr
    simp only [List.mem_cons, List.not_mem_nil, or_false] at hr
    rcases hr with rfl | rfl <;> constructor <;> decide)
  obtain ⟨-, hdata, hlower, -⟩ := hrefine ds' replies h
  exact ⟨ds', replies, h, hdata.trans (by decide), hlower⟩

end Example

section Flush

variable {pagesize : Nat} {readonly : Bool} {ds : DiskStack disksize} {r : Request disksize}

/-- What a FLUSH should be: it is served, the logical disk is the one before,
and no bit behind the last block of the disk is touched. -/
structure FlushHarmless (pagesize : Nat) (readonly : Bool) (ds : DiskStack disksize)
    (r : Request disksize) : Prop where
  served : ∃ ds' reply, targetModeMainCow pagesize readonly ds r = .served ds' reply ∧
    ∀ x < disksize, ds'.logical x = ds.logical x
  touched : ∀ p, diskStackMmapWrite pagesize ds r = some p →
    ∀ index ∈ p.marked.touched, index < getDiskNblocks disksize

theorem flush_mapped (pagesize : Nat) (hf : r.iotype = .flush) :
    ∃ mbr, mmapBlockRegionCreate pagesize disksize r.iofrom r.iolen = some mbr := by
  obtain ⟨h0, hl⟩ := r.admitted.flush hf
  rw [h0, hl, ← Option.isSome_iff_exists]
  have hend : baIoend disksize 0 0 = 0 := by
    unfold baIoend cblocksize toInt64
    dsimp only
    omega
  have hsta : baIofrom 0 = 0 := by decide
  simp [mmapBlockRegionCreate, mmapRegionCreate, hend, hsta, toUint64]

theorem flush_edges (hf : r.iotype = .flush) (present : Nat → Bool) :
    r.blockIndexStart = 0 ∧ r.blockIndexEnd = 2 ^ 64 - 1 ∧ r.getStartBlock present = false ∧
      r.getEndBlock present = false := by
  obtain ⟨h0, hl⟩ := r.admitted.flush hf
  have hend : r.ioend = 0 := by
    simp only [Request.ioend]
    rw [h0, hl]
    decide
  refine ⟨?_, ?_, ?_, ?_⟩
  · simp only [Request.blockIndexStart]
    rw [h0]
    decide
  · simp only [Request.blockIndexEnd]
    rw [hend]
    exact getBindexEnd_zero
  · simp [Request.getStartBlock, h0]
  · simp [Request.getEndBlock, hend]

/-- The empty range of a FLUSH ends in the largest block index. The marking loop
sets every bit of the top layer, runs past the last block of the disk and does
not return; from then on every session reads the top layer's file, whatever
the layers below hold. -/
theorem flush_effect (pagesize : Nat) (readonly : Bool) (ds : DiskStack disksize)
    (hf : r.iotype = .flush) :
    ∃ p, diskStackMmapWrite pagesize ds r = some p ∧
      targetModeMainCow pagesize readonly ds r = .ended p.ds ∧
      getDiskNblocks disksize ∈ p.marked.touched ∧
      ∀ x < disksize, p.ds.logical x = ds.top.file x := by
  obtain ⟨mbr, hm⟩ := flush_mapped pagesize hf
  obtain ⟨hsta, hend, hgs, hge⟩ := flush_edges hf ds.topBits
  have hwords := nblocks_le_topWords ds
  obtain ⟨hret, htouched, hbits⟩ := markLoop_endless (topWords_lt ds) (Nat.zero_le _)
    (show 64 * ds.top.bm.length + 1 ≤ markFuel ds.top.bm + 0 by unfold markFuel; omega)
  rw [← hsta, ← hend] at hret htouched hbits
  have hp : diskStackMmapWrite pagesize ds r =
      some ⟨ds.withTop ds.top.file _ (markLoop_length r.blockIndexEnd (markFuel ds.top.bm)
          r.blockIndexStart ds.top.bm),
        markLoop r.blockIndexEnd (markFuel ds.top.bm) r.blockIndexStart ds.top.bm⟩ := by
    simp [diskStackMmapWrite, hm, hgs, hge, copyEdge]
  refine ⟨_, hp, ?_, ?_, fun x hx => ?_⟩
  · simp [targetModeMainCow, hf, hp, hret]
  · exact htouched _ (by omega) hwords
  · apply logical_top
    have hx' : x / cblocksize < 64 * ds.top.bm.length :=
      Nat.lt_of_lt_of_le (block_lt_nblocks hx) hwords
    exact (hbits _).trans (by simp [hsta, hx'])

/-- There is no stack and no FLUSH for which it is harmless. -/
theorem targetModeMainCow_flush_never_harmless (pagesize : Nat) (readonly : Bool)
    (ds : DiskStack disksize) (r : Request disksize) (hf : r.iotype = .flush) :
    ¬FlushHarmless pagesize readonly ds r := by
  obtain ⟨p, hp, -, htouched, -⟩ := flush_effect pagesize readonly ds hf
  intro h
  exact Nat.lt_irrefl _ (h.touched p hp _ htouched)

def flushRequest : Request 4096 where
  iotype := .flush
  iofrom := 0
  iolen := 0
  data := []
  admitted := by constructor <;> decide
  payload := by decide

theorem targetModeMainCow_flush_never_harmless_one_block :
    flushRequest.iotype = .flush ∧ ¬FlushHarmless 4096 false oneBlock flushRequest :=
  ⟨rfl, targetModeMainCow_flush_never_harmless 4096 false oneBlock flushRequest rfl⟩

/-- A FLUSH on a clean stack loses the base layer's content: the byte read as one
before is read as zero by the other sessions afterwards, and the worker is gone. -/
theorem targetModeMainCow_flush_damages :
    ¬FlushHarmless 4096 false oneBlock flushRequest ∧
      ∃ left, targetModeMainCow 4096 false oneBlock flushRequest = .ended left ∧
        oneBlock.logical 0 = 1 ∧ left.logical 0 = 0 := by
  obtain ⟨p, -, hended, -, hlog⟩ := flush_effect (r := flushRequest) 4096 false oneBlock rfl
  refine ⟨fun h => ?_, p.ds, hended, by decide, hlog 0 (by decide)⟩
  obtain ⟨ds', reply, hserved, -⟩ := h.served
  simp [hended] at hserved

end Flush

end Xnbd.CowRefine
