import Mathlib.Data.Nat.Bitwise
import Xnbd.Fragments
import Xnbd.Negotiate

/-!
# Remote reads and the mapping they are received into

`forwarder_tx` and `forwarder_rx` each work out where a remote read starts and how
long it is, and `forwarder_rx` receives the bytes through a mapping whose bounds are
rounded to blocks, confined to the disk and rounded to pages. The four computations
are written with their conversions and masks and are shown to fit together.
-/
namespace Xnbd.Mapping

open CInt Block Bitmap Nbd Requests CowRefine Forwarder Reference Coherence Loop Ranges Fragments
  Negotiate

variable {disksize : Nat}

section Masks

/-- `x & ~(size - 1)` in 64 bits, read as an `off_t`. -/
def clearLow (size x : Int) : Int :=
  (BitVec.ofInt 64 x &&& ~~~BitVec.ofInt 64 (size - 1)).toInt

theorem mask_toNat (b : BitVec 64) (k : Nat) :
    (b &&& ~~~BitVec.ofNat 64 (2 ^ k - 1)).toNat = b.toNat / 2 ^ k * 2 ^ k := by
  have hshift : b &&& ~~~BitVec.ofNat 64 (2 ^ k - 1) = (b >>> k) <<< k := by
    apply BitVec.eq_of_getLsbD_eq
    intro i hi
    simp only [BitVec.getLsbD_and, BitVec.getLsbD_not, BitVec.getLsbD_ofNat,
      BitVec.getLsbD_shiftLeft, BitVec.getLsbD_ushiftRight, Nat.testBit_two_pow_sub_one]
    by_cases h : i < k
    · simp [h, hi]
    · have hat : k + (i - k) = i := by omega
      simp [h, hi, hat]
  have hlt := b.isLt
  have hle := Nat.div_mul_le_self b.toNat (2 ^ k)
  rw [hshift, BitVec.toNat_shiftLeft, BitVec.toNat_ushiftRight, Nat.shiftLeft_eq,
    Nat.shiftRight_eq_div_pow, Nat.mod_eq_of_lt (by omega)]

/-- Clearing the low bits of an offset is subtracting its residue. -/
theorem clearLow_eq (k : Nat) {x : Int} (h0 : 0 ≤ x) (h1 : x < 2 ^ 63) :
    clearLow (2 ^ k : Nat) x = x - x % (2 ^ k : Nat) := by
  obtain ⟨n, rfl⟩ := Int.eq_ofNat_of_zero_le h0
  have hpos : 0 < 2 ^ k := Nat.two_pow_pos k
  have hone : ((2 ^ k : Nat) : Int) - 1 = ((2 ^ k - 1 : Nat) : Int) := by omega
  have hn : n % 2 ^ 64 = n := Nat.mod_eq_of_lt (by omega)
  have hmask := mask_toNat (BitVec.ofNat 64 n) k
  have hle := Nat.div_mul_le_self n (2 ^ k)
  have hdiv := Nat.div_add_mod' n (2 ^ k)
  rw [BitVec.toNat_ofNat, hn] at hmask
  rw [clearLow, hone, BitVec.ofInt_natCast, BitVec.ofInt_natCast,
    BitVec.toInt_eq_toNat_of_lt (by omega), hmask]
  have hres : ((n : Int) % (2 ^ k : Nat)) = ((n % 2 ^ k : Nat) : Int) := (Int.natCast_emod _ _).symm
  omega

end Masks

section Model

def nbdClientSendReadRequest (iofrom : Int) (len : Nat) : Option (List UInt8) :=
  nbdClientSendRequestHeader (iotypeCode .read) iofrom len myhandle

/-- `iofrom` and `length` in the sending loop of `forwarder_tx_thread_main`. -/
def txRead (disksize : Nat) (rr : ReadReq) : Int × Nat :=
  let iofrom := toInt64 (toInt64 rr.bindexIofrom * cblocksize)
  let length := toUint64 (rr.bindexIolen * cblocksize)
  (iofrom, confineIolenWithinDisk disksize iofrom length)

/-- `block_iofrom` and `block_iolen` in `forwarder_rx_thread_mainloop`. -/
def rxBlock (disksize : Nat) (rr : ReadReq) : Int × Nat :=
  let blockIofrom := toInt64 (toInt64 rr.bindexIofrom * cblocksize)
  let blockIolen := toUint64 (rr.bindexIolen * cblocksize)
  (blockIofrom, confineIolenWithinDisk disksize blockIofrom blockIolen)

/-- `iobuf_partial`, by the file offset that it addresses. -/
def iobufPartial (mbr : MmapBlockRegion) (blockIofrom : Int) : Int :=
  mbr.baIobuf + (blockIofrom - mbr.baIofrom)

/-- `req[]` of a new request behind `prepare_write_priv` or `prepare_read_priv`. -/
def preparedReqs (cbitmap : Words) (r : Request disksize) (fuel : Nat) : Outcome (List ReadReq) :=
  match r.iotype with
  | .write =>
    match prepareWritePriv cbitmap r fuel with
    | .left _ => .left (edgeReqs r (r.getStartBlock (bitmapTest cbitmap))
        (r.getEndBlock (bitmapTest cbitmap)))
    | .stopped i => .stopped i
    | .running => .running
  | .read | .cache =>
    match prepareReadPriv cbitmap r fuel with
    | .left s => .left s.2
    | .stopped i => .stopped i
    | .running => .running
  | _ => .left []

end Model

section Entries

variable {r : Request disksize} {cbitmap : Words} {req req' : List ReadReq} {rr : ReadReq}
  {sta i : Nat}

/-- The entry is a nonempty run of the blocks from `sta` up to `i`. -/
structure Spans (sta i : Nat) (rr : ReadReq) : Prop where
  first : sta ≤ rr.bindexIofrom
  nonempty : 0 < rr.bindexIolen
  last : rr.bindexIofrom + rr.bindexIolen ≤ i

theorem Spans.mono (h : Spans sta i rr) : Spans sta (i + 1) rr :=
  ⟨h.first, h.nonempty, Nat.le_succ_of_le h.last⟩

theorem addReadBlockToTail_spans (hi : sta ≤ i) (h : ∀ rr ∈ req, Spans sta i rr)
    (hadd : addReadBlockToTail req i = some req') : ∀ rr ∈ req', Spans sta (i + 1) rr := by
  intro rr hrr
  obtain ⟨init, last, rfl, he, rfl⟩ | ⟨-, -, rfl⟩ := addReadBlockToTail_cases hadd
  · cases List.mem_append.mp hrr with
    | inl hold => exact (h rr (List.mem_append_left _ hold)).mono
    | inr hext =>
      have hlast := h last (List.mem_append_right _ (List.mem_singleton_self _))
      rw [List.mem_singleton.mp hext]
      exact ⟨hlast.first, Nat.succ_pos _, by simp only; omega⟩
  · cases List.mem_append.mp hrr with
    | inl hold => exact (h rr hold).mono
    | inr hnew =>
      rw [List.mem_singleton.mp hnew]
      exact ⟨hi, Nat.one_pos, Nat.le_refl _⟩

theorem prepareReadBlock_spans {s : Words × List ReadReq} (hi : sta ≤ i)
    (h : ∀ rr ∈ req, Spans sta i rr) (hstep : prepareReadBlock cbitmap req i = some s) :
    ∀ rr ∈ s.2, Spans sta (i + 1) rr := by
  obtain ⟨-, ⟨-, rfl⟩ | ⟨-, req', hadd, rfl⟩⟩ := prepareReadBlock_cases hstep
  · exact fun rr hrr => (h rr hrr).mono
  · exact addReadBlockToTail_spans hi h hadd

theorem edgeReqs_spans (hord : r.blockIndexStart ≤ r.blockIndexEnd) (getStart getEnd : Bool) :
    ∀ rr ∈ edgeReqs r getStart getEnd, Spans r.blockIndexStart (r.blockIndexEnd + 1) rr := by
  intro rr hrr
  cases mem_edgeReqs.mp hrr with
  | inl h =>
    rw [h.2]
    exact ⟨Nat.le_refl _, Nat.one_pos, Nat.succ_le_succ hord⟩
  | inr h =>
    rw [h.2]
    exact ⟨hord, Nat.one_pos, Nat.le_refl _⟩

/-- Every entry is a run of the request's blocks, whatever the bitmap is. -/
theorem preparedReqs_spans (hd : disksize ≤ offMax) (h0 : 0 ≤ r.iofrom) (hlen : 1 ≤ r.iolen)
    {fuel : Nat} (h : preparedReqs cbitmap r fuel = .left req) :
    ∀ rr ∈ req, Spans r.blockIndexStart (r.blockIndexEnd + 1) rr := by
  obtain ⟨-, -, hmax⟩ := bounds hd h0 (r := r) (by omega)
  obtain ⟨hord, -⟩ := blockIndexEnd_lt hd h0 hlen
  have hread : ∀ s, prepareReadPriv cbitmap r fuel = .left s →
      ∀ rr ∈ s.2, Spans r.blockIndexStart (r.blockIndexEnd + 1) rr := by
    intro s hs
    exact forLoop_invariant (fun s i => prepareReadBlock s.1 s.2 i)
      (fun i s => ∀ rr ∈ s.2, Spans r.blockIndexStart i rr) hmax (by omega)
      (by simp) (fun i s s' hi _ hI hb => prepareReadBlock_spans hi hI hb) hs
  simp only [preparedReqs] at h
  split at h
  · split at h
    · cases h
      exact edgeReqs_spans hord _ _
    · cases h
    · cases h
  · split at h
    · rename_i s hs
      cases h
      exact hread s hs
    · cases h
    · cases h
  · split at h
    · rename_i s hs
      cases h
      exact hread s hs
    · cases h
    · cases h
  · cases h
    exact fun rr hrr => nomatch hrr

end Entries

section Geometry

variable {r : Request disksize} {rr : ReadReq} {pagesize : Nat} {mbr : MmapBlockRegion}

/-- Where an entry lies: its start is on the disk, and the range with its blocks is
inside the blocks of the request. -/
theorem Spans.start_lt (hd : disksize ≤ offMax) (h0 : 0 ≤ r.iofrom) (hlen : 1 ≤ r.iolen)
    (h : Spans r.blockIndexStart (r.blockIndexEnd + 1) rr) :
    r.start / cblocksize ≤ rr.bindexIofrom ∧
      rr.bindexIofrom + rr.bindexIolen ≤ (r.start + r.iolen - 1) / cblocksize + 1 ∧
      rr.bindexIofrom * cblocksize < r.start + r.iolen ∧ r.start + r.iolen ≤ disksize := by
  have hle := start_add_le hd h0
  have hfirst := h.first
  have hne := h.nonempty
  have hlast := h.last
  have hend := blockIndexEnd_eq hd h0
  simp only [offMax] at hd
  rw [blockIndexStart_eq h0, getBindexSta_natCast (by omega)] at hfirst
  rw [hend, getBindexEnd_natCast (by omega) (by omega)] at hlast
  simp only [cblocksize] at *
  omega

/-- What both threads compute for an entry on the disk. -/
theorem rxBlock_eq (hd : disksize ≤ offMax) (hstart : rr.bindexIofrom * cblocksize < disksize)
    (hlen : rr.bindexIolen * cblocksize < 2 ^ 64) :
    rxBlock disksize rr = (((rr.bindexIofrom * cblocksize : Nat) : Int),
      min (disksize - rr.bindexIofrom * cblocksize) (rr.bindexIolen * cblocksize)) := by
  have hmax := hd
  simp only [offMax] at hmax
  have hindex : toInt64 rr.bindexIofrom = rr.bindexIofrom := by
    simp only [cblocksize] at hstart
    exact toInt64_of_range (by omega) (by omega)
  have hfrom : toInt64 (rr.bindexIofrom * cblocksize) = (rr.bindexIofrom * cblocksize : Nat) := by
    push_cast
    exact toInt64_of_range (by omega) (by omega)
  have hblock : toUint64 (rr.bindexIolen * cblocksize) = rr.bindexIolen * cblocksize := by
    rw [toUint64_of_range (by omega) (by omega)]
    omega
  simp only [rxBlock, hindex, hfrom, hblock,
    confineIolenWithinDisk_natCast hd (Nat.le_of_lt hstart)]

/-- The end of the region, from its arithmetic in the range where nothing wraps. -/
theorem baIoend_eq (hin : r.start + r.iolen ≤ disksize) (hd : disksize ≤ offMax - 4095) :
    baIoend disksize r.start r.iolen =
      min disksize ((r.start + r.iolen + 4095) / 4096 * 4096) := by
  simp only [offMax] at hd
  unfold baIoend cblocksize toInt64
  dsimp only
  omega

end Geometry

section Agreement

variable {r : Request disksize} {rr : ReadReq} {pagesize : Nat} {mbr : MmapBlockRegion}

/-- The region of a request: it holds the request, it is mapped from a page boundary
on, and the two pointers address the offsets they stand for. `baIoend` is the end that
`mmap_block_region_create` rounds up and confines to the disk. -/
structure Maps (pagesize : Nat) (r : Request disksize) (mbr : MmapBlockRegion) : Prop where
  first : mbr.baIofrom = clearLow cblocksize r.iofrom
  last : baIoend disksize r.iofrom r.iolen =
    min (disksize : Int) (clearLow cblocksize (r.iofrom + r.iolen + (cblocksize - 1)))
  request : mbr.baIofrom ≤ r.iofrom ∧ r.iofrom + r.iolen ≤ baIoend disksize r.iofrom r.iolen
  page : mbr.mr.mmapFrom = clearLow pagesize mbr.baIofrom ∧ (pagesize : Int) ∣ mbr.mr.mmapFrom
  mapped : mbr.mr.mmapFrom ≤ mbr.baIofrom ∧
    mbr.mr.mmapFrom + mbr.mr.mmapLen = baIoend disksize r.iofrom r.iolen
  iobuf : mbr.iobuf = r.iofrom
  baIobuf : mbr.baIobuf = mbr.baIofrom

/-- One entry of the table: the remote is asked for the bytes that are received, they
are bytes of the disk, and they are received inside the region. -/
structure Agrees (r : Request disksize) (mbr : MmapBlockRegion) (rr : ReadReq) : Prop where
  same : txRead disksize rr = rxBlock disksize rr
  asked : ∀ bytes, nbdClientSendReadRequest (txRead disksize rr).1 (txRead disksize rr).2 =
    some bytes → nbdServerRecvRequest disksize bytes =
      .ok .read (rxBlock disksize rr).1 (rxBlock disksize rr).2 myhandle
  nonempty : 1 ≤ (rxBlock disksize rr).2
  disk : 0 ≤ (rxBlock disksize rr).1 ∧
    (rxBlock disksize rr).1 + (rxBlock disksize rr).2 ≤ disksize
  destination : iobufPartial mbr (rxBlock disksize rr).1 = (rxBlock disksize rr).1 ∧
    mbr.baIofrom ≤ (rxBlock disksize rr).1 ∧
    (rxBlock disksize rr).1 + (rxBlock disksize rr).2 ≤ baIoend disksize r.iofrom r.iolen
  thread : rxBlock disksize rr = (((remoteRange disksize rr).1 : Int), (remoteRange disksize rr).2)

/-- `CBLOCKSIZE` is a power of two as well. -/
theorem clearLow_cblocksize {x : Int} (h0 : 0 ≤ x) (h1 : x < 2 ^ 63) :
    clearLow cblocksize x = x - x % 4096 := clearLow_eq 12 h0 h1

theorem maps_of_create (hd : disksize ≤ offMax - 4095) (h0 : 0 ≤ r.iofrom) (hlen : 1 ≤ r.iolen)
    (k : Nat) (h : mmapBlockRegionCreate (2 ^ k) disksize r.iofrom r.iolen = some mbr) :
    Maps (2 ^ k) r mbr := by
  have hin := start_add_le (r := r) (by omega) h0
  have hs := iofrom_eq_start h0
  have hend := baIoend_eq hin hd
  obtain ⟨hiobuf, hba, hfrom⟩ := mmapBlockRegionCreate_pointers h
  simp only [mmapBlockRegionCreate, Option.map_eq_some_iff] at h
  obtain ⟨mr, hmr, hmbr⟩ := h
  have hmr' : mbr.mr = mr := by rw [← hmbr]
  obtain ⟨-, -, hpage, hmlen⟩ := mmapRegionCreate_some hmr
  rw [← hmr'] at hpage hmlen
  rw [← hs] at hend
  have hstart : baIofrom r.iofrom = r.iofrom - r.iofrom % 4096 := rfl
  obtain ⟨hr0, hr1⟩ := residue_bounds (show 0 ≤ baIofrom r.iofrom by omega) (2 ^ k)
  simp only [offMax] at hd
  have hclear := clearLow_eq k (x := baIofrom r.iofrom) (by omega) (by omega)
  constructor
  · rw [hfrom, hstart, clearLow_cblocksize h0 (by omega)]
  · rw [hend, clearLow_cblocksize (by simp only [cblocksize]; omega)
      (by simp only [cblocksize]; omega)]
    simp only [cblocksize]
    omega
  · rw [hend, hfrom, hstart]
    omega
  · rw [hpage, hfrom, hclear]
    exact ⟨rfl, Int.dvd_self_sub_emod⟩
  · have hpart : toUint64 (baIoend disksize r.iofrom r.iolen - baIofrom r.iofrom) =
        (baIoend disksize r.iofrom r.iolen - baIofrom r.iofrom).toNat :=
      toUint64_of_range (by omega) (by omega)
    rw [hpart, toUint64_of_range (by omega) (by omega)] at hmlen
    rw [hpage, hfrom, hmlen]
    omega
  · exact hiobuf
  · rw [hba, hfrom]

/-- A READ that is sent is admitted by the remote server as it was meant. -/
theorem read_asked {iofrom : Int} {len : Nat} {bytes : List UInt8} (hoff : iofrom < 2 ^ 63)
    (hdisk : iofrom + len ≤ disksize) (h : nbdClientSendReadRequest iofrom len = some bytes) :
    nbdServerRecvRequest disksize bytes = .ok .read iofrom len myhandle := by
  have hhandle : myhandle < 2 ^ 64 := by
    simp only [myhandle]
    omega
  have hcode : iotypeCode .read ≠ 3 := by decide
  exact nbdServerRecvRequest_sent (by decide) hoff hhandle (by decide)
    (fun he => absurd he hcode) hdisk h

theorem agrees_of_spans (hd : disksize ≤ offMax - 4095) (h0 : 0 ≤ r.iofrom) (hlen : 1 ≤ r.iolen)
    (hmaps : Maps pagesize r mbr) (h : Spans r.blockIndexStart (r.blockIndexEnd + 1) rr) :
    Agrees r mbr rr := by
  have hmax : disksize ≤ offMax := by omega
  have hne := h.nonempty
  have hs := iofrom_eq_start h0
  obtain ⟨hfirst, hlast, hstart, hin⟩ := h.start_lt hmax h0 hlen
  have hend := baIoend_eq hin hd
  have hbase : mbr.baIofrom = r.iofrom - r.iofrom % 4096 := by
    rw [hmaps.first, clearLow_cblocksize h0 (by simp only [offMax] at hd; omega)]
  have hon : rr.bindexIofrom * cblocksize < disksize := Nat.lt_of_lt_of_le hstart hin
  have hrange := remoteRange_eq hmax (Nat.le_of_lt hon)
  have hlong : rr.bindexIolen * cblocksize < 2 ^ 64 := by
    simp only [offMax] at hd
    simp only [cblocksize] at hlast ⊢
    omega
  have hrx := rxBlock_eq hmax hon hlong
  rw [← hs] at hend
  simp only [offMax] at hd
  constructor
  · rfl
  · intro bytes hsent
    have htx : txRead disksize rr = rxBlock disksize rr := rfl
    rw [htx] at hsent
    have hdisk : (rxBlock disksize rr).1 + (rxBlock disksize rr).2 ≤ disksize := by
      rw [hrx]
      simp only
      omega
    have hoff : (rxBlock disksize rr).1 < 2 ^ 63 := by
      rw [hrx]
      simp only
      omega
    exact read_asked hoff hdisk hsent
  · rw [hrx]
    simp only [cblocksize] at *
    omega
  · rw [hrx]
    simp only [cblocksize] at *
    omega
  · rw [hrx, hend, iobufPartial, hmaps.baIobuf, hbase]
    simp only [cblocksize] at *
    omega
  · rw [hrx, hrange]

/-- The threads agree on every entry of every request that the disk has room for, and the
region that is mapped for the request has room for all of it. -/
theorem forwarder_fits_mapping (disksize : Nat) (hd : disksize ≤ offMax - 4095) (k : Nat)
    (r : Request disksize) (h0 : 0 ≤ r.iofrom) (hlen : 1 ≤ r.iolen) (cbitmap : Words) :
    ∃ mbr, mmapBlockRegionCreate (2 ^ k) disksize r.iofrom r.iolen = some mbr ∧
      Maps (2 ^ k) r mbr ∧
      ∀ fuel req, preparedReqs cbitmap r fuel = .left req → ∀ rr ∈ req, Agrees r mbr rr := by
  have hmax : disksize ≤ offMax := by omega
  have hin := start_add_le hmax h0
  have hs := iofrom_eq_start h0
  have hsome : (mmapBlockRegionCreate (2 ^ k) disksize r.iofrom r.iolen).isSome := by
    rw [hs, mmapBlockRegionCreate_isSome_iff (2 ^ k) hmax hin]
    simp only [offMax, cblocksize] at *
    omega
  obtain ⟨mbr, hmbr⟩ := Option.isSome_iff_exists.mp hsome
  have hmaps := maps_of_create hd h0 hlen k hmbr
  refine ⟨mbr, hmbr, hmaps, fun fuel req hreq rr hrr => ?_⟩
  exact agrees_of_spans hd h0 hlen hmaps (preparedReqs_spans hmax h0 hlen hreq rr hrr)

end Agreement

section Example

/-- The last byte of a disk that ends in the middle of its second block. -/
def lastByte : Request 5000 where
  iotype := .write
  iofrom := 4999
  iolen := 1
  data := [0]
  admitted := by constructor <;> decide
  payload := by decide

/-- The block is fetched as far as it is on the disk; the pages are larger than the
disk. -/
theorem forwarder_fits_mapping_lastByte :
    preparedReqs [0#64] lastByte 2 = .left [⟨1, 1⟩] ∧ rxBlock 5000 ⟨1, 1⟩ = (4096, 904) ∧
      ∃ mbr, mmapBlockRegionCreate (2 ^ 14) 5000 4999 1 = some mbr ∧ mbr.mr.mmapFrom = 0 ∧
        mbr.mr.mmapLen = 5000 ∧ Agrees lastByte mbr ⟨1, 1⟩ := by
  have hreq : preparedReqs [0#64] lastByte 2 = .left [⟨1, 1⟩] := by decide
  obtain ⟨mbr, hmbr, -, hall⟩ := forwarder_fits_mapping 5000 (by decide) 14 lastByte
    (by decide) (by decide) [0#64]
  have hregion : mmapBlockRegionCreate (2 ^ 14) 5000 4999 1 =
      some ⟨⟨0, 5000, 4096⟩, 4096, 4999, 4096⟩ := by decide
  have he : mbr = ⟨⟨0, 5000, 4096⟩, 4096, 4999, 4096⟩ := Option.some.inj (hmbr.symm.trans hregion)
  exact ⟨hreq, by decide, mbr, hmbr, by rw [he], by rw [he],
    hall 2 _ hreq _ (List.mem_singleton_self _)⟩

end Example

end Xnbd.Mapping
