import Xnbd.Bitmap
import Xnbd.NetIov
import Xnbd.Requests

/-!
# The copy-on-write disk stack (`xnbd_target_cow_lzo.c`)

The lower layers are opened readonly; only the top layer and its bitmap are
written. Several workers map the same files, so an outcome in which the worker
ends still carries the stack it leaves behind.
-/
namespace Xnbd.CowDisk

open CInt Block Bitmap Bytes Nbd Requests NetIov

/-- `struct disk_image`: a layer's file and its bitmap. -/
structure DiskImage where
  file : File
  bm : Words

/-- `MAX_DISKIMAGESTACK`. -/
def maxDiskimagestack : Nat := 10

/-- `struct disk_stack` with what `create_disk_stack` and `disk_stack_add_layer`
establish: `lower` is `image[0 .. nlayers - 2]`, all bitmaps have the size of
the disk, and the bitmap of layer 0 is filled. -/
structure DiskStack (disksize : Nat) where
  lower : List DiskImage
  top : DiskImage
  size_pos : 0 < disksize
  size_max : disksize ≤ offMax
  lower_ne : lower ≠ []
  layers_le : lower.length + 1 ≤ maxDiskimagestack
  top_words : top.bm.length = bitsToLongs (getDiskNblocks disksize)
  lower_words : ∀ di ∈ lower, di.bm.length = bitsToLongs (getDiskNblocks disksize)
  base_full : ∀ b < getDiskNblocks disksize, bitmapTest (lower.head lower_ne).bm b = true

variable {disksize : Nat}

namespace DiskStack

/-- The topmost layer whose bit is set, searched as in
`for (int i = ds->nlayers - 1; i >= 0; i--)`. -/
def findLayer (ds : DiskStack disksize) (index : Nat) : Option DiskImage :=
  (ds.top :: ds.lower.reverse).find? fun di => bitmapTest di.bm index

/-- The stack with another top layer of the same bitmap size. -/
def withTop (ds : DiskStack disksize) (file : File) (bm : Words)
    (h : bm.length = ds.top.bm.length) : DiskStack disksize :=
  { ds with top := ⟨file, bm⟩, top_words := by simpa [h] using ds.top_words }

/-- The bits of the top layer, as `bitmap_test` sees them. -/
def topBits (ds : DiskStack disksize) (index : Nat) : Bool := bitmapTest ds.top.bm index

/-- The disk a client sees: for each block, the topmost layer whose bit is set. -/
def logical (ds : DiskStack disksize) : File := fun x =>
  match ds.findLayer (x / cblocksize) with
  | some di => di.file x
  | none => 0

end DiskStack

/-- The stores of the marking loop: the bitmap it leaves, the indices it passed
to `bitmap_on`, and whether the loop was left normally. -/
structure Marked where
  bm : Words
  touched : List Nat
  returned : Bool

/-- `for (index = index_sta; index <= index_end; index++) bitmap_on(..)` in
`unsigned long`. A store outside the mapping ends the process. The fuel bounds
the number of rounds; `markFuel` rounds are enough to leave or to fault. -/
def markLoop (indexEnd : Nat) : Nat → Nat → Words → Marked
  | 0, _, bm => ⟨bm, [], false⟩
  | fuel + 1, index, bm =>
    if index ≤ indexEnd then
      if Inside bm index then
        let m := markLoop indexEnd fuel ((index + 1) % 2 ^ 64) (bitmapOn bm index)
        ⟨m.bm, index :: m.touched, m.returned⟩
      else ⟨bm, [index], false⟩
    else ⟨bm, [], true⟩

def markFuel (bm : Words) : Nat := 64 * bm.length + 2

@[simp] theorem markLoop_length (indexEnd fuel index : Nat) (bm : Words) :
    (markLoop indexEnd fuel index bm).bm.length = bm.length := by
  induction fuel generalizing index bm with
  | zero => rfl
  | succ fuel ih =>
    simp only [markLoop]
    split
    · split
      · simp [ih]
      · rfl
    · rfl

/-- One entry of the gather list of a READ: a piece of one layer's file. -/
structure Chunk where
  file : File
  iofrom : Int
  iolen : Nat

def Chunk.bytes (c : Chunk) : List UInt8 := slice c.file c.iofrom.toNat c.iolen

/-- The entry for one block. The pointers `iobuf` and `ba_iobuf` of the layer's
mapping stand for the file offsets they address; without a layer the entry
stays as `g_new0` left it. -/
def readChunk (ds : DiskStack disksize) (mbr : MmapBlockRegion) (iofrom ioend : Int)
    (indexSta index : Nat) : Chunk :=
  match ds.findLayer index with
  | some di =>
    let chunkIofrom := max iofrom (index * cblocksize)
    let chunkIoend := min ioend ((index + 1) * cblocksize)
    let chunkIobuf := max mbr.iobuf (mbr.baIobuf + (index - indexSta) * cblocksize)
    ⟨di.file, chunkIobuf, toUint64 (chunkIoend - chunkIofrom)⟩
  | none => ⟨fun _ => 0, 0, 0⟩

/-- `copy_block_to_top_layer`; `none` is `err("bug")`, no layer has the block. -/
def copyBlockToTopLayer (ds : DiskStack disksize) (mbr : MmapBlockRegion) (top : File)
    (index startIndex : Nat) : Option File :=
  (ds.findLayer index).map fun di =>
    let iolen := confineIolenWithinDisk disksize (index * cblocksize) cblocksize
    let offset := (mbr.baIobuf + (index - startIndex) * cblocksize).toNat
    store top offset (slice di.file offset iolen)

/-- `if (get_sta_block)` and `if (get_end_block)` around the copy. -/
def copyEdge (needed : Bool) (ds : DiskStack disksize) (mbr : MmapBlockRegion) (top : File)
    (index startIndex : Nat) : Option File :=
  if needed then copyBlockToTopLayer ds mbr top index startIndex else some top

/-- The reading branch of `disk_stack_mmap`. The gather list has `iov_size`
entries of an `unsigned int`; a range whose entries do not fit ends the worker. -/
def diskStackMmapRead (pagesize : Nat) (ds : DiskStack disksize) (r : Request disksize) :
    Option (List Chunk) :=
  match mmapBlockRegionCreate pagesize disksize r.iofrom r.iolen with
  | none => none
  | some mbr =>
    let count := r.blockIndexEnd + 1 - r.blockIndexStart
    if count < 2 ^ 32 then
      some ((List.range' r.blockIndexStart count).map
        (readChunk ds mbr r.iofrom r.ioend r.blockIndexStart))
    else none

/-- The stack as the writing branch left it, with the marking loop's account. -/
structure Prepared (disksize : Nat) where
  ds : DiskStack disksize
  marked : Marked

/-- The writing branch of `disk_stack_mmap`: both edge blocks are copied up if
needed, then every block of the range is marked in the top layer. -/
def diskStackMmapWrite (pagesize : Nat) (ds : DiskStack disksize) (r : Request disksize) :
    Option (Prepared disksize) := do
  let mbr ← mmapBlockRegionCreate pagesize disksize r.iofrom r.iolen
  let file ← copyEdge (r.getStartBlock ds.topBits) ds mbr ds.top.file r.blockIndexStart
    r.blockIndexStart
  let file ← copyEdge (r.getEndBlock ds.topBits) ds mbr file r.blockIndexEnd r.blockIndexStart
  let marked := markLoop r.blockIndexEnd (markFuel ds.top.bm) r.blockIndexStart ds.top.bm
  return ⟨ds.withTop file marked.bm (by simp [marked]), marked⟩

/-- What the worker hands to the socket for one request: whether it sends a header,
and the data behind it. -/
structure Reply where
  header : Bool
  data : List UInt8
  deriving DecidableEq, Repr

/-- Either the worker is ready for the next request, or it ended and left the
stack to the other workers. -/
inductive Outcome (disksize : Nat) where
  | served (ds : DiskStack disksize) (reply : Reply)
  | ended (ds : DiskStack disksize)

/-- The stores of a command into the top layer, after the range was prepared. A
WRITE is one whose payload arrived completely. -/
def cowCommand (p : Prepared disksize) (r : Request disksize) : Outcome disksize :=
  match r.iotype with
  | .write =>
    if CheckFin r.iolen (toInt32 r.iolen) then
      .served (p.ds.withTop (store p.ds.top.file r.start r.data) p.ds.top.bm rfl) ⟨true, []⟩
    else .ended p.ds
  | .flush => .served p.ds ⟨false, []⟩
  | .trim => .served (p.ds.withTop (zero p.ds.top.file r.start r.iolen) p.ds.top.bm rfl) ⟨false, []⟩
  | _ => .ended p.ds

/-- `target_mode_main_cow` on one received request, built without LZO: the
compressed reads and the unknown commands end the worker. -/
def targetModeMainCow (pagesize : Nat) (readonly : Bool) (ds : DiskStack disksize)
    (r : Request disksize) : Outcome disksize :=
  if readonly = true ∧ (r.iotype = .write ∨ r.iotype = .trim) then .ended ds
  else if r.iotype = .readCompress ∨ r.iotype = .readCompressLzo then .ended ds
  else if r.iotype = .read then
    match diskStackMmapRead pagesize ds r with
    | some iov => .served ds ⟨true, iov.flatMap Chunk.bytes⟩
    | none => .ended ds
  else
    match diskStackMmapWrite pagesize ds r with
    | some p => if p.marked.returned then cowCommand p r else .ended p.ds
    | none => .ended ds

end Xnbd.CowDisk
