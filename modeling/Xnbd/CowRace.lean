import Xnbd.CowRefine
import Xnbd.Run

/-!
# Two WRITEs on one copy-on-write stack (`xnbd_target_cow_lzo.c`)

Two workers share the top layer's file and its mapped bitmap. Each executes one
WRITE; the tests of the bitmap, the search for a layer, the `memcpy` of an edge
block, the load and the store of a bitmap word, and each `readv` of the payload
are steps of their own, and the steps of the workers interleave freely.
-/
namespace Xnbd.CowRace

open CInt Block Bitmap Bytes Nbd Requests NetIov FlatDisk CowDisk CowRefine Run

variable {disksize : Nat}

/-- The layer in which the loop of `copy_block_to_top_layer` found a block. -/
inductive Source where
  | top
  | lower (file : File)

/-- Where a worker stands in `disk_stack_mmap` and behind it. -/
inductive Place where
  | mmap
  | testSta
  | testEnd (getSta : Bool)
  | searchSta (getEnd : Bool)
  | copySta (src : Source) (getEnd : Bool)
  | searchEnd
  | copyEnd (src : Source)
  | load (index : Nat)
  | storeWord (index : Nat) (word : BitVec 64)
  | recv (n : Nat)
  | reply
  | replied
  | ended

structure State (disksize : Nat) where
  ds : DiskStack disksize
  place : Bool → Place

/-- One step of a worker; `sent` is the result of its `readv`. -/
structure Action where
  worker : Bool
  sent : Int

/-- The second test, with the outcome that the first one had. -/
def getEndBlock (r : Request disksize) (getSta : Bool) (present : Nat → Bool) : Bool :=
  decide (r.ioend.tmod cblocksize ≠ 0) &&
    (decide (r.blockIndexEnd > r.blockIndexStart) ||
      (decide (r.blockIndexEnd = r.blockIndexStart) && !getSta)) &&
    !present r.blockIndexEnd

/-- Where the tests lead. -/
def afterTests (r : Request disksize) (getSta getEnd : Bool) : Place :=
  if getSta then .searchSta getEnd else if getEnd then .searchEnd else .load r.blockIndexStart

def search (ds : DiskStack disksize) (index : Nat) : Option Source :=
  if bitmapTest ds.top.bm index then some .top
  else (ds.lower.reverse.find? fun di => bitmapTest di.bm index).map fun di => .lower di.file

def Source.file (ds : DiskStack disksize) : Source → File
  | .top => ds.top.file
  | .lower file => file

/-- The `memcpy` of `copy_block_to_top_layer`. -/
def memcpyBlock (disksize : Nat) (mbr : MmapBlockRegion) (top src : File)
    (index startIndex : Nat) : File :=
  let iolen := confineIolenWithinDisk disksize (index * cblocksize) cblocksize
  let offset := (mbr.baIobuf + (index - startIndex) * cblocksize).toNat
  store top offset (slice src offset iolen)

/-- `none` in the search is `err("bug")`. -/
def searched (ds : DiskStack disksize) (index : Nat) (next : Source → Place) : Place :=
  match search ds index with
  | some src => next src
  | none => .ended

def copied (pagesize : Nat) (r : Request disksize) (ds : DiskStack disksize) (src : Source)
    (index : Nat) : Option (DiskStack disksize) :=
  (mmapBlockRegionCreate pagesize disksize r.iofrom r.iolen).map fun mbr =>
    ds.withTop (memcpyBlock disksize mbr ds.top.file (src.file ds) index r.blockIndexStart)
      ds.top.bm rfl

/-- The word of the bitmap that `bitmap_on` loads. -/
def loadWord (bm : Words) (index : Nat) : BitVec 64 := bm.getD (index / 64) 0#64

/-- What `bitmap_on` stores, given the word it loaded. -/
def orBit (word : BitVec 64) (index : Nat) : BitVec 64 := word ||| 1#64 <<< (index % 64)

/-- One round of reading the payload into the top layer's mapping. -/
def received (r : Request disksize) (ds : DiskStack disksize) (n : Nat) (sent : Int) :
    DiskStack disksize × Place :=
  let ds' := ds.withTop (store ds.top.file (r.start + n) ((r.data.drop n).take sent.toNat))
    ds.top.bm rfl
  match netIovStep [⟨n, r.iolen - n⟩] n sent with
  | .next _ _ => (ds', .recv (n + sent.toNat))
  | .done ret => (ds', if CheckFin r.iolen ret then .reply else .ended)

def workerStep (pagesize : Nat) (r : Request disksize) (ds : DiskStack disksize) (sent : Int) :
    Place → Option (DiskStack disksize × Place)
  | .mmap =>
    match mmapBlockRegionCreate pagesize disksize r.iofrom r.iolen with
    | some _ => some (ds, .testSta)
    | none => some (ds, .ended)
  | .testSta => some (ds, .testEnd (r.getStartBlock ds.topBits))
  | .testEnd getSta => some (ds, afterTests r getSta (getEndBlock r getSta ds.topBits))
  | .searchSta getEnd =>
    some (ds, searched ds r.blockIndexStart fun src => .copySta src getEnd)
  | .copySta src getEnd =>
    (copied pagesize r ds src r.blockIndexStart).map fun ds' => (ds', afterTests r false getEnd)
  | .searchEnd => some (ds, searched ds r.blockIndexEnd .copyEnd)
  | .copyEnd src =>
    (copied pagesize r ds src r.blockIndexEnd).map fun ds' => (ds', afterTests r false false)
  | .load index =>
    if index ≤ r.blockIndexEnd then
      if Inside ds.top.bm index then some (ds, .storeWord index (loadWord ds.top.bm index))
      else some (ds, .ended)
    else some (ds, .recv 0)
  | .storeWord index word =>
    some (ds.withTop ds.top.file (ds.top.bm.set (index / 64) (orBit word index)) (by simp),
      .load ((index + 1) % 2 ^ 64))
  | .recv n =>
    if -1 ≤ sent ∧ sent ≤ (r.iolen - n : Nat) then some (received r ds n sent) else none
  | .reply => some (ds, .replied)
  | .replied => none
  | .ended => none

def step (pagesize : Nat) (req : Bool → Request disksize) (s : State disksize) (a : Action) :
    Option (State disksize) :=
  (workerStep pagesize (req a.worker) s.ds a.sent (s.place a.worker)).map fun p =>
    ⟨p.1, Function.update s.place a.worker p.2⟩

/-- Both workers have received their request. -/
def initial (ds : DiskStack disksize) : State disksize := ⟨ds, fun _ => .mmap⟩

/-- How many bytes of its payload a worker has stored. -/
def stored (r : Request disksize) : Place → Nat
  | .recv n => n
  | .reply => r.iolen
  | .replied => r.iolen
  | _ => 0

/-- The other worker has stored nothing in the block. -/
def Untouched (r : Request disksize) (p : Place) (index : Nat) : Prop :=
  ∀ x < r.start + stored r p, r.start ≤ x → x / cblocksize ≠ index

instance (r : Request disksize) (p : Place) (index : Nat) : Decidable (Untouched r p index) :=
  inferInstanceAs (Decidable (∀ x < r.start + stored r p, r.start ≤ x → x / cblocksize ≠ index))

/-- The condition on a worker's step: no block is copied up from below after the
other worker has stored payload in it, and no word of the bitmap is stored over
a bit set since it was loaded. -/
def CarefulAt (req : Bool → Request disksize) (s : State disksize) (w : Bool) : Place → Prop
  | .copySta (.lower _) _ => Untouched (req !w) (s.place !w) (req w).blockIndexStart
  | .copyEnd (.lower _) => Untouched (req !w) (s.place !w) (req w).blockIndexEnd
  | .storeWord index word => loadWord s.ds.top.bm index ||| orBit word index = orBit word index
  | _ => True

def Careful (req : Bool → Request disksize) (s : State disksize) (a : Action) : Prop :=
  CarefulAt req s a.worker (s.place a.worker)

instance (req : Bool → Request disksize) (s : State disksize) (w : Bool) :
    ∀ p, Decidable (CarefulAt req s w p)
  | .copySta (.lower _) _ =>
    inferInstanceAs (Decidable (Untouched (req !w) (s.place !w) (req w).blockIndexStart))
  | .copyEnd (.lower _) =>
    inferInstanceAs (Decidable (Untouched (req !w) (s.place !w) (req w).blockIndexEnd))
  | .storeWord index word =>
    inferInstanceAs
      (Decidable (loadWord s.ds.top.bm index ||| orBit word index = orBit word index))
  | .copySta .top _ | .copyEnd .top | .mmap | .testSta | .testEnd _ | .searchSta _ | .searchEnd
  | .load _ | .recv _ | .reply | .replied | .ended => isTrue trivial

instance (req : Bool → Request disksize) (s : State disksize) (a : Action) :
    Decidable (Careful req s a) :=
  inferInstanceAs (Decidable (CarefulAt req s a.worker (s.place a.worker)))

section Sequential

variable {ds : DiskStack disksize} {r : Request disksize}

/-- Without another worker in between, the search and the `memcpy` are the copy
of an edge block. -/
theorem copyBlockToTopLayer_eq (mbr : MmapBlockRegion) (top : File) (index startIndex : Nat) :
    copyBlockToTopLayer ds mbr top index startIndex = (search ds index).map fun src =>
      memcpyBlock disksize mbr top (src.file ds) index startIndex := by
  simp only [copyBlockToTopLayer, search]
  cases htop : bitmapTest ds.top.bm index with
  | true => simp [findLayer_top ds htop, memcpyBlock, Source.file]
  | false =>
    rw [findLayer_lower ds htop]
    simp only [Bool.false_eq_true, if_false, Option.map_map]
    rfl

theorem getEndBlock_eq (present : Nat → Bool) :
    r.getEndBlock present = getEndBlock r (r.getStartBlock present) present := rfl

/-- A store of the word just loaded is `bitmap_on`. -/
theorem bitmapOn_eq (bm : Words) (index : Nat) :
    bm.set (index / 64) (orBit (loadWord bm index) index) = bitmapOn bm index := by
  apply List.ext_getElem?
  intro i
  simp only [bitmapOn, orBit, loadWord, List.getElem?_set, List.getElem?_modify, List.getD_eq_getElem?_getD]
  by_cases hi : index / 64 = i
  · subst hi
    by_cases hlt : index / 64 < bm.length
    · simp [hlt]
    · simp [hlt]
  · simp [hi]

end Sequential

section Bits

theorem bitmapTest_set (bm : Words) (word : BitVec 64) (index j : Nat) (h : Inside bm index) :
    bitmapTest (bm.set (index / 64) word) j =
      if index / 64 = j / 64 then word.getLsbD (j % 64) else bitmapTest bm j := by
  simp only [bitmapTest_eq, List.getD_eq_getElem?_getD, List.getElem?_set]
  by_cases hword : index / 64 = j / 64
  · have hlt : j / 64 < bm.length := hword ▸ h
    simp [hword, hlt]
  · simp [hword]

end Bits

/-- Two WRITEs inside the disk whose ranges have no byte in common. -/
structure Apart (req : Bool → Request disksize) : Prop where
  write : ∀ w, (req w).iotype = .write
  lower : ∀ w, 0 ≤ (req w).iofrom
  disjoint : ∀ x, (req false).Covers x → ¬(req true).Covers x

/-- The disk with both payloads applied. -/
def expected (ds₀ : DiskStack disksize) (req : Bool → Request disksize) : File :=
  flatStep (flatStep ds₀.logical (req false)) (req true)

section Expected

variable {ds₀ : DiskStack disksize} {req : Bool → Request disksize} {x : Nat}

theorem expected_covers (h : Apart req) {w : Bool} (hx : (req w).Covers x) (f : File) :
    expected ds₀ req x = flatStep f (req w) x := by
  cases w with
  | false =>
    rw [expected, flatStep_outside (h.disjoint x hx)]
    exact flatStep_inside _ _ hx (.inl (h.write false))
  | true => exact flatStep_inside _ _ hx (.inl (h.write true))

theorem expected_outside (hx : ∀ w, ¬(req w).Covers x) : expected ds₀ req x = ds₀.logical x := by
  rw [expected, flatStep_outside (hx true), flatStep_outside (hx false)]

/-- A piece of the payload is stored as the whole would be. -/
theorem store_piece (h : Apart req) {w : Bool} {f : File} {n k : Nat}
    (hk : n + k ≤ (req w).iolen) (h0 : (req w).start + n ≤ x) (h1 : x < (req w).start + n + k) :
    store f ((req w).start + n) (((req w).data.drop n).take k) x = expected ds₀ req x := by
  have hcov : (req w).Covers x := ⟨by omega, by omega⟩
  have hdata := (req w).payload (h.write w)
  rw [expected_covers h hcov f]
  simp only [flatStep, h.write w]
  apply Option.some.inj
  rw [store_inside h0 (by simp; omega), store_inside hcov.1 (by omega),
    List.getElem?_take_of_lt (by omega), List.getElem?_drop]
  congr 1
  omega

end Expected

section Invariant

variable (ds₀ : DiskStack disksize) (req : Bool → Request disksize)

/-- Some worker has still to store the byte. -/
def Pending (s : State disksize) (x : Nat) : Prop :=
  ∃ w, (req w).start + stored (req w) (s.place w) ≤ x ∧ x < (req w).start + (req w).iolen

/-- The top layer's file may stand for the block: what it lacks is still to come. -/
def Ready (s : State disksize) (b : Nat) : Prop :=
  ∀ x < disksize, x / cblocksize = b →
    Pending req s x ∨ s.ds.top.file x = expected ds₀ req x

/-- A `memcpy` from the source leaves the block ready. -/
def SourceOk (s : State disksize) (b : Nat) : Source → Prop
  | .top => Ready ds₀ req s b
  | .lower file => ∀ x < disksize, x / cblocksize = b → file x = ds₀.logical x

def StaOk (s : State disksize) (r : Request disksize) : Prop :=
  r.iofrom.tmod cblocksize = 0 ∨ Ready ds₀ req s r.blockIndexStart

def EndOk (s : State disksize) (r : Request disksize) : Prop :=
  r.ioend.tmod cblocksize = 0 ∨ Ready ds₀ req s r.blockIndexEnd

/-- The end block is in order, or will be with the start block. -/
def EndDue (s : State disksize) (r : Request disksize) (getEnd : Bool) : Prop :=
  getEnd = false → EndOk ds₀ req s r ∨ r.blockIndexEnd = r.blockIndexStart

/-- The blocks of the range are ready and those before `index` are marked. -/
structure Marking (s : State disksize) (r : Request disksize) (index : Nat) : Prop where
  ready : ∀ b, r.InBlocks b → Ready ds₀ req s b
  marked : ∀ b, r.blockIndexStart ≤ b → b < index → s.ds.topBits b = true
  start : r.blockIndexStart ≤ index
  bound : index ≤ r.blockIndexEnd + 1

/-- What a worker's place says about the shared files. -/
def PlaceOk (s : State disksize) (r : Request disksize) : Place → Prop
  | .testEnd getSta => getSta = false → StaOk ds₀ req s r
  | .searchSta getEnd => EndDue ds₀ req s r getEnd
  | .copySta src getEnd => SourceOk ds₀ req s r.blockIndexStart src ∧ EndDue ds₀ req s r getEnd
  | .searchEnd => StaOk ds₀ req s r
  | .copyEnd src => SourceOk ds₀ req s r.blockIndexEnd src ∧ StaOk ds₀ req s r
  | .load index => Marking ds₀ req s r index
  | .storeWord index word => Marking ds₀ req s r index ∧ r.InBlocks index ∧
      Inside s.ds.top.bm index ∧
      ∀ b, b / 64 = index / 64 → word.getLsbD (b % 64) = true → s.ds.topBits b = true
  | .recv n => n ≤ r.iolen ∧ ∀ b, r.InBlocks b → s.ds.topBits b = true
  | .reply => ∀ b, r.InBlocks b → s.ds.topBits b = true
  | .replied => ∀ b, r.InBlocks b → s.ds.topBits b = true
  | _ => True

structure Inv (s : State disksize) : Prop where
  lower : s.ds.lower = ds₀.lower
  words : s.ds.top.bm.length = ds₀.top.bm.length
  bits : ∀ b, ds₀.topBits b = true → s.ds.topBits b = true
  ready : ∀ b, s.ds.topBits b = true → Ready ds₀ req s b
  places : ∀ w, PlaceOk ds₀ req s (req w) (s.place w)

/-- What the steps leave standing: ready blocks and set bits. -/
structure Grows (s t : State disksize) : Prop where
  lower : t.ds.lower = s.ds.lower
  words : t.ds.top.bm.length = s.ds.top.bm.length
  ready : ∀ b, Ready ds₀ req s b → Ready ds₀ req t b
  bits : ∀ b, s.ds.topBits b = true → t.ds.topBits b = true

variable {ds₀ req} {s t : State disksize}

theorem SourceOk.grow {b : Nat} {src : Source} (hg : Grows ds₀ req s t)
    (h : SourceOk ds₀ req s b src) : SourceOk ds₀ req t b src := by
  cases src with
  | top => exact hg.ready b h
  | lower file => exact h

theorem StaOk.grow {r : Request disksize} (hg : Grows ds₀ req s t) (h : StaOk ds₀ req s r) :
    StaOk ds₀ req t r := h.imp_right (hg.ready _)

theorem EndOk.grow {r : Request disksize} (hg : Grows ds₀ req s t) (h : EndOk ds₀ req s r) :
    EndOk ds₀ req t r := h.imp_right (hg.ready _)

theorem EndDue.grow {r : Request disksize} {getEnd : Bool} (hg : Grows ds₀ req s t)
    (h : EndDue ds₀ req s r getEnd) : EndDue ds₀ req t r getEnd :=
  fun hno => (h hno).imp_left (EndOk.grow hg)

theorem Marking.grow {r : Request disksize} {index : Nat} (hg : Grows ds₀ req s t)
    (h : Marking ds₀ req s r index) : Marking ds₀ req t r index where
  ready b hb := hg.ready b (h.ready b hb)
  marked b h0 h1 := hg.bits b (h.marked b h0 h1)
  start := h.start
  bound := h.bound

/-- What a place says stays true while the other worker moves. -/
theorem PlaceOk.grow {r : Request disksize} {p : Place} (hg : Grows ds₀ req s t)
    (h : PlaceOk ds₀ req s r p) : PlaceOk ds₀ req t r p := by
  cases p with
  | testEnd getSta => exact fun hno => StaOk.grow hg (h hno)
  | searchSta getEnd => exact EndDue.grow hg h
  | copySta src getEnd => exact ⟨SourceOk.grow hg h.1, EndDue.grow hg h.2⟩
  | searchEnd => exact StaOk.grow hg h
  | copyEnd src => exact ⟨SourceOk.grow hg h.1, StaOk.grow hg h.2⟩
  | load index => exact Marking.grow hg h
  | storeWord index word =>
    obtain ⟨hmark, hin, hinside, hword⟩ := h
    exact ⟨Marking.grow hg hmark, hin, by rw [Inside, hg.words]; exact hinside,
      fun b hb hset => hg.bits b (hword b hb hset)⟩
  | recv n => exact ⟨h.1, fun b hb => hg.bits b (h.2 b hb)⟩
  | reply => exact fun b hb => hg.bits b (h b hb)
  | replied => exact fun b hb => hg.bits b (h b hb)
  | _ => trivial

/-- A step keeps the invariant if it leaves standing what others rely on, every
bit it sets is of a ready block, and the worker's new place is in order. -/
theorem Inv.moved {w : Bool} {ds : DiskStack disksize} {p : Place} (h : Inv ds₀ req s)
    (hg : Grows ds₀ req s ⟨ds, Function.update s.place w p⟩)
    (hnew : ∀ b, ds.topBits b = true →
      s.ds.topBits b = true ∨ Ready ds₀ req ⟨ds, Function.update s.place w p⟩ b)
    (hp : PlaceOk ds₀ req ⟨ds, Function.update s.place w p⟩ (req w) p) :
    Inv ds₀ req ⟨ds, Function.update s.place w p⟩ where
  lower := hg.lower.trans h.lower
  words := hg.words.trans h.words
  bits b hb := hg.bits b (h.bits b hb)
  ready b hb := (hnew b hb).elim (fun hold => hg.ready b (h.ready b hold)) id
  places v := by
    by_cases hv : v = w
    · subst hv
      simpa only [Function.update_self] using hp
    · simpa only [Function.update_of_ne hv] using (h.places v).grow hg

/-- A block stays ready while the file is left alone and nothing counts as
stored that was not. -/
theorem Ready.keep {w : Bool} {ds : DiskStack disksize} {p : Place} {b : Nat}
    (h : Ready ds₀ req s b) (hfile : ds.top.file = s.ds.top.file)
    (hst : stored (req w) p ≤ stored (req w) (s.place w)) :
    Ready ds₀ req ⟨ds, Function.update s.place w p⟩ b := by
  intro x hx hblk
  cases h x hx hblk with
  | inr hdone => exact .inr (by rw [hfile]; exact hdone)
  | inl hpend =>
    obtain ⟨v, h0, h1⟩ := hpend
    refine .inl ⟨v, ?_, h1⟩
    by_cases hv : v = w
    · subst hv
      simp only [Function.update_self]
      omega
    · simpa only [Function.update_of_ne hv] using h0

/-- A step that stores nothing. -/
theorem grows_quiet {w : Bool} {p : Place}
    (hst : stored (req w) p ≤ stored (req w) (s.place w)) :
    Grows ds₀ req s ⟨s.ds, Function.update s.place w p⟩ where
  lower := rfl
  words := rfl
  bits _ hb := hb
  ready _ hb := hb.keep rfl hst

theorem Inv.quiet {w : Bool} {p : Place} (h : Inv ds₀ req s)
    (hst : stored (req w) p ≤ stored (req w) (s.place w))
    (hp : PlaceOk ds₀ req s (req w) p) :
    Inv ds₀ req ⟨s.ds, Function.update s.place w p⟩ :=
  h.moved (grows_quiet hst) (fun _ hb => .inl hb) (hp.grow (grows_quiet hst))

end Invariant

section Steps

variable {ds₀ : DiskStack disksize} {req : Bool → Request disksize} {s : State disksize}
  {w : Bool}

/-- The blocks of a range are ready once its two edges are in order. -/
theorem marking_start (hapart : Apart req) (hlen : 0 < (req w).iolen)
    (hst : stored (req w) (s.place w) = 0) (hsta : StaOk ds₀ req s (req w))
    (hend : EndOk ds₀ req s (req w)) :
    Marking ds₀ req s (req w) (req w).blockIndexStart where
  start := le_refl _
  bound := by
    have hord := (blockIndexEnd_lt ds₀.size_max (hapart.lower w) hlen).1
    omega
  marked b h0 h1 := by omega
  ready b hb x hx hblk := by
    by_cases hcov : (req w).Covers x
    · exact .inl ⟨w, by rw [hst]; exact hcov.1, hcov.2⟩
    · -- a byte outside the range lies in an edge block
      rw [← hblk] at hb
      have hedge := @edge_fetched disksize (req w) x (fun _ => false) ds₀.size_max
        (hapart.lower w) (by omega) hb hcov rfl
      cases hedge with
      | inl hleft =>
        obtain ⟨hget, hat⟩ := hleft
        have hunaligned : (req w).iofrom.tmod cblocksize ≠ 0 := by
          simpa [Request.getStartBlock] using hget
        exact (hsta.resolve_left hunaligned) x hx hat
      | inr hright =>
        obtain ⟨hget, hat⟩ := hright
        simp only [Request.getEndBlock, Bool.and_eq_true, decide_eq_true_eq] at hget
        exact (hend.resolve_left hget.1.1) x hx hat

theorem afterTests_ok {getSta getEnd : Bool} (hapart : Apart req) (hlen : 0 < (req w).iolen)
    (hst : stored (req w) (s.place w) = 0) (hsta : getSta = false → StaOk ds₀ req s (req w))
    (hdue : getSta = true → EndDue ds₀ req s (req w) getEnd)
    (hend : getSta = false → getEnd = false → EndOk ds₀ req s (req w)) :
    PlaceOk ds₀ req s (req w) (afterTests (req w) getSta getEnd) := by
  cases getSta with
  | true => exact hdue rfl
  | false =>
    cases getEnd with
    | true => exact hsta rfl
    | false => exact marking_start hapart hlen hst (hsta rfl) (hend rfl rfl)

theorem stored_afterTests (r : Request disksize) (getSta getEnd : Bool) :
    stored r (afterTests r getSta getEnd) = 0 := by
  cases getSta with
  | true => rfl
  | false => cases getEnd <;> rfl

theorem testSta_inv (h : Inv ds₀ req s) (hplace : s.place w = .testSta) :
    Inv ds₀ req ⟨s.ds, Function.update s.place w
      (.testEnd ((req w).getStartBlock s.ds.topBits))⟩ := by
  apply h.quiet (by rw [hplace]; exact le_refl 0)
  intro hno
  simp only [Request.getStartBlock, Bool.and_eq_false_iff, decide_eq_false_iff_not, not_not,
    Bool.not_eq_false'] at hno
  exact hno.imp_right (h.ready _)

theorem testEnd_inv (hapart : Apart req) (hlen : 0 < (req w).iolen) {getSta : Bool}
    (h : Inv ds₀ req s) (hplace : s.place w = .testEnd getSta) :
    Inv ds₀ req ⟨s.ds, Function.update s.place w
      (afterTests (req w) getSta (getEndBlock (req w) getSta s.ds.topBits))⟩ := by
  have hok := h.places w
  rw [hplace] at hok
  have hord := (blockIndexEnd_lt ds₀.size_max (hapart.lower w) hlen).1
  have hcases : getEndBlock (req w) getSta s.ds.topBits = false →
      EndOk ds₀ req s (req w) ∨ getSta = true ∧ (req w).blockIndexEnd = (req w).blockIndexStart := by
    intro hno
    simp only [getEndBlock, Bool.and_eq_false_iff, Bool.or_eq_false_iff, decide_eq_false_iff_not,
      not_not, Bool.not_eq_false'] at hno
    obtain (haligned | hshort) | hbit := hno
    · exact .inl (.inl haligned)
    · have heq : (req w).blockIndexEnd = (req w).blockIndexStart := by omega
      exact .inr ⟨hshort.2.resolve_left (by simp [heq]), heq⟩
    · exact .inl (.inr (h.ready _ hbit))
  apply h.quiet
  · rw [stored_afterTests]
    omega
  · apply afterTests_ok hapart hlen (by rw [hplace]; rfl) hok
    · intro _ hno
      exact (hcases hno).imp_right And.right
    · intro hsta hno
      cases hcases hno with
      | inl hend => exact hend
      | inr hboth =>
        rw [hsta] at hboth
        cases hboth.1

/-- What the search finds is a source for the block. -/
theorem search_ok (h : Inv ds₀ req s) {index : Nat} {src : Source}
    (hs : search s.ds index = some src) : SourceOk ds₀ req s index src := by
  simp only [search] at hs
  split at hs
  · rename_i hbit
    cases hs
    exact h.ready index hbit
  · rename_i hbit
    obtain ⟨di, hdi, rfl⟩ := Option.map_eq_some_iff.mp hs
    intro x hx hblk
    have hold : ds₀.topBits index = false := by
      by_contra hset
      exact hbit (h.bits index (by simpa using hset))
    rw [h.lower] at hdi
    rw [← findLayer_lower ds₀ hold] at hdi
    exact (logical_of_layer ds₀ (hblk ▸ hdi)).symm

theorem searched_inv (h : Inv ds₀ req s) {index : Nat} {next : Source → Place}
    (hnext : ∀ src, stored (req w) (next src) = 0 ∧
      (SourceOk ds₀ req s index src → PlaceOk ds₀ req s (req w) (next src))) :
    Inv ds₀ req ⟨s.ds, Function.update s.place w (searched s.ds index next)⟩ := by
  simp only [searched]
  split
  · rename_i src hs
    exact h.quiet (by rw [(hnext src).1]; omega) ((hnext src).2 (search_ok h hs))
  · exact h.quiet (by simp [stored]) trivial

/-- A copied block is ready, and the copy takes nothing back. -/
theorem copied_grows {pagesize index : Nat} {src : Source} {ds : DiskStack disksize} {p : Place}
    (hapart : Apart req) (h : copied pagesize (req w) s.ds src index = some ds)
    (hst : stored (req w) (s.place w) = 0) (hp : stored (req w) p = 0)
    (hsrc : SourceOk ds₀ req s index src)
    (huntouched : ∀ file, src = .lower file → Untouched (req !w) (s.place !w) index) :
    Grows ds₀ req s ⟨ds, Function.update s.place w p⟩ ∧
      Ready ds₀ req ⟨ds, Function.update s.place w p⟩ index ∧ ds.topBits = s.ds.topBits := by
  obtain ⟨mbr, hmbr, rfl⟩ := Option.map_eq_some_iff.mp h
  have hba := (baIobuf_eq hmbr s.ds.size_max (hapart.lower w)).2
  have hfile : ∀ x < disksize, memcpyBlock disksize mbr s.ds.top.file (src.file s.ds) index
      (req w).blockIndexStart x =
        if x / cblocksize = index then src.file s.ds x else s.ds.top.file x := by
    intro x hx
    exact storeBlock_byte s.ds.size_max _ _ (by rw [hba]; unfold cblocksize; omega) hx
  cases src with
  | top =>
    -- the block is copied onto itself
    have hkeep : ∀ b, Ready ds₀ req s b → Ready ds₀ req ⟨s.ds.withTop (memcpyBlock disksize mbr
        s.ds.top.file s.ds.top.file index (req w).blockIndexStart) s.ds.top.bm rfl,
          Function.update s.place w p⟩ b := by
      intro b hb x hx hblk
      have hsame : memcpyBlock disksize mbr s.ds.top.file s.ds.top.file index
          (req w).blockIndexStart x = s.ds.top.file x :=
        (hfile x hx).trans (by simp [Source.file])
      have hkept : Ready ds₀ req ⟨s.ds, Function.update s.place w p⟩ b := hb.keep rfl (by omega)
      exact (hkept x hx hblk).imp_right hsame.trans
    exact ⟨⟨rfl, rfl, hkeep, fun _ hb => hb⟩, hkeep index hsrc, rfl⟩
  | lower file =>
    have hready : Ready ds₀ req ⟨s.ds.withTop (memcpyBlock disksize mbr s.ds.top.file file index
        (req w).blockIndexStart) s.ds.top.bm rfl, Function.update s.place w p⟩ index := by
      intro x hx hblk
      by_cases hcov : ∃ v, (req v).Covers x
      · obtain ⟨v, hcov⟩ := hcov
        refine .inl ⟨v, ?_, hcov.2⟩
        by_cases hv : v = w
        · subst hv
          simp only [Function.update_self, hp]
          exact hcov.1
        · have hother : v = !w := by
            cases v <;> cases w <;> simp_all
          subst hother
          simp only [Function.update_of_ne hv]
          by_contra hlt
          exact huntouched file rfl x (by omega) hcov.1 hblk
      · have hnone : ∀ v, ¬(req v).Covers x := fun v hv => hcov ⟨v, hv⟩
        right
        rw [expected_outside hnone]
        exact (hfile x hx).trans (by rw [if_pos hblk]; exact hsrc x hx hblk)
    refine ⟨⟨rfl, rfl, ?_, fun _ hb => hb⟩, hready, rfl⟩
    intro b hb
    by_cases hindex : b = index
    · subst hindex
      exact hready
    · intro x hx hblk
      have hsame : memcpyBlock disksize mbr s.ds.top.file file index
          (req w).blockIndexStart x = s.ds.top.file x :=
        (hfile x hx).trans (by rw [if_neg (by omega)])
      have hkept : Ready ds₀ req ⟨s.ds, Function.update s.place w p⟩ b := hb.keep rfl (by omega)
      exact (hkept x hx hblk).imp_right hsame.trans

theorem load_inv {index pagesize : Nat} {ds : DiskStack disksize} {p : Place} {sent : Int}
    (h : Inv ds₀ req s) (hplace : s.place w = .load index)
    (hstep : workerStep pagesize (req w) s.ds sent (.load index) = some (ds, p)) :
    Inv ds₀ req ⟨ds, Function.update s.place w p⟩ := by
  have hmark := h.places w
  rw [hplace] at hmark
  simp only [workerStep] at hstep
  split at hstep
  · rename_i hle
    split at hstep
    · rename_i hinside
      cases hstep
      apply h.quiet (by rw [hplace]; exact le_refl 0)
      refine ⟨hmark, ⟨hmark.start, hle⟩, hinside, ?_⟩
      intro b hb hbit
      rw [DiskStack.topBits, bitmapTest_eq, hb]
      exact hbit
    · cases hstep
      exact h.quiet (by simp [stored]) trivial
  · rename_i hgt
    cases hstep
    apply h.quiet (by rw [hplace]; exact le_refl 0)
    exact ⟨Nat.zero_le _, fun b hb => hmark.marked b hb.1 (by have := hb.2; omega)⟩

/-- Storing a word sets the bit it is for, keeps the others, and sets no more. -/
theorem storeWord_bits {bm : Words} {index : Nat} {word : BitVec 64} (hin : Inside bm index)
    (hcareful : loadWord bm index ||| orBit word index = orBit word index) (b : Nat) :
    (bitmapTest bm b = true → bitmapTest (bm.set (index / 64) (orBit word index)) b = true) ∧
      (bitmapTest (bm.set (index / 64) (orBit word index)) b = true →
        bitmapTest bm b = true ∨ b = index ∨
          b / 64 = index / 64 ∧ word.getLsbD (b % 64) = true) ∧
      bitmapTest (bm.set (index / 64) (orBit word index)) index = true := by
  have hbit : ∀ k, k < 64 →
      (orBit word index).getLsbD k = (word.getLsbD k || decide (k = index % 64)) := by
    intro k hk
    exact or_bit_getLsbD word hk
  have hmod := Nat.mod_lt b (show 0 < 64 by decide)
  simp only [bitmapTest_set _ _ _ _ hin]
  refine ⟨?_, ?_, ?_⟩
  · intro hset
    split
    · rename_i hword
      have hnow : (loadWord bm index ||| orBit word index).getLsbD (b % 64) = true := by
        rw [BitVec.getLsbD_or, loadWord, hword, ← bitmapTest_eq, hset]
        rfl
      rwa [hcareful] at hnow
    · exact hset
  · split
    · rename_i hword
      intro hset
      rw [hbit _ hmod, Bool.or_eq_true, decide_eq_true_eq] at hset
      cases hset with
      | inl hold => exact .inr (.inr ⟨hword.symm, hold⟩)
      | inr heq => exact .inr (.inl (by omega))
    · exact .inl
  · rw [if_true, hbit _ (Nat.mod_lt _ (by decide))]
    simp

theorem storeWord_inv (hapart : Apart req) (hlen : 0 < (req w).iolen) {index : Nat}
    {word : BitVec 64} (h : Inv ds₀ req s) (hplace : s.place w = .storeWord index word)
    (hcareful : loadWord s.ds.top.bm index ||| orBit word index = orBit word index) :
    Inv ds₀ req ⟨s.ds.withTop s.ds.top.file
      (s.ds.top.bm.set (index / 64) (orBit word index)) (by simp),
        Function.update s.place w (.load ((index + 1) % 2 ^ 64))⟩ := by
  have hok := h.places w
  rw [hplace] at hok
  obtain ⟨hmark, hin, hinside, hword⟩ := hok
  have hbits := storeWord_bits hinside hcareful
  have hnext : (index + 1) % 2 ^ 64 = index + 1 := by
    have hlast := (blockIndexEnd_lt ds₀.size_max (hapart.lower w) hlen).2
    have hwords := nblocks_le_topWords ds₀
    have hmax := topWords_lt ds₀
    have := hin.2
    exact Nat.mod_eq_of_lt (by omega)
  rw [hnext]
  have hgrows : Grows ds₀ req s ⟨s.ds.withTop s.ds.top.file
      (s.ds.top.bm.set (index / 64) (orBit word index)) (by simp),
        Function.update s.place w (.load (index + 1))⟩ :=
    ⟨rfl, by simp [DiskStack.withTop], fun b hb => hb.keep rfl (by simp [stored]),
      fun b hb => (hbits b).1 hb⟩
  apply h.moved hgrows
  · intro b hb
    obtain hold | rfl | ⟨hb, hset⟩ := (hbits b).2.1 hb
    · exact .inl hold
    · exact .inr (hgrows.ready b (hmark.ready b hin))
    · exact .inl (hword b hb hset)
  · have hgrown := hmark.grow hgrows
    refine ⟨hgrown.ready, ?_, by have := hmark.start; omega, by have := hin.2; omega⟩
    intro b h0 h1
    by_cases hb : b = index
    · subst hb
      exact (hbits b).2.2
    · exact hgrown.marked b h0 (by omega)

/-- A receive that counts as complete has stored the whole payload. -/
theorem received_reply {r : Request disksize} {n : Nat} {sent ret : Int} (hn : n ≤ r.iolen)
    (hlow : -1 ≤ sent) (hhigh : sent ≤ (r.iolen - n : Nat))
    (hdone : netIovStep [⟨n, r.iolen - n⟩] n sent = .done ret) (hfin : CheckFin r.iolen ret) :
    n + sent.toNat = r.iolen := by
  have hlen := r.admitted.length
  have hsmall : r.iolen < 2 ^ 31 := by
    by_contra hlarge
    exact (large_never_complete (by omega) hlen ret).2 hfin
  have hint : toInt32 r.iolen = r.iolen := toInt32_of_range (by omega) (by omega)
  obtain ⟨hpos, hret⟩ := hfin
  rw [hint] at hret
  by_cases hcount : 0 < sent
  · rw [netIovStep_single (by omega) hcount] at hdone
    split at hdone
    · cases hdone
    · omega
  · have hcases : sent = 0 ∨ sent = -1 := by omega
    cases hcases with
    | inl hzero =>
      simp only [netIovStep, hzero, if_true, IovStep.done.injEq] at hdone
      rw [toInt32_of_range (by omega) (by omega)] at hdone
      omega
    | inr hneg =>
      simp only [netIovStep, hneg] at hdone
      cases hdone
      omega

/-- The place behind a `readv` counts no more than what is stored by now. -/
theorem received_place {r : Request disksize} {ds : DiskStack disksize} {n : Nat} {sent : Int}
    (hn : n ≤ r.iolen) (hlow : -1 ≤ sent) (hhigh : sent ≤ (r.iolen - n : Nat)) :
    stored r (received r ds n sent).2 ≤ n + sent.toNat ∧
      ((received r ds n sent).2 = .recv (n + sent.toNat) ∨ (received r ds n sent).2 = .reply ∨
        (received r ds n sent).2 = .ended) := by
  simp only [received]
  split
  · exact ⟨le_refl _, .inl rfl⟩
  · rename_i ret hdone
    by_cases hfin : CheckFin r.iolen ret
    · rw [if_pos hfin]
      exact ⟨(received_reply hn hlow hhigh hdone hfin).ge, .inr (.inl rfl)⟩
    · rw [if_neg hfin]
      exact ⟨Nat.zero_le _, .inr (.inr rfl)⟩

theorem received_top (r : Request disksize) (ds : DiskStack disksize) (n : Nat) (sent : Int) :
    (received r ds n sent).1 =
      ds.withTop (store ds.top.file (r.start + n) ((r.data.drop n).take sent.toNat))
        ds.top.bm rfl := by
  simp only [received]
  split <;> rfl

theorem recv_inv (hapart : Apart req) {n : Nat} {sent : Int} (h : Inv ds₀ req s)
    (hplace : s.place w = .recv n) (hlow : -1 ≤ sent) (hhigh : sent ≤ ((req w).iolen - n : Nat)) :
    Inv ds₀ req ⟨(received (req w) s.ds n sent).1,
      Function.update s.place w (received (req w) s.ds n sent).2⟩ := by
  have hok := h.places w
  rw [hplace] at hok
  obtain ⟨hn, hmarked⟩ := hok
  have hdata := (req w).payload (hapart.write w)
  obtain ⟨hcount, hnext⟩ := @received_place _ (req w) s.ds n sent hn hlow hhigh
  rw [received_top]
  have hgrows : Grows ds₀ req s ⟨s.ds.withTop (store s.ds.top.file ((req w).start + n)
      (((req w).data.drop n).take sent.toNat)) s.ds.top.bm rfl,
        Function.update s.place w (received (req w) s.ds n sent).2⟩ := by
    refine ⟨rfl, rfl, ?_, fun _ hb => hb⟩
    intro b hb x hx hblk
    by_cases hpiece : (req w).start + n ≤ x ∧ x < (req w).start + n + sent.toNat
    · exact .inr (store_piece hapart (by omega) hpiece.1 hpiece.2)
    · cases hb x hx hblk with
      | inr hdone =>
        refine .inr (Eq.trans ?_ hdone)
        apply store_outside
        simp only [List.length_take, List.length_drop]
        omega
      | inl hpend =>
        obtain ⟨v, h0, h1⟩ := hpend
        refine .inl ⟨v, ?_, h1⟩
        by_cases hv : v = w
        · subst hv
          simp only [Function.update_self]
          rw [hplace] at h0
          simp only [stored] at h0
          omega
        · simpa only [Function.update_of_ne hv] using h0
  apply h.moved hgrows fun _ hb => .inl hb
  obtain hp | hp | hp := hnext
  · rw [hp]
    exact ⟨by omega, hmarked⟩
  · rw [hp]
    exact hmarked
  · rw [hp]
    trivial

/-- One step of a worker. -/
theorem step_inv {pagesize : Nat} {t : State disksize} {a : Action} (hapart : Apart req)
    (hlen : ∀ w, 0 < (req w).iolen) (h : Inv ds₀ req s) (hc : Careful req s a)
    (hstep : step pagesize req s a = some t) : Inv ds₀ req t := by
  obtain ⟨w, sent⟩ := a
  obtain ⟨p, hw, rfl⟩ := Option.map_eq_some_iff.mp hstep
  obtain ⟨ds, next⟩ := p
  have hok := h.places w
  simp only [Careful] at hc
  simp only at hw ⊢
  cases hplace : s.place w with
  | mmap =>
    simp only [hplace, workerStep] at hw
    split at hw
    · cases hw
      exact h.quiet (by simp [stored]) trivial
    · cases hw
      exact h.quiet (by simp [stored]) trivial
  | testSta =>
    simp only [hplace, workerStep] at hw
    cases hw
    exact testSta_inv h hplace
  | testEnd getSta =>
    simp only [hplace, workerStep] at hw
    cases hw
    exact testEnd_inv hapart (hlen w) h hplace
  | searchSta getEnd =>
    simp only [hplace, workerStep] at hw
    cases hw
    rw [hplace] at hok
    exact searched_inv h fun src => ⟨rfl, fun hsrc => ⟨hsrc, hok⟩⟩
  | copySta src getEnd =>
    simp only [hplace, workerStep] at hw
    obtain ⟨ds', hcopy, hpair⟩ := Option.map_eq_some_iff.mp hw
    cases hpair
    rw [hplace] at hok hc
    obtain ⟨hsrc, hdue⟩ := hok
    obtain ⟨hgrows, hready, hbits⟩ := copied_grows hapart hcopy (by rw [hplace]; rfl)
      (stored_afterTests (req w) false getEnd) hsrc (by rintro file rfl; exact hc)
    apply h.moved hgrows (fun b hb => .inl (by rw [← hbits]; exact hb))
    apply afterTests_ok hapart (hlen w) (by simp [stored_afterTests])
    · intro _
      exact .inr hready
    · intro hno
      cases hno
    · intro _ hno
      cases hdue.grow hgrows hno with
      | inl hend => exact hend
      | inr heq => exact .inr (by rw [heq]; exact hready)
  | searchEnd =>
    simp only [hplace, workerStep] at hw
    cases hw
    rw [hplace] at hok
    exact searched_inv h fun src => ⟨rfl, fun hsrc => ⟨hsrc, hok⟩⟩
  | copyEnd src =>
    simp only [hplace, workerStep] at hw
    obtain ⟨ds', hcopy, hpair⟩ := Option.map_eq_some_iff.mp hw
    cases hpair
    rw [hplace] at hok hc
    obtain ⟨hsrc, hsta⟩ := hok
    obtain ⟨hgrows, hready, hbits⟩ := copied_grows hapart hcopy (by rw [hplace]; rfl)
      (stored_afterTests (req w) false false) hsrc (by rintro file rfl; exact hc)
    apply h.moved hgrows (fun b hb => .inl (by rw [← hbits]; exact hb))
    apply afterTests_ok hapart (hlen w) (by simp [stored_afterTests])
    · intro _
      exact hsta.grow hgrows
    · intro hno
      cases hno
    · intro _ _
      exact .inr hready
  | load index =>
    rw [hplace] at hw
    exact load_inv h hplace hw
  | storeWord index word =>
    simp only [hplace, workerStep] at hw
    cases hw
    rw [hplace] at hc
    exact storeWord_inv hapart (hlen w) h hplace hc
  | recv n =>
    simp only [hplace, workerStep] at hw
    split at hw
    · rename_i hmay
      have hpair : received (req w) s.ds n sent = (ds, next) := Option.some.inj hw
      have hinv := recv_inv hapart h hplace hmay.1 hmay.2
      rwa [hpair] at hinv
    · cases hw
  | reply =>
    simp only [hplace, workerStep] at hw
    cases hw
    rw [hplace] at hok
    exact h.quiet (by rw [hplace]; exact le_refl _) hok
  | replied =>
    simp only [hplace, workerStep] at hw
    cases hw
  | ended =>
    simp only [hplace, workerStep] at hw
    cases hw

end Steps

section Runs

variable {req : Bool → Request disksize} {pagesize : Nat}

/-- The reply is sent or about to be. -/
def Place.answering : Place → Bool
  | .reply => true
  | .replied => true
  | _ => false

theorem afterTests_answering (r : Request disksize) (getSta getEnd : Bool) :
    (afterTests r getSta getEnd).answering = false := by
  cases getSta with
  | true => rfl
  | false => cases getEnd <;> rfl

/-- A worker comes to its reply only with a payload. -/
theorem workerStep_answering {r : Request disksize} {ds ds' : DiskStack disksize} {sent : Int}
    {p p' : Place} (h : workerStep pagesize r ds sent p = some (ds', p'))
    (ha : p'.answering = true) : p.answering = true ∨ 0 < r.iolen := by
  have hsearched : ∀ index (next : Source → Place), (∀ src, (next src).answering = false) →
      (searched ds index next).answering = false := by
    intro index next hnext
    simp only [searched]
    split
    · exact hnext _
    · rfl
  cases p with
  | mmap =>
    simp only [workerStep] at h
    split at h <;> cases h <;> cases ha
  | testSta =>
    cases h
    cases ha
  | testEnd getSta =>
    cases h
    rw [afterTests_answering] at ha
    cases ha
  | searchSta getEnd =>
    cases h
    rw [hsearched _ _ fun _ => rfl] at ha
    cases ha
  | copySta src getEnd =>
    obtain ⟨_, -, hpair⟩ := Option.map_eq_some_iff.mp h
    cases hpair
    rw [afterTests_answering] at ha
    cases ha
  | searchEnd =>
    cases h
    rw [hsearched _ _ fun _ => rfl] at ha
    cases ha
  | copyEnd src =>
    obtain ⟨_, -, hpair⟩ := Option.map_eq_some_iff.mp h
    cases hpair
    rw [afterTests_answering] at ha
    cases ha
  | load index =>
    simp only [workerStep] at h
    split at h
    · split at h <;> cases h <;> cases ha
    · cases h
      cases ha
  | storeWord index word =>
    cases h
    cases ha
  | recv n =>
    right
    simp only [workerStep, received] at h
    split at h
    · split at h
      · cases h
        cases ha
      · cases h
        split at ha
        · rename_i ret _ hfin
          obtain ⟨hpos, hret⟩ := hfin
          by_contra hzero
          have hlen : r.iolen = 0 := by omega
          rw [hlen] at hret
          simp [toInt32] at hret
          omega
        · cases ha
    · cases h
  | reply => exact .inl rfl
  | replied => cases h
  | ended => cases h

/-- Only workers with a payload reply. -/
def Payloads (req : Bool → Request disksize) (s : State disksize) : Prop :=
  ∀ w, (s.place w).answering = true → 0 < (req w).iolen

theorem step_payloads {s t : State disksize} {a : Action} (h : Payloads req s)
    (hstep : step pagesize req s a = some t) : Payloads req t := by
  obtain ⟨p, hw, rfl⟩ := Option.map_eq_some_iff.mp hstep
  intro v hv
  by_cases hva : v = a.worker
  · subst hva
    simp only [Function.update_self] at hv
    exact (workerStep_answering hw hv).elim (h _) id
  · simp only [Function.update_of_ne hva] at hv
    exact h v hv

variable {ds₀ : DiskStack disksize} {s : State disksize}

theorem initial_inv : Inv ds₀ req (initial ds₀) where
  lower := rfl
  words := rfl
  bits _ hb := hb
  places _ := trivial
  ready b hb x _ hblk := by
    by_cases hcov : ∃ w, (req w).Covers x
    · obtain ⟨w, hcov⟩ := hcov
      exact .inl ⟨w, hcov.1, hcov.2⟩
    · right
      rw [expected_outside fun w hw => hcov ⟨w, hw⟩]
      exact (logical_top ds₀ (hblk ▸ hb)).symm

/-- When both workers have replied, the stack shows both payloads. -/
theorem Inv.logical (h : Inv ds₀ req s) (hapart : Apart req)
    (hdone : ∀ w, s.place w = .replied) {x : Nat} (hx : x < disksize) :
    s.ds.logical x = expected ds₀ req x := by
  cases hbit : s.ds.topBits (x / cblocksize) with
  | true =>
    rw [logical_top s.ds hbit]
    cases h.ready _ hbit x hx rfl with
    | inr hfile => exact hfile
    | inl hpend =>
      obtain ⟨w, h0, h1⟩ := hpend
      rw [hdone w] at h0
      simp only [stored] at h0
      omega
  | false =>
    have hnone : ∀ w, ¬(req w).Covers x := by
      intro w hcov
      have hmarked := h.places w
      rw [hdone w] at hmarked
      have hset := hmarked _ (inBlocks_of_covers ds₀.size_max (hapart.lower w) hcov)
      rw [hbit] at hset
      cases hset
    have hold : ds₀.topBits (x / cblocksize) = false := by
      by_contra hset
      have hstill := h.bits _ (by simpa using hset)
      rw [hbit] at hstill
      cases hstill
    rw [expected_outside hnone, DiskStack.logical, DiskStack.logical, findLayer_lower _ hbit,
      findLayer_lower _ hold, h.lower]

/-- In every run in which no worker copies over what the other one stored or
stores over a bit the other one set, the logical disk has both payloads once
both replies are sent. -/
theorem cow_writes_kept (pagesize : Nat) (ds₀ : DiskStack disksize)
    (req : Bool → Request disksize) (hapart : Apart req) (acts : List Action)
    (t : State disksize) (hc : Along (step pagesize req) (Careful req) (initial ds₀) acts)
    (hrun : run (step pagesize req) (initial ds₀) acts = some t)
    (hdone : ∀ w, t.place w = .replied) :
    ∀ x < disksize, t.ds.logical x =
      flatStep (flatStep ds₀.logical (req false)) (req true) x := by
  have hpay : Payloads req t := run_invariant (fun _ _ _ hs _ h => step_payloads hs h)
    (fun w hw => by cases hw) (along_true _ (initial ds₀) acts) hrun
  have hlen : ∀ w, 0 < (req w).iolen := fun w => hpay w (by rw [hdone w]; rfl)
  have hinv : Inv ds₀ req t := run_invariant
    (fun _ _ _ hs hca h => step_inv hapart hlen hs hca h) initial_inv hc hrun
  intro x hx
  exact hinv.logical hapart hdone hx

end Runs

section Example

/-- A full layer of ones. -/
def ones : DiskImage := ⟨fun _ => 1, [1#64]⟩

theorem three_le_offMax : 3 ≤ offMax := by decide

theorem ones_words : ∀ di ∈ [ones], di.bm.length = bitsToLongs (getDiskNblocks 3) := by decide

theorem ones_full : ∀ b < getDiskNblocks 3, bitmapTest ones.bm b = true := by decide

/-- Three bytes over a full base layer of ones; the top layer is empty. -/
def threeBytes : DiskStack 3 where
  lower := [ones]
  top := ⟨fun _ => 0, [0#64]⟩
  size_pos := Nat.succ_pos 2
  size_max := three_le_offMax
  lower_ne := List.cons_ne_nil _ _
  layers_le := Nat.le_of_ble_eq_true rfl
  top_words := rfl
  lower_words := ones_words
  base_full := ones_full

theorem second_admitted : Admitted 3 .write 1 1 := by constructor <;> decide

theorem third_admitted : Admitted 3 .write 2 1 := by constructor <;> decide

def writeSecond : Request 3 where
  iotype := .write
  iofrom := 1
  iolen := 1
  data := [7]
  admitted := second_admitted
  payload _ := rfl

def writeThird : Request 3 where
  iotype := .write
  iofrom := 2
  iolen := 1
  data := [8]
  admitted := third_admitted
  payload _ := rfl

def writers (w : Bool) : Request 3 := if w then writeThird else writeSecond

theorem writers_apart : Apart writers where
  write w := by cases w <;> rfl
  lower w := by cases w <;> decide
  disjoint x h0 h1 := by
    have hlt : x < 1 + 1 := h0.2
    have hge : 2 ≤ x := h1.1
    omega

def Place.isReplied : Place → Bool
  | .replied => true
  | _ => false

theorem Place.eq_replied {p : Place} (h : p.isReplied = true) : p = .replied := by
  cases p with
  | replied => rfl
  | _ => cases h

/-- One worker after the other. -/
def inTurn : List Action := List.replicate 10 ⟨false, 1⟩ ++ List.replicate 8 ⟨true, 1⟩

/-- The second worker runs between the search and the `memcpy` of the first. -/
def between : List Action :=
  List.replicate 4 ⟨false, 1⟩ ++ List.replicate 10 ⟨true, 1⟩ ++ List.replicate 6 ⟨false, 1⟩

theorem cow_writes_kept_in_turn :
    Along (step 4096 writers) (Careful writers) (initial threeBytes) inTurn ∧
      ∃ t, run (step 4096 writers) (initial threeBytes) inTurn = some t ∧
        (∀ w, t.place w = .replied) ∧ t.ds.logical 1 = 7 ∧ t.ds.logical 2 = 8 := by
  have halong : Along (step 4096 writers) (Careful writers) (initial threeBytes) inTurn := by
    decide
  have hrun : (run (step 4096 writers) (initial threeBytes) inTurn).map
      (fun t => ((t.place false).isReplied, (t.place true).isReplied)) = some (true, true) := by
    decide
  obtain ⟨t, ht, hpair⟩ := Option.map_eq_some_iff.mp hrun
  obtain ⟨hfalse, htrue⟩ := Prod.mk.inj hpair
  have hdone : ∀ w, t.place w = .replied := by
    intro w
    cases w with
    | false => exact Place.eq_replied hfalse
    | true => exact Place.eq_replied htrue
  have hkept := cow_writes_kept 4096 threeBytes writers writers_apart inTurn t halong ht hdone
  exact ⟨halong, t, ht, hdone, (hkept 1 (by decide)).trans (by decide),
    (hkept 2 (by decide)).trans (by decide)⟩

/-- The first worker's copy takes back the byte that the second one has stored
and acknowledged. -/
theorem cow_write_lost :
    ¬∀ (acts : List Action) (t : State 3),
      run (step 4096 writers) (initial threeBytes) acts = some t →
      (∀ w, t.place w = .replied) → ∀ x < 3, t.ds.logical x =
        flatStep (flatStep threeBytes.logical (writers false)) (writers true) x := by
  intro hall
  have hrun : (run (step 4096 writers) (initial threeBytes) between).map
      (fun t => ((t.place false).isReplied, (t.place true).isReplied, t.ds.logical 2)) =
        some (true, true, 1) := by decide
  obtain ⟨t, ht, htriple⟩ := Option.map_eq_some_iff.mp hrun
  obtain ⟨hfalse, hpair⟩ := Prod.mk.inj htriple
  obtain ⟨htrue, hbyte⟩ := Prod.mk.inj hpair
  have hdone : ∀ w, t.place w = .replied := by
    intro w
    cases w with
    | false => exact Place.eq_replied hfalse
    | true => exact Place.eq_replied htrue
  have hwant := hall between t ht hdone 2 (by decide)
  rw [hbyte] at hwant
  exact absurd hwant (by decide)

end Example

end Xnbd.CowRace
