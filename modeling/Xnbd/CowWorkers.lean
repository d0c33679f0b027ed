import Xnbd.CowRace
import Xnbd.Places

/-!
# The workers of a copy-on-write server (`target_mode_main_cow`)

Every client has a worker of its own, and all the workers of a server write to the same
top layer and mark the same bitmap. Their steps interleave freely; a request that no
other one overlaps comes out as in `targetModeMainCow`.
-/
namespace Xnbd.CowWorkers

open CInt Block Bitmap Bytes Nbd Requests NetIov FlatDisk CowDisk CowRefine CowRace Places Run

variable {disksize : Nat}

section Model

inductive Worker (disksize : Nat) where
  /-- In front of the next request. -/
  | idle
  | works (r : Request disksize) (place : Place)
  /-- The client has left between two requests. -/
  | gone
  /-- `err()`, or a kill. -/
  | ended

/-- The stack that the workers share. -/
structure Serving (disksize : Nat) where
  ds : DiskStack disksize
  workers : List (Worker disksize)

inductive Turn (disksize : Nat) where
  | accept
  | request (w : Nat) (r : Request disksize)
  /-- A step of worker `w`; `sent` is the result of its `readv`. -/
  | work (w : Nat) (sent : Int)
  | leave (w : Nat)
  | kill (w : Nat)

theorem own_words (ds : DiskStack disksize) : ds.top.bm.length = ds.top.bm.length := rfl

/-- A step in `disk_stack_mmap` or behind it. `disk_stack_punch_hole` is one call, and
`disk_stack_fsync` changes nothing. -/
def commandStep (pagesize : Nat) (r : Request disksize) (ds : DiskStack disksize) (sent : Int) :
    Place → Option (DiskStack disksize × Place)
  | .recv n =>
    match r.iotype with
    | .write => workerStep pagesize r ds sent (.recv n)
    | .flush => some (ds, .replied)
    | .trim =>
      some (ds.withTop (zero ds.top.file r.start r.iolen) ds.top.bm (own_words ds), .replied)
    | _ => some (ds, .ended)
  | place => workerStep pagesize r ds sent place

/-- A worker that has received a request. A READ changes nothing that is shared, so it is
over at once. -/
def begun (pagesize : Nat) (readonly : Bool) (ds : DiskStack disksize) (r : Request disksize) :
    Worker disksize :=
  if readonly = true ∧ (r.iotype = .write ∨ r.iotype = .trim) then .ended
  else if r.iotype = .readCompress ∨ r.iotype = .readCompressLzo then .ended
  else if r.iotype = .read then
    if (diskStackMmapRead pagesize ds r).isSome then .idle else .ended
  else .works r .mmap

/-- The worker at a place of its request. -/
def Worker.at (r : Request disksize) : Place → Worker disksize
  | .replied => .idle
  | .ended => .ended
  | place => .works r place

def step (pagesize : Nat) (readonly : Bool) (s : Serving disksize) :
    Turn disksize → Option (Serving disksize)
  | .accept => some { s with workers := s.workers ++ [.idle] }
  | .request w r =>
    match s.workers[w]? with
    | some .idle => some { s with workers := s.workers.set w (begun pagesize readonly s.ds r) }
    | _ => none
  | .work w sent =>
    match s.workers[w]? with
    | some (.works r place) =>
      (commandStep pagesize r s.ds sent place).map fun p => ⟨p.1, s.workers.set w (.at r p.2)⟩
    | _ => none
  | .leave w =>
    match s.workers[w]? with
    | some .idle => some { s with workers := s.workers.set w .gone }
    | _ => none
  | .kill w => (s.workers[w]?).map fun _ => { s with workers := s.workers.set w .ended }

/-- The requests that have come in. -/
def requestsOf (log : List (Turn disksize)) : List (Request disksize) :=
  log.filterMap fun
    | .request _ r => some r
    | _ => none

@[simp] theorem requestsOf_nil : requestsOf ([] : List (Turn disksize)) = [] := rfl
@[simp] theorem requestsOf_accept : requestsOf [(.accept : Turn disksize)] = [] := rfl
@[simp] theorem requestsOf_work (w : Nat) (sent : Int) :
    requestsOf [(.work w sent : Turn disksize)] = [] := rfl
@[simp] theorem requestsOf_leave (w : Nat) : requestsOf [(.leave w : Turn disksize)] = [] := rfl
theorem requestsOf_cons (turn : Turn disksize) (log : List (Turn disksize)) :
    requestsOf (turn :: log) = requestsOf [turn] ++ requestsOf log := by
  rw [requestsOf, requestsOf, requestsOf, ← List.filterMap_append]
  rfl

/-- The stack that a request leaves, whether or not its worker goes on. -/
def stackAfter (pagesize : Nat) (readonly : Bool) (ds : DiskStack disksize) (r : Request disksize) :
    DiskStack disksize :=
  match targetModeMainCow pagesize readonly ds r with
  | .served ds' _ => ds'
  | .ended ds' => ds'

end Model

section Lower

variable {pagesize : Nat} {readonly : Bool} {r : Request disksize} {ds ds' : DiskStack disksize}
  {sent : Int} {place place' : Place} {s t : Serving disksize} {turn : Turn disksize}

theorem workerStep_lower (h : workerStep pagesize r ds sent place = some (ds', place')) :
    ds'.lower = ds.lower := by
  cases place with
  | mmap =>
    simp only [workerStep] at h
    split at h <;> cases h <;> rfl
  | copySta src getEnd | copyEnd src =>
    simp only [workerStep, copied, Option.map_map, Option.map_eq_some_iff, Function.comp_apply,
      Prod.mk.injEq] at h
    obtain ⟨mbr, -, rfl, -⟩ := h
    rfl
  | load index =>
    simp only [workerStep] at h
    split at h
    · split at h <;> cases h <;> rfl
    · cases h
      rfl
  | recv n =>
    simp only [workerStep] at h
    split at h
    · have hds : (received r ds n sent).1 = ds' := congrArg Prod.fst (Option.some.inj h)
      rw [← hds, received_top]
      rfl
    · cases h
  | testSta | testEnd _ | searchSta _ | searchEnd | storeWord _ _ | reply =>
    cases h
    rfl
  | replied | ended => cases h

/-- Up to the end of the marking all commands do the same. -/
theorem commandStep_eq (h : ∀ n, place ≠ .recv n) :
    commandStep pagesize r ds sent place = workerStep pagesize r ds sent place := by
  cases place with
  | recv n => exact absurd rfl (h n)
  | _ => rfl

theorem commandStep_lower (h : commandStep pagesize r ds sent place = some (ds', place')) :
    ds'.lower = ds.lower := by
  cases place with
  | recv n =>
    simp only [commandStep] at h
    split at h
    · exact workerStep_lower h
    all_goals
      cases h
      rfl
  | _ =>
    rw [commandStep_eq (by simp)] at h
    exact workerStep_lower h

/-- No step of a worker changes a lower layer. -/
theorem step_lower (h : step pagesize readonly s turn = some t) : t.ds.lower = s.ds.lower := by
  cases turn with
  | accept =>
    cases h
    rfl
  | request w r | leave w =>
    simp only [step] at h
    split at h <;> cases h
    rfl
  | work w sent =>
    simp only [step] at h
    split at h
    · obtain ⟨p, hp, rfl⟩ := Option.map_eq_some_iff.mp h
      exact commandStep_lower hp
    · cases h
  | kill w =>
    obtain ⟨_, -, rfl⟩ := Option.map_eq_some_iff.mp h
    rfl

theorem run_lower {log : List (Turn disksize)} (h : run (step pagesize readonly) s log = some t) :
    t.ds.lower = s.ds.lower :=
  run_invariant (I := fun t => t.ds.lower = s.ds.lower)
    (fun _ _ _ hi _ ht => (step_lower ht).trans hi) rfl (along_true _ s log) h

end Lower

section Alone

variable {pagesize : Nat} {readonly : Bool} {r : Request disksize} {ds₀ ds ds' : DiskStack disksize}
  {mbr : MmapBlockRegion} {sta top : File} {sent : Int} {place place' : Place}

/-- The marking loop over the request's blocks. -/
def marks (ds : DiskStack disksize) (r : Request disksize) : Marked :=
  markLoop r.blockIndexEnd (markFuel ds.top.bm) r.blockIndexStart ds.top.bm

/-- The writing branch of `disk_stack_mmap` on `ds₀`, with the file behind the copy of the first
block and behind that of the last one. -/
structure Prepares (pagesize : Nat) (ds₀ : DiskStack disksize) (r : Request disksize)
    (mbr : MmapBlockRegion) (sta top : File) : Prop where
  mapped : mmapBlockRegionCreate pagesize disksize r.iofrom r.iolen = some mbr
  copiedSta : copyEdge (r.getStartBlock ds₀.topBits) ds₀ mbr ds₀.top.file r.blockIndexStart
    r.blockIndexStart = some sta
  copiedEnd : copyEdge (r.getEndBlock ds₀.topBits) ds₀ mbr sta r.blockIndexEnd
    r.blockIndexStart = some top
  returned : (marks ds₀ r).returned = true

/-- The marking loop goes on from `index` to the bitmap that it has in the end. -/
def MarksOn (ds₀ : DiskStack disksize) (r : Request disksize) (bm : Words) (index : Nat) : Prop :=
  ∃ fuel, (markLoop r.blockIndexEnd fuel index bm).bm = (marks ds₀ r).bm ∧
    (markLoop r.blockIndexEnd fuel index bm).returned = true

/-- What a worker that nobody disturbs has made of the stack `ds₀` when it comes to a place. -/
def Solo (pagesize : Nat) (readonly : Bool) (ds₀ : DiskStack disksize) (r : Request disksize)
    (sta top : File) (ds : DiskStack disksize) : Place → Prop
  | .mmap | .testSta => ds = ds₀
  | .testEnd getSta => ds = ds₀ ∧ getSta = r.getStartBlock ds₀.topBits
  | .searchSta getEnd => ds = ds₀ ∧ r.getStartBlock ds₀.topBits = true ∧
      getEnd = r.getEndBlock ds₀.topBits
  | .copySta src getEnd => ds = ds₀ ∧ r.getStartBlock ds₀.topBits = true ∧
      getEnd = r.getEndBlock ds₀.topBits ∧ search ds₀ r.blockIndexStart = some src
  | .searchEnd => ds = ds₀.withTop sta ds₀.top.bm (own_words ds₀) ∧ r.getEndBlock ds₀.topBits = true
  | .copyEnd src => ds = ds₀.withTop sta ds₀.top.bm (own_words ds₀) ∧
      r.getEndBlock ds₀.topBits = true ∧ search ds₀ r.blockIndexEnd = some src
  | .load index => ds.lower = ds₀.lower ∧ ds.top.file = top ∧ MarksOn ds₀ r ds.top.bm index
  | .storeWord index word => ds.lower = ds₀.lower ∧ ds.top.file = top ∧
      MarksOn ds₀ r ds.top.bm index ∧ index ≤ r.blockIndexEnd ∧ Inside ds.top.bm index ∧
      word = loadWord ds.top.bm index
  | .recv n => ds.lower = ds₀.lower ∧ ds.top.bm = (marks ds₀ r).bm ∧ n ≤ r.iolen ∧
      ds.top.file = store top r.start (r.data.take n) ∧ (r.iotype = .write ∨ n = 0)
  | .reply => ds.lower = ds₀.lower ∧ ds.top.bm = (marks ds₀ r).bm ∧
      ds.top.file = store top r.start r.data ∧ r.iotype = .write
  | .replied => ∃ reply, targetModeMainCow pagesize readonly ds₀ r = .served ds reply
  | .ended => True

theorem stack_ext {ds ds' : DiskStack disksize} (hlower : ds.lower = ds'.lower)
    (htop : ds.top = ds'.top) : ds = ds' := by
  cases ds
  cases ds'
  simp_all

theorem image_ext {di di' : DiskImage} (hfile : di.file = di'.file) (hbm : di.bm = di'.bm) :
    di = di' := by
  cases di
  cases di'
  simp_all

/-- A request that a server may carry out on its top layer. -/
structure Writes (readonly : Bool) (r : Request disksize) : Prop where
  command : r.iotype = .write ∨ r.iotype = .trim ∨ r.iotype = .flush
  writable : r.iotype = .write ∨ r.iotype = .trim → readonly = false
  received : r.iotype = .write → 0 < r.iolen ∧ r.iolen < 2 ^ 31

/-- The stack behind `disk_stack_mmap`. -/
def prepared (ds₀ : DiskStack disksize) (r : Request disksize) (top : File) : Prepared disksize :=
  ⟨ds₀.withTop top (marks ds₀ r).bm (by simp [marks]), marks ds₀ r⟩

/-- The command, behind the preparation. -/
theorem Prepares.served (hp : Prepares pagesize ds₀ r mbr sta top) (hw : Writes readonly r)
    {file : File} {reply : Reply} (hlower : ds.lower = ds₀.lower)
    (hbm : ds.top.bm = (marks ds₀ r).bm) (hfile : ds.top.file = file)
    (hc : cowCommand (prepared ds₀ r top) r =
      .served ((prepared ds₀ r top).ds.withTop file (marks ds₀ r).bm rfl) reply) :
    targetModeMainCow pagesize readonly ds₀ r = .served ds reply := by
  have hds : ds = (prepared ds₀ r top).ds.withTop file (marks ds₀ r).bm rfl :=
    stack_ext hlower (image_ext hfile hbm)
  have hprepared : diskStackMmapWrite pagesize ds₀ r = some (prepared ds₀ r top) := by
    simp only [diskStackMmapWrite, hp.mapped, hp.copiedSta, hp.copiedEnd, Option.bind_eq_bind,
      Option.bind_some]
    rfl
  have hreturned : (prepared ds₀ r top).marked.returned = true := hp.returned
  rw [targetModeMainCow, if_neg (not_refused hw.writable), hds]
  rcases hw.command with ht | ht | ht
  all_goals simp [ht, hprepared, hreturned, hc]

/-- Behind the copy of the first block. -/
theorem solo_copiedSta (hp : Prepares pagesize ds₀ r mbr sta top)
    (hds : ds = ds₀.withTop sta ds₀.top.bm rfl) :
    Solo pagesize readonly ds₀ r sta top ds (afterTests r false (r.getEndBlock ds₀.topBits)) := by
  subst hds
  cases hend : r.getEndBlock ds₀.topBits with
  | true => exact ⟨rfl, hend⟩
  | false =>
    have hcopied := hp.copiedEnd
    rw [hend] at hcopied
    exact ⟨rfl, Option.some.inj hcopied, markFuel ds₀.top.bm, rfl, hp.returned⟩

/-- Behind the tests. -/
theorem solo_tested (hp : Prepares pagesize ds₀ r mbr sta top) :
    Solo pagesize readonly ds₀ r sta top ds₀
      (afterTests r (r.getStartBlock ds₀.topBits) (r.getEndBlock ds₀.topBits)) := by
  cases hsta : r.getStartBlock ds₀.topBits with
  | true => exact ⟨rfl, hsta, rfl⟩
  | false =>
    have hcopied := hp.copiedSta
    rw [hsta] at hcopied
    apply solo_copiedSta hp
    rw [← Option.some.inj hcopied]
    rfl

/-- The `memcpy` of an edge block is that of `copy_block_to_top_layer`. -/
theorem copied_edge {src : Source} {index : Nat} {file file' : File}
    (hp : Prepares pagesize ds₀ r mbr sta top) (hsearch : search ds₀ index = some src)
    (hcopy : copyEdge true ds₀ mbr file index r.blockIndexStart = some file')
    (hsrc : src.file ds = src.file ds₀) (hfile : ds.top.file = file) (hbm : ds.top.bm = ds₀.top.bm)
    (hlower : ds.lower = ds₀.lower) (h : copied pagesize r ds src index = some ds') :
    ds' = ds₀.withTop file' ds₀.top.bm rfl := by
  rw [copyEdge, if_pos rfl, copyBlockToTopLayer_eq, hsearch, Option.map_some] at hcopy
  rw [copied, hp.mapped, Option.map_some] at h
  cases hcopy
  cases h
  refine @stack_ext _ (ds.withTop _ _ rfl) (ds₀.withTop _ _ rfl) hlower ?_
  rw [hsrc, hfile]
  exact image_ext rfl hbm

theorem solo_searched {index : Nat} {next : Source → Place}
    (h : ∀ src, search ds index = some src → Solo pagesize readonly ds₀ r sta top ds (next src)) :
    Solo pagesize readonly ds₀ r sta top ds (searched ds index next) := by
  unfold searched
  split
  · exact h _ (by assumption)
  · trivial

theorem Solo.copySta {src : Source} {getEnd : Bool} (hp : Prepares pagesize ds₀ r mbr sta top)
    (h : Solo pagesize readonly ds₀ r sta top ds (.copySta src getEnd))
    (hs : copied pagesize r ds src r.blockIndexStart = some ds') :
    Solo pagesize readonly ds₀ r sta top ds' (afterTests r false getEnd) := by
  obtain ⟨rfl, hsta, rfl, hsearch⟩ := h
  have hcopied := hp.copiedSta
  rw [hsta] at hcopied
  exact solo_copiedSta hp (copied_edge hp hsearch hcopied rfl rfl rfl rfl hs)

/-- The last block is copied from below, since the top layer does not have it. -/
theorem Solo.copyEnd {src : Source} (hp : Prepares pagesize ds₀ r mbr sta top)
    (h : Solo pagesize readonly ds₀ r sta top ds (.copyEnd src))
    (hs : copied pagesize r ds src r.blockIndexEnd = some ds') :
    Solo pagesize readonly ds₀ r sta top ds' (afterTests r false false) := by
  obtain ⟨rfl, hend, hsearch⟩ := h
  have hcopied := hp.copiedEnd
  rw [hend] at hcopied
  have hsrc : src.file (ds₀.withTop sta ds₀.top.bm rfl) = src.file ds₀ := by
    cases src with
    | lower file => rfl
    | top =>
      have habsent : ds₀.topBits r.blockIndexEnd = false := by
        simp only [Request.getEndBlock, Bool.and_eq_true, Bool.not_eq_true'] at hend
        exact hend.2
      simp only [search] at hsearch
      rw [DiskStack.topBits] at habsent
      simp [habsent] at hsearch
  rw [copied_edge hp hsearch hcopied hsrc rfl rfl rfl hs]
  exact ⟨rfl, rfl, markFuel ds₀.top.bm, rfl, hp.returned⟩

theorem Solo.load {index : Nat} (h : Solo pagesize readonly ds₀ r sta top ds (.load index))
    (hs : workerStep pagesize r ds sent (.load index) = some (ds', place')) :
    Solo pagesize readonly ds₀ r sta top ds' place' := by
  obtain ⟨hlower, hfile, fuel, hmarks, hreturned⟩ := h
  cases fuel with
  | zero => cases hreturned
  | succ fuel =>
    simp only [workerStep] at hs
    split at hs
    · rename_i hle
      split at hs <;> cases hs
      · exact ⟨hlower, hfile, ⟨fuel + 1, hmarks, hreturned⟩, hle, by assumption, rfl⟩
      · trivial
    · rename_i hgt
      cases hs
      rw [markLoop, if_neg hgt] at hmarks
      refine ⟨hlower, hmarks, Nat.zero_le _, ?_, .inr rfl⟩
      rw [hfile, List.take_zero]
      funext x
      simp [store]

/-- The word was loaded just before, so the store is `bitmap_on`. -/
theorem Solo.storeWord {index : Nat} {word : BitVec 64}
    (h : Solo pagesize readonly ds₀ r sta top ds (.storeWord index word)) :
    Solo pagesize readonly ds₀ r sta top
      (ds.withTop ds.top.file (ds.top.bm.set (index / 64) (orBit word index)) (by simp))
      (.load ((index + 1) % 2 ^ 64)) := by
  obtain ⟨hlower, hfile, ⟨fuel, hmarks, hreturned⟩, hle, hin, rfl⟩ := h
  cases fuel with
  | zero => cases hreturned
  | succ fuel =>
    rw [markLoop, if_pos hle, if_pos hin] at hmarks hreturned
    refine ⟨hlower, hfile, fuel, ?_, ?_⟩
    all_goals
      simp only [DiskStack.withTop, bitmapOn_eq]
      assumption

/-- Only a WRITE stores a payload. -/
theorem Solo.unread {n : Nat} (h : Solo pagesize readonly ds₀ r sta top ds (.recv n))
    (hno : r.iotype ≠ .write) :
    ds.lower = ds₀.lower ∧ ds.top.bm = (marks ds₀ r).bm ∧ ds.top.file = top := by
  obtain ⟨hlower, hbm, -, hfile, hwrite | rfl⟩ := h
  · exact absurd hwrite hno
  · refine ⟨hlower, hbm, ?_⟩
    rw [hfile, List.take_zero]
    funext x
    simp [store]

/-- A part of the payload. -/
theorem Solo.recv {n : Nat} (hw : r.iotype = .write)
    (h : Solo pagesize readonly ds₀ r sta top ds (.recv n))
    (hs : workerStep pagesize r ds sent (.recv n) = some (ds', place')) :
    Solo pagesize readonly ds₀ r sta top ds' place' := by
  obtain ⟨hlower, hbm, hn, hfile, -⟩ := h
  simp only [workerStep] at hs
  split at hs
  · rename_i hsent
    have hfile' : (received r ds n sent).1.top.file =
        store top r.start (r.data.take (n + sent.toNat)) := by
      rw [received_top]
      simp only [DiskStack.withTop, hfile]
      have hsplit := store_store top r.start n (r.data.take (n + sent.toNat))
      rw [List.take_take, Nat.min_eq_left (Nat.le_add_right n _), List.drop_take,
        Nat.add_sub_cancel_left] at hsplit
      exact hsplit
    have hrest : (received r ds n sent).1.lower = ds₀.lower ∧
        (received r ds n sent).1.top.bm = (marks ds₀ r).bm := by
      rw [received_top]
      exact ⟨hlower, hbm⟩
    have heq := Option.some.inj hs
    obtain ⟨hcount, hnext⟩ := @received_place _ r ds n sent hn hsent.1 hsent.2
    rw [heq] at hfile' hrest hcount hnext
    obtain ⟨hlower', hbm'⟩ := hrest
    rcases hnext with rfl | rfl | rfl
    · exact ⟨hlower', hbm', by omega, hfile', .inl hw⟩
    · have hwhole : r.data.take (n + sent.toNat) = r.data :=
        List.take_of_length_le (by rw [r.payload hw]; exact hcount)
      rw [hwhole] at hfile'
      exact ⟨hlower', hbm', hfile', hw⟩
    · trivial
  · cases hs

/-- A worker that nobody disturbs comes to what `targetModeMainCow` does. -/
theorem Solo.step (hp : Prepares pagesize ds₀ r mbr sta top) (hw : Writes readonly r)
    (h : Solo pagesize readonly ds₀ r sta top ds place)
    (hs : commandStep pagesize r ds sent place = some (ds', place')) :
    Solo pagesize readonly ds₀ r sta top ds' place' := by
  cases place with
  | recv n =>
    simp only [commandStep] at hs
    split at hs
    · rename_i hio
      exact h.recv hio hs
    · rename_i hio
      cases hs
      obtain ⟨hlower, hbm, hfile⟩ := h.unread (by simp [hio])
      exact ⟨_, hp.served hw hlower hbm hfile (by simp only [cowCommand, hio]; rfl)⟩
    · rename_i hio
      cases hs
      obtain ⟨hlower, hbm, hfile⟩ := h.unread (by simp [hio])
      subst hfile
      exact ⟨⟨false, []⟩, hp.served hw hlower hbm rfl (by simp only [cowCommand, hio]; rfl)⟩
    · cases hs
      trivial
  | mmap =>
    simp only [commandStep, workerStep, hp.mapped] at hs
    cases hs
    exact h
  | testSta =>
    cases hs
    exact ⟨h, by rw [h]⟩
  | testEnd getSta =>
    obtain ⟨rfl, rfl⟩ := h
    cases hs
    rw [← getEndBlock_eq]
    exact solo_tested hp
  | searchSta getEnd =>
    obtain ⟨rfl, hsta, hend⟩ := h
    cases hs
    exact solo_searched fun src hsrc => ⟨rfl, hsta, hend, hsrc⟩
  | copySta src getEnd =>
    obtain ⟨d, hd, hpair⟩ := Option.map_eq_some_iff.mp hs
    cases hpair
    exact h.copySta hp hd
  | searchEnd =>
    obtain ⟨rfl, hend⟩ := h
    cases hs
    exact solo_searched fun src hsrc => ⟨rfl, hend, hsrc⟩
  | copyEnd src =>
    obtain ⟨d, hd, hpair⟩ := Option.map_eq_some_iff.mp hs
    cases hpair
    exact h.copyEnd hp hd
  | load index =>
    rw [commandStep_eq (by simp)] at hs
    exact h.load hs
  | storeWord index word =>
    cases hs
    exact h.storeWord
  | reply =>
    cases hs
    obtain ⟨hlower, hbm, hfile, hio⟩ := h
    obtain ⟨hpos, hlt⟩ := hw.received hio
    have hfin : CheckFin r.iolen (toInt32 r.iolen) := by
      unfold CheckFin
      rw [toInt32_of_range (by omega) (by omega)]
      omega
    refine ⟨⟨true, []⟩, hp.served hw hlower hbm hfile ?_⟩
    simp only [cowCommand, hio, hfin, if_true]
    rfl
  | replied => cases hs
  | ended => cases hs

end Alone

section Turns

variable {pagesize : Nat} {readonly : Bool} {r : Request disksize} {ds₀ ds ds' : DiskStack disksize}
  {s t : Serving disksize} {turn : Turn disksize} {served : List (Request disksize)}

def Worker.atWork : Worker disksize → Bool
  | .works _ _ => true
  | _ => false

/-- Between two requests, or behind the last one. -/
def Worker.atRest : Worker disksize → Bool
  | .idle | .gone => true
  | _ => false

/-- No request comes in while another one is under way. -/
def InTurn (s : Serving disksize) : Turn disksize → Prop
  | .request _ _ => ∀ w ∈ s.workers, w.atWork = false
  | _ => True

instance (s : Serving disksize) : (turn : Turn disksize) → Decidable (InTurn s turn)
  | .request _ _ => inferInstanceAs (Decidable (∀ w ∈ s.workers, w.atWork = false))
  | .accept | .work _ _ | .leave _ | .kill _ => isTrue trivial

/-- The stack that requests make which are carried out one by one. -/
def carriedOut (pagesize : Nat) (readonly : Bool) (ds₀ : DiskStack disksize)
    (served : List (Request disksize)) : DiskStack disksize :=
  served.foldl (stackAfter pagesize readonly) ds₀

/-- Where the workers are with the requests that have come in. -/
inductive InOrder (pagesize : Nat) (readonly : Bool) (ds₀ : DiskStack disksize)
    (served : List (Request disksize)) (s : Serving disksize) : Prop
  | failed (h : .ended ∈ s.workers)
  | resting (hrest : ∀ w ∈ s.workers, w.atRest = true)
      (hds : s.ds = carriedOut pagesize readonly ds₀ served)
  | working (k : Nat) (r : Request disksize) (place : Place) (before : List (Request disksize))
      (mbr : MmapBlockRegion) (sta top : File) (hk : s.workers[k]? = some (.works r place))
      (hrest : ∀ j w, s.workers[j]? = some w → j ≠ k → w.atRest = true)
      (hserved : served = before ++ [r]) (hw : Writes readonly r)
      (hp : Prepares pagesize (carriedOut pagesize readonly ds₀ before) r mbr sta top)
      (hsolo : Solo pagesize readonly (carriedOut pagesize readonly ds₀ before) r sta top s.ds place)

/-- A request that is served finds its range prepared. -/
theorem prepares_of_served {reply : Reply} (hread : r.iotype ≠ .read)
    (h : targetModeMainCow pagesize readonly ds r = .served ds' reply) :
    ∃ mbr sta top, Prepares pagesize ds r mbr sta top := by
  simp only [targetModeMainCow] at h
  split at h
  · cases h
  split at h
  · cases h
  split at h
  · rename_i p hp
    split at h
    · rename_i hreturned
      simp only [diskStackMmapWrite, Option.bind_eq_bind, Option.bind_eq_some_iff] at hp
      obtain ⟨mbr, hmbr, sta, hsta, top, htop, hp⟩ := hp
      cases hp
      exact ⟨mbr, sta, top, hmbr, hsta, htop, hreturned⟩
    · cases h
  · cases h

theorem stackAfter_served {reply : Reply}
    (h : targetModeMainCow pagesize readonly ds r = .served ds' reply) :
    stackAfter pagesize readonly ds r = ds' := by
  simp only [stackAfter, h]

/-- A READ leaves the stack as it is. -/
theorem stackAfter_read (hio : r.iotype = .read) : stackAfter pagesize readonly ds r = ds := by
  simp only [stackAfter, targetModeMainCow, hio]
  cases diskStackMmapRead pagesize ds r <;> simp

theorem carriedOut_concat (r : Request disksize) :
    carriedOut pagesize readonly ds₀ (served ++ [r]) =
      stackAfter pagesize readonly (carriedOut pagesize readonly ds₀ served) r := by
  rw [carriedOut, List.foldl_append]
  rfl

/-- A worker that has ended stays so. -/
theorem step_ended (h : .ended ∈ s.workers) (hs : step pagesize readonly s turn = some t) :
    .ended ∈ t.workers := by
  obtain ⟨j, hj⟩ := List.mem_iff_getElem?.mp h
  have hset : ∀ w next, (s.workers[w]? = some .ended → next = .ended) →
      .ended ∈ s.workers.set w next := by
    intro w next hnext
    apply List.mem_iff_getElem?.mpr
    by_cases hw : w = j
    · subst hw
      have hlt := (List.getElem?_eq_some_iff.mp hj).1
      exact ⟨w, by rw [hnext hj, List.getElem?_set_self hlt]⟩
    · exact ⟨j, by rw [List.getElem?_set_ne hw, hj]⟩
  cases turn with
  | accept =>
    cases hs
    exact List.mem_append_left _ h
  | request w r | leave w =>
    simp only [step] at hs
    split at hs
    · rename_i hidle
      cases hs
      exact hset w _ fun hended => by simp [hidle] at hended
    · cases hs
  | work w sent =>
    simp only [step] at hs
    split at hs
    · rename_i r place hworks
      obtain ⟨p, -, rfl⟩ := Option.map_eq_some_iff.mp hs
      exact hset w _ fun hended => by simp [hworks] at hended
    · cases hs
  | kill w =>
    obtain ⟨_, -, rfl⟩ := Option.map_eq_some_iff.mp hs
    exact hset w _ fun _ => rfl

theorem atRest_set {workers : List (Worker disksize)} {k : Nat} {next : Worker disksize}
    (h : ∀ j w, workers[j]? = some w → j ≠ k → w.atRest = true) (hnext : next.atRest = true) :
    ∀ w ∈ workers.set k next, w.atRest = true := by
  intro w hw
  obtain ⟨j, hj⟩ := List.mem_iff_getElem?.mp hw
  exact forall_set (P := fun _ w => w.atRest = true) (fun j w hj hne => h j w hj hne) hnext j w hj

/-- A request comes in while no other one is under way. -/
theorem InOrder.request (hrest : ∀ w ∈ s.workers, w.atRest = true)
    (hds : s.ds = carriedOut pagesize readonly ds₀ served) (hr : Served r)
    (hm : Mappable disksize readonly r) {w : Nat} (hw : s.workers[w]? = some .idle) :
    InOrder pagesize readonly ds₀ (served ++ [r])
      { s with workers := s.workers.set w (begun pagesize readonly s.ds r) } := by
  have hothers : ∀ j v, s.workers[j]? = some v → j ≠ w → v.atRest = true :=
    fun _ _ hj _ => hrest _ (List.mem_of_getElem? hj)
  have hlt := (List.getElem?_eq_some_iff.mp hw).1
  obtain ⟨htype, -, hlen⟩ := id hr
  have hplain : ¬(r.iotype = .readCompress ∨ r.iotype = .readCompressLzo) := by
    rcases htype with h | h | h <;> simp [h]
  rw [begun, if_neg (not_refused hm.writable), if_neg hplain]
  obtain ⟨ds', reply, hserved⟩ := targetModeMainCow_serves pagesize s.ds hr hm
  split
  · rename_i hread
    split
    · refine .resting (atRest_set hothers rfl) ?_
      rw [carriedOut_concat, stackAfter_read hread]
      exact hds
    · exact .failed (List.mem_set hlt _)
  · rename_i hread
    obtain ⟨mbr, sta, top, hp⟩ := prepares_of_served hread hserved
    have hwrites : Writes readonly r :=
      ⟨(htype.resolve_left hread).imp_right .inl, hm.writable, fun hio => ⟨hlen, hm.received hio⟩⟩
    rw [hds] at hp
    refine .working w r .mmap served mbr sta top (List.getElem?_set_self hlt) ?_ rfl hwrites hp hds
    intro j v hj hne
    exact hothers j v (by rwa [List.getElem?_set_ne hne.symm] at hj) hne

/-- A step of the worker that is at work. -/
theorem InOrder.work {k : Nat} {r : Request disksize} {place place' : Place}
    {before : List (Request disksize)} {mbr : MmapBlockRegion} {sta top : File} {sent : Int}
    (hk : s.workers[k]? = some (.works r place))
    (hrest : ∀ j w, s.workers[j]? = some w → j ≠ k → w.atRest = true) (hw : Writes readonly r)
    (hp : Prepares pagesize (carriedOut pagesize readonly ds₀ before) r mbr sta top)
    (hsolo : Solo pagesize readonly (carriedOut pagesize readonly ds₀ before) r sta top s.ds place)
    (hs : commandStep pagesize r s.ds sent place = some (ds', place')) :
    InOrder pagesize readonly ds₀ (before ++ [r]) ⟨ds', s.workers.set k (.at r place')⟩ := by
  have hlt := (List.getElem?_eq_some_iff.mp hk).1
  have hnext := hsolo.step hp hw hs
  have hworks : Worker.at r place' = .works r place' →
      InOrder pagesize readonly ds₀ (before ++ [r]) ⟨ds', s.workers.set k (.at r place')⟩ := by
    intro hat
    rw [hat]
    refine .working k r place' before mbr sta top (List.getElem?_set_self hlt) ?_ rfl hw hp hnext
    intro j v hj hne
    exact hrest j v (by rwa [List.getElem?_set_ne hne.symm] at hj) hne
  cases place' with
  | replied =>
    obtain ⟨reply, hserved⟩ := hnext
    refine .resting (atRest_set hrest rfl) ?_
    rw [carriedOut_concat, stackAfter_served hserved]
  | ended => exact .failed (List.mem_set hlt _)
  | _ => exact hworks rfl

/-- A step where no worker is at work. -/
theorem resting_step (hrest : ∀ w ∈ s.workers, w.atRest = true)
    (hds : s.ds = carriedOut pagesize readonly ds₀ served)
    (hok : ∀ r ∈ requestsOf [turn], Served r ∧ Mappable disksize readonly r)
    (hs : step pagesize readonly s turn = some t) :
    InOrder pagesize readonly ds₀ (served ++ requestsOf [turn]) t := by
  cases turn with
  | accept =>
    cases hs
    refine .resting (fun w hw => ?_) (by rw [hds, requestsOf_accept, List.append_nil])
    rcases List.mem_append.mp hw with hw | hw
    · exact hrest w hw
    · rw [List.mem_singleton.mp hw]
      rfl
  | request w r =>
    simp only [step] at hs
    split at hs
    · rename_i hidle
      cases hs
      obtain ⟨hr, hm⟩ := hok r (List.mem_singleton_self r)
      exact .request hrest hds hr hm hidle
    · cases hs
  | work w sent =>
    simp only [step] at hs
    split at hs
    · rename_i r place hworks
      have hatRest := hrest _ (List.mem_of_getElem? hworks)
      cases hatRest
    · cases hs
  | leave w =>
    simp only [step] at hs
    split at hs
    · cases hs
      refine .resting (atRest_set (fun _ _ hj _ => hrest _ (List.mem_of_getElem? hj)) rfl) ?_
      rw [hds, requestsOf_leave, List.append_nil]
    · cases hs
  | kill w =>
    obtain ⟨v, hv, rfl⟩ := Option.map_eq_some_iff.mp hs
    exact .failed (List.mem_set (List.getElem?_eq_some_iff.mp hv).1 _)

/-- A step where worker `k` is at work. -/
theorem working_step {k : Nat} {r : Request disksize} {place : Place}
    {before : List (Request disksize)} {mbr : MmapBlockRegion} {sta top : File}
    (hk : s.workers[k]? = some (.works r place))
    (hrest : ∀ j w, s.workers[j]? = some w → j ≠ k → w.atRest = true) (hw : Writes readonly r)
    (hp : Prepares pagesize (carriedOut pagesize readonly ds₀ before) r mbr sta top)
    (hsolo : Solo pagesize readonly (carriedOut pagesize readonly ds₀ before) r sta top s.ds place)
    (hturn : InTurn s turn) (hs : step pagesize readonly s turn = some t) :
    InOrder pagesize readonly ds₀ (before ++ [r] ++ requestsOf [turn]) t := by
  have hlt := (List.getElem?_eq_some_iff.mp hk).1
  cases turn with
  | accept =>
    cases hs
    rw [requestsOf_accept, List.append_nil]
    refine .working k r place before mbr sta top ?_ ?_ rfl hw hp hsolo
    · rw [List.getElem?_append_left hlt, hk]
    · exact forall_append (P := fun j (w : Worker disksize) => j ≠ k → w.atRest = true) hrest
        fun _ => rfl
  | request w r' =>
    have hatWork := hturn _ (List.mem_of_getElem? hk)
    cases hatWork
  | work w sent =>
    rw [requestsOf_work, List.append_nil]
    simp only [step] at hs
    split at hs
    · rename_i r' place' hworks
      have hwk : w = k := by
        by_contra hne
        have hatRest := hrest w _ hworks hne
        cases hatRest
      subst hwk
      rw [hk] at hworks
      cases hworks
      obtain ⟨p, hcommand, rfl⟩ := Option.map_eq_some_iff.mp hs
      exact .work hk hrest hw hp hsolo hcommand
    · cases hs
  | leave w =>
    rw [requestsOf_leave, List.append_nil]
    simp only [step] at hs
    split at hs
    · rename_i hidle
      have hwk : w ≠ k := by
        rintro rfl
        rw [hk] at hidle
        cases hidle
      cases hs
      refine .working k r place before mbr sta top ?_ ?_ rfl hw hp hsolo
      · rw [List.getElem?_set_ne hwk, hk]
      · exact forall_set (P := fun j (w : Worker disksize) => j ≠ k → w.atRest = true)
          (fun j v hj _ => hrest j v hj) fun _ => rfl
    · cases hs
  | kill w =>
    obtain ⟨v, hv, rfl⟩ := Option.map_eq_some_iff.mp hs
    exact .failed (List.mem_set (List.getElem?_eq_some_iff.mp hv).1 _)

theorem step_inOrder (h : InOrder pagesize readonly ds₀ served s) (hturn : InTurn s turn)
    (hok : ∀ r ∈ requestsOf [turn], Served r ∧ Mappable disksize readonly r)
    (hs : step pagesize readonly s turn = some t) :
    InOrder pagesize readonly ds₀ (served ++ requestsOf [turn]) t := by
  cases h with
  | failed hended => exact .failed (step_ended hended hs)
  | resting hrest hds => exact resting_step hrest hds hok hs
  | working k r place before mbr sta top hk hrest hserved hw hp hsolo =>
    rw [hserved]
    exact working_step hk hrest hw hp hsolo hturn hs

theorem run_inOrder {log : List (Turn disksize)} (h : InOrder pagesize readonly ds₀ served s)
    (hturn : Along (step pagesize readonly) InTurn s log)
    (hok : ∀ r ∈ requestsOf log, Served r ∧ Mappable disksize readonly r)
    (hrun : run (step pagesize readonly) s log = some t) :
    InOrder pagesize readonly ds₀ (served ++ requestsOf log) t := by
  induction log generalizing s served with
  | nil =>
    cases hrun
    rw [requestsOf_nil, List.append_nil]
    exact h
  | cons turn rest ih =>
    obtain ⟨m, hm, hrest⟩ := run_cons_some hrun
    rw [requestsOf_cons, List.forall_mem_append] at hok
    rw [requestsOf_cons, ← List.append_assoc]
    exact ih (step_inOrder h hturn.1 hok.1 hm) (hturn.2 m hm) hok.2 hrest

/-- Requests that do not overlap are carried out one by one. -/
theorem run_inTurn {log : List (Turn disksize)}
    (hrun : run (step pagesize readonly) ⟨ds₀, []⟩ log = some s)
    (hturn : Along (step pagesize readonly) InTurn ⟨ds₀, []⟩ log)
    (hok : ∀ r ∈ requestsOf log, Served r ∧ Mappable disksize readonly r)
    (hrest : ∀ w ∈ s.workers, w.atRest = true) :
    s.ds = carriedOut pagesize readonly ds₀ (requestsOf log) := by
  have hstart : InOrder pagesize readonly ds₀ [] ⟨ds₀, []⟩ := .resting (by simp) rfl
  have hend := run_inOrder hstart hturn hok hrun
  rw [List.nil_append] at hend
  cases hend with
  | failed hended => cases hrest _ hended
  | resting _ hds => exact hds
  | working k r place before mbr sta top hk =>
    have hatRest := hrest _ (List.mem_of_getElem? hk)
    cases hatRest

/-- Requests that are served one by one act on what the stack shows as on a flat disk. -/
theorem carriedOut_logical {disk : File} (hsame : ∀ x < disksize, ds₀.logical x = disk x)
    (hserved : ∀ r ∈ served, Served r ∧ Mappable disksize readonly r) {x : Nat}
    (hx : x < disksize) :
    (carriedOut pagesize readonly ds₀ served).logical x = flatRun disk served x := by
  induction served generalizing ds₀ disk with
  | nil => exact hsame x hx
  | cons r rest ih =>
    simp only [List.mem_cons, forall_eq_or_imp] at hserved
    obtain ⟨ds', reply, hround⟩ := targetModeMainCow_serves pagesize ds₀ hserved.1.1 hserved.1.2
    obtain ⟨hlogical, -, -⟩ := targetModeMainCow_refines hserved.1.1 hround
    have hsame' : ∀ y < disksize, ds'.logical y = flatStep disk r y := by
      intro y hy
      rw [hlogical y hy]
      exact flatStep_congr r (hsame y hy)
    rw [carriedOut, List.foldl_cons, stackAfter_served hround]
    exact ih hsame' hserved.2

end Turns

end Xnbd.CowWorkers
