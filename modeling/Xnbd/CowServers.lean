import Mathlib.Logic.Function.Basic
import Xnbd.BitmapReuse
import Xnbd.CowWorkers

/-!
# Copy-on-write servers over one base image (`xnbd_target_cow_lzo.c`)

Any number of `xnbd-server --cow-target` may be started over the same base image. Each
looks for a number that is not taken by creating its layer file with `O_EXCL`, and takes
whatever bitmap file has the name that goes with the number. On the way out a server
unlinks the layer file before the bitmap file, so another one may come in between, and a
server that is killed leaves both behind. While a server serves, its workers take turns
in any order.
-/
namespace Xnbd.CowServers

open Block Bitmap Bytes Nbd Requests FlatDisk CowDisk CowRefine BitmapReuse Run Places
open CowWorkers (Worker Serving Turn InTurn requestsOf stack_ext run_lower run_inTurn
  carriedOut_logical)

variable {disksize : Nat}

section Model

/-- The base image. It is opened with `O_RDONLY`. -/
structure Base (disksize : Nat) where
  file : File
  size_pos : 0 < disksize
  size_max : disksize ≤ offMax

/-- `get_filled_readonly_buffer`. -/
def filled (disksize : Nat) : Words :=
  List.replicate (bitsToLongs (getDiskNblocks disksize)) (BitVec.allOnes 64)

theorem bitmapTest_filled {b : Nat} (hb : b < getDiskNblocks disksize) :
    bitmapTest (filled disksize) b = true := by
  have hin : b / 64 < bitsToLongs (getDiskNblocks disksize) := by
    unfold bitsToLongs
    omega
  rw [bitmapTest_eq, filled, List.getD_eq_getElem?_getD, List.getElem?_replicate_of_lt hin,
    Option.getD_some, BitVec.getLsbD_allOnes]
  exact decide_eq_true (Nat.mod_lt _ (by decide))

/-- `create_disk_stack` and one `disk_stack_add_layer`. -/
def Base.stack (base : Base disksize) (top : DiskImage)
    (h : top.bm.length = bitsToLongs (getDiskNblocks disksize)) : DiskStack disksize where
  lower := [⟨base.file, filled disksize⟩]
  top := top
  size_pos := base.size_pos
  size_max := base.size_max
  lower_ne := List.cons_ne_nil _ _
  layers_le := (by decide : 2 ≤ maxDiskimagestack)
  top_words := h
  lower_words := by simp [filled]
  base_full := fun _ hb => bitmapTest_filled hb

structure Config (disksize : Nat) where
  pagesize : Nat
  base : Base disksize
  /-- Which server has been started with `--readonly`. -/
  readonly : Nat → Bool

/-- A master server and its workers. Files are named by their inodes and paths by the number
in them. -/
inductive Server (disksize : Nat) where
  /-- Before the `open` with `O_EXCL`. -/
  | searching (cowid : Nat)
  /-- Before `bitmap_open_file`. -/
  | created (cowid image : Nat)
  /-- Behind the `open` of `bitmap_open_file`. -/
  | bitmapOpened (cowid image bitmap : Nat)
  /-- With the turns of its workers so far. -/
  | serving (cowid image bitmap : Nat) (workers : List (Worker disksize))
      (log : List (Turn disksize))
  /-- Before `unlink(di->path)`; the workers have been waited for. -/
  | unmapped (cowid : Nat)
  /-- Before `unlink(di->bmpath)`. -/
  | unlinked (cowid : Nat)
  | closed
  /-- `err()`. -/
  | aborted

structure State (disksize : Nat) where
  images : Nat → File
  bitmaps : Nat → Words
  /-- The entries `.cow%d.layer1` of the directory. -/
  imageNames : Nat → Option Nat
  /-- The entries `.cow%d.layer1.bm`. -/
  bitmapNames : Nat → Option Nat
  /-- The first inode that has never been used. -/
  inodes : Nat
  servers : List (Server disksize)

inductive Act (disksize : Nat) where
  | start
  | openImage (k : Nat)
  | openBitmap (k : Nat)
  | mapBitmap (k : Nat)
  /-- A turn of a worker of server `k`. -/
  | turn (k : Nat) (turn : Turn disksize)
  | shutdown (k : Nat)
  | unlinkImage (k : Nat)
  | unlinkBitmap (k : Nat)
  | kill (k : Nat)

/-- The stack behind an open layer. -/
def stackOf (base : Base disksize) (image : File) (bitmap : Words) : Option (DiskStack disksize) :=
  if h : bitmap.length = bitsToLongs (getDiskNblocks disksize) then
    some (base.stack ⟨image, bitmap⟩ h)
  else none

/-- Server `k` goes on to `next`. -/
def State.goTo (s : State disksize) (k : Nat) (next : Server disksize) : State disksize :=
  { s with servers := s.servers.set k next }

/-- A step of server `k`. -/
def serverStep (s : State disksize) (k : Nat) (next : Server disksize → Option (State disksize)) :
    Option (State disksize) :=
  (s.servers[k]?).bind next

def step (cfg : Config disksize) (s : State disksize) : Act disksize → Option (State disksize)
  | .start => some { s with servers := s.servers ++ [.searching 0] }
  | .openImage k => serverStep s k fun
    | .searching cowid =>
      match s.imageNames cowid with
      -- `EEXIST`
      | some _ => some (s.goTo k (.searching (cowid + 1)))
      -- `ftruncate` lets the new file read as zero up to its size
      | none =>
        some { s with
          images := Function.update s.images s.inodes fun _ => 0
          imageNames := Function.update s.imageNames cowid (some s.inodes)
          inodes := s.inodes + 1
          servers := s.servers.set k (.created cowid s.inodes) }
    | _ => none
  | .openBitmap k => serverStep s k fun
    | .created cowid image =>
      match s.bitmapNames cowid with
      -- a file that another server has left or has not unlinked yet
      | some bitmap => some (s.goTo k (.bitmapOpened cowid image bitmap))
      | none =>
        some { s with
          bitmaps := Function.update s.bitmaps s.inodes []
          bitmapNames := Function.update s.bitmapNames cowid (some s.inodes)
          inodes := s.inodes + 1
          servers := s.servers.set k (.bitmapOpened cowid image s.inodes) }
    | _ => none
  | .mapBitmap k => serverStep s k fun
    | .bitmapOpened cowid image bitmap =>
      match bitmapOpenFile (s.bitmaps bitmap) (getDiskNblocks disksize) false true with
      | .opened bm =>
        some { s with
          bitmaps := Function.update s.bitmaps bitmap bm
          servers := s.servers.set k (.serving cowid image bitmap [] []) }
      | .null | .denied => some (s.goTo k .aborted)
    | _ => none
  | .turn k turn => serverStep s k fun
    | .serving cowid image bitmap workers log =>
      (stackOf cfg.base (s.images image) (s.bitmaps bitmap)).bind fun ds =>
        (CowWorkers.step cfg.pagesize (cfg.readonly k) ⟨ds, workers⟩ turn).map fun after =>
          { s with
            images := Function.update s.images image after.ds.top.file
            bitmaps := Function.update s.bitmaps bitmap after.ds.top.bm
            servers := s.servers.set k (.serving cowid image bitmap after.workers (log ++ [turn])) }
    | _ => none
  | .shutdown k => serverStep s k fun
    | .serving cowid _ _ workers _ =>
      if ∀ w ∈ workers, w.atWork = false then some (s.goTo k (.unmapped cowid)) else none
    | _ => none
  | .unlinkImage k => serverStep s k fun
    | .unmapped cowid =>
      match s.imageNames cowid with
      | some _ =>
        some { s with
          imageNames := Function.update s.imageNames cowid none
          servers := s.servers.set k (.unlinked cowid) }
      | none => some (s.goTo k .aborted)
    | _ => none
  | .unlinkBitmap k => serverStep s k fun
    | .unlinked cowid =>
      match s.bitmapNames cowid with
      | some _ =>
        some { s with
          bitmapNames := Function.update s.bitmapNames cowid none
          servers := s.servers.set k .closed }
      | none => some (s.goTo k .aborted)
    | _ => none
  | .kill k => serverStep s k fun _ => some (s.goTo k .closed)

/-- A directory without layers. -/
def start : State disksize where
  images := fun _ _ => 0
  bitmaps := fun _ => []
  imageNames := fun _ => none
  bitmapNames := fun _ => none
  inodes := 0
  servers := []

/-- The stack of a new server. -/
def Base.fresh (base : Base disksize) : DiskStack disksize :=
  base.stack ⟨fun _ => 0, List.replicate (bitsToLongs (getDiskNblocks disksize)) 0⟩
    (List.length_replicate ..)

/-- What the turns make of the stack of a server that is alone in the world. -/
def alone (cfg : Config disksize) (k : Nat) (log : List (Turn disksize)) :
    Option (Serving disksize) :=
  run (CowWorkers.step cfg.pagesize (cfg.readonly k)) ⟨cfg.base.fresh, []⟩ log

/-- The requests of the clients of server `k` do not overlap. -/
def OneByOne (cfg : Config disksize) (k : Nat) (log : List (Turn disksize)) : Prop :=
  Along (CowWorkers.step cfg.pagesize (cfg.readonly k)) InTurn ⟨cfg.base.fresh, []⟩ log

instance (cfg : Config disksize) (k : Nat) (log : List (Turn disksize)) :
    Decidable (OneByOne cfg k log) :=
  inferInstanceAs (Decidable (Along _ _ _ log))

end Model

section Stacks

variable {base : Base disksize} {ds : DiskStack disksize}

/-- What a server has open is its stack. -/
theorem stackOf_top (h : ds.lower = base.fresh.lower) :
    stackOf base ds.top.file ds.top.bm = some ds := by
  rw [stackOf, dif_pos ds.top_words]
  exact congrArg some (stack_ext h.symm rfl)

theorem alone_lower {cfg : Config disksize} {k : Nat} {log : List (Turn disksize)}
    {s : Serving disksize} (h : alone cfg k log = some s) :
    s.ds.lower = cfg.base.fresh.lower :=
  run_lower h

theorem alone_concat {cfg : Config disksize} {k : Nat} {log : List (Turn disksize)}
    {s t : Serving disksize} {turn : Turn disksize} (h : alone cfg k log = some s)
    (ht : CowWorkers.step cfg.pagesize (cfg.readonly k) s turn = some t) :
    alone cfg k (log ++ [turn]) = some t :=
  run_join h (run_step ht [])

/-- A new server shows the base image. -/
theorem fresh_logical (base : Base disksize) {x : Nat} (hx : x < disksize) :
    base.fresh.logical x = base.file x := by
  have hpos := base.size_pos
  have hblock : x / cblocksize < getDiskNblocks disksize := by
    unfold getDiskNblocks cblocksize
    split <;> omega
  have hlayer : base.fresh.findLayer (x / cblocksize) = some ⟨base.file, filled disksize⟩ := by
    simp only [DiskStack.findLayer, Base.fresh, Base.stack, List.reverse_cons, List.reverse_nil,
      List.nil_append, List.find?_cons, bitmapTest_replicate, bitmapTest_filled hblock]
  exact logical_of_layer _ hlayer

/-- Requests that do not overlap act on what a server alone shows as on a flat disk. -/
theorem alone_logical {cfg : Config disksize} {k : Nat} {log : List (Turn disksize)}
    {s : Serving disksize} (h : alone cfg k log = some s) (hturn : OneByOne cfg k log)
    (hserved : ∀ r ∈ requestsOf log, Served r ∧ Mappable disksize (cfg.readonly k) r)
    (hrest : ∀ w ∈ s.workers, w.atRest = true) {x : Nat} (hx : x < disksize) :
    s.ds.logical x = flatRun cfg.base.file (requestsOf log) x := by
  rw [run_inTurn h hturn hserved hrest]
  exact carriedOut_logical (fun y hy => fresh_logical cfg.base hy) hserved hx

end Stacks

section Places

/-- The number that the server holds. Its layer file has been created and not unlinked. -/
def Server.cowid : Server disksize → Option Nat
  | .created cowid _ | .bitmapOpened cowid _ _ | .serving cowid _ _ _ _ | .unmapped cowid => some cowid
  | _ => none

/-- The inodes of the files that the server has open. -/
def Server.files : Server disksize → List Nat
  | .created _ image => [image]
  | .bitmapOpened _ image bitmap | .serving _ image bitmap _ _ => [image, bitmap]
  | _ => []

/-- What the files of server `k` hold. -/
def Contents (cfg : Config disksize) (s : State disksize) (k : Nat) : Server disksize → Prop
  | .created _ image | .bitmapOpened _ image _ => s.images image = fun _ => 0
  | .serving _ image bitmap workers log =>
    ∃ ds, stackOf cfg.base (s.images image) (s.bitmaps bitmap) = some ds ∧
      alone cfg k log = some ⟨ds, workers⟩
  | _ => True

/-- Which server holds a number, and for which number an inode has been created. -/
structure Ghost where
  holder : Nat → Nat
  home : Nat → Nat

structure Place (cfg : Config disksize) (s : State disksize) (g : Ghost) (k : Nat)
    (server : Server disksize) : Prop where
  held : ∀ c ∈ server.cowid, g.holder c = k ∧ (s.imageNames c).isSome
  files : ∀ i ∈ server.files, i < s.inodes ∧ server.cowid = some (g.home i)
  contents : Contents cfg s k server

variable {cfg : Config disksize} {s t : State disksize} {g g' : Ghost} {k j : Nat}
  {server other : Server disksize}

/-- A server that holds no number has no file open. -/
theorem Place.idle (hcowid : server.cowid = none) (hfiles : server.files = [])
    (hcontents : Contents cfg s k server) : Place cfg s g k server :=
  ⟨by simp [hcowid], by simp [hfiles], hcontents⟩

/-- Nothing changes that the server has. -/
theorem Place.frame (h : Place cfg s g j other)
    (hheld : ∀ c ∈ other.cowid, g'.holder c = g.holder c ∧ t.imageNames c = s.imageNames c)
    (hfiles : ∀ i ∈ other.files,
      g'.home i = g.home i ∧ t.images i = s.images i ∧ t.bitmaps i = s.bitmaps i)
    (hinodes : s.inodes ≤ t.inodes) : Place cfg t g' j other where
  held := by
    intro c hc
    rw [(hheld c hc).1, (hheld c hc).2]
    exact h.held c hc
  files := by
    intro i hi
    rw [(hfiles i hi).1]
    exact ⟨Nat.lt_of_lt_of_le (h.files i hi).1 hinodes, (h.files i hi).2⟩
  contents := by
    have hcontents := h.contents
    cases other with
    | created c i | bitmapOpened c i b =>
      simp only [Contents, Server.files, List.mem_cons, forall_eq_or_imp] at hcontents hfiles ⊢
      rw [hfiles.1.2.1]
      exact hcontents
    | serving c i b workers log =>
      simp only [Contents, Server.files, List.mem_cons, forall_eq_or_imp] at hcontents hfiles ⊢
      rw [hfiles.1.2.1, hfiles.2.1.2.2]
      exact hcontents
    | searching _ | unmapped _ | unlinked _ | closed | aborted => trivial

/-- Two servers hold different numbers. -/
theorem Place.apart (h : Place cfg s g k server) (hother : Place cfg s g j other) (hne : j ≠ k)
    {c : Nat} (hc : c ∈ server.cowid) : c ∉ other.cowid := by
  intro hmem
  exact hne ((hother.held c hmem).1.symm.trans (h.held c hc).1)

/-- Two servers have no open file in common. -/
theorem Place.disjoint (h : Place cfg s g k server) (hother : Place cfg s g j other) (hne : j ≠ k)
    {i : Nat} (hi : i ∈ server.files) : i ∉ other.files := by
  intro hmem
  exact h.apart hother hne (h.files i hi).2 (hother.files i hmem).2

/-- A server of which nothing is known but its own place, after a step of another one. -/
structure Inv (cfg : Config disksize) (s : State disksize) (g : Ghost) : Prop where
  bitmapNames : ∀ c b, s.bitmapNames c = some b → b < s.inodes ∧ g.home b = c
  places : ∀ k server, s.servers[k]? = some server → Place cfg s g k server

theorem inv_start (cfg : Config disksize) : Inv cfg start ⟨id, id⟩ where
  bitmapNames := by simp [start]
  places := by simp [start]

/-- A server goes on with the files it has, or without them. -/
theorem Inv.goTo (h : Inv cfg s g) {next : Server disksize} (hnext : Place cfg s g k next) :
    Inv cfg (s.goTo k next) g where
  bitmapNames := h.bitmapNames
  places := by
    refine forall_set (fun j other hj _ => ?_) ?_
    · exact (h.places j other hj).frame (fun _ _ => ⟨rfl, rfl⟩) (fun _ _ => ⟨rfl, rfl, rfl⟩) (Nat.le_refl _)
    · exact hnext.frame (fun _ _ => ⟨rfl, rfl⟩) (fun _ _ => ⟨rfl, rfl, rfl⟩) (Nat.le_refl _)

end Places

section Steps

variable {cfg : Config disksize} {s t : State disksize} {g g' : Ghost} {k : Nat}
  {server next : Server disksize}

/-- A step of server `k` that keeps away from what the others hold. -/
theorem Inv.change (h : Inv cfg s g) (hk : s.servers[k]? = some server)
    (hservers : t.servers = s.servers.set k next)
    (hbitmapNames : ∀ c b, t.bitmapNames c = some b → b < t.inodes ∧ g'.home b = c)
    (hheld : ∀ c, (s.imageNames c).isSome → c ∉ server.cowid →
      g'.holder c = g.holder c ∧ t.imageNames c = s.imageNames c)
    (hfiles : ∀ i < s.inodes, i ∉ server.files →
      g'.home i = g.home i ∧ t.images i = s.images i ∧ t.bitmaps i = s.bitmaps i)
    (hinodes : s.inodes ≤ t.inodes) (hnext : Place cfg t g' k next) : Inv cfg t g' where
  bitmapNames := hbitmapNames
  places := by
    rw [hservers]
    refine forall_set (fun j other hj hne => ?_) hnext
    have hplace := h.places k server hk
    have hother := h.places j other hj
    refine hother.frame (fun c hc => ?_) (fun i hi => ?_) hinodes
    · exact hheld c (hother.held c hc).2 fun hmem => hplace.apart hother hne hmem hc
    · exact hfiles i (hother.files i hi).1 fun hmem => hplace.disjoint hother hne hmem hi

/-- The number was free, so nobody holds it. -/
theorem Inv.openImage (h : Inv cfg s g) {c : Nat} (hk : s.servers[k]? = some (.searching c))
    (hfree : s.imageNames c = none) :
    ∃ g', Inv cfg { s with
      images := Function.update s.images s.inodes fun _ => 0
      imageNames := Function.update s.imageNames c (some s.inodes)
      inodes := s.inodes + 1
      servers := s.servers.set k (.created c s.inodes) } g' := by
  refine ⟨⟨Function.update g.holder c k, Function.update g.home s.inodes c⟩,
    h.change hk rfl ?_ ?_ ?_ (Nat.le_succ _) ?_⟩
  · intro d b hb
    obtain ⟨hlt, hhome⟩ := h.bitmapNames d b hb
    exact ⟨Nat.lt_succ_of_lt hlt, (Function.update_of_ne (Nat.ne_of_lt hlt) ..).trans hhome⟩
  · intro d hd _
    have hne : d ≠ c := fun heq => by simp [heq, hfree] at hd
    exact ⟨Function.update_of_ne hne .., Function.update_of_ne hne ..⟩
  · intro i hi _
    have hne := Nat.ne_of_lt hi
    exact ⟨Function.update_of_ne hne .., Function.update_of_ne hne .., rfl⟩
  · refine ⟨?_, ?_, Function.update_self ..⟩
    · intro d hd
      cases hd
      exact ⟨Function.update_self .., by simp⟩
    · intro i hi
      cases List.mem_singleton.mp hi
      exact ⟨Nat.lt_succ_self _, by simp [Server.cowid]⟩

theorem Inv.openBitmap_new (h : Inv cfg s g) {c i : Nat} (hk : s.servers[k]? = some (.created c i)) :
    ∃ g', Inv cfg { s with
      bitmaps := Function.update s.bitmaps s.inodes []
      bitmapNames := Function.update s.bitmapNames c (some s.inodes)
      inodes := s.inodes + 1
      servers := s.servers.set k (.bitmapOpened c i s.inodes) } g' := by
  have hplace := h.places k _ hk
  obtain ⟨hi, hhome⟩ := hplace.files i (List.mem_singleton_self i)
  refine ⟨⟨g.holder, Function.update g.home s.inodes c⟩,
    h.change hk rfl ?_ (fun _ _ _ => ⟨rfl, rfl⟩) ?_ (Nat.le_succ _) ?_⟩
  · intro d b hb
    by_cases hd : d = c
    · subst hd
      cases (Function.update_self ..).symm.trans hb
      exact ⟨Nat.lt_succ_self _, Function.update_self ..⟩
    · replace hb : s.bitmapNames d = some b := (Function.update_of_ne hd ..).symm.trans hb
      obtain ⟨hlt, hhome⟩ := h.bitmapNames d b hb
      exact ⟨Nat.lt_succ_of_lt hlt, (Function.update_of_ne (Nat.ne_of_lt hlt) ..).trans hhome⟩
  · intro j hj _
    have hne := Nat.ne_of_lt hj
    exact ⟨Function.update_of_ne hne .., rfl, Function.update_of_ne hne ..⟩
  · refine ⟨hplace.held, ?_, hplace.contents⟩
    simp only [Server.files, List.mem_cons, forall_eq_or_imp]
    refine ⟨⟨Nat.lt_succ_of_lt hi, ?_⟩, ⟨Nat.lt_succ_self _, ?_⟩, by simp⟩
    · rw [Function.update_of_ne (Nat.ne_of_lt hi)]
      exact hhome
    · rw [Function.update_self]
      rfl

/-- The bitmap file that is there belongs to the number. -/
theorem Inv.openBitmap_old (h : Inv cfg s g) {c i b : Nat} (hk : s.servers[k]? = some (.created c i))
    (hb : s.bitmapNames c = some b) : Inv cfg (s.goTo k (.bitmapOpened c i b)) g := by
  have hplace := h.places k _ hk
  obtain ⟨hlt, hhome⟩ := h.bitmapNames c b hb
  refine h.goTo ⟨hplace.held, ?_, hplace.contents⟩
  simp only [Server.files, List.mem_cons, forall_eq_or_imp]
  exact ⟨hplace.files i (List.mem_singleton_self i), ⟨hlt, by rw [hhome]; rfl⟩, by simp⟩

/-- Whatever is in the file, the bitmap that is mapped is clear. -/
theorem bitmapOpenFile_clear {file bm : Words} {nbits : Nat}
    (h : bitmapOpenFile file nbits false true = .opened bm) :
    bm = List.replicate (bitsToLongs nbits) 0 := by
  simp only [bitmapOpenFile] at h
  split at h
  · cases h
  split at h
  · split at h
    · cases h
    split at h
    · cases h
    · cases h
      rfl
  · cases h
    rfl

theorem Inv.mapBitmap (h : Inv cfg s g) {c i b : Nat}
    (hk : s.servers[k]? = some (.bitmapOpened c i b)) {bm : Words}
    (hbm : bm = List.replicate (bitsToLongs (getDiskNblocks disksize)) 0) :
    Inv cfg { s with
      bitmaps := Function.update s.bitmaps b bm
      servers := s.servers.set k (.serving c i b [] []) } g := by
  subst hbm
  have hplace := h.places k _ hk
  refine h.change hk rfl h.bitmapNames (fun _ _ _ => ⟨rfl, rfl⟩) ?_ (Nat.le_refl _) ?_
  · intro j _ hj
    simp only [Server.files, List.mem_cons, not_or] at hj
    exact ⟨rfl, rfl, Function.update_of_ne hj.2.1 ..⟩
  · refine ⟨hplace.held, hplace.files, ?_⟩
    have hblank : s.images i = fun _ => 0 := hplace.contents
    simp only [Contents, Function.update_self, hblank]
    exact ⟨cfg.base.fresh, @stackOf_top _ cfg.base cfg.base.fresh rfl, rfl⟩

/-- A turn of a worker of server `k` reaches the files of server `k`. -/
theorem Inv.turn (h : Inv cfg s g) {c i b : Nat} {workers : List (Worker disksize)}
    {log : List (Turn disksize)} (hk : s.servers[k]? = some (.serving c i b workers log))
    {ds : DiskStack disksize}
    (hds : stackOf cfg.base (s.images i) (s.bitmaps b) = some ds) {turn : Turn disksize}
    {after : Serving disksize}
    (hafter : CowWorkers.step cfg.pagesize (cfg.readonly k) ⟨ds, workers⟩ turn = some after) :
    Inv cfg { s with
      images := Function.update s.images i after.ds.top.file
      bitmaps := Function.update s.bitmaps b after.ds.top.bm
      servers := s.servers.set k (.serving c i b after.workers (log ++ [turn])) } g := by
  have hplace := h.places k _ hk
  obtain ⟨ds', hds', halone⟩ :
      ∃ ds', stackOf cfg.base (s.images i) (s.bitmaps b) = some ds' ∧
        alone cfg k log = some ⟨ds', workers⟩ := hplace.contents
  rw [hds] at hds'
  cases hds'
  have hnext := alone_concat halone hafter
  refine h.change hk rfl h.bitmapNames (fun _ _ _ => ⟨rfl, rfl⟩) ?_ (Nat.le_refl _) ?_
  · intro j _ hj
    simp only [Server.files, List.mem_cons, not_or] at hj
    exact ⟨rfl, Function.update_of_ne hj.1 .., Function.update_of_ne hj.2.1 ..⟩
  · refine ⟨hplace.held, hplace.files, after.ds, ?_, hnext⟩
    simp only [Function.update_self]
    exact stackOf_top (alone_lower hnext)

theorem Inv.unlinkImage (h : Inv cfg s g) {c : Nat} (hk : s.servers[k]? = some (.unmapped c)) :
    Inv cfg { s with
      imageNames := Function.update s.imageNames c none
      servers := s.servers.set k (.unlinked c) } g := by
  refine h.change hk rfl h.bitmapNames ?_ (fun _ _ _ => ⟨rfl, rfl, rfl⟩) (Nat.le_refl _)
    (.idle rfl rfl trivial)
  intro d _ hd
  have hne : d ≠ c := fun heq => hd (congrArg some heq.symm)
  exact ⟨rfl, Function.update_of_ne hne ..⟩

theorem Inv.unlinkBitmap (h : Inv cfg s g) {c : Nat} (hk : s.servers[k]? = some (.unlinked c)) :
    Inv cfg { s with
      bitmapNames := Function.update s.bitmapNames c none
      servers := s.servers.set k .closed } g := by
  refine h.change hk rfl ?_ (fun _ _ _ => ⟨rfl, rfl⟩) (fun _ _ _ => ⟨rfl, rfl, rfl⟩) (Nat.le_refl _)
    (.idle rfl rfl trivial)
  intro d b hb
  by_cases hd : d = c
  · subst hd
    simp at hb
  · exact h.bitmapNames d b ((Function.update_of_ne hd ..).symm.trans hb)

theorem Inv.start (h : Inv cfg s g) :
    Inv cfg { s with servers := s.servers ++ [.searching 0] } g where
  bitmapNames := h.bitmapNames
  places := by
    refine forall_append (fun j other hj => ?_) (.idle rfl rfl trivial)
    exact (h.places j other hj).frame (fun _ _ => ⟨rfl, rfl⟩) (fun _ _ => ⟨rfl, rfl, rfl⟩)
      (Nat.le_refl _)

theorem serverStep_some {f : Server disksize → Option (State disksize)}
    (ht : serverStep s k f = some t) : ∃ server, s.servers[k]? = some server ∧ f server = some t :=
  Option.bind_eq_some_iff.mp ht

theorem step_inv {a : Act disksize} (h : Inv cfg s g) (ht : step cfg s a = some t) :
    ∃ g', Inv cfg t g' := by
  cases a with
  | start =>
    cases ht
    exact ⟨g, h.start⟩
  | openImage k =>
    obtain ⟨server, hk, ht⟩ := serverStep_some ht
    split at ht
    · split at ht <;> cases ht
      · exact ⟨g, h.goTo (.idle rfl rfl trivial)⟩
      · exact h.openImage hk (by assumption)
    · cases ht
  | openBitmap k =>
    obtain ⟨server, hk, ht⟩ := serverStep_some ht
    split at ht
    · split at ht <;> cases ht
      · exact ⟨g, h.openBitmap_old hk (by assumption)⟩
      · exact h.openBitmap_new hk
    · cases ht
  | mapBitmap k =>
    obtain ⟨server, hk, ht⟩ := serverStep_some ht
    split at ht
    · split at ht <;> cases ht
      · exact ⟨g, h.mapBitmap hk (bitmapOpenFile_clear (by assumption))⟩
      · exact ⟨g, h.goTo (.idle rfl rfl trivial)⟩
      · exact ⟨g, h.goTo (.idle rfl rfl trivial)⟩
    · cases ht
  | turn k turn =>
    obtain ⟨server, hk, ht⟩ := serverStep_some ht
    split at ht
    · obtain ⟨ds, hds, ht⟩ := Option.bind_eq_some_iff.mp ht
      obtain ⟨after, hafter, rfl⟩ := Option.map_eq_some_iff.mp ht
      exact ⟨g, h.turn hk hds hafter⟩
    · cases ht
  | shutdown k =>
    obtain ⟨server, hk, ht⟩ := serverStep_some ht
    split at ht
    · split at ht <;> cases ht
      have hplace := h.places k _ hk
      exact ⟨g, h.goTo ⟨hplace.held, by simp [Server.files], trivial⟩⟩
    · cases ht
  | unlinkImage k =>
    obtain ⟨server, hk, ht⟩ := serverStep_some ht
    split at ht
    · split at ht <;> cases ht
      · exact ⟨g, h.unlinkImage hk⟩
      · exact ⟨g, h.goTo (.idle rfl rfl trivial)⟩
    · cases ht
  | unlinkBitmap k =>
    obtain ⟨server, hk, ht⟩ := serverStep_some ht
    split at ht
    · split at ht <;> cases ht
      · exact ⟨g, h.unlinkBitmap hk⟩
      · exact ⟨g, h.goTo (.idle rfl rfl trivial)⟩
    · cases ht
  | kill k =>
    obtain ⟨server, hk, ht⟩ := serverStep_some ht
    cases ht
    exact ⟨g, h.goTo (.idle rfl rfl trivial)⟩

theorem run_inv {acts : List (Act disksize)} (h : run (step cfg) start acts = some s) :
    ∃ g, Inv cfg s g := by
  refine run_invariant (I := fun s => ∃ g, Inv cfg s g) ?_ ⟨_, inv_start cfg⟩
    (along_true (step cfg) start acts) h
  rintro s a t ⟨g, hi⟩ - ht
  exact step_inv hi ht

/-- Over one base image every server has a disk of its own: the stack is what the turns of its
own workers make of the base image, and if their requests did not overlap it shows the
base image with these requests carried out. It does not matter how the others come and
go, which of them are killed, and what bitmap files they leave. -/
theorem cow_servers_isolated {acts : List (Act disksize)}
    (h : run (step cfg) start acts = some s) {k c i b : Nat} {workers : List (Worker disksize)}
    {log : List (Turn disksize)} (hk : s.servers[k]? = some (.serving c i b workers log)) :
    (∃ ds, stackOf cfg.base (s.images i) (s.bitmaps b) = some ds ∧
      alone cfg k log = some ⟨ds, workers⟩ ∧
      (OneByOne cfg k log → (∀ w ∈ workers, w.atRest = true) →
        (∀ r ∈ requestsOf log, Served r ∧ Mappable disksize (cfg.readonly k) r) →
        ∀ x < disksize, ds.logical x = flatRun cfg.base.file (requestsOf log) x)) ∧
    ∀ j c' i' b' workers' log', j ≠ k →
      s.servers[j]? = some (.serving c' i' b' workers' log') → c ≠ c' ∧ i ≠ i' ∧ b ≠ b' := by
  obtain ⟨g, hinv⟩ := run_inv h
  have hplace := hinv.places k _ hk
  obtain ⟨ds, hds, halone⟩ :
      ∃ ds, stackOf cfg.base (s.images i) (s.bitmaps b) = some ds ∧
        alone cfg k log = some ⟨ds, workers⟩ := hplace.contents
  refine ⟨⟨ds, hds, halone, fun hturn hrest hserved x hx => ?_⟩, ?_⟩
  · exact alone_logical halone hturn hserved hrest hx
  intro j c' i' b' workers' log' hne hj
  have hother := hinv.places j _ hj
  have himage := hplace.disjoint hother hne (i := i) (by simp [Server.files])
  have hbitmap := hplace.disjoint hother hne (i := b) (by simp [Server.files])
  have hcowid := hplace.apart hother hne (c := c) rfl
  simp only [Server.files, List.mem_cons, List.not_mem_nil, not_or] at himage hbitmap
  exact ⟨fun heq => hcowid (congrArg some heq.symm), himage.1, hbitmap.2.1⟩

theorem block_le_offMax : 4096 ≤ offMax := by decide

/-- One block. -/
def baseOfSevens : Base 4096 := ⟨fun _ => 7, Forwarder.page_pos, block_le_offMax⟩

def oneBase : Config 4096 := ⟨4096, baseOfSevens, fun _ => false⟩

/-- Two workers write at the same time. -/
def overlapping : List (Turn 4096) :=
  [.accept, .accept, .request 0 writeByte, .request 1 writeByte] ++
    (List.replicate 10 [.work 0 1, .work 1 1]).flatten

def oneWrite : List (Turn 4096) :=
  [.accept, .request 0 writeByte] ++ List.replicate 10 (.work 0 1)

/-- A second server takes over number 0 and the bitmap file between the two `unlink` of the
first one, whose workers have marked the block. -/
def handover : List (Act 4096) :=
  [.start, .openImage 0, .openBitmap 0, .mapBitmap 0] ++ overlapping.map (.turn 0) ++
    [.shutdown 0, .start, .openImage 1, .unlinkImage 0, .start, .openImage 2, .openBitmap 2,
      .unlinkBitmap 0, .mapBitmap 2, .openImage 1, .openBitmap 1, .mapBitmap 1] ++
    oneWrite.map (.turn 1)

theorem cow_servers_isolated_handover :
    ∃ s : State 4096, run (step oneBase) start handover = some s ∧
      s.servers[2]? = some (.serving 0 2 1 [] []) ∧
      s.servers[1]? = some (.serving 1 3 4 [.idle] oneWrite) ∧
      ∃ ds, stackOf baseOfSevens (s.images 3) (s.bitmaps 4) = some ds ∧
        ∀ x < 4096, ds.logical x = flatRun baseOfSevens.file [writeByte] x := by
  obtain ⟨s, hrun, htwo, hone⟩ : ∃ s : State 4096, run (step oneBase) start handover = some s ∧
      s.servers[2]? = some (.serving 0 2 1 [] []) ∧
      s.servers[1]? = some (.serving 1 3 4 [.idle] oneWrite) := ⟨_, rfl, rfl, rfl⟩
  obtain ⟨⟨ds, hds, -, hlogical⟩, -⟩ := cow_servers_isolated hrun hone
  refine ⟨s, hrun, htwo, hone, ds, hds, hlogical (by decide) (by decide) ?_⟩
  intro r hr
  cases List.mem_singleton.mp hr
  exact ⟨by decide, by constructor <;> decide⟩

end Steps

end Xnbd.CowServers
