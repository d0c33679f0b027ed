import Xnbd.Linear

/-!
# What the bitmap file says after a shutdown or a crash

The bitmap runs ahead of the cache file, so a bitmap that is kept is only right
where the requests that marked its blocks were carried out. Both the clean
shutdown and the FLUSH keep the bitmap as it stands.
-/
namespace Xnbd.Durability

open CInt Block Bitmap Bytes Nbd Requests FlatDisk Forwarder Reference Transitions Pipeline
  Coherence CacheFile Proxy Sessions Linear Run

variable {disksize : Nat}

section Backed

variable {cfg : Config disksize} {remote : File} {R : RefDisk} {f g : Fwd disksize}
  {cbitmap : Words}

/-- Every bit that is set was set from the start, or belongs to a block of a
request that was carried out. -/
def Backed (cbitmap : Words) (f : Fwd disksize) : Prop :=
  ∀ b < getDiskNblocks disksize, bitmapTest f.cbitmap b = true →
    bitmapTest cbitmap b = true ∨ ∃ c ∈ f.executed, Marks c.request ∧ c.request.InBlocks b

instance (cbitmap : Words) (f : Fwd disksize) : Decidable (Backed cbitmap f) :=
  inferInstanceAs (Decidable (∀ b < getDiskNblocks disksize, _ → _ ∨ _))

/-- The marks of the reference disk are those of the requests so far. -/
theorem marked_of_mem {calls : List (Call disksize)} {c : Call disksize} {b : Nat} (hc : c ∈ calls)
    (hm : Marks c.request) (hb : c.request.InBlocks b) : (refRun R calls).marked b = true := by
  obtain ⟨before, after, rfl⟩ := List.append_of_mem hc
  rw [refRun_append, refRun_cons]
  apply marked_mono
  simp [refStep_marked, hm, hb]

/-- A block whose bit is backed is in the cache file. -/
theorem Backed.cached {cache : File} (h : Backed cbitmap f)
    (hset : Settled disksize (refRun (refOf cbitmap cache remote) f.executed) f.cache remote)
    {x : Nat} (hx : x < disksize) (hb : bitmapTest f.cbitmap (x / cblocksize) = true) :
    f.cache x = (refRun (refOf cbitmap cache remote) f.executed).bytes x := by
  have hm : (refRun (refOf cbitmap cache remote) f.executed).marked (x / cblocksize) = true := by
    rcases h (x / cblocksize) (block_lt_nblocks hx) hb with hold | ⟨c, hc, hmarks, hin⟩
    · exact marked_mono _ hold
    · exact marked_of_mem hc hmarks hin
  rw [hset x hx, if_pos hm]

end Backed

section Trims

/-- Every TRIM lies in blocks that are marked when its turn comes. -/
def TrimsMarked : RefDisk → List (Call disksize) → Prop
  | _, [] => True
  | R, c :: rest =>
    (c.request.iotype = .trim → ∀ x, c.request.Covers x → R.marked (x / cblocksize) = true) ∧
      TrimsMarked (refStep R c.request) rest

theorem refStep_bytes_flat {R : RefDisk} {r : Request disksize}
    (h : r.iotype = .trim → ∀ x, r.Covers x → R.marked (x / cblocksize) = true) :
    (refStep R r).bytes = flatStep R.bytes r := by
  funext x
  simp only [refStep]
  split
  · rename_i htrim
    have hx : ¬r.Covers x := fun hc => by simp [h htrim.1 x hc] at htrim
    rw [flatStep_outside hx]
  · rfl

/-- With such TRIMs only, the reference disk is the flat disk. -/
theorem refRun_bytes_flat {R : RefDisk} {calls : List (Call disksize)} (h : TrimsMarked R calls) :
    (refRun R calls).bytes = flatRun R.bytes (calls.map Call.request) := by
  induction calls generalizing R with
  | nil => rfl
  | cons c rest ih =>
    rw [refRun_cons, ih h.2, refStep_bytes_flat h.1]
    rfl

end Trims

section Moments

variable {cfg : Config disksize} {remote : File} {R : RefDisk} {f g : Fwd disksize}
  {a : Action disksize} {s t : State disksize} {act : Act disksize}

/-- The forwarder threads are joined for the last time. -/
def closes (f : Fwd disksize) : Action disksize → Bool
  | .joined => decide (f.main = .joining true)
  | _ => false

/-- `bitmap_sync_file` of a FLUSH. -/
def syncs (f : Fwd disksize) : Action disksize → Bool
  | .rx _ =>
    match f.rx with
    | .flushing _ _ => true
    | _ => false
  | _ => false

/-- Parked requests come back in order, and at the given moment the bitmap is
backed by what was carried out. -/
def BackedAt (moment : Fwd disksize → Action disksize → Bool) (cbitmap : Words)
    (s : State disksize) : Act disksize → Prop
  | .fwd a => Pipeline.Orderly s.fwd a ∧ (moment s.fwd a = true → Backed cbitmap s.fwd)
  | _ => True

instance (moment : Fwd disksize → Action disksize → Bool) (cbitmap : Words) (s : State disksize) :
    (a : Act disksize) → Decidable (BackedAt moment cbitmap s a)
  | .fwd _ => inferInstanceAs (Decidable (_ ∧ (_ → _)))
  | .register => isTrue trivial
  | .cleanup _ => isTrue trivial
  | .rx _ _ => isTrue trivial
  | .tx _ _ => isTrue trivial

theorem BackedAt.orderly {moment : Fwd disksize → Action disksize → Bool} {cbitmap : Words}
    (h : BackedAt moment cbitmap s act) : Linear.Orderly s act := by
  cases act with
  | fwd a => exact h.1
  | _ => trivial

/-- After the last join nothing is marked or carried out any more. -/
theorem step_closed (hc : Control f) (hm : f.main = .closed)
    (hs : Forwarder.step cfg remote f a = some g) :
    g.cbitmap = f.cbitmap ∧ g.executed = f.executed := by
  obtain ⟨htx, hrx⟩ := hc.parked (.inr hm)
  have htx' := exited_of_isExited htx
  have hrx' := exited_of_rxIsExited hrx
  cases a with
  | push e =>
    simp only [Forwarder.step] at hs
    split at hs
    · cases hs
    · cases e with
      | stop => cases hs
      | exit k b =>
        cases hs
        exact ⟨rfl, rfl⟩
      | req p =>
        simp only [Fwd.pushStep] at hs
        split at hs
        · cases hs
          exact ⟨rfl, rfl⟩
        · cases hs
  | tx sent => simp [Forwarder.step, Fwd.txStep, htx'] at hs
  | rx ev => simp [Forwarder.step, Fwd.rxStep, hrx'] at hs
  | stop final => simp [Forwarder.step, hm] at hs
  | joined => simp [Forwarder.step, hm] at hs
  | requeue => simp [Forwarder.step, hm] at hs

/-- The only way into the closed state. -/
theorem step_closes (hne : f.main ≠ .closed) (hg : g.main = .closed)
    (ht : Trans cfg remote f a g) :
    closes f a = true ∧ g.cbitmap = f.cbitmap ∧ g.executed = f.executed := by
  cases ht with
  | joined final hm htx hrx =>
    cases final with
    | true => exact ⟨by simp [closes, hm], rfl, rfl⟩
    | false => cases hg
  | stop final hm => cases hg
  | restart hm hq => cases hg
  | _ => exact absurd hg hne

/-- Once closed, the bitmap is backed. -/
def ClosedBacked (cbitmap : Words) (s : State disksize) : Prop :=
  s.fwd.main = .closed → Backed cbitmap s.fwd

theorem step_closedBacked {cbitmap : Words} (hsound : Sound cfg remote R s)
    (h : ClosedBacked cbitmap s) (hp : BackedAt closes cbitmap s act)
    (hs : Proxy.step cfg remote s act = some t) : ClosedBacked cbitmap t := by
  intro hm
  have hkeep : ∀ fa, Forwarder.step cfg remote s.fwd fa = some t.fwd →
      (closes s.fwd fa = true → Backed cbitmap s.fwd) → Backed cbitmap t.fwd := by
    intro fa hf hcl
    by_cases hc : s.fwd.main = .closed
    · obtain ⟨hbm, hex⟩ := step_closed hsound.coherent.control hc hf
      unfold Backed
      rw [hbm, hex]
      exact h hc
    · obtain ⟨hat, hbm, hex⟩ := step_closes hc hm (step_trans hf)
      unfold Backed
      rw [hbm, hex]
      exact hcl hat
  rcases move_fwd (step_move hs).2 with heq | ⟨e, hf⟩ | ⟨fa, rfl, hf⟩
  · rw [heq] at hm ⊢
    exact h hm
  · exact hkeep _ hf (by simp [closes])
  · exact hkeep _ hf hp.2

/-- A step of the proxy that meets the condition of the shutdown. -/
theorem step_shutdown {cbitmap : Words} (h : Sound cfg remote R s ∧ ClosedBacked cbitmap s)
    (hp : BackedAt closes cbitmap s act) (hs : Proxy.step cfg remote s act = some t) :
    Sound cfg remote R t ∧ ClosedBacked cbitmap t :=
  ⟨step_sound h.1 hp.orderly hs, step_closedBacked h.1 h.2 hp hs⟩

end Moments

/-- After a clean shutdown every marked block of the cache file holds the disk
with all requests carried out, among them all that were answered, provided that
parked requests came back in order and that at the last join every bit belonged
to a request that was carried out. -/
theorem shutdown_truthful (cfg : Config disksize) (remote cache : File) (cbitmap : Words)
    (hlen : cbitmap.length = bitsToLongs (getDiskNblocks disksize)) (acts : List (Act disksize))
    (hb : Along (Proxy.step cfg remote) (BackedAt closes cbitmap) (start cbitmap cache) acts)
    (s : State disksize) (hrun : run (Proxy.step cfg remote) (start cbitmap cache) acts = some s)
    (hclosed : s.fwd.main = .closed) :
    (∀ x < disksize, bitmapTest s.fwd.cbitmap (x / cblocksize) = true →
      s.fwd.cache x = (refRun (refOf cbitmap cache remote) s.fwd.executed).bytes x) ∧
    (TrimsMarked (refOf cbitmap cache remote) s.fwd.executed →
      ∀ x < disksize, bitmapTest s.fwd.cbitmap (x / cblocksize) = true →
        s.fwd.cache x =
          flatRun (refOf cbitmap cache remote).bytes (s.fwd.executed.map Call.request) x) ∧
    ∀ (k : Nat) (ps : Session disksize), s.sessions[k]? = some ps →
      ∀ p ∈ ps.replied, s.fwd.executed[p.seqnum]? = some p.call := by
  have hI : Sound cfg remote (refOf cbitmap cache remote) s ∧ ClosedBacked cbitmap s :=
    run_invariant (fun _ _ _ hI hP hs => step_shutdown hI hP hs)
      ⟨start_sound hlen, fun hm => by cases hm⟩ hb hrun
  have hcached := fun x hx => (hI.2 hclosed).cached hI.1.coherent.contents.settled (x := x) hx
  refine ⟨hcached, fun htrim x hx hbit => ?_, fun k ps hps p hp => ?_⟩
  · rw [hcached x hx hbit, refRun_bytes_flat htrim]
  · exact ((hI.1.linearizes hps).answered p hp).1

/-- One answered READ, and the end of the process. -/
def readAndQuit : List (Act 2) :=
  .register :: submit 0 readFirst none ++ sends 6 ++ receives 4 ++ answers 0 3 ++
    joinForwarder true

theorem shutdown_truthful_read :
    Along (Proxy.step twoBytes fun _ => 7) (BackedAt closes [0]) (start [0] fun _ => 0)
        readAndQuit ∧
      ∃ s, run (Proxy.step twoBytes fun _ => 7) (start [0] fun _ => 0) readAndQuit = some s ∧
        (s.fwd.main, bitmapTest s.fwd.cbitmap 0, s.fwd.cache 0) = (.closed, true, 7) ∧
        ∀ x < 2, bitmapTest s.fwd.cbitmap (x / cblocksize) = true →
          s.fwd.cache x =
            (refRun (refOf [0] (fun _ => 0) fun _ => 7) s.fwd.executed).bytes x := by
  have hb : Along (Proxy.step twoBytes fun _ => 7) (BackedAt closes [0]) (start [0] fun _ => 0)
      readAndQuit := by decide
  have hmap : ((run (Proxy.step twoBytes fun _ => 7) (start [0] fun _ => 0) readAndQuit).map
      fun s => (s.fwd.main, bitmapTest s.fwd.cbitmap 0, s.fwd.cache 0)) =
        some (.closed, true, 7) := by decide
  obtain ⟨s, hs, hproj⟩ := Option.map_eq_some_iff.mp hmap
  have h := shutdown_truthful twoBytes (fun _ => 7) (fun _ => 0) [0] (by decide) readAndQuit hb s hs
    (Prod.mk.inj hproj).1
  exact ⟨hb, s, hs, hproj, h.1⟩

/-- The READ is parked and the process ends: the bit of its block stays set, and
the cache file never got the remote byte. -/
theorem shutdown_parked :
    ∃ s, run (Proxy.step twoBytes fun _ => 7) (start [0] fun _ => 0)
        (failFirst ++ joinForwarder true) = some s ∧
      s.fwd.main = .closed ∧ bitmapTest s.fwd.cbitmap (0 / cblocksize) = true ∧
      s.fwd.cache 0 ≠ (refRun (refOf [0] (fun _ => 0) fun _ => 7) s.fwd.executed).bytes 0 := by
  have hmap : ((run (Proxy.step twoBytes fun _ => 7) (start [0] fun _ => 0)
      (failFirst ++ joinForwarder true)).map
      fun s => (s.fwd.main, bitmapTest s.fwd.cbitmap (0 / cblocksize), s.fwd.cache 0,
        (refRun (refOf [0] (fun _ => 0) fun _ => 7) s.fwd.executed).bytes 0)) =
        some (.closed, true, 0, 7) := by decide
  obtain ⟨s, hs, hproj⟩ := Option.map_eq_some_iff.mp hmap
  simp only [Prod.mk.injEq] at hproj
  obtain ⟨hmain, hbit, hcache, href⟩ := hproj
  exact ⟨s, hs, hmain, hbit, by rw [hcache, href]; decide⟩

section Checkpoints

variable {cfg : Config disksize} {remote cache : File} {f g : Fwd disksize}
  {a : Action disksize} {s t : State disksize} {act : Act disksize} {cbitmap : Words}

/-- What a FLUSH made durable: `before` is what precedes the FLUSH in forwarder
order, and every marked block holds the disk after it. -/
structure Recoverable (remote cache : File) (cbitmap : Words) (executed : List (Call disksize))
    (d : Durable disksize) : Prop where
  point : ∃ c, c.request.iotype = .flush ∧ d.before ++ [c] <+: executed
  blocks : ∀ x < disksize, bitmapTest d.bitmap (x / cblocksize) = true →
    d.cache x = (refRun (refOf cbitmap cache remote) d.before).bytes x

theorem Recoverable.mono {executed executed' : List (Call disksize)} {d : Durable disksize}
    (h : Recoverable remote cache cbitmap executed d) (he : executed <+: executed') :
    Recoverable remote cache cbitmap executed' d := by
  obtain ⟨c, hc, hpre⟩ := h.point
  exact ⟨⟨c, hc, hpre.trans he⟩, h.blocks⟩

def Checkpoints (remote cache : File) (cbitmap : Words) (f : Fwd disksize) : Prop :=
  ∀ d ∈ f.durable, Recoverable remote cache cbitmap f.executed d

theorem trans_checkpoints (hc : Coherent cfg remote (refOf cbitmap cache remote) f)
    (h : Checkpoints remote cache cbitmap f) (hp : syncs f a = true → Backed cbitmap f)
    (ht : Trans cfg remote f a g) : Checkpoints remote cache cbitmap g := by
  cases ht with
  | rxExecute ev p mbr i c readBuff hrx hrr hn hr hnf hcache hbuff =>
    exact fun d hd => (h d hd).mono (List.prefix_append _ _)
  | rxSync ev p synced hrx =>
    obtain ⟨-, -, hflush, hsynced⟩ := hc.flushing p synced hrx
    intro d hd
    rcases List.mem_append.mp hd with hd | hd
    · exact (h d hd).mono (List.prefix_append _ _)
    · rw [List.mem_singleton.mp hd]
      refine ⟨⟨p.call, hflush, List.prefix_refl _⟩, fun x hx hbit => ?_⟩
      dsimp only
      rw [hsynced]
      exact (hp (by simp [syncs, hrx])).cached hc.contents.settled hx hbit
  | _ => exact h

theorem step_checkpoints
    (h : Sound cfg remote (refOf cbitmap cache remote) s ∧ Checkpoints remote cache cbitmap s.fwd)
    (hp : BackedAt syncs cbitmap s act) (hs : Proxy.step cfg remote s act = some t) :
    Sound cfg remote (refOf cbitmap cache remote) t ∧ Checkpoints remote cache cbitmap t.fwd := by
  refine ⟨step_sound h.1 hp.orderly hs, ?_⟩
  rcases move_fwd (step_move hs).2 with heq | ⟨e, hf⟩ | ⟨fa, rfl, hf⟩
  · rw [heq]
    exact h.2
  · exact trans_checkpoints h.1.coherent h.2 (by simp [syncs]) (step_trans hf)
  · exact trans_checkpoints h.1.coherent h.2 hp.2 (step_trans hf)

end Checkpoints

/-- A crash after a FLUSH finds in every block of the durable bitmap the disk as
it was when the FLUSH was carried out, provided that parked requests came back
in order and that at each `bitmap_sync_file` every bit belonged to a request
that was carried out. -/
theorem flush_recoverable (cfg : Config disksize) (remote cache : File) (cbitmap : Words)
    (hlen : cbitmap.length = bitsToLongs (getDiskNblocks disksize)) (acts : List (Act disksize))
    (hb : Along (Proxy.step cfg remote) (BackedAt syncs cbitmap) (start cbitmap cache) acts)
    (s : State disksize) (hrun : run (Proxy.step cfg remote) (start cbitmap cache) acts = some s) :
    s.fwd.executed <+: s.fwd.prepared ∧ ∀ d ∈ s.fwd.durable,
      Recoverable remote cache cbitmap s.fwd.executed d ∧
        (TrimsMarked (refOf cbitmap cache remote) d.before →
          ∀ x < disksize, bitmapTest d.bitmap (x / cblocksize) = true →
            d.cache x = flatRun (refOf cbitmap cache remote).bytes (d.before.map Call.request) x) := by
  have hI : Sound cfg remote (refOf cbitmap cache remote) s ∧
      Checkpoints remote cache cbitmap s.fwd :=
    run_invariant (fun _ _ _ hI hP hs => step_checkpoints hI hP hs)
      ⟨start_sound hlen, fun d hd => by simp [start, initial] at hd⟩ hb hrun
  refine ⟨?_, fun d hd => ⟨hI.2 d hd, fun htrim x hx hbit => ?_⟩⟩
  · rw [hI.1.coherent.order.prepared]
    exact List.prefix_append _ _
  · rw [(hI.2 d hd).blocks x hx hbit, refRun_bytes_flat htrim]

def flushHeader : List UInt8 :=
  [0x25, 0x60, 0x95, 0x13] ++ [0, 0, 0, 3] ++ List.replicate 20 0

/-- A FLUSH behind an answered READ. -/
def readThenFlush : List (Act 2) :=
  .register :: submit 0 readFirst none ++ sends 6 ++ receives 4 ++ submit 0 flushHeader none ++
    sends 3 ++ receives 3

theorem flush_recoverable_read :
    Along (Proxy.step twoBytes fun _ => 7) (BackedAt syncs [0]) (start [0] fun _ => 0)
        readThenFlush ∧
      ∃ s, run (Proxy.step twoBytes fun _ => 7) (start [0] fun _ => 0) readThenFlush = some s ∧
        (s.fwd.durable.map fun d => (bitmapTest d.bitmap 0, d.cache 0)) = [(true, 7)] ∧
        ∀ d ∈ s.fwd.durable, Recoverable (fun _ => 7) (fun _ => 0) [0] s.fwd.executed d := by
  have hb : Along (Proxy.step twoBytes fun _ => 7) (BackedAt syncs [0]) (start [0] fun _ => 0)
      readThenFlush := by decide
  have hmap : ((run (Proxy.step twoBytes fun _ => 7) (start [0] fun _ => 0) readThenFlush).map
      fun s => s.fwd.durable.map fun d => (bitmapTest d.bitmap 0, d.cache 0)) =
        some [(true, 7)] := by decide
  obtain ⟨s, hs, hproj⟩ := Option.map_eq_some_iff.mp hmap
  have h := flush_recoverable twoBytes (fun _ => 7) (fun _ => 0) [0] (by decide) readThenFlush hb s hs
  exact ⟨hb, s, hs, hproj, fun d hd => (h.2 d hd).1⟩

/-- `forwarder_tx` marks the block of a READ behind the FLUSH before
`forwarder_rx` carries the FLUSH out. -/
def flushThenRead : List (Act 2) :=
  .register :: submit 0 flushHeader none ++ submit 0 readFirst none ++ sends 6 ++ receives 3

/-- The durable bitmap shows a block that the durable cache file does not hold. -/
theorem flush_overtaken :
    ∃ s, run (Proxy.step twoBytes fun _ => 7) (start [0] fun _ => 0) flushThenRead = some s ∧
      ∃ d ∈ s.fwd.durable, bitmapTest d.bitmap (0 / cblocksize) = true ∧
        d.cache 0 ≠ (refRun (refOf [0] (fun _ => 0) fun _ => 7) d.before).bytes 0 := by
  have hmap : ((run (Proxy.step twoBytes fun _ => 7) (start [0] fun _ => 0) flushThenRead).map
      fun s => s.fwd.durable.map fun d => (bitmapTest d.bitmap (0 / cblocksize), d.cache 0,
        (refRun (refOf [0] (fun _ => 0) fun _ => 7) d.before).bytes 0)) =
        some [(true, 0, 7)] := by decide
  obtain ⟨s, hs, hproj⟩ := Option.map_eq_some_iff.mp hmap
  obtain ⟨d, hd, hval⟩ := List.mem_map.mp (hproj ▸ List.mem_singleton_self (true, (0 : UInt8), (7 : UInt8)))
  simp only [Prod.mk.injEq] at hval
  obtain ⟨hbit, hcache, href⟩ := hval
  exact ⟨s, hs, d, hd, hbit, by rw [hcache, href]; decide⟩

end Xnbd.Durability
