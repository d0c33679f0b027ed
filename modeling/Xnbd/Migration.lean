import Mathlib.Tactic.Tauto
import Xnbd.BitmapReuse
import Xnbd.CacheAll
import Xnbd.SessionDisk

/-!
# From the proxy to the target (`xnbd-bgctl --switch`, `master_server`)

A disk is migrated by a proxy that caches it on the way. `xnbd-bgctl --cache-all` asks
for the blocks that are still missing, `--switch` looks whether every bit is set and
sends SIGUSR2, and the master ends the proxy and serves the cache file in target mode.
-/
namespace Xnbd.Migration

open Block Bitmap Bytes Nbd Requests FlatDisk Forwarder Reference Transitions Pipeline
  Coherence CacheFile Proxy Sessions Linear BitmapReuse Run Replies SessionDisk

section Model

variable {size : Nat}

/-- What `xnbd-bgctl --switch` looks at before it sends SIGUSR2. -/
def switchAllowed (bm : Words) (nblocks : Nat) (force : Bool) : Bool :=
  bitmapPopcount bm nblocks = nblocks || force

/-- `xnbd_shutdown`, and `xnbd_initialize` with `proxy_diskpath` as the disk of target mode.
`xnbd_target_open_disk` takes over the size of the cache file. -/
def becomeTarget (files : Files) : Disk files.cacheSize := .target files.cache

/-- A proxy that began with a new or cleared bitmap, a state `s₁` of it in which
`xnbd-bgctl --switch` found every bit set, and the state `s` in which the proxy ended
cleanly with its requests carried out. -/
structure Switched (cfg : Config size) (remote : File) (files : Files) (s₁ s : State size) :
    Prop where
  opened : ∃ old clear, (clear = true ∨ old.bitmap = []) ∧
    proxyInitialize old size clear = some files
  before : ∃ acts, Along (Proxy.step cfg remote) Linear.Orderly (start files.bitmap files.cache)
      acts ∧ run (Proxy.step cfg remote) (start files.bitmap files.cache) acts = some s₁
  allowed : switchAllowed s₁.fwd.cbitmap (getDiskNblocks size) false = true
  after : ∃ acts, Along (Proxy.step cfg remote) Linear.Orderly s₁ acts ∧
    run (Proxy.step cfg remote) s₁ acts = some s
  closed : s.fwd.main = .closed
  completed : s.fwd.executed = s.fwd.entered

end Model

section Bits

variable {size : Nat} {cfg : Config size} {remote : File} {R : RefDisk} {f g : Fwd size}
  {a : Action size} {s t : State size} {act : Act size} {b : Nat}

/-- A bit that is set stays set. -/
theorem trans_bits (h : bitmapTest f.cbitmap b = true) (ht : Trans cfg remote f a g) :
    bitmapTest g.cbitmap b = true := by
  cases ht with
  | txReadBlock sent p i bm req htx hi hb =>
    obtain ⟨-, -, hbits, -⟩ := prepareReadBlock_spec hb
    dsimp only
    rw [hbits, h, Bool.true_or]
  | txWriteBlock sent p getStart getEnd i bm htx hi hb =>
    obtain ⟨-, -, hbits⟩ := prepareWriteBlock_spec hb
    dsimp only
    rw [hbits, h, Bool.true_or]
  | _ => exact h

theorem step_bits (h : bitmapTest s.fwd.cbitmap b = true)
    (hs : Proxy.step cfg remote s act = some t) : bitmapTest t.fwd.cbitmap b = true := by
  rcases move_fwd (step_move hs).2 with heq | ⟨e, hf⟩ | ⟨fa, -, hf⟩
  · rw [heq]
    exact h
  · exact trans_bits h (step_trans hf)
  · exact trans_bits h (step_trans hf)

theorem run_bits {acts : List (Act size)} (h : bitmapTest s.fwd.cbitmap b = true)
    (hrun : run (Proxy.step cfg remote) s acts = some t) : bitmapTest t.fwd.cbitmap b = true := by
  induction acts generalizing s with
  | nil =>
    cases hrun
    exact h
  | cons act rest ih =>
    obtain ⟨m, hm, hrest⟩ := run_cons_some hrun
    exact ih (step_bits h hm) hrest

/-- Parked requests come back in order where none comes back. -/
theorem along_orderly {acts : List (Act size)} (h : ∀ act ∈ acts, act ≠ .fwd .requeue) :
    Along (Proxy.step cfg remote) Linear.Orderly s acts := by
  induction acts generalizing s with
  | nil => trivial
  | cons act rest ih =>
    simp only [List.mem_cons, forall_eq_or_imp] at h
    refine ⟨?_, fun t _ => ih h.2⟩
    cases act with
    | fwd a =>
      cases a with
      | requeue => exact absurd rfl h.1
      | _ => trivial
    | _ => trivial

end Bits

section Switch

variable {size : Nat} {cfg : Config size} {remote : File} {files : Files} {s₁ s : State size}

theorem switchAllowed_iff {bm : Words} {nblocks : Nat} :
    switchAllowed bm nblocks false = true ↔ ∀ b < nblocks, bitmapTest bm b = true := by
  rw [switchAllowed, Bool.or_false, decide_eq_true_iff, bitmapPopcount_eq_iff]

theorem Switched.clean (h : Switched cfg remote files s₁ s) : CleanRun cfg remote files s := by
  obtain ⟨acts₁, ho₁, hrun₁⟩ := h.before
  obtain ⟨acts₂, ho₂, hrun₂⟩ := h.after
  exact ⟨h.opened, ⟨acts₁ ++ acts₂, along_join ho₁ hrun₁ ho₂, run_join hrun₁ hrun₂⟩, h.closed,
    h.completed⟩

/-- Every byte of the disk is in the cache file. -/
theorem Switched.cached (h : Switched cfg remote files s₁ s) {x : Nat} (hx : x < size) :
    s.fwd.cache x = (refRun (uncached remote) s.fwd.executed).bytes x := by
  obtain ⟨hsound, -, -⟩ := h.clean.sound
  obtain ⟨acts₂, -, hrun₂⟩ := h.after
  have hbit := run_bits (switchAllowed_iff.mp h.allowed _ (block_lt_nblocks hx)) hrun₂
  rw [ended_marked hsound h.closed h.completed remote] at hbit
  rw [hsound.coherent.contents.settled x hx, if_pos hbit]

/-- The clients go on with the disk that they had: what the proxy answered and what the
target mode answers belong to one sequence of requests on the remote disk, and the remote
disk is not needed any more. -/
theorem switch_keeps_disk (cfg : Config size) (remote : File) (files : Files) (s₁ s : State size)
    (h : Switched cfg remote files s₁ s) (hmax : (files.after s).cacheSize ≤ offMax) :
    (∀ k ps, s.sessions[k]? = some ps →
        Linearizes (uncached remote) s.fwd.executed k ps.replied) ∧
      ∀ (pagesize : Nat) (qs : List (Query (files.after s).cacheSize)),
        (∀ q ∈ qs, Asked q.request ∧ Answerable .target q.request ∧
          q.request.start + q.request.iolen ≤ size) →
        ∃ d', session pagesize (becomeTarget (files.after s)) qs =
            some (d', flatOuts (refRun (uncached remote) s.fwd.executed).bytes qs) ∧
          ∀ x < size, shown d' x =
            flatRun (refRun (uncached remote) s.fwd.executed).bytes (requests qs) x := by
  obtain ⟨hsound, -, -⟩ := h.clean.sound
  refine ⟨fun k ps hps => hsound.linearizes hps, fun pagesize qs hqs => ?_⟩
  obtain ⟨d', hsession, -, hshown⟩ := session_flat pagesize hmax (becomeTarget (files.after s))
    (fun q hq => (hqs q hq).1) (fun q hq => (hqs q hq).2.1)
  have hsame : ∀ x < size, shown (becomeTarget (files.after s)) x =
      (refRun (uncached remote) s.fwd.executed).bytes x := fun x hx => h.cached hx
  have hfits : size ≤ (files.after s).cacheSize := h.clean.sound.2.2
  refine ⟨d', ?_, fun x hx => ?_⟩
  · rw [hsession, flatOuts_congr (fun q hq => (hqs q hq).2.2) hsame]
  · rw [hshown x (Nat.lt_of_lt_of_le hx hfits)]
    exact flatRun_congr (requests qs) (hsame x hx)

end Switch

section Ahead

variable {size : Nat} {cfg : Config size} {remote : File} {f g : Fwd size} {a : Action size}
  {s t : State size} {act : Act size} {bm bm' : Words} {r : Request size}

/-- The bitmap has the blocks of the request. -/
def Shown (bm : Words) (r : Request size) : Prop :=
  Marks r → ∀ b, r.InBlocks b → bitmapTest bm b = true

/-- The loop over the blocks has come to block `i`. -/
structure ShownUpTo (bm : Words) (r : Request size) (i : Nat) : Prop where
  place : LoopAt r bm.length i
  shown : ∀ b, r.blockIndexStart ≤ b → b < i → bitmapTest bm b = true

/-- How far `forwarder_tx` has got with the request it holds. -/
def TxShown (bm : Words) : TxPc size → Prop
  | .got (.req p) => p.prepareDone = true → Shown bm p.call.request
  | .readLoop p i | .writeLoop p _ _ i => ShownUpTo bm p.call.request i
  | .send p _ => Shown bm p.call.request
  | _ => True

/-- The requests that `forwarder_tx` has passed on. -/
def past (f : Fwd size) : List (Call size) :=
  (f.fwdRetryQueue ++ rxLine f ++ privs (f.handed ++ rxHands f.rx)).map Priv.call

/-- A request whose preparation is over has its blocks in the bitmap. -/
structure Ahead (f : Fwd size) : Prop where
  words : f.cbitmap.length = bitsToLongs (getDiskNblocks size)
  held : TxShown f.cbitmap f.tx
  queued : ∀ p ∈ ready f.fwdTxQueue, Shown f.cbitmap p.call.request
  passed : ∀ c ∈ past f, Shown f.cbitmap c.request

theorem initial_ahead {cbitmap : Words} {cache : File}
    (h : cbitmap.length = bitsToLongs (getDiskNblocks size)) :
    Ahead (initial cbitmap cache : Fwd size) := by
  refine ⟨h, trivial, ?_, ?_⟩ <;> simp [initial, past, rxLine, rxHeld, rxHands]

/-- The bitmap stays as it is. -/
theorem Ahead.keep (h : Ahead f) (hbm : g.cbitmap = f.cbitmap) (htx : TxShown f.cbitmap g.tx)
    (hq : ∀ p ∈ ready g.fwdTxQueue, Shown f.cbitmap p.call.request)
    (hp : ∀ c ∈ past g, Shown f.cbitmap c.request) : Ahead g := by
  constructor
  · rw [hbm]
    exact h.words
  · rw [hbm]
    exact htx
  · rw [hbm]
    exact hq
  · rw [hbm]
    exact hp

/-- A new entry at the end of `fwd_tx_queue`. -/
theorem Ahead.pushStep (h : Ahead f) {e : Entry size}
    (hg : g.cbitmap = f.cbitmap ∧ g.tx = f.tx ∧ g.fwdTxQueue = f.fwdTxQueue ++ [e])
    (he : ∀ p ∈ ready [e], Shown f.cbitmap p.call.request) (hp : ∀ c ∈ past g, c ∈ past f) :
    Ahead g := by
  obtain ⟨hbm, htx, hq⟩ := hg
  refine h.keep hbm (htx ▸ h.held) (fun p hmem => ?_) fun c hc => h.passed c (hp c hc)
  rw [hq, ready_append, List.mem_append] at hmem
  exact hmem.elim (h.queued p) (he p)

/-- Steps of `forwarder_rx`. -/
theorem Ahead.rxStep (h : Ahead f)
    (hg : g.cbitmap = f.cbitmap ∧ g.tx = f.tx ∧ g.fwdTxQueue = f.fwdTxQueue)
    (hp : ∀ c ∈ past g, c ∈ past f) : Ahead g := by
  obtain ⟨hbm, htx, hq⟩ := hg
  exact h.keep hbm (htx ▸ h.held) (hq ▸ h.queued) fun c hc => h.passed c (hp c hc)

/-- The bitmap gets one more bit. -/
theorem Shown.grow (h : Shown bm r) (hbits : ∀ b, bitmapTest bm b = true → bitmapTest bm' b = true) :
    Shown bm' r :=
  fun hm b hb => hbits b (h hm b hb)

theorem ShownUpTo.start (bm : Words) (r : Request size) : ShownUpTo bm r r.blockIndexStart :=
  ⟨.start r bm.length, fun _ hle hlt => absurd hle (Nat.not_le.mpr hlt)⟩

/-- Behind the loop all the blocks are in the bitmap. -/
theorem ShownUpTo.finish {i : Nat} (h : ShownUpTo bm r i) (hi : r.blockIndexEnd < i) :
    Shown bm r := by
  intro _ b hb
  obtain ⟨hle, hlt⟩ := (h.place.finish hi b).mpr hb
  exact h.shown b hle hlt

/-- One round of a loop. -/
theorem Ahead.visit (hd : size ≤ offMax) (h : Ahead f) {i : Nat} (hup : ShownUpTo f.cbitmap r i)
    (hi : i ≤ r.blockIndexEnd) (hin : Inside f.cbitmap i) (hlen : bm.length = f.cbitmap.length)
    (hbits : ∀ b, bitmapTest bm b = (bitmapTest f.cbitmap b || decide (b = i)))
    (hg : g.cbitmap = bm ∧ g.fwdTxQueue = f.fwdTxQueue ∧ past g = past f)
    (htx : ShownUpTo bm r ((i + 1) % 2 ^ 64) → TxShown bm g.tx) : Ahead g := by
  obtain ⟨hbm, hq, hp⟩ := hg
  have hgrow : ∀ b, bitmapTest f.cbitmap b = true → bitmapTest bm b = true := by
    intro b hb
    rw [hbits, hb, Bool.true_or]
  obtain ⟨hnext, hat⟩ := hup.place.next hd h.words hi hin
  have hup' : ShownUpTo bm r ((i + 1) % 2 ^ 64) := by
    rw [hnext]
    refine ⟨by rw [hlen]; exact hat, fun b hle hlt => ?_⟩
    rcases Nat.lt_succ_iff_lt_or_eq.mp hlt with hlt | rfl
    · exact hgrow b (hup.shown b hle hlt)
    · simp [hbits]
  subst hbm
  refine ⟨hlen.trans h.words, htx hup', ?_, ?_⟩
  · rw [hq]
    exact fun p hmem => (h.queued p hmem).grow hgrow
  · rw [hp]
    exact fun c hmem => (h.passed c hmem).grow hgrow

/-- The head of `fwd_tx_queue` is popped. A request that is prepared was ready there. -/
theorem Ahead.txPop (h : Ahead f) {e : Entry size} {rest : List (Entry size)}
    (hq : f.fwdTxQueue = e :: rest) (he : ∀ p, e = .req p → p.prepareDone = true) :
    Ahead { f with fwdTxQueue := rest, tx := .got e } := by
  have hqueued := h.queued
  rw [hq] at hqueued
  cases e with
  | req p =>
    rw [ready_req_true rest (he p rfl), List.forall_mem_cons] at hqueued
    exact h.keep rfl (fun _ => hqueued.1) hqueued.2 h.passed
  | stop
  | exit => exact h.keep rfl trivial hqueued h.passed

/-- `forwarder_tx` passes its request on. -/
theorem Ahead.txPass (h : Ahead f) {p p' : Priv size} {i : Nat} (htx : f.tx = .send p i)
    (hp : p'.call = p.call) :
    Ahead { f with fwdRxQueue := f.fwdRxQueue ++ [.req p'], tx := .idle } := by
  have hheld := h.held
  rw [htx] at hheld
  refine h.keep rfl trivial h.queued fun c hc => ?_
  have hcases : c ∈ past f ∨ c = p'.call := by
    simp only [past, rxLine, privs_append, privs_req, privs_nil, List.map_append, List.map_cons,
      List.map_nil, List.mem_append, List.mem_singleton] at hc ⊢
    tauto
  rcases hcases with hc | rfl
  · exact h.passed c hc
  · rw [hp]
    exact hheld

/-- A parked request is put back. -/
theorem Ahead.requeue (h : Ahead f) {p p' : Priv size} {rest : List (Priv size)}
    (hq : f.fwdRetryQueue = p :: rest) (hp : p'.call = p.call) :
    Ahead { f with fwdRetryQueue := rest, fwdTxQueue := f.fwdTxQueue ++ [.req p'] } := by
  have hpast : p.call ∈ past f := by simp [past, hq]
  refine h.pushStep ⟨rfl, rfl, rfl⟩ (fun q hmem => ?_) fun c hc => ?_
  · obtain ⟨hmem, -⟩ := List.mem_filter.mp hmem
    cases List.mem_singleton.mp hmem
    rw [hp]
    exact h.passed _ hpast
  · simp only [past, hq, List.map_append, List.map_cons, List.mem_append, List.mem_cons] at hc ⊢
    exact hc.imp_left (.imp_left .inr)

theorem step_ahead (hd : size ≤ offMax) (h : Ahead f) (ht : Trans cfg remote f a g) : Ahead g := by
  have hheld := h.held
  cases ht with
  | abort
  | joined final hm htx hrx => exact ⟨h.words, h.held, h.queued, h.passed⟩
  | pushExit k b
  | stop final hm => exact h.pushStep ⟨rfl, rfl, rfl⟩ (by simp) fun c hc => hc
  | pushReq c => exact h.pushStep ⟨rfl, rfl, rfl⟩ (by simp [ready, Priv.fresh]) fun c hc => hc
  | txPopFresh sent p rest htx hq hp =>
    have hqueued := h.queued
    rw [hq, ready_req_false rest hp] at hqueued
    exact h.keep rfl (fun hdone => by simp [hp] at hdone) hqueued h.passed
  | txPop sent e rest htx hq he => exact h.txPop hq he
  | txStop sent htx
  | txExit sent k b htx =>
    refine h.keep rfl trivial h.queued fun c hc => h.passed c ?_
    simpa [past, rxLine] using hc
  | txAgain sent p htx hp =>
    rw [htx] at hheld
    exact h.keep rfl (hheld hp) h.queued h.passed
  | txStartRead sent p htx hp hr
  | txStartWrite sent p htx hp hr => exact h.keep rfl (.start _ _) h.queued h.passed
  | txPlain sent p htx hp hr => exact h.keep rfl (fun hm => absurd hm hr) h.queued h.passed
  | txReadBlock sent p i bm req htx hi hb =>
    rw [htx] at hheld
    obtain ⟨hin, hlen, hbits, -⟩ := prepareReadBlock_spec hb
    exact h.visit hd hheld hi hin hlen hbits ⟨rfl, rfl, rfl⟩ id
  | txWriteBlock sent p gs ge i bm htx hi hb =>
    rw [htx] at hheld
    obtain ⟨hin, hlen, hbits⟩ := prepareWriteBlock_spec hb
    exact h.visit hd hheld hi hin hlen hbits ⟨rfl, rfl, rfl⟩ id
  | txReadDone sent p i htx hi
  | txWriteDone sent p gs ge i htx hi =>
    rw [htx] at hheld
    exact h.keep rfl (hheld.finish hi) h.queued h.passed
  | txSent p i rr htx hrr
  | txSendFailed p i rr htx hrr =>
    rw [htx] at hheld
    exact h.keep rfl hheld h.queued h.passed
  | txPass sent p i htx hrr => exact h.txPass htx rfl
  | rxStop ev rest hrx hq
  | rxExit ev k b rest hrx hq
  | rxTake ev p rest mbr hrx hq hm =>
    refine h.rxStep ⟨rfl, rfl, rfl⟩ fun c hc => ?_
    simpa [past, rxLine, rxHeld, rxHands, hrx, hq] using hc
  | rxReply p mbr i rr hrx hrr hw
  | rxStray p mbr i rr bytes hrx hrr hw hlen
  | rxFailed p mbr i rr bytes hrx hrr hlen
  | rxFlush ev p mbr i hrx hrr hp hf hr
  | rxHand ev e hrx =>
    refine h.rxStep ⟨rfl, rfl, rfl⟩ fun c hc => ?_
    simpa [past, rxLine, rxHeld, rxHands, hrx] using hc
  | rxPark ev p mbr i hrx hrr hp
  | rxExecute ev p mbr i cache readBuff hrx hrr hp hf hr hcache hbuff
  | rxSync ev p synced hrx =>
    -- the request goes from the hands of the thread to the next place
    refine h.rxStep ⟨rfl, rfl, rfl⟩ fun c hc => ?_
    simp only [past, rxLine, rxHeld, rxHands, hrx, List.map_append, privs_append, List.mem_append,
      privs_req, privs_nil, List.map_cons, List.map_nil, List.mem_singleton, List.not_mem_nil] at hc ⊢
    tauto
  | requeue p rest hm hq => exact h.requeue hq rfl
  | restart hm hq =>
    refine h.keep rfl trivial h.queued fun c hc => h.passed c ?_
    simp only [past, rxLine, rxHeld, rxHands, List.map_append, privs_append, List.mem_append,
      privs_nil, List.map_nil, List.not_mem_nil] at hc ⊢
    tauto

/-- What a session has been given back went through the forwarder. -/
structure Marked (s : State size) : Prop where
  ahead : Ahead s.fwd
  delivery : Delivery s

theorem start_marked {cbitmap : Words} {cache : File}
    (h : cbitmap.length = bitsToLongs (getDiskNblocks size)) :
    Marked (start cbitmap cache : State size) :=
  ⟨initial_ahead h, fun k ps hps => by simp [start] at hps⟩

theorem step_marked (h : Marked s) (hs : Proxy.step cfg remote s act = some t) : Marked t := by
  have hm := (step_move hs).2
  refine ⟨?_, move_delivery h.delivery hm⟩
  rcases move_fwd hm with heq | ⟨e, hf⟩ | ⟨fa, -, hf⟩
  · rw [heq]
    exact h.ahead
  · exact step_ahead cfg.size_max h.ahead (step_trans hf)
  · exact step_ahead cfg.size_max h.ahead (step_trans hf)

/-- It does not matter in which order parked requests are put back. -/
theorem run_marked {acts : List (Act size)} (h : Marked s)
    (hrun : run (Proxy.step cfg remote) s acts = some t) : Marked t :=
  run_invariant (fun _ _ _ hI _ hs => step_marked hI hs) h (along_true _ s acts) hrun

/-- When a request has been replied to, its blocks are in the bitmap. -/
theorem Marked.replied (h : Marked s) {k : Nat} {ps : Session size}
    (hps : s.sessions[k]? = some ps) {p : Priv size} (hp : p ∈ ps.replied) :
    Shown s.fwd.cbitmap p.call.request := by
  have hd := h.delivery k ps hps
  have hhanded : p ∈ privs s.fwd.handed :=
    (hd.replied_sublist.trans (hd.handed.filterMap priv?)).subset hp
  refine h.ahead.passed p.call (List.mem_map_of_mem ?_)
  rw [privs_append]
  exact List.mem_append_right _ (List.mem_append_left _ hhanded)

end Ahead

section CacheAll

open CacheAll

variable {size : Nat} {cfg : Config size} {remote : File} {cbitmap : Words} {cache : File}
  {obs : Nat → State size} {s : State size} {blocksAtOnce fuel : Nat} {d : Done}

/-- The states of the proxy at the tests of `--cache-all`, and a later state. -/
structure Observes (cfg : Config size) (remote : File) (cbitmap : Words) (cache : File)
    (obs : Nat → State size) (s : State size) : Prop where
  first : ∃ acts, run (Proxy.step cfg remote) (start cbitmap cache) acts = some (obs 0)
  next : ∀ n, ∃ acts, run (Proxy.step cfg remote) (obs n) acts = some (obs (n + 1))
  later : ∀ n, ∃ acts, run (Proxy.step cfg remote) (obs n) acts = some s

/-- What `bitmap_test` of `xnbd-bgctl` finds in the bitmap that the proxy shares. -/
def observed (obs : Nat → State size) (n i : Nat) : Bool := bitmapTest (obs n).fwd.cbitmap i

theorem Observes.growing (h : Observes cfg remote cbitmap cache obs s) :
    Growing (observed obs) := by
  intro m n i hle hbit
  induction n, hle using Nat.le_induction with
  | base => exact hbit
  | succ n _ ih =>
    obtain ⟨acts, hrun⟩ := h.next n
    exact run_bits ih hrun

theorem Observes.marked (h : Observes cfg remote cbitmap cache obs s)
    (hlen : cbitmap.length = bitsToLongs (getDiskNblocks size)) : Marked s := by
  obtain ⟨acts, hrun⟩ := h.first
  obtain ⟨acts', hrun'⟩ := h.later 0
  exact run_marked (start_marked hlen) (run_join hrun hrun')

/-- The reply to a CACHE request of `--cache-all`. -/
def RepliesTo (p : Priv size) (r : CacheRequest) : Prop :=
  p.call.request.iotype = .cache ∧ p.call.request.iofrom = r.iofrom ∧
    p.call.request.iolen = r.iolen

/-- A block of a run that was asked for is one of the blocks of the request. -/
theorem inBlocks_of_run {r : CacheRequest} {p : Priv size} {b : Nat} (hd : size ≤ offMax)
    (hp : RepliesTo p r) (hb : b ∈ CacheAll.run r.first r.afterLast)
    (hlt : b < getDiskNblocks size)
    (hfrom : r.iofrom = (r.first * cblocksize : Nat))
    (hto : r.iofrom + r.iolen = (min size (r.afterLast * cblocksize) : Nat)) :
    p.call.request.InBlocks b := by
  obtain ⟨-, hpfrom, hplen⟩ := hp
  rw [hfrom] at hpfrom
  have h0 : 0 ≤ p.call.request.iofrom := by
    rw [hpfrom]
    exact Int.natCast_nonneg _
  have hstart : p.call.request.start = r.first * cblocksize := by
    rw [Request.start, hpfrom, Int.toNat_natCast]
  rw [CacheAll.run, List.mem_range'_1] at hb
  have hdisk := block_start_lt hlt
  have hcovers : p.call.request.Covers (b * cblocksize) := by
    rw [Request.Covers, hstart, hplen]
    have hlow : r.first * cblocksize ≤ b * cblocksize := Nat.mul_le_mul_right _ hb.1
    have hhigh : b * cblocksize < r.afterLast * cblocksize :=
      Nat.mul_lt_mul_of_pos_right (by omega) (by decide)
    omega
  have hin := inBlocks_of_covers hd h0 hcovers
  rwa [Nat.mul_div_cancel b (by decide)] at hin

/-- Once every request of `--cache-all` has been replied to, `--switch` is not refused. -/
theorem switch_allowed_after_cache_all (hlen : cbitmap.length = bitsToLongs (getDiskNblocks size))
    (hobs : Observes cfg remote cbitmap cache obs s) (hone : 1 ≤ blocksAtOnce)
    (hmax : blocksAtOnce < 2 ^ 64) (hsmall : blocksAtOnce < 2 ^ 20 ∨ size < 2 ^ 32)
    (hfuel : getDiskNblocks size < fuel)
    (hleft : cacheAllBlocksAsync (observed obs) size blocksAtOnce fuel = .left d) {k : Nat}
    {ps : Session size} (hps : s.sessions[k]? = some ps)
    (hreplied : ∀ r ∈ d.requests, ∃ p ∈ ps.replied, RepliesTo p r) :
    switchAllowed s.fwd.cbitmap (getDiskNblocks size) false = true := by
  obtain ⟨d', hleft', hupto, -⟩ :=
    cacheAll_left hobs.growing cfg.size_max (.inr hsmall) hone hmax hfuel
  rw [hleft] at hleft'
  cases hleft'
  have hcovers := hupto.covers
  rw [switchAllowed_iff]
  intro b hb
  have hmem : b ∈ d.requested ++ d.counted :=
    hcovers.partition.mem_iff.mpr (List.mem_range.mpr hb)
  rcases List.mem_append.mp hmem with hrequested | hcounted
  · -- the block was asked for, so the proxy had marked it before it replied
    obtain ⟨r, hr, hrun⟩ := List.mem_flatMap.mp hrequested
    obtain ⟨p, hp, hanswer⟩ := hreplied r hr
    obtain ⟨hfrom, hto⟩ := hcovers.bytes r hr
    have hin := inBlocks_of_run cfg.size_max hanswer hrun hb hfrom hto
    exact (hobs.marked hlen).replied hps hp (.inr (.inl hanswer.1)) b hin
  · -- the block was found cached, and its bit has stayed
    obtain ⟨n, -, hbit⟩ := hcovers.set b hcounted
    obtain ⟨acts, hrun⟩ := hobs.later n
    exact run_bits hbit hrun

end CacheAll

section Example

open CacheAll

/-- A CACHE request for a disk of two bytes. -/
def cacheHeader : List UInt8 :=
  [0x25, 0x60, 0x95, 0x13] ++ [0, 0, 0, 5] ++ List.replicate 16 0 ++ [0, 0, 0, 2]

def cacheBlock : List (Act 2) :=
  submit 0 cacheHeader none ++ sends 6 ++ receives 4 ++ answers 0 3

def isReplyTo (p : Priv 2) (iofrom : Int) (iolen : Nat) : Bool :=
  p.call.request.iotype = .cache ∧ p.call.request.iofrom = iofrom ∧ p.call.request.iolen = iolen

/-- The block is not cached, then it is, and its request has been replied to. -/
theorem cacheBlock_run :
    ∃ s₀ s₁, run (Proxy.step twoBytes fun _ => 7) (start [0] fun _ => 0) [.register] = some s₀ ∧
      run (Proxy.step twoBytes fun _ => 7) s₀ cacheBlock = some s₁ ∧ s₀.fwd.cbitmap = [0] ∧
      s₁.fwd.cbitmap = [1] ∧
      ∃ ps, s₁.sessions[0]? = some ps ∧ ps.replied.any (fun p => isReplyTo p 0 2) = true := by
  have hfirst : (run (Proxy.step twoBytes fun _ => 7) (start [0] fun _ => 0) [.register]).map
      (fun s => s.fwd.cbitmap) = some [0] := by decide
  have hall : (run (Proxy.step twoBytes fun _ => 7) (start [0] fun _ => 0)
      ([.register] ++ cacheBlock)).map (fun s => (s.fwd.cbitmap,
        s.sessions[0]?.map fun ps => ps.replied.any fun p => isReplyTo p 0 2)) =
          some ([1], some true) := by decide
  obtain ⟨s₀, hs₀, hbm₀⟩ := Option.map_eq_some_iff.mp hfirst
  obtain ⟨s₁, hs₁, hproj⟩ := Option.map_eq_some_iff.mp hall
  rw [run_append, hs₀, Option.bind_some] at hs₁
  obtain ⟨hbm₁, hreplied⟩ := Prod.mk.inj hproj
  obtain ⟨ps, hps, hany⟩ := Option.map_eq_some_iff.mp hreplied
  exact ⟨s₀, s₁, hs₀, hs₁, hbm₀, hbm₁, ps, hps, hany⟩

theorem register_orderly (s : State 2) :
    Along (Proxy.step twoBytes fun _ => 7) Linear.Orderly s [.register] :=
  along_orderly (by simp)

theorem cacheBlock_orderly (s : State 2) :
    Along (Proxy.step twoBytes fun _ => 7) Linear.Orderly s cacheBlock :=
  along_orderly (by simp [cacheBlock, submit, sends, receives, answers])

theorem joinForwarder_orderly (s : State 2) :
    Along (Proxy.step twoBytes fun _ => 7) Linear.Orderly s (joinForwarder true) :=
  along_orderly (by simp [joinForwarder])

/-- The disk of two bytes is asked for, and then it may be switched. -/
theorem switch_allowed_after_cache_all_block :
    ∃ s₁ : State 2, (∃ ps, s₁.sessions[0]? = some ps ∧ ps.replied ≠ []) ∧
      switchAllowed s₁.fwd.cbitmap (getDiskNblocks 2) false = true := by
  obtain ⟨s₀, s₁, hs₀, hs₁, hbm₀, hbm₁, ps, hps, hany⟩ := cacheBlock_run
  obtain ⟨p, hp, hreply⟩ := List.any_eq_true.mp hany
  let obs : Nat → State 2 := fun n => if n = 0 then s₀ else s₁
  have hobs : Observes twoBytes (fun _ => 7) [0] (fun _ => 0) obs s₁ := by
    refine ⟨⟨_, hs₀⟩, fun n => ?_, fun n => ?_⟩
    · cases n with
      | zero => exact ⟨_, hs₁⟩
      | succ n => exact ⟨[], rfl⟩
    · cases n with
      | zero => exact ⟨_, hs₁⟩
      | succ n => exact ⟨[], rfl⟩
  have hn : getDiskNblocks 2 = 1 := rfl
  have h0 : observed obs 0 0 = false := by
    show bitmapTest s₀.fwd.cbitmap 0 = false
    rw [hbm₀]
    decide
  have hlater (n : Nat) : observed obs (n + 1) 1 = false := by
    show bitmapTest s₁.fwd.cbitmap 1 = false
    rw [hbm₁]
    decide
  have h1 := hlater 0
  have h2 := hlater 1
  have hleft : cacheAllBlocksAsync (observed obs) 2 1 2 =
      .left ⟨[(0, false), (1, false), (1, false)], [⟨0, 1, 0, 2⟩], [], [.remoteFirst]⟩ := by
    have hrequest (d : Done) := request_eq (show 2 ≤ offMax by decide) (Nat.lt_succ_self 0)
      (Nat.le_of_eq hn.symm) d
    simp [cacheAllBlocksAsync, chunks, chunk, scan, CacheAll.test, hn, hrequest, skip, runLength,
      cblocksize, h0, h1, h2]
  refine ⟨s₁, ⟨ps, hps, List.ne_nil_of_mem hp⟩, ?_⟩
  refine switch_allowed_after_cache_all (by decide) hobs (by decide) (by decide) (.inl (by decide))
    (by decide) hleft hps fun r hr => ⟨p, hp, ?_⟩
  rw [List.mem_singleton.mp hr]
  simpa [isReplyTo, RepliesTo] using hreply

def readTwo : Query 2 where
  request :=
    { iotype := .read
      iofrom := 0
      iolen := 2
      data := []
      admitted := by constructor <;> decide
      payload := by decide }
  handle := 7
  calls := byteByByte

/-- The proxy ends, and the cache file is read in target mode. -/
theorem switch_keeps_disk_block :
    ∃ s : State 2, s.fwd.main = .closed ∧ ∃ d',
      session 4096 (becomeTarget (firstFiles.after s)) [readTwo] =
        some (d', flatOuts (refRun (uncached fun _ => 7) s.fwd.executed).bytes [readTwo]) := by
  obtain ⟨s₀, s₁, hs₀, hs₁, -, hbm₁, -, -⟩ := cacheBlock_run
  have hall : (run (Proxy.step twoBytes fun _ => 7) (start [0] fun _ => 0)
      (([.register] ++ cacheBlock) ++ joinForwarder true)).map (fun s =>
        (s.fwd.main, decide (s.fwd.executed = s.fwd.entered))) = some (.closed, true) := by decide
  obtain ⟨s, hs, hproj⟩ := Option.map_eq_some_iff.mp hall
  obtain ⟨hclosed, hdone⟩ := Prod.mk.inj hproj
  have hbefore := run_join hs₀ hs₁
  rw [run_append, hbefore, Option.bind_some] at hs
  have hswitched : Switched twoBytes (fun _ => 7) firstFiles s₁ s := by
    refine ⟨⟨⟨[], fun _ => 0, 2, true⟩, false, .inr rfl, rfl⟩,
      ⟨_, along_join (register_orderly _) hs₀ (cacheBlock_orderly _), hbefore⟩, ?_,
      ⟨_, joinForwarder_orderly _, hs⟩, hclosed, of_decide_eq_true hdone⟩
    rw [hbm₁]
    decide
  have hmax : 2 ≤ offMax := by decide
  have hasked : Asked readTwo.request := .inl (by decide)
  have hable : Answerable .target readTwo.request := by
    show 2 + 16 < 2 ^ 31
    decide
  have hinside : readTwo.request.start + readTwo.request.iolen ≤ 2 := by decide
  obtain ⟨-, htarget⟩ := switch_keeps_disk twoBytes (fun _ => 7) firstFiles s₁ s hswitched hmax
  obtain ⟨d', hsession, -⟩ := htarget 4096 [readTwo] fun q hq => by
    rw [List.mem_singleton.mp hq]
    exact ⟨hasked, hable, hinside⟩
  exact ⟨s, hclosed, d', hsession⟩

end Example

end Xnbd.Migration
