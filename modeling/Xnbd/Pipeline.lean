import Mathlib.Data.List.Count
import Xnbd.Transitions

/-!
# The queues between the threads

Where the entries are and in which order: the stop marker, the parked and the
prepared requests, the requests of a failed connection, and the remote reads
that are on the wire. None of this depends on the cache or on the bitmap.
-/
namespace Xnbd.Pipeline

open Block Bitmap Bytes Nbd Requests Forwarder Reference Transitions

variable {disksize : Nat}

section Views

def priv? : Entry disksize → Option (Priv disksize)
  | .req p => some p
  | _ => none

/-- The requests of a queue, in order. -/
def privs (q : List (Entry disksize)) : List (Priv disksize) := q.filterMap priv?

/-- Those of them that went through the preparation. -/
def ready (q : List (Entry disksize)) : List (Priv disksize) := (privs q).filter (·.prepareDone)

/-- The entry that `forwarder_tx` holds. -/
def txHeld : TxPc disksize → List (Entry disksize)
  | .got e => [e]
  | .readLoop p _ => [.req p]
  | .writeLoop p _ _ _ => [.req p]
  | .send p _ => [.req p]
  | _ => []

/-- The request that `forwarder_rx` has popped and not carried out. -/
def rxHeld : RxPc disksize → List (Priv disksize)
  | .recv p _ _ => [p]
  | .flushing p _ => [p]
  | _ => []

/-- What `forwarder_tx` will pass on, in order. -/
def txLine (f : Fwd disksize) : List (Entry disksize) := txHeld f.tx ++ f.fwdTxQueue

/-- What `forwarder_rx` will carry out, in order. -/
def rxLine (f : Fwd disksize) : List (Priv disksize) := rxHeld f.rx ++ privs f.fwdRxQueue

@[simp] theorem privs_nil : privs ([] : List (Entry disksize)) = [] := rfl
@[simp] theorem privs_append (a b : List (Entry disksize)) : privs (a ++ b) = privs a ++ privs b := by
  simp [privs]
@[simp] theorem privs_req (p : Priv disksize) (q : List (Entry disksize)) :
    privs (.req p :: q) = p :: privs q := rfl
@[simp] theorem privs_exit (k : Nat) (b : Option Nat) (q : List (Entry disksize)) :
    privs (.exit k b :: q) = privs q := rfl
@[simp] theorem privs_stop (q : List (Entry disksize)) : privs (.stop :: q) = privs q := rfl

theorem mem_privs {p : Priv disksize} {q : List (Entry disksize)} :
    p ∈ privs q ↔ .req p ∈ q := by
  simp only [privs, List.mem_filterMap]
  constructor
  · rintro ⟨e, he, hp⟩
    cases e with
    | req p' =>
      cases hp
      exact he
    | stop => cases hp
    | exit k b => cases hp
  · intro h
    exact ⟨_, h, rfl⟩

@[simp] theorem ready_nil : ready ([] : List (Entry disksize)) = [] := rfl
@[simp] theorem ready_append (a b : List (Entry disksize)) : ready (a ++ b) = ready a ++ ready b := by
  simp [ready]
@[simp] theorem ready_stop (q : List (Entry disksize)) : ready (.stop :: q) = ready q := rfl
@[simp] theorem ready_exit (k : Nat) (b : Option Nat) (q : List (Entry disksize)) :
    ready (.exit k b :: q) = ready q := rfl
theorem ready_req_true {p : Priv disksize} (q : List (Entry disksize)) (h : p.prepareDone = true) :
    ready (.req p :: q) = p :: ready q := by simp [ready, h]
theorem ready_req_false {p : Priv disksize} (q : List (Entry disksize))
    (h : p.prepareDone = false) : ready (.req p :: q) = ready q := by simp [ready, h]

end Views

theorem exited_of_isExited {t : TxPc disksize} (h : t.isExited = true) : t = .exited := by
  cases t with
  | exited => rfl
  | _ => simp [TxPc.isExited] at h

theorem exited_of_rxIsExited {t : RxPc disksize} (h : t.isExited = true) : t = .exited := by
  cases t with
  | exited => rfl
  | _ => simp [RxPc.isExited] at h

/-- The stop marker: there is at most one, it is the last thing each forwarder
thread sees, and a thread that has returned leaves nothing behind. -/
structure Control (f : Fwd disksize) : Prop where
  rxDone : f.rx.isExited = true → f.tx.isExited = true ∧ f.fwdRxQueue = []
  rxStop : .stop ∈ f.fwdRxQueue → f.tx.isExited = true ∧ f.rx.isExited = false ∧
    ∃ q, f.fwdRxQueue = q ++ [.stop] ∧ .stop ∉ q
  loop : f.main = .loop → .stop ∉ txLine f ∧ f.tx.isExited = false
  parked : f.main = .requeue ∨ f.main = .closed → f.tx.isExited = true ∧ f.rx.isExited = true
  once : (txLine f).count .stop ≤ 1
  txDone : f.tx.isExited = true → .stop ∉ f.fwdTxQueue

section Control

variable {cfg : Config disksize} {remote : File} {f g : Fwd disksize} {a : Action disksize}

theorem Control.running (h : Control f) (htx : f.tx.isExited = false ∨ f.rx.isExited = false) :
    f.main ≠ .requeue := by
  intro hm
  have hp := h.parked (.inl hm)
  rcases htx with ht | hr
  · simp [hp.1] at ht
  · simp [hp.2] at hr

theorem initial_control (cbitmap : Words) (cache : File) :
    Control (initial cbitmap cache : Fwd disksize) := by
  constructor <;> simp [initial, txLine, txHeld, TxPc.isExited, RxPc.isExited]

/-- Steps of `forwarder_tx` other than passing the marker on. -/
theorem Control.txStep (h : Control f) (hmain : g.main = f.main) (hrx : g.rx = f.rx)
    (htx : f.tx.isExited = false) (htx' : g.tx.isExited = false)
    (hline : (txLine g).count .stop = (txLine f).count .stop)
    (hq : g.fwdRxQueue = f.fwdRxQueue ∨ ∃ e, e ≠ .stop ∧ g.fwdRxQueue = f.fwdRxQueue ++ [e]) :
    Control g := by
  have hnostop : .stop ∉ f.fwdRxQueue := fun hm => by
    have := (h.rxStop hm).1
    simp [htx] at this
  have hnostop' : .stop ∉ g.fwdRxQueue := by
    rcases hq with hq | ⟨e, he, hq⟩
    · rw [hq]
      exact hnostop
    · rw [hq, List.mem_append, List.mem_singleton, not_or]
      exact ⟨hnostop, fun h => he h.symm⟩
  constructor
  · intro hx
    rw [hrx] at hx
    have := (h.rxDone hx).1
    simp [htx] at this
  · intro hm
    exact absurd hm hnostop'
  · intro hm
    rw [hmain] at hm
    refine ⟨?_, htx'⟩
    rw [← List.count_eq_zero, hline, List.count_eq_zero]
    exact (h.loop hm).1
  · intro hm
    rw [hmain] at hm
    have := (h.parked hm).1
    simp [htx] at this
  · rw [hline]
    exact h.once
  · intro hx
    simp [htx'] at hx

/-- Steps of `forwarder_rx` other than taking the marker. -/
theorem Control.rxStep (h : Control f) (hmain : g.main = f.main) (htx : g.tx = f.tx)
    (htxq : g.fwdTxQueue = f.fwdTxQueue) (hrx : f.rx.isExited = false)
    (hrx' : g.rx.isExited = false)
    (hq : g.fwdRxQueue = f.fwdRxQueue ∨ ∃ e, e ≠ .stop ∧ f.fwdRxQueue = e :: g.fwdRxQueue) :
    Control g := by
  have hline : txLine g = txLine f := by simp only [txLine, htx, htxq]
  constructor
  · intro hx
    simp [hrx'] at hx
  · intro hm
    rcases hq with hq | ⟨e, he, hq⟩
    · rw [hq] at hm ⊢
      rw [htx]
      obtain ⟨ht, -, q, hlast⟩ := h.rxStop hm
      exact ⟨ht, hrx', q, hlast⟩
    · obtain ⟨ht, -, q, hlast, hnot⟩ := h.rxStop (by rw [hq]; exact List.mem_cons_of_mem _ hm)
      rw [htx]
      refine ⟨ht, hrx', ?_⟩
      rw [hq] at hlast
      cases q with
      | nil =>
        simp only [List.nil_append, List.cons.injEq] at hlast
        exact absurd hlast.1 he
      | cons e' q =>
        simp only [List.cons_append, List.cons.injEq] at hlast
        exact ⟨q, hlast.2, fun hmem => hnot (List.mem_cons_of_mem _ hmem)⟩
  · intro hm
    rw [hmain] at hm
    rw [hline, htx]
    exact h.loop hm
  · intro hm
    rw [hmain] at hm
    have := (h.parked hm).2
    simp [hrx] at this
  · rw [hline]
    exact h.once
  · rw [htx, htxq]
    exact h.txDone

theorem Control.pushStep (h : Control f) {e : Entry disksize} (he : e ≠ .stop)
    (hg : g.main = f.main ∧ g.tx = f.tx ∧ g.rx = f.rx ∧ g.fwdRxQueue = f.fwdRxQueue ∧
      g.fwdTxQueue = f.fwdTxQueue ++ [e]) : Control g := by
  obtain ⟨hmain, htx, hrx, hrxq, htxq⟩ := hg
  have hline : txLine g = txLine f ++ [e] := by simp only [txLine, htx, htxq, List.append_assoc]
  constructor
  · rw [hrx, htx, hrxq]
    exact h.rxDone
  · rw [hrx, htx, hrxq]
    exact h.rxStop
  · intro hm
    rw [hmain] at hm
    rw [hline, htx, List.mem_append, List.mem_singleton, not_or]
    exact ⟨⟨(h.loop hm).1, fun he' => he he'.symm⟩, (h.loop hm).2⟩
  · rw [hmain, htx, hrx]
    exact h.parked
  · rw [hline, List.count_append, List.count_singleton]
    simpa [he] using h.once
  · intro hx
    rw [htx] at hx
    rw [htxq, List.mem_append, List.mem_singleton, not_or]
    exact ⟨h.txDone hx, fun he' => he he'.symm⟩

/-- `forwarder_tx` passes the marker on and returns. -/
theorem Control.txStop (h : Control f) (htx : f.tx = .got .stop) :
    Control { f with fwdRxQueue := f.fwdRxQueue ++ [.stop], tx := .exited } := by
  have hne : f.tx.isExited = false := by simp [htx, TxPc.isExited]
  have hnostop : .stop ∉ f.fwdRxQueue := fun hm => by
    have := (h.rxStop hm).1
    simp [hne] at this
  have hrx : f.rx.isExited = false := by
    by_contra hx
    have := (h.rxDone (by simpa using hx)).1
    simp [hne] at this
  have honce : .stop ∉ f.fwdTxQueue := by
    have := h.once
    rw [txLine, htx, txHeld, List.count_append, List.count_singleton_self] at this
    exact List.count_eq_zero.mp (by omega)
  constructor
  · intro hx
    simp [hrx] at hx
  · intro _
    exact ⟨rfl, hrx, f.fwdRxQueue, rfl, hnostop⟩
  · intro hm
    have := (h.loop hm).1
    simp [txLine, htx, txHeld] at this
  · intro hm
    have := (h.parked hm).1
    simp [hne] at this
  · simp only [txLine, txHeld, List.nil_append]
    rw [List.count_eq_zero.mpr honce]
    exact Nat.zero_le 1
  · intro _
    exact honce

/-- `forwarder_rx` takes the marker and returns. -/
theorem Control.rxTakesStop (h : Control f) {rest : List (Entry disksize)}
    (hq : f.fwdRxQueue = .stop :: rest) :
    Control { f with fwdRxQueue := rest, rx := .exited } := by
  obtain ⟨htx, -, q, hlast, hnot⟩ := h.rxStop (by simp [hq])
  have hrest : rest = [] := by
    cases q with
    | nil => simpa [hq] using hlast
    | cons e q =>
      rw [hq, List.cons_append, List.cons.injEq] at hlast
      exact absurd (hlast.1 ▸ List.mem_cons_self) hnot
  constructor
  · intro _
    exact ⟨htx, hrest⟩
  · intro hm
    simp [hrest] at hm
  · exact h.loop
  · intro hm
    exact ⟨(h.parked hm).1, rfl⟩
  · exact h.once
  · exact h.txDone

/-- The main thread sends the marker. -/
theorem Control.stop (h : Control f) (hm : f.main = .loop) (final : Bool) :
    Control { f with fwdTxQueue := f.fwdTxQueue ++ [.stop], main := .joining final } := by
  obtain ⟨hno, htx⟩ := h.loop hm
  constructor
  · exact h.rxDone
  · exact h.rxStop
  · intro hm'
    cases hm'
  · intro hm'
    rcases hm' with hm' | hm' <;> cases hm'
  · have hline : txLine f ++ [Entry.stop] =
        txHeld f.tx ++ (f.fwdTxQueue ++ [Entry.stop]) := by simp [txLine]
    simp only [txLine]
    rw [← hline, List.count_append, List.count_eq_zero.mpr hno]
    simp
  · intro hx
    simp [htx] at hx

/-- Both threads have returned. -/
theorem Control.joined (h : Control f) (htx : f.tx.isExited = true) (hrx : f.rx.isExited = true)
    (final : Bool) : Control { f with main := if final then .closed else .requeue } where
  rxDone := h.rxDone
  rxStop := h.rxStop
  loop := by
    intro hm
    cases final <;> simp at hm
  parked _ := ⟨htx, hrx⟩
  once := h.once
  txDone := h.txDone

/-- Both threads are started again. -/
theorem Control.restart (h : Control f) (hm : f.main = .requeue) :
    Control { f with
      main := .loop
      tx := .idle
      rx := .idle
      sendingFailed := false
      receivingFailed := false
      wire := [] } := by
  obtain ⟨htx, hrx⟩ := h.parked (.inl hm)
  have hrxq := (h.rxDone hrx).2
  have hno := h.txDone htx
  constructor
  · intro hx
    cases hx
  · intro hm'
    simp [hrxq] at hm'
  · intro _
    exact ⟨by simpa [txLine, txHeld] using hno, rfl⟩
  · intro hm'
    rcases hm' with hm' | hm' <;> cases hm'
  · simp only [txLine, txHeld, List.nil_append]
    rw [List.count_eq_zero.mpr hno]
    exact Nat.zero_le 1
  · intro hx
    cases hx

theorem step_control (h : Control f) (ht : Trans cfg remote f a g) : Control g := by
  cases ht with
  | abort => exact ⟨h.rxDone, h.rxStop, h.loop, h.parked, h.once, h.txDone⟩
  | pushExit k b => exact h.pushStep (e := .exit k b) (by simp) ⟨rfl, rfl, rfl, rfl, rfl⟩
  | pushReq c => exact h.pushStep (e := .req (.fresh c)) (by simp) ⟨rfl, rfl, rfl, rfl, rfl⟩
  | txPopFresh sent p rest htx hq hp
  | txPop sent e rest htx hq he =>
    refine h.txStep rfl rfl (by simp [htx, TxPc.isExited]) rfl ?_ (.inl rfl)
    simp [txLine, txHeld, htx, hq]
  | txStop sent htx => exact h.txStop htx
  | txExit sent k b htx =>
    refine h.txStep rfl rfl (by simp [htx, TxPc.isExited]) rfl ?_ (.inr ⟨.exit k b, by simp, rfl⟩)
    simp [txLine, txHeld, htx]
  | txAgain sent p htx hp
  | txStartRead sent p htx hp hr
  | txStartWrite sent p htx hp hr
  | txReadBlock sent p i bm req htx hi hb
  | txWriteBlock sent p gs ge i bm htx hi hb
  | txSent p i rr htx hrr
  | txSendFailed p i rr htx hrr =>
    refine h.txStep rfl rfl (by simp [htx, TxPc.isExited]) rfl ?_ (.inl rfl)
    simp [txLine, txHeld, htx]
  | txPlain sent p htx hp hr
  | txReadDone sent p i htx hi
  | txWriteDone sent p gs ge i htx hi =>
    refine h.txStep rfl rfl (by simp [htx, TxPc.isExited]) rfl ?_ (.inl rfl)
    simp [txLine, txHeld, htx, Fwd.finishPrepare]
  | txPass sent p i htx hrr =>
    refine h.txStep rfl rfl (by simp [htx, TxPc.isExited]) rfl ?_ (.inr ⟨.req _, by simp, rfl⟩)
    simp [txLine, txHeld, htx]
  | rxStop ev rest hrx hq => exact h.rxTakesStop hq
  | rxExit ev k b rest hrx hq
  | rxTake ev p rest mbr hrx hq hm =>
    exact h.rxStep rfl rfl rfl (by simp [hrx, RxPc.isExited]) rfl (.inr ⟨_, by simp, hq⟩)
  | rxReply p mbr i rr hrx hrr hw
  | rxStray p mbr i rr bytes hrx hrr hw hlen
  | rxFailed p mbr i rr bytes hrx hrr hlen
  | rxPark ev p mbr i hrx hrr hp
  | rxFlush ev p mbr i hrx hrr hp hf hr
  | rxExecute ev p mbr i cache readBuff hrx hrr hp hf hr hcache hbuff
  | rxSync ev p synced hrx
  | rxHand ev e hrx => exact h.rxStep rfl rfl rfl (by simp [hrx, RxPc.isExited]) rfl (.inl rfl)
  | stop final hm => exact h.stop hm final
  | joined final hm htx hrx => exact h.joined htx hrx final
  | requeue p rest hm hq => exact h.pushStep (e := .req _) (by simp) ⟨rfl, rfl, rfl, rfl, rfl⟩
  | restart hm hq => exact h.restart hm

end Control

section Shape

variable {cfg : Config disksize} {remote : File} {f g : Fwd disksize} {a : Action disksize}

def isReady : Entry disksize → Bool
  | .req p => p.prepareDone
  | _ => false

/-- A request that is still to be prepared, or the marker. -/
def isWaiting : Entry disksize → Bool
  | .req p => !p.prepareDone
  | .stop => true
  | .exit _ _ => false

/-- Requests that were prepared before come before everything that waits. -/
def ReadyFirst (q : List (Entry disksize)) : Prop :=
  q.Pairwise fun a b => isWaiting a = true → isReady b = false

/-- How far `forwarder_tx` is with the request it holds. -/
def TxShape : TxPc disksize → Prop
  | .got (.req p) => p.prepareDone = false → p = Priv.fresh p.call
  | .readLoop p _ => p.prepareDone = false
  | .writeLoop p _ _ _ => p.prepareDone = false ∧ p.req = []
  | .send p _ => p.prepareDone = true
  | _ => True

/-- Where prepared requests can be. -/
structure Shape (f : Fwd disksize) : Prop where
  queued : ∀ p ∈ privs f.fwdTxQueue, p.prepareDone = false → p = Priv.fresh p.call
  held : TxShape f.tx
  flags : ∀ p ∈ privs (txLine f), p.needRetry = false
  passed : ∀ p ∈ f.fwdRetryQueue ++ rxLine f, p.prepareDone = true
  first : ReadyFirst (txLine f)
  drained : f.tx.isExited = true → f.main ≠ .requeue → ready f.fwdTxQueue = []

/-- A parked request is put back only while no request waits in `fwd_tx_queue`
that the forwarder has not seen yet. -/
def Orderly (f : Fwd disksize) : Action disksize → Prop
  | .requeue => f.fwdRetryQueue ≠ [] → ∀ p ∈ privs f.fwdTxQueue, p.prepareDone = true
  | _ => True

instance (f : Fwd disksize) : (a : Action disksize) → Decidable (Orderly f a)
  | .requeue => inferInstanceAs (Decidable (_ → _))
  | .push _ => isTrue trivial
  | .tx _ => isTrue trivial
  | .rx _ => isTrue trivial
  | .stop _ => isTrue trivial
  | .joined => isTrue trivial

theorem ready_eq_nil {q : List (Entry disksize)} (h : ∀ e ∈ q, isReady e = false) :
    ready q = [] := by
  rw [ready, List.filter_eq_nil_iff]
  intro p hp
  simpa [isReady] using h _ (mem_privs.mp hp)

theorem initial_shape (cbitmap : Words) (cache : File) :
    Shape (initial cbitmap cache : Fwd disksize) := by
  constructor <;> simp [initial, txLine, txHeld, rxLine, rxHeld, TxShape, ReadyFirst]

/-- Only the request that `forwarder_tx` holds changes. -/
theorem Shape.works (h : Shape f) {p p' : Priv disksize} (hold : txHeld f.tx = [.req p])
    (hnew : txHeld g.tx = [.req p']) (hq : g.fwdTxQueue = f.fwdTxQueue) (hheld : TxShape g.tx)
    (hflag : p'.needRetry = p.needRetry) (hd : p.prepareDone = true → p'.prepareDone = true)
    (hrx : g.fwdRetryQueue = f.fwdRetryQueue ∧ rxLine g = rxLine f) : Shape g where
  queued := by
    rw [hq]
    exact h.queued
  held := hheld
  flags := by
    have hp := h.flags
    simp only [txLine, hold, hnew, hq, List.singleton_append, privs_req, List.mem_cons,
      forall_eq_or_imp] at hp ⊢
    exact ⟨hflag.trans hp.1, hp.2⟩
  passed := by
    rw [hrx.1, hrx.2]
    exact h.passed
  first := by
    have hf := h.first
    rw [ReadyFirst, txLine, hold, List.singleton_append, List.pairwise_cons] at hf
    rw [ReadyFirst, txLine, hnew, hq, List.singleton_append, List.pairwise_cons]
    refine ⟨fun b hb hw => hf.1 b hb ?_, hf.2⟩
    cases hpd : p.prepareDone with
    | false => simp [isWaiting, hpd]
    | true => simp [isWaiting, hd hpd] at hw
  drained := by
    intro hx
    cases ht : g.tx with
    | exited => simp [ht, txHeld] at hnew
    | _ => simp [ht, TxPc.isExited] at hx

/-- `forwarder_tx` takes the first entry. -/
theorem Shape.pops (h : Shape f) {e : Entry disksize} (htx : f.tx = .idle)
    (hg : g.tx = .got e) (hq : f.fwdTxQueue = e :: g.fwdTxQueue)
    (hrx : g.fwdRetryQueue = f.fwdRetryQueue ∧ rxLine g = rxLine f) : Shape g := by
  have hline : txLine g = txLine f := by simp [txLine, hg, htx, txHeld, hq]
  constructor
  · intro p hp
    apply h.queued p
    rw [hq, mem_privs]
    exact List.mem_cons_of_mem _ (mem_privs.mp hp)
  · rw [hg]
    cases e with
    | req p => exact h.queued p (by simp [hq])
    | stop => trivial
    | exit k b => trivial
  · rw [hline]
    exact h.flags
  · rw [hrx.1, hrx.2]
    exact h.passed
  · rw [hline]
    exact h.first
  · simp [hg, TxPc.isExited]

/-- `forwarder_tx` lets its entry go. -/
theorem Shape.passes (h : Shape f) {e : Entry disksize} (hold : txHeld f.tx = [e])
    (hnew : txHeld g.tx = []) (hshape : TxShape g.tx) (hq : g.fwdTxQueue = f.fwdTxQueue)
    (hretry : g.fwdRetryQueue = f.fwdRetryQueue)
    (hrx : ∀ p ∈ rxLine g, p ∈ rxLine f ∨ p.prepareDone = true)
    (hex : g.tx.isExited = true → e = .stop) : Shape g := by
  have hline : txLine f = e :: txLine g := by simp [txLine, hold, hnew, hq]
  have hf := h.first
  rw [ReadyFirst, hline, List.pairwise_cons] at hf
  constructor
  · rw [hq]
    exact h.queued
  · exact hshape
  · intro p hp
    apply h.flags p
    rw [hline, mem_privs]
    exact List.mem_cons_of_mem _ (mem_privs.mp hp)
  · intro p hp
    rw [hretry, List.mem_append] at hp
    rcases hp with hp | hp
    · exact h.passed p (List.mem_append_left _ hp)
    · rcases hrx p hp with hp | hp
      · exact h.passed p (List.mem_append_right _ hp)
      · exact hp
  · exact hf.2
  · intro hx _
    apply ready_eq_nil
    intro e' he'
    apply hf.1 e'
    · simpa [txLine, hnew] using he'
    · rw [hex hx]
      rfl

/-- Steps that leave `fwd_tx_queue` and its reader alone. -/
theorem Shape.rxStep (h : Shape f) (hg : g.main = f.main ∧ g.tx = f.tx ∧
      g.fwdTxQueue = f.fwdTxQueue)
    (hp : ∀ p ∈ g.fwdRetryQueue ++ rxLine g, p.prepareDone = true) : Shape g := by
  obtain ⟨hmain, htx, hq⟩ := hg
  have hline : txLine g = txLine f := by simp only [txLine, htx, hq]
  exact ⟨hq ▸ h.queued, htx ▸ h.held, hline ▸ h.flags, hp, hline ▸ h.first,
    by rw [htx, hmain, hq]; exact h.drained⟩

theorem ReadyFirst.concat {q : List (Entry disksize)} {e : Entry disksize} (h : ReadyFirst q)
    (he : isReady e = true → ∀ a ∈ q, isWaiting a = false) : ReadyFirst (q ++ [e]) := by
  rw [ReadyFirst, List.pairwise_append]
  refine ⟨h, List.pairwise_singleton _ _, fun a ha b hb hw => ?_⟩
  rw [List.mem_singleton] at hb
  subst hb
  cases hr : isReady b with
  | false => rfl
  | true => simp [he hr a ha] at hw

/-- A new entry at the end of `fwd_tx_queue`. -/
theorem Shape.pushStep (h : Shape f) {e : Entry disksize}
    (hg : g.main = f.main ∧ g.tx = f.tx ∧ g.fwdTxQueue = f.fwdTxQueue ++ [e] ∧
      g.fwdRetryQueue = f.fwdRetryQueue ∧ rxLine g = rxLine f)
    (he : ∀ p, e = .req p → p = Priv.fresh p.call) : Shape g := by
  obtain ⟨hmain, htx, hq, hretry, hrx⟩ := hg
  have hline : txLine g = txLine f ++ [e] := by simp only [txLine, htx, hq, List.append_assoc]
  have hready : isReady e = false := by
    cases e with
    | req p =>
      rw [he p rfl]
      rfl
    | stop => rfl
    | exit k b => rfl
  have hone : ready [e] = [] := ready_eq_nil (by simpa using hready)
  constructor
  · intro p hp hd
    rw [hq, privs_append, List.mem_append] at hp
    rcases hp with hp | hp
    · exact h.queued p hp hd
    · rw [mem_privs, List.mem_singleton] at hp
      exact he p hp.symm
  · rw [htx]
    exact h.held
  · intro p hp
    rw [hline, privs_append, List.mem_append] at hp
    rcases hp with hp | hp
    · exact h.flags p hp
    · rw [mem_privs, List.mem_singleton] at hp
      rw [he p hp.symm]
      rfl
  · rw [hretry, hrx]
    exact h.passed
  · rw [hline]
    exact h.first.concat fun hr => by simp [hready] at hr
  · rw [htx, hmain, hq, ready_append, hone, List.append_nil]
    exact h.drained

/-- A parked request joins `fwd_tx_queue` behind requests that are prepared as well. -/
theorem Shape.requeue (h : Shape f) (hc : Control f) (hm : f.main = .requeue) {p : Priv disksize}
    {rest : List (Priv disksize)} (hq : f.fwdRetryQueue = p :: rest)
    (hall : ∀ p ∈ privs f.fwdTxQueue, p.prepareDone = true) :
    Shape { f with
      fwdRetryQueue := rest
      fwdTxQueue := f.fwdTxQueue ++ [.req { p with needRetry := false }] } := by
  obtain ⟨htx, -⟩ := hc.parked (.inl hm)
  have hpd := h.passed p (by simp [hq])
  have hheld : txHeld f.tx = [] := by
    rw [exited_of_isExited htx]
    rfl
  have hflag := h.flags
  have hfirst := h.first
  simp only [txLine, hheld, List.nil_append] at hflag hfirst
  constructor
  · intro p' hp' hd
    simp only [privs_append, privs_req, privs_nil, List.mem_append, List.mem_singleton] at hp'
    rcases hp' with hp' | rfl
    · exact h.queued p' hp' hd
    · simp [hpd] at hd
  · exact h.held
  · intro p' hp'
    simp only [txLine, hheld, List.nil_append, privs_append, privs_req, privs_nil,
      List.mem_append, List.mem_singleton] at hp'
    rcases hp' with hp' | rfl
    · exact hflag p' hp'
    · rfl
  · intro p' hp'
    apply h.passed p'
    rw [hq]
    simp only [List.mem_append] at hp'
    rcases hp' with hp' | hp'
    · simp [hp']
    · exact List.mem_append_right _ hp'
  · simp only [txLine, hheld, List.nil_append]
    apply hfirst.concat
    intro _ e he
    cases e with
    | req p' => simp [isWaiting, hall p' (mem_privs.mpr he)]
    | stop => exact absurd he (hc.txDone htx)
    | exit k b => rfl
  · intro _ hne
    exact absurd hm hne

/-- The threads are started again with what is in their queues. -/
theorem Shape.restart (h : Shape f) (hc : Control f) (hm : f.main = .requeue) :
    Shape { f with
      main := .loop
      tx := .idle
      rx := .idle
      sendingFailed := false
      receivingFailed := false
      wire := [] } := by
  obtain ⟨htx, -⟩ := hc.parked (.inl hm)
  have hline : txLine f = f.fwdTxQueue := by
    rw [txLine, exited_of_isExited htx]
    rfl
  have hflags := h.flags
  have hfirst := h.first
  rw [hline] at hflags hfirst
  refine ⟨h.queued, trivial, hflags, fun p hp => h.passed p ?_, hfirst, by simp [TxPc.isExited]⟩
  simp only [rxLine, rxHeld, List.nil_append] at hp
  rcases List.mem_append.mp hp with hp | hp <;> simp [rxLine, hp]

theorem step_shape (hc : Control f) (h : Shape f) (ho : Orderly f a)
    (ht : Trans cfg remote f a g) : Shape g := by
  cases ht with
  | abort => exact ⟨h.queued, h.held, h.flags, h.passed, h.first, h.drained⟩
  | pushExit k b => exact h.pushStep (e := .exit k b) ⟨rfl, rfl, rfl, rfl, rfl⟩ (by simp)
  | pushReq c =>
    refine h.pushStep (e := .req (.fresh c)) ⟨rfl, rfl, rfl, rfl, rfl⟩ ?_
    intro p hp
    cases hp
    rfl
  | txPopFresh sent p rest htx hq hp
  | txPop sent e rest htx hq he => exact h.pops htx rfl hq ⟨rfl, rfl⟩
  | txStop sent htx =>
    exact h.passes (e := .stop) (by simp [htx, txHeld]) rfl trivial rfl rfl
      (fun p hp => .inl (by simpa [rxLine] using hp)) fun _ => rfl
  | txExit sent k b htx =>
    exact h.passes (e := .exit k b) (by simp [htx, txHeld]) rfl trivial rfl rfl
      (fun p hp => .inl (by simpa [rxLine] using hp)) (by simp [TxPc.isExited])
  | txAgain sent p htx hp
  | txStartRead sent p htx hp hr =>
    exact h.works (p := p) (by simp [htx, txHeld]) rfl rfl hp rfl id ⟨rfl, rfl⟩
  | txStartWrite sent p htx hp hr =>
    have hreq : p.req = [] := by
      have hheld := h.held
      rw [htx] at hheld
      rw [hheld hp]
      rfl
    exact h.works (p := p) (by simp [htx, txHeld]) rfl rfl ⟨hp, hreq⟩ rfl id ⟨rfl, rfl⟩
  | txPlain sent p htx hp hr
  | txReadDone sent p i htx hi
  | txWriteDone sent p gs ge i htx hi =>
    exact h.works (p := p) (by simp [htx, txHeld]) rfl rfl rfl rfl (fun _ => rfl) ⟨rfl, rfl⟩
  | txReadBlock sent p i bm req htx hi hb =>
    have hp : p.prepareDone = false := by simpa [htx, TxShape] using h.held
    exact h.works (p := p) (by simp [htx, txHeld]) rfl rfl hp rfl id ⟨rfl, rfl⟩
  | txWriteBlock sent p gs ge i bm htx hi hb =>
    have hp : p.prepareDone = false ∧ p.req = [] := by simpa [htx, TxShape] using h.held
    exact h.works (p := p) (by simp [htx, txHeld]) rfl rfl hp rfl id ⟨rfl, rfl⟩
  | txSent p i rr htx hrr
  | txSendFailed p i rr htx hrr =>
    have hp : p.prepareDone = true := by simpa [htx, TxShape] using h.held
    exact h.works (p := p) (by simp [htx, txHeld]) rfl rfl hp rfl id ⟨rfl, rfl⟩
  | txPass sent p i htx hrr =>
    have hp : p.prepareDone = true := by simpa [htx, TxShape] using h.held
    refine h.passes (e := .req p) (by simp [htx, txHeld]) rfl trivial rfl rfl ?_
      (by simp [TxPc.isExited])
    intro p' hp'
    simp only [rxLine, privs_append, privs_req, privs_nil, ← List.append_assoc] at hp'
    rw [List.mem_append, List.mem_singleton] at hp'
    rcases hp' with hp' | rfl
    · exact .inl hp'
    · exact .inr hp
  | rxStop ev rest hrx hq
  | rxExit ev k b rest hrx hq
  | rxTake ev p rest mbr hrx hq hm =>
    refine h.rxStep ⟨rfl, rfl, rfl⟩ fun p hp => h.passed p ?_
    simpa [rxLine, hrx, rxHeld, hq] using hp
  | rxReply p mbr i rr hrx hrr hw
  | rxStray p mbr i rr bytes hrx hrr hw hlen
  | rxFailed p mbr i rr bytes hrx hrr hlen
  | rxFlush ev p mbr i hrx hrr hp hf hr
  | rxHand ev e hrx =>
    refine h.rxStep ⟨rfl, rfl, rfl⟩ fun p hp => h.passed p ?_
    simpa [rxLine, hrx, rxHeld] using hp
  | rxPark ev p mbr i hrx hrr hp =>
    refine h.rxStep ⟨rfl, rfl, rfl⟩ fun p' hp' => ?_
    have hpd := h.passed p (by simp [rxLine, hrx, rxHeld])
    simp only [rxLine, rxHeld, List.nil_append, List.append_assoc, List.mem_append,
      List.mem_singleton] at hp'
    rcases hp' with hp' | rfl | hp'
    · exact h.passed p' (by simp [hp'])
    · exact hpd
    · exact h.passed p' (by simp [rxLine, hp'])
  | rxExecute ev p mbr i cache readBuff hrx hrr hp hf hr hcache hbuff
  | rxSync ev p synced hrx =>
    refine h.rxStep ⟨rfl, rfl, rfl⟩ fun p hp => h.passed p ?_
    simp only [rxLine, rxHeld, List.nil_append] at hp
    rcases List.mem_append.mp hp with hp | hp <;> simp [rxLine, hp]
  | stop final hm =>
    refine Shape.pushStep (f := { f with main := .joining final }) (e := .stop) ?_
      ⟨rfl, rfl, rfl, rfl, rfl⟩ (by simp)
    refine ⟨h.queued, h.held, h.flags, h.passed, h.first, fun hx => ?_⟩
    simp [(hc.loop hm).2] at hx
  | joined final hm htx hrx =>
    refine ⟨h.queued, h.held, h.flags, h.passed, h.first, fun hx _ => ?_⟩
    exact h.drained hx (by simp [hm])
  | requeue p rest hm hq => exact h.requeue hc hm hq (ho (by simp [hq]))
  | restart hm hq => exact h.restart hc hm

end Shape

section Failing

variable {cfg : Config disksize} {remote : File} {f g : Fwd disksize} {a : Action disksize}

/-- A failed connection fails for everything behind the first victim: once a
request is parked, all that follow it are. -/
structure Failing (f : Fwd disksize) : Prop where
  upward : (rxLine f).Pairwise fun a b => a.needRetry = true → b.needRetry = true
  sent : ∀ p ∈ rxLine f, p.needRetry = true → f.sendingFailed = true
  parked : f.fwdRetryQueue ≠ [] → f.main ≠ .requeue →
    f.receivingFailed = true ∨ f.sendingFailed = true ∧ ∀ p ∈ rxLine f, p.needRetry = true

theorem initial_failing (cbitmap : Words) (cache : File) :
    Failing (initial cbitmap cache : Fwd disksize) := by
  constructor <;> simp [initial, rxLine, rxHeld]

/-- Steps that move nothing between the connection's queues. -/
theorem Failing.keep (h : Failing f) (hrx : rxLine g = rxLine f)
    (hretry : g.fwdRetryQueue = f.fwdRetryQueue) (hmain : f.main = .requeue → g.main = .requeue)
    (hs : f.sendingFailed = true → g.sendingFailed = true)
    (hr : f.receivingFailed = true → g.receivingFailed = true) : Failing g := by
  refine ⟨hrx ▸ h.upward, fun p hp hn => hs (h.sent p (hrx ▸ hp) hn), fun hne hm => ?_⟩
  rcases h.parked (hretry ▸ hne) fun hm' => hm (hmain hm') with hf | ⟨hf, hall⟩
  · exact .inl (hr hf)
  · exact .inr ⟨hs hf, fun p hp => hall p (hrx ▸ hp)⟩

/-- `forwarder_rx` is done with its request. -/
theorem Failing.done (h : Failing f) {p : Priv disksize} (hrx : rxLine f = p :: rxLine g)
    (hmain : g.main = f.main) (hs : g.sendingFailed = f.sendingFailed)
    (hr : g.receivingFailed = f.receivingFailed)
    (hretry : g.fwdRetryQueue = f.fwdRetryQueue ∨
      p.needRetry = true ∨ f.receivingFailed = true) : Failing g := by
  have hup := h.upward
  rw [hrx, List.pairwise_cons] at hup
  have hmem : ∀ p' ∈ rxLine g, p' ∈ rxLine f := fun p' hp' => by
    rw [hrx]
    exact List.mem_cons_of_mem _ hp'
  refine ⟨hup.2, fun p' hp' hn => hs ▸ h.sent p' (hmem p' hp') hn, fun hne hm => ?_⟩
  rw [hr, hs]
  rcases hretry with hretry | hp | hf
  · rcases h.parked (hretry ▸ hne) (hmain ▸ hm) with hf | ⟨hf, hall⟩
    · exact .inl hf
    · exact .inr ⟨hf, fun p' hp' => hall p' (hmem p' hp')⟩
  · have hpm : p ∈ rxLine f := by rw [hrx]; exact List.mem_cons_self
    exact .inr ⟨h.sent p hpm hp, fun p' hp' => hup.1 p' hp' hp⟩
  · exact .inl hf

/-- A request that is carried out has no parked one before it. -/
theorem Failing.unparked (h : Failing f) (hm : f.main ≠ .requeue) {p : Priv disksize}
    (hp : p ∈ rxLine f) (hn : p.needRetry = false) (hr : f.receivingFailed = false) :
    f.fwdRetryQueue = [] := by
  by_contra hne
  rcases h.parked hne hm with hf | ⟨-, hall⟩
  · simp [hr] at hf
  · simp [hall p hp] at hn

theorem step_failing (hc : Control f) (hsh : Shape f) (h : Failing f)
    (ht : Trans cfg remote f a g) : Failing g := by
  cases ht with
  | abort
  | pushExit k b
  | pushReq c
  | txPopFresh sent p rest htx hq hp
  | txPop sent e rest htx hq he
  | txAgain sent p htx hp
  | txStartRead sent p htx hp hr
  | txStartWrite sent p htx hp hr
  | txPlain sent p htx hp hr
  | txReadBlock sent p i bm req htx hi hb
  | txReadDone sent p i htx hi
  | txWriteBlock sent p gs ge i bm htx hi hb
  | txWriteDone sent p gs ge i htx hi
  | txSent p i rr htx hrr => exact h.keep rfl rfl id id id
  | txStop sent htx
  | txExit sent k b htx => exact h.keep (by simp [rxLine]) rfl id id id
  | txSendFailed p i rr htx hrr => exact h.keep rfl rfl id (fun _ => rfl) id
  | txPass sent p i htx hrr =>
    have hn : p.needRetry = false := hsh.flags p (by simp [txLine, htx, txHeld])
    have hline : ∀ q, rxHeld f.rx ++ privs (f.fwdRxQueue ++ [.req q]) = rxLine f ++ [q] := by
      simp [rxLine]
    constructor
    · simp only [rxLine, hline]
      rw [List.pairwise_append]
      refine ⟨h.upward, List.pairwise_singleton _ _, fun a ha b hb hr => ?_⟩
      rw [List.mem_singleton] at hb
      simp [hb, h.sent a ha hr]
    · intro p' hp' hr
      rw [rxLine, hline, List.mem_append, List.mem_singleton] at hp'
      rcases hp' with hp' | rfl
      · exact h.sent p' hp' hr
      · simpa [hn] using hr
    · intro hne hm
      rcases h.parked hne hm with hf | ⟨hf, hall⟩
      · exact .inl hf
      · refine .inr ⟨hf, fun p' hp' => ?_⟩
        rw [rxLine, hline, List.mem_append, List.mem_singleton] at hp'
        rcases hp' with hp' | rfl
        · exact hall p' hp'
        · simp [hf]
  | rxStop ev rest hrx hq
  | rxExit ev k b rest hrx hq
  | rxTake ev p rest mbr hrx hq hm => exact h.keep (by simp [rxLine, hrx, rxHeld, hq]) rfl id id id
  | rxReply p mbr i rr hrx hrr hw
  | rxStray p mbr i rr bytes hrx hrr hw hlen
  | rxFlush ev p mbr i hrx hrr hp hf hr
  | rxHand ev e hrx => exact h.keep (by simp [rxLine, hrx, rxHeld]) rfl id id id
  | rxFailed p mbr i rr bytes hrx hrr hlen =>
    exact h.keep (by simp [rxLine, hrx, rxHeld]) rfl id id fun _ => rfl
  | rxPark ev p mbr i hrx hrr hp =>
    exact h.done (p := p) (by simp [rxLine, hrx, rxHeld]) rfl rfl rfl (.inr hp)
  | rxExecute ev p mbr i cache readBuff hrx hrr hp hf hr hcache hbuff
  | rxSync ev p synced hrx =>
    exact h.done (p := p) (by simp [rxLine, hrx, rxHeld]) rfl rfl rfl (.inl rfl)
  | stop final hm
  | joined final hm htx hrx => exact h.keep rfl rfl (by simp [hm]) id id
  | requeue p rest hm hq => exact ⟨h.upward, h.sent, fun _ hne => absurd hm hne⟩
  | restart hm hq =>
    have hrx := (hc.parked (.inl hm)).2
    have hline : privs f.fwdRxQueue = [] := by simp [(hc.rxDone hrx).2]
    constructor <;> simp [rxLine, rxHeld, hline, hq]

end Failing

section Wire

variable {cfg : Config disksize} {remote : File} {f g : Fwd disksize} {a : Action disksize}

/-- The byte ranges of a request's remote reads. -/
def ranges (disksize : Nat) (req : List ReadReq) : List (Nat × Nat) :=
  req.map (remoteRange disksize)

/-- The replies that `forwarder_rx` still waits for. -/
def rxExpects : RxPc disksize → List (Nat × Nat)
  | .recv p _ i => if p.needRetry then [] else ranges disksize (p.req.drop i)
  | _ => []

/-- The remote reads that `forwarder_tx` has sent for the request it holds. -/
def txSent : TxPc disksize → List (Nat × Nat)
  | .send p i => ranges disksize (p.req.take i)
  | _ => []

/-- The remote reads of the requests that nothing has gone wrong with. -/
def queuedRanges (q : List (Entry disksize)) : List (Nat × Nat) :=
  ((privs q).filter fun p => !p.needRetry).flatMap fun p => ranges disksize p.req

def expected (f : Fwd disksize) : List (Nat × Nat) :=
  rxExpects f.rx ++ queuedRanges f.fwdRxQueue ++ if f.sendingFailed then [] else txSent f.tx

/-- As long as nothing failed, the replies to come are those that will be asked
for, in the same order. -/
def WireInv (f : Fwd disksize) : Prop :=
  f.receivingFailed = false → expected f <+: f.wire ∧ (f.sendingFailed = false → expected f = f.wire)

theorem initial_wire (cbitmap : Words) (cache : File) :
    WireInv (initial cbitmap cache : Fwd disksize) := fun _ => ⟨by
      simp [expected, initial, rxExpects, queuedRanges, txSent], fun _ => rfl⟩

theorem WireInv.keep (h : WireInv f) (he : expected g = expected f) (hw : g.wire = f.wire)
    (hs : g.sendingFailed = f.sendingFailed) (hr : g.receivingFailed = f.receivingFailed) :
    WireInv g := by
  unfold WireInv
  rw [he, hw, hs, hr]
  exact h

/-- Nothing is expected any more once the present request is to be retried. -/
theorem expected_doomed (hf : Failing f) {p : Priv disksize} {mbr : MmapBlockRegion} {i : Nat}
    (hrx : f.rx = .recv p mbr i) (hn : p.needRetry = true) : expected f = [] := by
  have hup := hf.upward
  simp only [rxLine, hrx, rxHeld, List.singleton_append, List.pairwise_cons] at hup
  have hsent := hf.sent p (by simp [rxLine, hrx, rxHeld]) hn
  have hq : queuedRanges f.fwdRxQueue = [] := by
    have : (privs f.fwdRxQueue).filter (fun p => !p.needRetry) = [] := by
      rw [List.filter_eq_nil_iff]
      intro p' hp'
      simp [hup.1 p' hp' hn]
    simp [queuedRanges, this]
  simp [expected, hrx, rxExpects, hn, hq, hsent]

/-- A request nothing has gone wrong with meets its own reply. -/
theorem WireInv.in_step (h : WireInv f) {p : Priv disksize} {mbr : MmapBlockRegion} {i : Nat}
    {rr : ReadReq} (hrx : f.rx = .recv p mbr i) (hrr : p.req[i]? = some rr)
    (hn : p.needRetry = false) (hf : f.receivingFailed = false) :
    f.wire.head? = some (remoteRange disksize rr) := by
  obtain ⟨tail, htail⟩ := (h hf).1
  have hdrop : p.req.drop i = rr :: p.req.drop (i + 1) := by
    obtain ⟨hi, hval⟩ := List.getElem?_eq_some_iff.mp hrr
    rw [List.drop_eq_getElem_cons hi, hval]
  rw [← htail]
  simp [expected, hrx, rxExpects, hn, hdrop, ranges]

/-- A reply taken off the wire is the one that was expected first. -/
theorem WireInv.reply (h : WireInv f) (hf : Failing f) {p : Priv disksize}
    {mbr : MmapBlockRegion} {i : Nat} {rr : ReadReq} (hrx : f.rx = .recv p mbr i)
    (hrr : p.req[i]? = some rr) (hw : f.wire.head? = some (remoteRange disksize rr))
    (hg : g.rx = .recv p mbr (i + 1) ∧ g.fwdRxQueue = f.fwdRxQueue ∧ g.tx = f.tx ∧
      g.sendingFailed = f.sendingFailed ∧ g.receivingFailed = f.receivingFailed)
    (hwire : g.wire = f.wire.tail) : WireInv g := by
  obtain ⟨hgrx, hgq, hgtx, hgs, hgr⟩ := hg
  intro hr
  rw [hgr] at hr
  obtain ⟨hpre, heq⟩ := h hr
  rw [hwire, hgs]
  cases hn : p.needRetry with
  | true =>
    have hnil := expected_doomed hf hrx hn
    have hsent := hf.sent p (by simp [rxLine, hrx, rxHeld]) hn
    have hnil' : expected g = [] := by
      simpa [expected, hrx, hgrx, rxExpects, hn, hgq, hgs, hgtx] using hnil
    rw [hnil']
    exact ⟨List.nil_prefix, fun hs => by simp [hsent] at hs⟩
  | false =>
    have hdrop : p.req.drop i = rr :: p.req.drop (i + 1) := by
      obtain ⟨hi, hval⟩ := List.getElem?_eq_some_iff.mp hrr
      rw [List.drop_eq_getElem_cons hi, hval]
    have hcons : expected f = remoteRange disksize rr :: expected g := by
      simp [expected, hrx, hgrx, rxExpects, hn, hdrop, ranges, hgq, hgs, hgtx]
    obtain ⟨rest, hrest⟩ : ∃ rest, f.wire = remoteRange disksize rr :: rest := by
      cases hf' : f.wire with
      | nil => simp [hf'] at hw
      | cons w rest =>
        rw [hf', List.head?_cons, Option.some.injEq] at hw
        exact ⟨rest, by rw [hw]⟩
    rw [hcons, hrest] at hpre heq
    rw [hrest, List.tail_cons]
    rw [List.cons_prefix_cons] at hpre
    exact ⟨hpre.2, fun hs => (List.cons.inj (heq hs)).2⟩

theorem step_wire (hc : Control f) (hsh : Shape f) (hf : Failing f) (h : WireInv f)
    (ht : Trans cfg remote f a g) : WireInv g := by
  cases ht with
  | abort
  | pushExit k b
  | pushReq c
  | stop final hm
  | joined final hm htx hrx
  | requeue p rest hm hq => exact h.keep rfl rfl rfl rfl
  | txPopFresh sent p rest htx hq hp
  | txPop sent e rest htx hq he
  | txStartRead sent p htx hp hr
  | txStartWrite sent p htx hp hr
  | txReadBlock sent p i bm req htx hi hb
  | txWriteBlock sent p gs ge i bm htx hi hb =>
    exact h.keep (by simp [expected, htx, txSent]) rfl rfl rfl
  | txStop sent htx
  | txExit sent k b htx => exact h.keep (by simp [expected, htx, txSent, queuedRanges]) rfl rfl rfl
  | txAgain sent p htx hp => exact h.keep (by simp [expected, htx, txSent, ranges]) rfl rfl rfl
  | txPlain sent p htx hp hr
  | txReadDone sent p i htx hi
  | txWriteDone sent p gs ge i htx hi =>
    exact h.keep (by simp [expected, htx, txSent, ranges, Fwd.finishPrepare]) rfl rfl rfl
  | txSent p i rr htx hrr =>
    intro hr
    obtain ⟨hpre, heq⟩ := h hr
    have hone : ranges disksize (p.req.take (i + 1)) =
        ranges disksize (p.req.take i) ++ [remoteRange disksize rr] := by
      obtain ⟨hi, hval⟩ := List.getElem?_eq_some_iff.mp hrr
      rw [List.take_succ_eq_append_getElem hi, hval]
      simp [ranges]
    cases hs : f.sendingFailed with
    | true =>
      refine ⟨?_, fun hs' => by simp at hs'⟩
      have he : expected f = rxExpects f.rx ++ queuedRanges f.fwdRxQueue := by simp [expected, hs]
      simp only [expected, if_true, List.append_nil]
      exact he ▸ hpre.trans (List.prefix_append _ _)
    | false =>
      have hall := heq hs
      simp only [expected, hs, htx, Pipeline.txSent] at hall
      have hnew : rxExpects f.rx ++ queuedRanges f.fwdRxQueue ++
          ranges disksize (p.req.take (i + 1)) = f.wire ++ [remoteRange disksize rr] := by
        rw [hone, ← List.append_assoc, ← hall]
        simp
      simp only [expected, Pipeline.txSent, Bool.false_eq_true, if_false, hnew]
      exact ⟨List.prefix_refl _, fun _ => trivial⟩
  | txSendFailed p i rr htx hrr =>
    intro hr
    refine ⟨?_, fun hs => by simp at hs⟩
    simp only [expected, if_true, List.append_nil]
    refine List.IsPrefix.trans ?_ (h hr).1
    simp only [expected]
    exact List.prefix_append _ _
  | txPass sent p i htx hrr =>
    have hn : p.needRetry = false := hsh.flags p (by simp [txLine, htx, txHeld])
    have htake : p.req.take i = p.req := List.take_of_length_le (List.getElem?_eq_none_iff.mp hrr)
    refine h.keep ?_ rfl rfl rfl
    cases hs : f.sendingFailed with
    | true => simp [expected, hs, queuedRanges]
    | false => simp [expected, hs, queuedRanges, htx, Pipeline.txSent, hn, htake]
  | rxStop ev rest hrx hq
  | rxExit ev k b rest hrx hq =>
    exact h.keep (by simp [expected, hrx, rxExpects, hq, queuedRanges]) rfl rfl rfl
  | rxTake ev p rest mbr hrx hq hm =>
    refine h.keep ?_ rfl rfl rfl
    cases hn : p.needRetry <;> simp [expected, hrx, rxExpects, hq, queuedRanges, hn]
  | rxReply p mbr i rr hrx hrr hw => exact h.reply hf hrx hrr hw ⟨rfl, rfl, rfl, rfl, rfl⟩ rfl
  | rxStray p mbr i rr bytes hrx hrr hw hlen =>
    by_cases hr : f.receivingFailed = true
    · intro hr'
      simp [hr] at hr'
    · have hr : f.receivingFailed = false := by simpa using hr
      have hn : p.needRetry = true := by
        by_contra hn
        have hn : p.needRetry = false := by simpa using hn
        rcases hw with hw | hw | hw
        · simp [hn] at hw
        · simp [hr] at hw
        · exact hw (h.in_step hrx hrr hn hr)
      exact h.keep (by simp [expected, hrx, rxExpects, hn]) rfl rfl rfl
  | rxFailed p mbr i rr bytes hrx hrr hlen =>
    intro hr
    simp at hr
  | rxPark ev p mbr i hrx hrr hp
  | rxFlush ev p mbr i hrx hrr hp hf hr
  | rxExecute ev p mbr i cache readBuff hrx hrr hp hf hr hcache hbuff =>
    have hdrop : p.req.drop i = [] := List.drop_of_length_le (List.getElem?_eq_none_iff.mp hrr)
    exact h.keep (by simp [expected, hrx, rxExpects, hdrop, ranges]) rfl rfl rfl
  | rxSync ev p synced hrx
  | rxHand ev e hrx => exact h.keep (by simp [expected, hrx, rxExpects]) rfl rfl rfl
  | restart hm hq =>
    intro _
    have hrxq := (hc.rxDone (hc.parked (.inl hm)).2).2
    simp [expected, rxExpects, Pipeline.txSent, queuedRanges, hrxq]

end Wire

end Xnbd.Pipeline
