import Xnbd.Linear

/-!
# Session teardown

The exit entry of a session follows its requests through the forwarder's
queues, but a parked request leaves this line and the exit entry does not wait
for it. As long as no parked request is passed in this way, the exit entry is
the last one the session's queue ever receives.
-/
namespace Xnbd.Teardown

open Block Bitmap Bytes Nbd Requests Forwarder Reference Transitions Pipeline Proxy Sessions Linear
  Places Run

variable {disksize : Nat}

section Trail

/-- `true` for the session's exit entry, `false` for one of its requests. -/
def mark (k : Nat) : Entry disksize → Option Bool
  | .stop => none
  | .exit j _ => if j = k then some true else none
  | .req p => if p.call.session = k then some false else none

def marks (k : Nat) (q : List (Entry disksize)) : List Bool := q.filterMap (mark k)

/-- The entry that `forwarder_rx` has popped and not let go. -/
def rxHolds : RxPc disksize → List (Entry disksize)
  | .recv p _ _ => [.req p]
  | .flushing p _ => [.req p]
  | .hand e => [e]
  | _ => []

/-- What a session has on its way through the forwarder, in order. -/
def trail (k : Nat) (f : Fwd disksize) : List Bool :=
  marks k (rxHolds f.rx ++ f.fwdRxQueue ++ txLine f)

@[simp] theorem marks_nil (k : Nat) : marks k ([] : List (Entry disksize)) = [] := rfl
@[simp] theorem marks_append (k : Nat) (a b : List (Entry disksize)) :
    marks k (a ++ b) = marks k a ++ marks k b := List.filterMap_append
@[simp] theorem marks_stop (k : Nat) : marks k ([.stop] : List (Entry disksize)) = [] := rfl

theorem mark_own {k : Nat} {e : Entry disksize} (h : session? e = some k) :
    mark k e = some (isExit e) := by
  cases e with
  | stop => cases h
  | exit j b =>
    cases h
    simp [mark, isExit]
  | req p =>
    cases h
    simp [mark, isExit]

theorem marks_own {k : Nat} {e : Entry disksize} (h : session? e = some k) :
    marks k [e] = [isExit e] := by
  simp [marks, mark_own h]

end Trail

section Views

variable {cfg : Config disksize} {remote : File} {f g : Fwd disksize} {a : Action disksize}
  {β : Type} {m : Entry disksize → Option β}

/-- What the forwarder holds on its line, in order, as a view of the entries. -/
def seen (m : Entry disksize → Option β) (f : Fwd disksize) : List β :=
  (rxHolds f.rx ++ f.fwdRxQueue ++ txLine f).filterMap m

/-- A view that does not show the stop marker and looks at nothing that the
forwarder changes in a request. -/
structure Steady (m : Entry disksize → Option β) : Prop where
  stop : m .stop = none
  call : ∀ p q : Priv disksize, p.call = q.call → m (.req p) = m (.req q)

/-- What a step of the forwarder does to what is seen of its line. -/
inductive Drift (m : Entry disksize → Option β) (f : Fwd disksize) (a : Action disksize)
    (g : Fwd disksize) : Prop where
  | same (ht : seen m g = seen m f) (hr : g.fwdRetryQueue = f.fwdRetryQueue)
  | enters (e : Entry disksize) (ha : a = .push e) (ht : seen m g = seen m f ++ [e].filterMap m)
      (hr : g.fwdRetryQueue = f.fwdRetryQueue)
  | parks (p p' : Priv disksize) (ht : seen m f = [.req p].filterMap m ++ seen m g)
      (hr : g.fwdRetryQueue = f.fwdRetryQueue ++ [p']) (hp : p'.call = p.call)
  | hands (ev : RecvEvent) (e : Entry disksize) (ha : a = .rx ev) (hrx : f.rx = .hand e)
      (ht : seen m f = [e].filterMap m ++ seen m g) (hr : g.fwdRetryQueue = f.fwdRetryQueue)
  | returns (p : Priv disksize) (ha : a = .requeue)
      (ht : seen m g = seen m f ++ [.req p].filterMap m)
      (hr : f.fwdRetryQueue = p :: g.fwdRetryQueue) (hq : seen m f = f.fwdTxQueue.filterMap m)

/-- `forwarder_tx` works on the entry it holds. -/
theorem seen_tx (hrx : g.rx = f.rx) (hq : g.fwdRxQueue = f.fwdRxQueue)
    (ht : (txLine g).filterMap m = (txLine f).filterMap m) : seen m g = seen m f := by
  simp [seen, hrx, hq, ht]

/-- `forwarder_rx` works on the entry it holds. -/
theorem seen_rx (htx : txLine g = txLine f)
    (hr : (rxHolds g.rx ++ g.fwdRxQueue).filterMap m =
      (rxHolds f.rx ++ f.fwdRxQueue).filterMap m) : seen m g = seen m f := by
  rw [seen, seen, List.filterMap_append (l := rxHolds g.rx ++ g.fwdRxQueue), hr, htx,
    ← List.filterMap_append]

/-- `forwarder_rx` lets its entry go. -/
theorem seen_drop {e : Entry disksize} (hf : rxHolds f.rx = [e]) (hg : rxHolds g.rx = [])
    (hq : g.fwdRxQueue = f.fwdRxQueue) (ht : txLine g = txLine f) :
    seen m f = [e].filterMap m ++ seen m g := by
  rw [seen, seen, hf, hg, hq, ht, List.nil_append, List.append_assoc, List.filterMap_append]

theorem push_seen {e : Entry disksize} (h : Forwarder.step cfg remote f (.push e) = some g) :
    seen m g = seen m f ++ [e].filterMap m ∧ g.fwdRetryQueue = f.fwdRetryQueue := by
  simp only [Forwarder.step] at h
  split at h
  · cases h
  have hg : g.rx = f.rx ∧ g.fwdRxQueue = f.fwdRxQueue ∧ g.tx = f.tx ∧
      g.fwdTxQueue = f.fwdTxQueue ++ [e] ∧ g.fwdRetryQueue = f.fwdRetryQueue := by
    cases e with
    | stop => cases h
    | exit j b =>
      cases h
      exact ⟨rfl, rfl, rfl, rfl, rfl⟩
    | req p =>
      simp only [Fwd.pushStep] at h
      split at h
      · cases h
        exact ⟨rfl, rfl, rfl, rfl, rfl⟩
      · cases h
  simp [seen, txLine, hg]

theorem hand_seen {ev : RecvEvent} {e : Entry disksize}
    (h : Forwarder.step cfg remote f (.rx ev) = some g) (hrx : f.rx = .hand e) :
    seen m f = [e].filterMap m ++ seen m g ∧ g.fwdRetryQueue = f.fwdRetryQueue := by
  have hg := hand_step h hrx
  subst hg
  exact ⟨seen_drop (by rw [hrx]; rfl) rfl rfl rfl, rfl⟩

theorem trans_drift (hm : Steady m) (hc : Control f) (ht : Trans cfg remote f a g) :
    Drift m f a g := by
  have hsame : ∀ p q : Priv disksize, p.call = q.call → ∀ rest : List (Entry disksize),
      (Entry.req p :: rest).filterMap m = (Entry.req q :: rest).filterMap m := by
    intro p q hpq rest
    rw [List.filterMap_cons, List.filterMap_cons, hm.call p q hpq]
  cases ht with
  | abort
  | joined final hj htx hrx => exact .same rfl rfl
  | pushExit j b
  | pushReq c => exact .enters _ rfl (by simp [seen, txLine]) rfl
  | txPopFresh sent p rest htx hq hp
  | txPop sent e rest htx hq he =>
    exact .same (seen_tx rfl rfl (by simp [txLine, txHeld, htx, hq])) rfl
  | txStop sent htx
  | txExit sent j b htx => exact .same (by simp [seen, txLine, txHeld, htx]) rfl
  | txAgain sent p htx hp
  | txStartRead sent p htx hp hr
  | txStartWrite sent p htx hp hr
  | txWriteBlock sent p gs ge i bm htx hi hb
  | txSent p i rr htx hrr
  | txSendFailed p i rr htx hrr =>
    exact .same (seen_tx rfl rfl (by simp [txLine, txHeld, htx])) rfl
  | txPlain sent p htx hp hr
  | txReadDone sent p i htx hi
  | txWriteDone sent p gs ge i htx hi =>
    refine .same (seen_tx rfl rfl ?_) rfl
    simp only [txLine, txHeld, htx, Fwd.finishPrepare]
    apply hsame
    rfl
  | txReadBlock sent p i bm req htx hi hb =>
    refine .same (seen_tx rfl rfl ?_) rfl
    simp only [txLine, txHeld, htx]
    apply hsame
    rfl
  | txPass sent p i htx hrr =>
    refine .same ?_ rfl
    simp only [seen, txLine, txHeld, htx, List.filterMap_append, List.append_assoc]
    congr 3
    apply hsame
    rfl
  | rxStop ev rest hrx hq =>
    refine .same (seen_rx rfl ?_) rfl
    rw [hrx, hq]
    simp [rxHolds, hm.stop]
  | rxExit ev j b rest hrx hq
  | rxTake ev p rest mbr hrx hq hmap => exact .same (seen_rx rfl (by simp [rxHolds, hrx, hq])) rfl
  | rxReply p mbr i rr hrx hrr hhead
  | rxStray p mbr i rr bytes hrx hrr hbad hlen
  | rxFailed p mbr i rr bytes hrx hrr hlen
  | rxFlush ev p mbr i hrx hrr hp hr hflush
  | rxSync ev p synced hrx => exact .same (seen_rx rfl (by simp [rxHolds, hrx])) rfl
  | rxPark ev p mbr i hrx hrr hp =>
    exact .parks p _ (seen_drop (by rw [hrx]; rfl) rfl rfl rfl) rfl rfl
  | rxExecute ev p mbr i cache readBuff hrx hrr hn hr hnf hcache hbuff =>
    refine .same (seen_rx rfl ?_) rfl
    rw [hrx]
    apply hsame
    rfl
  | rxHand ev e hrx => exact .hands ev e rfl hrx (seen_drop (by rw [hrx]; rfl) rfl rfl rfl) rfl
  | stop final hl =>
    exact .same (by simp [seen, txLine, hm.stop]) rfl
  | requeue p rest hl hq =>
    obtain ⟨htx, hrx⟩ := hc.parked (.inl hl)
    have hrxq := (hc.rxDone hrx).2
    have htx' := exited_of_isExited htx
    have hrx' := exited_of_rxIsExited hrx
    refine .returns p rfl ?_ hq (by simp [seen, txLine, txHeld, rxHolds, hrx', hrxq, htx'])
    simp only [seen, txLine, List.filterMap_append, List.append_assoc]
    congr 4
    apply hsame
    rfl
  | restart hl hq =>
    obtain ⟨htx, hrx⟩ := hc.parked (.inl hl)
    have htx' := exited_of_isExited htx
    have hrx' := exited_of_rxIsExited hrx
    exact .same (by simp [seen, txLine, txHeld, rxHolds, hrx', htx']) rfl

end Views

section Shift

variable {cfg : Config disksize} {remote : File} {f g : Fwd disksize} {a : Action disksize}

/-- What a step of the forwarder does to the entries of a session. -/
inductive Shift (k : Nat) (f : Fwd disksize) (a : Action disksize) (g : Fwd disksize) : Prop where
  | same (ht : trail k g = trail k f) (hr : g.fwdRetryQueue = f.fwdRetryQueue)
  | enters (e : Entry disksize) (ha : a = .push e) (ht : trail k g = trail k f ++ marks k [e])
      (hr : g.fwdRetryQueue = f.fwdRetryQueue)
  | parks (p p' : Priv disksize) (ht : trail k f = marks k [.req p] ++ trail k g)
      (hr : g.fwdRetryQueue = f.fwdRetryQueue ++ [p']) (hp : p'.call = p.call)
  | hands (ev : RecvEvent) (e : Entry disksize) (ha : a = .rx ev) (hrx : f.rx = .hand e)
      (ht : trail k f = marks k [e] ++ trail k g) (hr : g.fwdRetryQueue = f.fwdRetryQueue)
  | returns (p : Priv disksize) (ha : a = .requeue) (ht : trail k g = trail k f ++ marks k [.req p])
      (hr : f.fwdRetryQueue = p :: g.fwdRetryQueue) (hq : trail k f = marks k f.fwdTxQueue)

theorem push_trail {k : Nat} {e : Entry disksize}
    (h : Forwarder.step cfg remote f (.push e) = some g) :
    trail k g = trail k f ++ marks k [e] := (push_seen h).1

theorem hand_trail {k : Nat} {ev : RecvEvent} {e : Entry disksize}
    (h : Forwarder.step cfg remote f (.rx ev) = some g) (hrx : f.rx = .hand e) :
    trail k f = marks k [e] ++ trail k g ∧ g.fwdRetryQueue = f.fwdRetryQueue := hand_seen h hrx

theorem mark_steady (k : Nat) : Steady (mark k : Entry disksize → Option Bool) where
  stop := rfl
  call p q h := by simp only [mark, h]

theorem trans_shift (hc : Control f) (k : Nat) (ht : Trans cfg remote f a g) : Shift k f a g := by
  cases trans_drift (mark_steady k) hc ht with
  | same hs hr => exact .same hs hr
  | enters e ha hs hr => exact .enters e ha hs hr
  | parks p p' hs hr hp => exact .parks p p' hs hr hp
  | hands ev e ha hrx hs hr => exact .hands ev e ha hrx hs hr
  | returns p ha hs hr hq => exact .returns p ha hs hr hq

end Shift

section Quitting

variable {cfg : Config disksize} {remote : File} {f g : Fwd disksize} {a : Action disksize}
  {k : Nat} {ps : Session disksize}

/-- Nothing stands behind an exit entry. -/
def ExitLast (t : List Bool) : Prop := t.Pairwise fun a _ => a = false

theorem ExitLast.concat {t : List Bool} {b : Bool} (h : ExitLast t) (hno : true ∉ t) :
    ExitLast (t ++ [b]) := by
  rw [ExitLast, List.pairwise_append]
  refine ⟨h, List.pairwise_singleton _ _, fun a ha _ _ => ?_⟩
  cases a with
  | false => rfl
  | true => exact absurd ha hno

theorem ExitLast.of_append {t u : List Bool} (h : ExitLast (t ++ u)) (ht : true ∈ t) : u = [] := by
  cases u with
  | nil => rfl
  | cons b rest =>
    have := (List.pairwise_append.mp h).2.2 true ht b List.mem_cons_self
    cases this

/-- The forwarder holds nothing of the session. -/
structure Absent (f : Fwd disksize) (k : Nat) : Prop where
  trail : trail k f = []
  parked : ∀ p ∈ f.fwdRetryQueue, p.call.session ≠ k

/-- Where the exit entry of a session is, and what it leaves behind. -/
structure Quitting (f : Fwd disksize) (k : Nat) (ps : Session disksize) : Prop where
  line : ExitLast (trail k f)
  sent : true ∈ trail k f → ps.rx = .exited
  arrived : true ∈ ps.pushed.map isExit → ps.rx = .exited ∧ Absent f k
  last : ExitLast (ps.pushed.map isExit)
  own : ∀ e, ps.rx = .wait e ∨ ps.rx = .add e ∨ ps.rx = .push e → session? e = some k
  done : ps.tx = .exited ∨ (∃ e, ps.tx = .release e ∧ isExit e = true) →
    ∃ done, ps.pushed = done ++ ps.txQueue ∧ true ∈ done.map isExit
  freed : ps.freed = true → ps.tx = .exited

/-- The session whose exit entry is about to be handed over. -/
def leaving : RxPc disksize → Option Nat
  | .hand (.exit k _) => some k
  | _ => none

/-- No exit entry passes a request of its session: none is parked when the exit
entry is handed over, and none is put back behind it. -/
def Unpassed (f : Fwd disksize) : Action disksize → Prop
  | .rx _ => ∀ k ∈ leaving f.rx, ∀ p ∈ f.fwdRetryQueue, p.call.session ≠ k
  | .requeue => ∀ p ∈ f.fwdRetryQueue.head?, true ∉ marks p.call.session f.fwdTxQueue
  | _ => True

instance (f : Fwd disksize) : (a : Action disksize) → Decidable (Unpassed f a)
  | .rx _ => inferInstanceAs (Decidable (∀ k ∈ leaving f.rx, ∀ p ∈ f.fwdRetryQueue, _))
  | .requeue => inferInstanceAs (Decidable (∀ p ∈ f.fwdRetryQueue.head?, _))
  | .push _ => isTrue trivial
  | .tx _ => isTrue trivial
  | .stop _ => isTrue trivial
  | .joined => isTrue trivial

/-- A step that neither pushes an entry of the session nor hands one to it. -/
def Away (k : Nat) (f : Fwd disksize) (a : Action disksize) : Prop :=
  (∀ e, a = .push e → session? e ≠ some k) ∧
    ∀ ev e, a = .rx ev → f.rx = .hand e → session? e ≠ some k

theorem marks_away {e : Entry disksize} (h : session? e ≠ some k) : marks k [e] = [] := by
  cases e with
  | stop => rfl
  | exit j b =>
    have hj : j ≠ k := fun hj => h (congrArg some hj)
    simp [marks, mark, hj]
  | req p =>
    have hj : p.call.session ≠ k := fun hj => h (congrArg some hj)
    simp [marks, mark, hj]

theorem Absent.not_handing (h : Absent f k) {e : Entry disksize} (hrx : f.rx = .hand e) :
    session? e ≠ some k := by
  intro hk
  have hnil := h.trail
  rw [Teardown.trail, hrx, rxHolds, List.append_assoc, marks_append, marks_own hk] at hnil
  cases hnil

theorem Absent.shift (h : Absent f k) (haway : Away k f a) (hs : Shift k f a g) : Absent g k := by
  cases hs with
  | same ht hr => exact ⟨ht.trans h.trail, hr ▸ h.parked⟩
  | enters e ha ht hr =>
    rw [marks_away (haway.1 e ha), List.append_nil] at ht
    exact ⟨ht.trans h.trail, hr ▸ h.parked⟩
  | parks p p' ht hr hp =>
    have hnil := List.append_eq_nil_iff.mp (ht.symm.trans h.trail)
    refine ⟨hnil.2, fun q hq => ?_⟩
    rw [hr, List.mem_append, List.mem_singleton] at hq
    rcases hq with hq | rfl
    · exact h.parked q hq
    · intro hk
      have hown := marks_own (show session? (.req p) = some k from congrArg some (hp ▸ hk))
      simp [hown] at hnil
  | hands ev e ha hrx ht hr =>
    rw [marks_away (haway.2 ev e ha hrx), List.nil_append] at ht
    exact ⟨ht.symm.trans h.trail, hr ▸ h.parked⟩
  | returns p ha ht hr hq =>
    have hp := h.parked p (by rw [hr]; exact List.mem_cons_self)
    rw [marks_away (e := .req p) fun hk => hp (Option.some.inj hk), List.append_nil] at ht
    refine ⟨ht.trans h.trail, fun q hq' => h.parked q ?_⟩
    rw [hr]
    exact List.mem_cons_of_mem _ hq'

/-- Steps of the forwarder for other sessions. -/
theorem Quitting.shift (h : Quitting f k ps) (haway : Away k f a) (hpass : Unpassed f a)
    (hs : Shift k f a g) : Quitting g k ps := by
  have hline : ExitLast (trail k g) ∧ (true ∈ trail k g → true ∈ trail k f) := by
    cases hs with
    | same ht hr =>
      rw [ht]
      exact ⟨h.line, id⟩
    | enters e ha ht hr =>
      rw [ht, marks_away (haway.1 e ha), List.append_nil]
      exact ⟨h.line, id⟩
    | parks p p' ht hr hp =>
      have hl := h.line
      rw [ht] at hl ⊢
      exact ⟨(List.pairwise_append.mp hl).2.1, List.mem_append_right _⟩
    | hands ev e ha hrx ht hr =>
      have hl := h.line
      rw [ht] at hl ⊢
      exact ⟨(List.pairwise_append.mp hl).2.1, List.mem_append_right _⟩
    | returns p ha ht hr hq =>
      subst ha
      rw [ht]
      by_cases hk : p.call.session = k
      · have hno : true ∉ trail k f := by
          rw [hq, ← hk]
          exact hpass p (by rw [hr]; rfl)
        rw [marks_own (show session? (.req p) = some k from congrArg some hk)]
        exact ⟨h.line.concat hno, by simp [isExit]⟩
      · rw [marks_away (e := .req p) fun hk' => hk (Option.some.inj hk'), List.append_nil]
        exact ⟨h.line, id⟩
  exact ⟨hline.1, fun ht => h.sent (hline.2 ht),
    fun he => ⟨(h.arrived he).1, (h.arrived he).2.shift haway hs⟩, h.last, h.own, h.done, h.freed⟩

/-- The rx thread goes on before its exit entry is pushed. -/
theorem Quitting.setRx (h : Quitting f k ps) {rx : SessionRx disksize} (hne : ps.rx ≠ .exited)
    (hown : ∀ e, rx = .wait e ∨ rx = .add e ∨ rx = .push e → session? e = some k) :
    Quitting f k { ps with rx := rx } where
  line := h.line
  sent := fun ht => absurd (h.sent ht) hne
  arrived := fun he => absurd (h.arrived he).1 hne
  last := h.last
  own := hown
  done := h.done
  freed := h.freed

/-- The rx thread pushes an entry to `fwd_tx_queue`. -/
theorem Quitting.push (h : Quitting f k ps) {e : Entry disksize} (hrx : ps.rx = .push e)
    (ht : trail k g = trail k f ++ marks k [e]) :
    Quitting g k { ps with rx := if isExit e then .exited else .recv } := by
  have hne : ps.rx ≠ .exited := by simp [hrx]
  have hno : true ∉ trail k f := fun ht => hne (h.sent ht)
  rw [marks_own (h.own e (.inr (.inr hrx)))] at ht
  refine ⟨ht ▸ h.line.concat hno, fun hm => ?_, fun he => absurd (h.arrived he).1 hne, h.last, ?_,
    h.done, h.freed⟩
  · rw [ht, List.mem_append, List.mem_singleton] at hm
    have he := hm.resolve_left hno
    rw [← he]
    rfl
  · intro e' he'
    dsimp only at he'
    split at he' <;> simp at he'

/-- The tx thread moves on. -/
theorem Quitting.setTx (h : Quitting f k ps) {tx : SessionTx disksize} {q : List (Entry disksize)}
    {skip : Bool} {replied : List (Priv disksize)} (hne : ps.tx ≠ .exited)
    (hdone : tx = .exited ∨ (∃ e, tx = .release e ∧ isExit e = true) →
      ∃ done, ps.pushed = done ++ q ∧ true ∈ done.map isExit) :
    Quitting f k { ps with tx := tx, txQueue := q, needSkip := skip, replied := replied } where
  line := h.line
  sent := h.sent
  arrived := h.arrived
  last := h.last
  own := h.own
  done := hdone
  freed := fun hf => absurd (h.freed hf) hne

/-- A session that still has an entry on its way has not seen its exit entry. -/
theorem Quitting.not_arrived (h : Quitting f k ps) {e : Entry disksize} (hk : session? e = some k)
    (hrx : f.rx = .hand e) : true ∉ ps.pushed.map isExit := by
  intro he
  exact (h.arrived he).2.not_handing hrx hk

/-- `forwarder_rx` pushes an entry to the session's queue. -/
theorem Quitting.hand (h : Quitting f k ps) {e : Entry disksize}
    (hk : session? e = some k) (hrx : f.rx = .hand e)
    (hpass : ∀ j ∈ leaving f.rx, ∀ p ∈ f.fwdRetryQueue, p.call.session ≠ j)
    (ht : trail k f = marks k [e] ++ trail k g)
    (hr : g.fwdRetryQueue = f.fwdRetryQueue) :
    Quitting g k { ps with txQueue := ps.txQueue ++ [e], pushed := ps.pushed ++ [e] } := by
  have hno := h.not_arrived hk hrx
  rw [marks_own hk, List.singleton_append] at ht
  have hl := h.line
  rw [ht, ExitLast, List.pairwise_cons] at hl
  refine ⟨hl.2, fun hm => h.sent (ht ▸ List.mem_cons_of_mem _ hm), fun he => ?_, ?_, h.own,
    fun hd => ?_, h.freed⟩
  · rw [List.map_append, List.mem_append] at he
    have hexit : isExit e = true := by simpa using he.resolve_left hno
    rw [hexit] at ht hl
    refine ⟨h.sent (ht ▸ List.mem_cons_self), ?_, fun p hp => ?_⟩
    · exact List.eq_nil_iff_forall_not_mem.mpr fun b hb => by cases hl.1 b hb
    · rw [hr] at hp
      refine hpass k ?_ p hp
      cases e with
      | exit j b =>
        cases hk
        rw [hrx]
        rfl
      | stop => cases hexit
      | req q => cases hexit
  · rw [List.map_append]
    exact h.last.concat hno
  · obtain ⟨done, hdone, hmem⟩ := h.done hd
    exact ⟨done, by dsimp only; rw [hdone, List.append_assoc], hmem⟩

/-- The assertion of the cleanup. -/
theorem Quitting.drained (h : Quitting f k ps) (htx : ps.tx = .exited) : ps.txQueue = [] := by
  obtain ⟨done, hdone, hmem⟩ := h.done (.inl htx)
  have hl := h.last
  rw [hdone, List.map_append] at hl
  exact List.map_eq_nil_iff.mp (hl.of_append hmem)

end Quitting

section Safe

variable {cfg : Config disksize} {remote : File} {s t : State disksize} {a : Act disksize}
  {k : Nat} {ps ps' : Session disksize}

/-- The condition on exit entries, for a step of the proxy. -/
def Departs (s : State disksize) : Act disksize → Prop
  | .fwd a => Unpassed s.fwd a
  | _ => True

instance (s : State disksize) : (a : Act disksize) → Decidable (Departs s a)
  | .fwd a => inferInstanceAs (Decidable (Unpassed s.fwd a))
  | .register => isTrue trivial
  | .cleanup _ => isTrue trivial
  | .rx _ _ => isTrue trivial
  | .tx _ _ => isTrue trivial

structure Safe (s : State disksize) : Prop where
  control : Control s.fwd
  delivery : Delivery s
  sessions : ∀ k ps, s.sessions[k]? = some ps → Quitting s.fwd k ps
  unknown : ∀ k, s.sessions.length ≤ k → Absent s.fwd k
  intact : s.pushedFreed = false ∧ s.assertFailed = false

theorem start_safe (cbitmap : Words) (cache : File) :
    Safe (start cbitmap cache : State disksize) where
  control := initial_control cbitmap cache
  delivery := fun k ps hps => by simp [start] at hps
  sessions := fun k ps hps => by simp [start] at hps
  unknown := fun k _ => ⟨rfl, fun p hp => by simp [start, initial] at hp⟩
  intact := ⟨rfl, rfl⟩

/-- One session changes, together with a step of the forwarder that is not about
the others. -/
theorem Safe.set (h : Safe s) (hc : Control t.fwd) (hd : Delivery t)
    (hset : t.sessions = s.sessions.set k ps') (hq : Quitting t.fwd k ps')
    (hother : ∀ j, j ≠ k → (∀ pj, Quitting s.fwd j pj → Quitting t.fwd j pj) ∧
      (Absent s.fwd j → Absent t.fwd j))
    (hk : k < s.sessions.length) (hin : t.pushedFreed = false ∧ t.assertFailed = false) :
    Safe t := by
  refine ⟨hc, hd, ?_, fun j hj => ?_, hin⟩
  · rw [hset]
    exact forall_set (fun j pj hj hne => (hother j hne).1 pj (h.sessions j pj hj)) hq
  · rw [hset, List.length_set] at hj
    exact (hother j (by omega)).2 (h.unknown j hj)

/-- Only a session changes. -/
theorem Safe.setSession (h : Safe s) (hd : Delivery t) (hps : s.sessions[k]? = some ps)
    (hset : t.sessions = s.sessions.set k ps') (hf : t.fwd = s.fwd)
    (hin : t.pushedFreed = s.pushedFreed ∧ t.assertFailed = s.assertFailed)
    (hq : Quitting s.fwd k ps') : Safe t := by
  refine h.set (hf ▸ h.control) hd hset (hf ▸ hq) ?_ (List.getElem?_eq_some_iff.mp hps).1 ?_
  · intro j _
    rw [hf]
    exact ⟨fun _ hj => hj, id⟩
  · rw [hin.1, hin.2]
    exact h.intact

theorem move_safe (h : Safe s) (hp : Departs s a) (hm : Move cfg remote s a t) : Safe t := by
  have hd := move_delivery h.delivery hm
  cases hm with
  | register hmain =>
    refine ⟨h.control, hd, ?_, fun j hj => ?_, h.intact⟩
    · apply forall_append h.sessions
      have habs := h.unknown s.sessions.length (Nat.le_refl _)
      refine ⟨by rw [habs.trail]; exact List.Pairwise.nil, by simp [habs.trail], ?_, ?_, ?_, ?_,
        ?_⟩
      · simp [Session.new]
      · exact List.Pairwise.nil
      · simp [Session.new]
      · simp [Session.new]
      · simp [Session.new]
    · rw [List.length_append] at hj
      exact h.unknown j (by omega)
  | cleanup k ps hps hrx htx hq =>
    have hold := h.sessions k ps hps
    exact h.setSession hd hps rfl rfl ⟨rfl, rfl⟩
      ⟨hold.line, hold.sent, hold.arrived, hold.last, hold.own, hold.done, fun _ => htx⟩
  | cleanupFails k ps hps htx hq => exact absurd ((h.sessions k ps hps).drained htx) hq
  | rxRecv k arrival ps e hps hrx hk hf =>
    refine h.setSession hd hps rfl rfl ⟨rfl, rfl⟩ ((h.sessions k ps hps).setRx (by simp [hrx]) ?_)
    intro e' he'
    split at he' <;> simp at he' <;> exact he' ▸ hk
  | rxWait k arrival ps e hps hrx hfits =>
    refine h.setSession hd hps rfl rfl ⟨rfl, rfl⟩ ((h.sessions k ps hps).setRx (by simp [hrx]) ?_)
    intro e' he'
    simp at he'
    exact he' ▸ (h.sessions k ps hps).own e (.inl hrx)
  | rxAdd k arrival ps e hps hrx =>
    refine h.setSession hd hps rfl rfl ⟨rfl, rfl⟩ ((h.sessions k ps hps).setRx (by simp [hrx]) ?_)
    intro e' he'
    simp at he'
    exact he' ▸ (h.sessions k ps hps).own e (.inr (.inl hrx))
  | rxPush k arrival ps e f hps hrx hf =>
    have hold := h.sessions k ps hps
    have hk := hold.own e (.inr (.inr hrx))
    refine h.set (step_control h.control (step_trans hf)) hd rfl (hold.push hrx (push_trail hf))
      (fun j hj => ?_) (List.getElem?_eq_some_iff.mp hps).1 h.intact
    have hs := trans_shift h.control j (step_trans hf)
    have haway : Away j s.fwd (.push e) := by
      refine ⟨fun e' he' hj' => ?_, fun ev e' ha => by cases ha⟩
      cases he'
      exact hj (Option.some.inj (hj'.symm.trans hk))
    exact ⟨fun pj hq => hq.shift haway trivial hs, fun hq => hq.shift haway hs⟩
  | txPopSend k sent ps p rest hps htx hq hskip =>
    exact h.setSession hd hps rfl rfl ⟨rfl, rfl⟩
      ((h.sessions k ps hps).setTx (by simp [htx]) (by simp))
  | txPopSkip k sent ps e rest hps htx hq =>
    refine h.setSession hd hps rfl rfl ⟨rfl, rfl⟩
      ((h.sessions k ps hps).setTx (by simp [htx]) fun hrel => ?_)
    obtain ⟨done, hdone, -⟩ := (h.delivery k ps hps).queue
    have he : isExit e = true := by simpa using hrel
    exact ⟨done ++ [e], by simp [hdone, htx, unsent, hq], by simp [he]⟩
  | txSend k sent ps p hps htx =>
    exact h.setSession hd hps rfl rfl ⟨rfl, rfl⟩
      ((h.sessions k ps hps).setTx (by simp [htx]) (by simp [isExit]))
  | txRelease k sent ps e hps htx =>
    refine h.setSession hd hps rfl rfl ⟨rfl, rfl⟩
      ((h.sessions k ps hps).setTx (by simp [htx]) fun hrel => ?_)
    have he : isExit e = true := by
      by_contra hne
      simp [hne] at hrel
    exact (h.sessions k ps hps).done (.inr ⟨e, htx, he⟩)
  | hand ev e k ps f hf hrx hk hps =>
    have hold := h.sessions k ps hps
    have hfreed : ps.freed = false := by
      by_contra hne
      obtain ⟨done, hdone, hmem⟩ := hold.done (.inl (hold.freed (by simpa using hne)))
      refine hold.not_arrived hk hrx ?_
      rw [hdone, List.map_append]
      exact List.mem_append_left _ hmem
    obtain ⟨htrail, hretry⟩ := hand_trail (k := k) hf hrx
    refine h.set (step_control h.control (step_trans hf)) hd rfl
      (hold.hand hk hrx hp htrail hretry) (fun j hj => ?_)
      (List.getElem?_eq_some_iff.mp hps).1 ⟨hfreed, h.intact.2⟩
    have hs := trans_shift h.control j (step_trans hf)
    have haway : Away j s.fwd (.rx ev) := by
      refine ⟨by simp, fun ev' e' _ hrx' hj' => ?_⟩
      rw [hrx] at hrx'
      cases hrx'
      exact hj (Option.some.inj (hj'.symm.trans hk))
    exact ⟨fun pj hq => hq.shift haway hp hs, fun hq => hq.shift haway hs⟩
  | forward fa f hf ha hno =>
    have hs := fun j => trans_shift h.control j (step_trans hf)
    have haway : ∀ j, (∀ ev e, fa = .rx ev → s.fwd.rx = .hand e → session? e ≠ some j) →
        Away j s.fwd fa := fun j hj => ⟨fun e he => absurd he (ha e), hj⟩
    refine ⟨step_control h.control (step_trans hf), hd, fun j pj hpj => ?_, fun j hj => ?_,
      h.intact⟩
    · refine (h.sessions j pj hpj).shift (haway j fun ev e hev hrx hk => ?_) hp (hs j)
      subst hev
      have hnone := hno e j (by simp [handing, hrx]) hk
      simp [hpj] at hnone
    · have habs := h.unknown j hj
      exact habs.shift (haway j fun ev e _ hrx => habs.not_handing hrx) (hs j)

/-- As long as no exit entry passes a request of its session, it is the last
entry the session's queue receives, nothing is pushed to a freed session, and
the cleanup finds the queue empty. -/
theorem teardown_safe (cfg : Config disksize) (remote cache : File) (cbitmap : Words)
    (acts : List (Act disksize))
    (hdep : Along (Proxy.step cfg remote) Departs (start cbitmap cache) acts) (s : State disksize)
    (hrun : run (Proxy.step cfg remote) (start cbitmap cache) acts = some s) :
    (∀ (k : Nat) (ps : Session disksize), s.sessions[k]? = some ps → ∀ before e after,
      ps.pushed = before ++ e :: after → isExit e = true → after = []) ∧
      s.pushedFreed = false ∧ s.assertFailed = false := by
  have hI : Safe s := run_invariant (fun _ _ _ hI hP hs => move_safe hI hP (step_move hs).2)
    (start_safe cbitmap cache) hdep hrun
  refine ⟨fun k ps hps before e after hpushed he => ?_, hI.intact⟩
  have hl := (hI.sessions k ps hps).last
  rw [hpushed, List.append_cons, List.map_append] at hl
  exact List.map_eq_nil_iff.mp (hl.of_append (by simp [he]))

/-- The client of session 0 disconnects, and the forwarder passes the exit entry
on to the tx thread. -/
def disconnect : List (Act 2) :=
  .rx 0 .broken :: .rx 0 .broken :: .rx 0 .broken :: sends 2 ++ receives 2 ++ answers 0 2 ++
    [Act.cleanup 0]

/-- One answered READ, and the end of the session. -/
def visit : List (Act 2) :=
  .register :: submit 0 readFirst none ++ sends 6 ++ receives 4 ++ answers 0 3 ++ disconnect

theorem teardown_safe_visit :
    Along (Proxy.step twoBytes fun _ => 7) Departs (start [0] fun _ => 0) visit ∧
      ∃ s, run (Proxy.step twoBytes fun _ => 7) (start [0] fun _ => 0) visit = some s ∧
        (s.sessions.map fun ps => (ps.freed, ps.pushed.map isExit)) = [(true, [false, true])] ∧
        s.pushedFreed = false ∧ s.assertFailed = false := by
  have hdep : Along (Proxy.step twoBytes fun _ => 7) Departs (start [0] fun _ => 0) visit := by
    decide
  have hmap : ((run (Proxy.step twoBytes fun _ => 7) (start [0] fun _ => 0) visit).map
      fun s => s.sessions.map fun ps => (ps.freed, ps.pushed.map isExit)) =
        some [(true, [false, true])] := by decide
  obtain ⟨s, hs, hproj⟩ := Option.map_eq_some_iff.mp hmap
  have h := teardown_safe twoBytes (fun _ => 7) (fun _ => 0) [0] visit hdep s hs
  exact ⟨hdep, s, hs, hproj, h.2⟩

/-- The client goes away while its READ is parked; the READ comes back after the
session was freed. -/
def revenant : List (Act 2) :=
  failFirst ++ disconnect ++ joinForwarder false ++ restartForwarder ++ sends 4 ++ receives 4

/-- The freed session's queue receives the READ behind the exit entry. -/
theorem teardown_revenant :
    ∃ s, run (Proxy.step twoBytes fun _ => 7) (start [0] fun _ => 0) revenant = some s ∧
      (s.sessions.map fun ps => (ps.freed, ps.pushed.map isExit)) = [(true, [true, false])] ∧
      s.pushedFreed = true := by
  have hmap : ((run (Proxy.step twoBytes fun _ => 7) (start [0] fun _ => 0) revenant).map
      fun s => (s.sessions.map fun ps => (ps.freed, ps.pushed.map isExit), s.pushedFreed)) =
        some ([(true, [true, false])], true) := by decide
  obtain ⟨s, hs, hproj⟩ := Option.map_eq_some_iff.mp hmap
  exact ⟨s, hs, (Prod.mk.inj hproj).1, (Prod.mk.inj hproj).2⟩

end Safe

end Xnbd.Teardown
