import Xnbd.CacheFile
import Xnbd.Places
import Xnbd.Proxy

/-!
# Sessions and the forwarder

Every step of the proxy is one of the moves below. What `forwarder_rx` hands
over reaches its session once and in order, so the replies of a session are a
sublist of what was carried out.
-/
namespace Xnbd.Sessions

open Block Bitmap Bytes Nbd Requests Forwarder Reference Transitions Pipeline CacheFile Proxy
  Places Run

variable {disksize : Nat}

section Moves

/-- All the ways in which a step of the proxy can go. -/
inductive Move (cfg : Config disksize) (remote : File) (s : State disksize) :
    Act disksize → State disksize → Prop where
  | register (hm : s.fwd.main = .loop) :
      Move cfg remote s .register { s with sessions := s.sessions ++ [.new] }
  | cleanup (k : Nat) (ps : Session disksize) (hps : s.sessions[k]? = some ps)
      (hrx : ps.rx = .exited) (htx : ps.tx = .exited) (hq : ps.txQueue = []) :
      Move cfg remote s (.cleanup k) (s.setSession k { ps with freed := true })
  | cleanupFails (k : Nat) (ps : Session disksize) (hps : s.sessions[k]? = some ps)
      (htx : ps.tx = .exited) (hq : ps.txQueue ≠ []) :
      Move cfg remote s (.cleanup k) { s with assertFailed := true }
  | rxRecv (k : Nat) (arrival : Arrival) (ps : Session disksize) (e : Entry disksize)
      (hps : s.sessions[k]? = some ps) (hrx : ps.rx = .recv) (hk : session? e = some k)
      (hf : ∀ p, e = .req p → p = Priv.fresh p.call) :
      Move cfg remote s (.rx k arrival)
        (s.setSession k { ps with rx := if isExit e then .add e else .wait e })
  | rxWait (k : Nat) (arrival : Arrival) (ps : Session disksize) (e : Entry disksize)
      (hps : s.sessions[k]? = some ps) (hrx : ps.rx = .wait e) (hfits : MemUsageFits cfg s) :
      Move cfg remote s (.rx k arrival) (s.setSession k { ps with rx := .add e })
  | rxAdd (k : Nat) (arrival : Arrival) (ps : Session disksize) (e : Entry disksize)
      (hps : s.sessions[k]? = some ps) (hrx : ps.rx = .add e) :
      Move cfg remote s (.rx k arrival)
        ((memUsageAdd cfg s e).setSession k { ps with rx := .push e })
  | rxPush (k : Nat) (arrival : Arrival) (ps : Session disksize) (e : Entry disksize)
      (f : Fwd disksize) (hps : s.sessions[k]? = some ps) (hrx : ps.rx = .push e)
      (hf : Forwarder.step cfg remote s.fwd (.push e) = some f) :
      Move cfg remote s (.rx k arrival)
        ({ s with fwd := f }.setSession k { ps with rx := if isExit e then .exited else .recv })
  | txPopSend (k : Nat) (sent : Bool) (ps : Session disksize) (p : Priv disksize)
      (rest : List (Entry disksize)) (hps : s.sessions[k]? = some ps) (htx : ps.tx = .pop)
      (hq : ps.txQueue = .req p :: rest) (hskip : ps.needSkip = false) :
      Move cfg remote s (.tx k sent) (s.setSession k { ps with txQueue := rest, tx := .send p })
  | txPopSkip (k : Nat) (sent : Bool) (ps : Session disksize) (e : Entry disksize)
      (rest : List (Entry disksize)) (hps : s.sessions[k]? = some ps) (htx : ps.tx = .pop)
      (hq : ps.txQueue = e :: rest) :
      Move cfg remote s (.tx k sent) (s.setSession k { ps with txQueue := rest, tx := .release e })
  | txSend (k : Nat) (sent : Bool) (ps : Session disksize) (p : Priv disksize)
      (hps : s.sessions[k]? = some ps) (htx : ps.tx = .send p) :
      Move cfg remote s (.tx k sent)
        (s.setSession k { ps with
          tx := .release (.req p)
          needSkip := ps.needSkip || !sent
          replied := ps.replied ++ [p] })
  | txRelease (k : Nat) (sent : Bool) (ps : Session disksize) (e : Entry disksize)
      (hps : s.sessions[k]? = some ps) (htx : ps.tx = .release e) :
      Move cfg remote s (.tx k sent)
        ((memUsageDel cfg s e).setSession k { ps with tx := if isExit e then .exited else .pop })
  | hand (ev : RecvEvent) (e : Entry disksize) (k : Nat) (ps : Session disksize) (f : Fwd disksize)
      (hf : Forwarder.step cfg remote s.fwd (.rx ev) = some f) (hrx : s.fwd.rx = .hand e)
      (hk : session? e = some k) (hps : s.sessions[k]? = some ps) :
      Move cfg remote s (.fwd (.rx ev))
        ({ s with fwd := f, pushedFreed := ps.freed }.setSession k
          { ps with txQueue := ps.txQueue ++ [e], pushed := ps.pushed ++ [e] })
  | forward (a : Action disksize) (f : Fwd disksize)
      (hf : Forwarder.step cfg remote s.fwd a = some f) (ha : ∀ e, a ≠ .push e)
      (hno : ∀ e k, handing s.fwd a = some e → session? e = some k → s.sessions[k]? = none) :
      Move cfg remote s (.fwd a) { s with fwd := f }

variable {cfg : Config disksize} {remote : File} {s t : State disksize} {a : Act disksize}

/-- What `recv_request` builds belongs to its session and is not yet prepared. -/
theorem recvRequest_spec {k : Nat} {arrival : Arrival} {e : Entry disksize}
    (h : recvRequest cfg k arrival = some e) :
    session? e = some k ∧ ∀ p, e = .req p → p = Priv.fresh p.call := by
  have hexit : ∀ b, session? (.exit k b : Entry disksize) = some k ∧
      ∀ p, (.exit k b : Entry disksize) = .req p → p = Priv.fresh p.call :=
    fun b => ⟨rfl, fun p hp => by cases hp⟩
  have hreq : ∀ c : Call disksize, c.session = k → session? (.req (.fresh c)) = some k ∧
      ∀ p, (.req (.fresh c) : Entry disksize) = .req p → p = Priv.fresh p.call := by
    refine fun c hc => ⟨congrArg some hc, fun p hp => ?_⟩
    cases hp
    rfl
  cases arrival with
  | broken =>
    cases h
    exact hexit none
  | message header payload =>
    simp only [recvRequest] at h
    split at h
    · split at h
      · cases h
        exact hexit none
      split at h
      · split at h
        · cases h
          exact hexit _
        · split at h
          · cases h
            exact hreq _ rfl
          · cases h
      · split at h
        · cases h
          exact hreq _ rfl
        · cases h
          exact hexit none
    all_goals
      cases h
      exact hexit none

theorem rx_move {k : Nat} {arrival : Arrival} {ps : Session disksize}
    (hps : s.sessions[k]? = some ps) (h : rxThread cfg remote s k ps arrival = some t) :
    Move cfg remote s (.rx k arrival) t := by
  unfold rxThread at h
  split at h
  · rename_i hrx
    obtain ⟨e, he, rfl⟩ := Option.map_eq_some_iff.mp h
    obtain ⟨hk, hf⟩ := recvRequest_spec he
    exact .rxRecv k arrival ps e hps hrx hk hf
  · rename_i e hrx
    split at h
    · rename_i hfits
      cases h
      exact .rxWait k arrival ps e hps hrx hfits
    · cases h
  · rename_i e hrx
    cases h
    exact .rxAdd k arrival ps e hps hrx
  · rename_i e hrx
    obtain ⟨f, hf, rfl⟩ := Option.map_eq_some_iff.mp h
    exact .rxPush k arrival ps e f hps hrx hf
  · cases h

theorem tx_move {k : Nat} {sent : Bool} {ps : Session disksize}
    (hps : s.sessions[k]? = some ps) (h : txThread cfg s k ps sent = some t) :
    Move cfg remote s (.tx k sent) t := by
  unfold txThread at h
  split at h
  · rename_i htx
    split at h
    · cases h
    · rename_i e rest hq
      cases h
      split
      · rename_i p
        split
        · exact .txPopSkip k sent ps _ rest hps htx hq
        · rename_i hskip
          exact .txPopSend k sent ps p rest hps htx hq (by simpa using hskip)
      · exact .txPopSkip k sent ps e rest hps htx hq
  · rename_i p htx
    split at h
    · cases h
      exact .txSend k sent ps p hps htx
    · cases h
  · rename_i e htx
    cases h
    exact .txRelease k sent ps e hps htx
  · cases h

theorem cleanup_move {k : Nat} {ps : Session disksize} (hps : s.sessions[k]? = some ps)
    (h : Proxy.cleanup s k ps = some t) : Move cfg remote s (.cleanup k) t := by
  unfold Proxy.cleanup at h
  split at h
  · rename_i hex
    split at h
    · rename_i hq
      cases h
      exact .cleanup k ps hps hex.2.1 hex.2.2.1 hq
    · rename_i hq
      cases h
      exact .cleanupFails k ps hps hex.2.2.1 hq
  · cases h

theorem handing_some {f : Fwd disksize} {fa : Action disksize} {e : Entry disksize}
    (h : handing f fa = some e) : f.rx = .hand e ∧ ∃ ev, fa = .rx ev := by
  unfold handing at h
  split at h
  · rename_i ev
    split at h
    · rename_i e' hrx
      cases h
      exact ⟨hrx, ev, rfl⟩
    · cases h
  · cases h

theorem fwd_move {fa : Action disksize} (ha : ∀ e, fa ≠ .push e)
    (h : fwdThread cfg remote s fa = some t) : Move cfg remote s (.fwd fa) t := by
  obtain ⟨f, hf, rfl⟩ := Option.map_eq_some_iff.mp h
  split
  · rename_i e hhand
    obtain ⟨hrx, ev, rfl⟩ := handing_some hhand
    unfold deliver
    split
    · rename_i hk
      refine .forward _ f hf ha fun e' k he' hk' => ?_
      rw [hhand] at he'
      cases he'
      simp [hk] at hk'
    · rename_i k hk
      split
      · rename_i hps
        refine .forward _ f hf ha fun e' k' he' hk' => ?_
        rw [hhand] at he'
        cases he'
        rw [hk] at hk'
        cases hk'
        exact hps
      · rename_i ps hps
        exact .hand ev e k ps f hf hrx hk hps
  · rename_i hno
    exact .forward _ f hf ha fun e k he _ => by simp [hno] at he

/-- Every step is one of the moves, and it is taken by a live process. -/
theorem step_move (h : Proxy.step cfg remote s a = some t) :
    s.dead = false ∧ Move cfg remote s a t := by
  unfold Proxy.step at h
  split at h
  · cases h
  rename_i hd
  refine ⟨by simpa using hd, ?_⟩
  cases a with
  | register =>
    dsimp only at h
    split at h
    · rename_i hm
      cases h
      exact .register hm
    · cases h
  | cleanup k =>
    obtain ⟨ps, hps, h⟩ := Option.bind_eq_some_iff.mp h
    exact cleanup_move hps h
  | rx k arrival =>
    obtain ⟨ps, hps, h⟩ := Option.bind_eq_some_iff.mp h
    exact rx_move hps h
  | tx k sent =>
    obtain ⟨ps, hps, h⟩ := Option.bind_eq_some_iff.mp h
    exact tx_move hps h
  | fwd fa =>
    cases fa with
    | push e => cases h
    | tx sent => exact fwd_move (by simp) h
    | rx ev => exact fwd_move (by simp) h
    | stop final => exact fwd_move (by simp) h
    | joined => exact fwd_move (by simp) h
    | requeue => exact fwd_move (by simp) h

/-- The step of the forwarder that a step of the proxy takes. -/
theorem move_fwd (h : Move cfg remote s a t) :
    t.fwd = s.fwd ∨ (∃ e, Forwarder.step cfg remote s.fwd (.push e) = some t.fwd) ∨
      ∃ fa, a = .fwd fa ∧ Forwarder.step cfg remote s.fwd fa = some t.fwd := by
  cases h with
  | rxPush k arrival ps e f hps hrx hf => exact .inr (.inl ⟨e, hf⟩)
  | hand ev e k ps f hf hrx hk hps => exact .inr (.inr ⟨.rx ev, rfl, hf⟩)
  | forward fa f hf ha hno => exact .inr (.inr ⟨fa, rfl, hf⟩)
  | _ => exact .inl rfl

end Moves

section Delivery

variable {cfg : Config disksize} {remote : File} {s t : State disksize} {a : Act disksize}
  {f g : Fwd disksize} {k : Nat} {ps ps' : Session disksize}

/-- The entry that `tx_thread_main` has popped and not answered yet. -/
def unsent : SessionTx disksize → List (Entry disksize)
  | .send p => [.req p]
  | _ => []

/-- A session receives its own entries in the order in which they were handed
over, and answers them in this order. -/
structure Delivered (f : Fwd disksize) (k : Nat) (ps : Session disksize) : Prop where
  handed : ps.pushed.Sublist f.handed
  own : ∀ e ∈ ps.pushed, session? e = some k
  queue : ∃ done, ps.pushed = done ++ unsent ps.tx ++ ps.txQueue ∧ ps.replied.Sublist (privs done)

def Delivery (s : State disksize) : Prop :=
  ∀ k ps, s.sessions[k]? = some ps → Delivered s.fwd k ps

theorem handed_mono {fa : Action disksize} (h : Trans cfg remote f fa g) :
    f.handed <+: g.handed := by
  cases h with
  | rxHand ev e hrx => exact List.prefix_append _ _
  | _ => exact List.prefix_refl _

theorem hand_step {ev : RecvEvent} {e : Entry disksize}
    (h : Forwarder.step cfg remote f (.rx ev) = some g) (hrx : f.rx = .hand e) :
    g = { f with rx := .idle, handed := f.handed ++ [e] } := by
  simp only [Forwarder.step, Fwd.rxStep, hrx] at h
  split at h
  · cases h
  · cases h
    rfl

theorem Delivered.mono (h : Delivered f k ps) (hf : f.handed <+: g.handed) : Delivered g k ps :=
  ⟨h.handed.trans hf.sublist, h.own, h.queue⟩

/-- One session changes. -/
theorem Delivery.set (h : Delivery s) (hf : s.fwd.handed <+: t.fwd.handed)
    (hset : t.sessions = s.sessions.set k ps') (hd : Delivered t.fwd k ps') : Delivery t := by
  unfold Delivery
  rw [hset]
  exact forall_set (fun j pj hj _ => (h j pj hj).mono hf) hd

/-- The rx thread does not touch the queue of its session. -/
theorem Delivery.setRx (h : Delivery s) (hps : s.sessions[k]? = some ps)
    (hf : s.fwd.handed <+: t.fwd.handed) (hset : t.sessions = s.sessions.set k ps')
    (hrest : ps'.pushed = ps.pushed ∧ ps'.tx = ps.tx ∧ ps'.txQueue = ps.txQueue ∧
      ps'.replied = ps.replied) : Delivery t := by
  obtain ⟨hpushed, htx, hq, hreplied⟩ := hrest
  have hd := (h k ps hps).mono hf
  refine h.set hf hset ⟨by rw [hpushed]; exact hd.handed, by rw [hpushed]; exact hd.own, ?_⟩
  rw [hpushed, htx, hq, hreplied]
  exact hd.queue

/-- The tx thread moves entries from the queue to those it is done with. -/
theorem Delivery.setTx (h : Delivery s) (hps : s.sessions[k]? = some ps)
    (hfwd : t.fwd = s.fwd) (hset : t.sessions = s.sessions.set k ps')
    (hpushed : ps'.pushed = ps.pushed)
    (hmove : ∀ done, ps.replied.Sublist (privs done) → ∃ done', done' ++ unsent ps'.tx ++ ps'.txQueue =
      done ++ unsent ps.tx ++ ps.txQueue ∧ ps'.replied.Sublist (privs done')) : Delivery t := by
  have hd := h k ps hps
  obtain ⟨done, hdone, hrep⟩ := hd.queue
  obtain ⟨done', heq, hrep'⟩ := hmove done hrep
  refine h.set (by rw [hfwd]) hset ⟨?_, ?_, done', ?_, hrep'⟩
  · rw [hfwd, hpushed]
    exact hd.handed
  · rw [hpushed]
    exact hd.own
  · rw [hpushed, hdone, heq]

theorem move_delivery (h : Delivery s) (hm : Move cfg remote s a t) : Delivery t := by
  cases hm with
  | register hmain =>
    apply forall_append h
    exact ⟨List.nil_sublist _, by simp [Session.new], [], by simp [Session.new, unsent]⟩
  | cleanup k ps hps hrx htx hq
  | rxRecv k arrival ps e hps hrx hk hf
  | rxWait k arrival ps e hps hrx hfits
  | rxAdd k arrival ps e hps hrx => exact h.setRx hps (List.prefix_refl _) rfl ⟨rfl, rfl, rfl, rfl⟩
  | cleanupFails k ps hps htx hq => exact h
  | rxPush k arrival ps e f hps hrx hf =>
    exact h.setRx hps (handed_mono (step_trans hf)) rfl ⟨rfl, rfl, rfl, rfl⟩
  | txPopSend k sent ps p rest hps htx hq hskip =>
    refine h.setTx hps rfl rfl rfl fun done hrep => ⟨done, ?_, hrep⟩
    simp [unsent, htx, hq]
  | txPopSkip k sent ps e rest hps htx hq =>
    refine h.setTx hps rfl rfl rfl fun done hrep => ⟨done ++ [e], ?_, ?_⟩
    · simp [unsent, htx, hq]
    · rw [privs_append]
      exact hrep.trans (List.sublist_append_left _ _)
  | txSend k sent ps p hps htx =>
    refine h.setTx hps rfl rfl rfl fun done hrep => ⟨done ++ [.req p], ?_, ?_⟩
    · simp [unsent, htx]
    · rw [privs_append]
      exact hrep.append (List.Sublist.refl _)
  | txRelease k sent ps e hps htx =>
    refine h.setTx hps rfl rfl rfl fun done hrep => ⟨done, ?_, hrep⟩
    rw [htx]
    dsimp only
    split <;> rfl
  | hand ev e k ps f hf hrx hk hps =>
    have hd := h k ps hps
    obtain ⟨done, hdone, hrep⟩ := hd.queue
    have hg := hand_step hf hrx
    refine h.set (handed_mono (step_trans hf)) rfl ⟨?_, ?_, done, ?_, hrep⟩
    · subst hg
      exact hd.handed.append (List.Sublist.refl [e])
    · intro e' he'
      rcases List.mem_append.mp he' with he' | he'
      · exact hd.own e' he'
      · rw [List.mem_singleton.mp he']
        exact hk
    · dsimp only
      rw [hdone, List.append_assoc]
  | forward fa f hf ha hno => exact fun k ps hps => (h k ps hps).mono (handed_mono (step_trans hf))

/-- What a session has answered was handed over to it. -/
theorem Delivered.replied_sublist (h : Delivered f k ps) :
    ps.replied.Sublist (privs ps.pushed) := by
  obtain ⟨done, hdone, hrep⟩ := h.queue
  rw [hdone, privs_append, privs_append, List.append_assoc]
  exact hrep.trans (List.sublist_append_left _ _)

end Delivery

end Xnbd.Sessions
