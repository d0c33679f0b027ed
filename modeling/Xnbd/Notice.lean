import Xnbd.Restart

/-!
# What the master has done about its signals when it goes to sleep

SIGUSR1 and SIGUSR2 are handled in one block. When both flags are up and one of
the two signals is ignored in the present mode, the jump to `skip_restarting`
also passes over what is still to be done for the other one.
-/
namespace Xnbd.Notice

open Master Restart Run

/-- The session's worker has been told to terminate, and its connection is kept. -/
def Told (s : State) (x : Session) : Prop :=
  x.notifying = true ∧ (∃ w ∈ s.workers, w.pid = x.pid ∧ w.told = true) ∧
    x.client.conn ∈ s.socklist.map Desc.conn

/-- What a master that calls `ppoll` has done: no flag is up, and when this
iteration has asked for a restart, every session knows. -/
def Settled (s : State) : Prop :=
  s.got.sigusr1 = false ∧ s.got.sigusr2 = false ∧ (s.armed = true → ∀ x ∈ s.sessions, Told s x)

instance (s : State) (x : Session) : Decidable (Told s x) :=
  inferInstanceAs (Decidable (_ ∧ _ ∧ _))

instance (s : State) : Decidable (Settled s) :=
  inferInstanceAs (Decidable (_ ∧ _ ∧ (_ → ∀ x ∈ s.sessions, Told s x)))

/-- The block is not entered with both flags up, unless in proxy mode with every
session notified before. -/
def Apart (s : State) : Prop :=
  s.pc = .sigusr → s.got.sigusr1 = true → s.got.sigusr2 = true →
    s.cmd = .proxy ∧ ∀ x ∈ s.sessions, x.notifying = true

instance (s : State) : Decidable (Apart s) :=
  inferInstanceAs (Decidable (_ → _ → _ → _ ∧ ∀ x ∈ s.sessions, x.notifying = true))

/-- What holds of the flags at each place of the loop. -/
def Quiet (s : State) : Prop :=
  match s.pc with
  | .reap => s.armed = false
  | .restartCheck => s.armed = false
  | .reinit => s.armed = false
  | .restart _ => s.armed = false
  | .sigusr => s.armed = false
  | .notify _ => s.got.sigusr1 = false ∧ s.got.sigusr2 = false
  | .poll =>
    s.got.sigusr1 = false ∧ s.got.sigusr2 = false ∧
      (s.armed = true → ∀ x ∈ s.sessions, x.notifying = true)
  | _ => True

/-- The places of an iteration before the block for the two signals is done. -/
def Early : Pc → Prop
  | .reap | .restartCheck | .reinit | .restart _ | .sigusr => True
  | _ => False

theorem Quiet.early {s : State} (h : Quiet s) {pc : Pc} (hpc : s.pc = pc) (hearly : Early pc) :
    s.armed = false := by
  simp only [Quiet, hpc] at h
  cases pc <;> first | exact h | exact hearly.elim

theorem Quiet.notifying {s : State} (h : Quiet s) {rest : List Session}
    (hpc : s.pc = .notify rest) : s.got.sigusr1 = false ∧ s.got.sigusr2 = false := by
  simp only [Quiet, hpc] at h
  exact h

theorem startRestart_quiet {s : State} (h₁ : s.got.sigusr1 = false) (h₂ : s.got.sigusr2 = false) :
    Quiet (startRestart s) := by
  simp only [startRestart]
  split
  · trivial
  · exact ⟨h₁, h₂⟩

theorem handleSigusr1_quiet {s : State} (h₂ : s.got.sigusr2 = false)
    (hskip : s.got.sigusr1 = true → s.cmd ≠ .target → s.armed = true →
      ∀ x ∈ s.sessions, x.notifying = true) : Quiet (handleSigusr1 s) := by
  simp only [handleSigusr1]
  split
  · rename_i h₁
    split
    · rename_i hcmd
      exact ⟨rfl, h₂, hskip h₁ hcmd⟩
    · exact startRestart_quiet rfl h₂
  · rename_i h₁
    exact startRestart_quiet (by simpa using h₁) h₂

theorem handleSigusr_quiet {s : State} (hpc : s.pc = .sigusr) (harmed : s.armed = false)
    (hapart : Apart s) : Quiet (handleSigusr s) := by
  have hnever : s.armed = true → ∀ x ∈ s.sessions, x.notifying = true := by simp [harmed]
  simp only [handleSigusr]
  split
  · rename_i h₂
    split
    · rename_i hcmd
      have h₁ : s.got.sigusr1 = false := by
        cases h₁ : s.got.sigusr1 with
        | false => rfl
        | true => exact absurd (hapart hpc h₁ h₂).1 hcmd
      exact ⟨h₁, rfl, hnever⟩
    · exact handleSigusr1_quiet rfl fun h₁ _ _ => (hapart hpc h₁ h₂).2
  · rename_i h₂
    have h₂ : s.got.sigusr2 = false := by simpa using h₂
    split
    · exact handleSigusr1_quiet h₂ fun _ _ => hnever
    · rename_i h₁
      exact ⟨by simpa using h₁, h₂, hnever⟩

theorem move_quiet {s t : State} {a : Act} (hc : Conserved s) (hq : Quiet s) (hapart : Apart s)
    (m : Move s a t) : Quiet t := by
  cases m with
  | raise pending => exact hq
  | exit pid pending => exact hq
  | fail => trivial
  | top got pc hpc hnext => obtain rfl | rfl | rfl := hnext <;> trivial
  | reap pid w x hpc hw hx =>
    simp only [Quiet, reapSession, hpc]
    exact hq.early hpc trivial
  | reaped hpc => exact hq.early hpc trivial
  | check hpc => exact hq.early hpc trivial
  | stopped hpc hnone => exact hq.early hpc trivial
  | reinit cmd hpc => exact hq.early hpc trivial
  | refork d rest pid hact hpc hpid => exact hq.early hpc trivial
  | restarted hpc => exact hq.early hpc trivial
  | sigusr hpc => exact handleSigusr_quiet hpc (hq.early hpc trivial) hapart
  | skip x rest hpc hx => exact hq.notifying hpc
  | notify x rest fd hpc hx hfd => exact hq.notifying hpc
  | notified hpc =>
    obtain ⟨h₁, h₂⟩ := hq.notifying hpc
    -- the loop has reached every session
    have hp := hc.place
    simp only [Place, hpc] at hp
    obtain ⟨-, front, hfront, hall⟩ := hp
    rw [List.append_nil] at hfront
    exact ⟨h₁, h₂, fun _ x hx => hall x (hfront ▸ hx)⟩
  | interrupt got pending hpc => trivial
  | ready hpc => trivial
  | accept fd hpc hfd => trivial
  | negotiated d hpc => trivial
  | refuse d hpc => trivial
  | fork d pid hact hpc hpid => trivial
  | served hpc => trivial

theorem run_quiet {cmd : Cmd} {got pending : Signals} {boot : Boot} {acts : List Act} {s : State}
    (h : run step (masterServer cmd got pending boot) acts = some s)
    (hapart : Along step (fun s _ => Apart s) (masterServer cmd got pending boot) acts) :
    Quiet s := by
  have hboth : Conserved s ∧ Quiet s := by
    refine run_invariant (I := fun s => Conserved s ∧ Quiet s) ?_ ?_ hapart h
    · intro s a t hi ha hs
      exact ⟨move_conserved hi.1 (step_move hs), move_quiet hi.1 hi.2 ha (step_move hs)⟩
    · constructor
      · exact masterServer_conserved cmd got pending boot
      · cases boot <;> trivial
  exact hboth.2

/-- A notified session is in the books as one. -/
theorem told_of_notifying {s : State} (hc : Conserved s) (hpc : s.pc = .poll) {x : Session}
    (hx : x ∈ s.sessions) (hnot : x.notifying = true) : Told s x := by
  obtain ⟨w, hw, hpid, -, htold⟩ := hc.books.worker hx
  exact ⟨hnot, ⟨w, hw, hpid, htold.trans hnot⟩, (hc.notified hpc trivial x hx).mp hnot⟩

/-- With both flags up, what one of them asks for is passed over. -/
theorem both_unsettled {s t : State} (hpc : s.pc = .sigusr) (hboth : ¬ Apart s)
    (ht : step s .loop = some t) : t.pc = .poll ∧ ¬ Settled t := by
  simp only [Apart, not_forall] at hboth
  obtain ⟨-, h₁, h₂, hmissed⟩ := hboth
  have he : t = handleSigusr s := by
    simp only [step, loop, hpc, Option.some.injEq] at ht
    exact ht.symm
  subst he
  cases hcmd : s.cmd with
  | proxy =>
    obtain ⟨x, hx⟩ : ∃ x ∈ s.sessions, x.notifying ≠ true := by
      simpa [hcmd] using hmissed
    simp only [handleSigusr, handleSigusr1, h₁, h₂, hcmd]
    exact ⟨rfl, fun hs => hx.2 (hs.2.2 rfl x hx.1).1⟩
  | target =>
    simp only [handleSigusr, h₂, hcmd]
    exact ⟨rfl, fun hs => by simpa [h₁] using hs.1⟩
  | cowTarget =>
    simp only [handleSigusr, h₂, hcmd]
    exact ⟨rfl, fun hs => by simpa [h₁] using hs.1⟩

theorem restart_signals_kept (cmd : Cmd) (got pending : Signals) (boot : Boot) :
    (∀ acts s, run step (masterServer cmd got pending boot) acts = some s →
      Along step (fun s _ => Apart s) (masterServer cmd got pending boot) acts →
      s.pc = .poll → Settled s) ∧
    ∀ s t, s.pc = .sigusr → ¬ Apart s → step s .loop = some t → t.pc = .poll ∧ ¬ Settled t := by
  constructor
  · intro acts s h hapart hpc
    have hq := run_quiet h hapart
    simp only [Quiet, hpc] at hq
    obtain ⟨h₁, h₂, hall⟩ := hq
    exact ⟨h₁, h₂, fun ha x hx => told_of_notifying (run_conserved h) hpc hx (hall ha x hx)⟩
  · intro s t hpc hboth ht
    exact both_unsettled hpc hboth ht

/-- A client is served, and then the signals come. -/
def oneClient (sent : Signals) : List Act :=
  [.loop, .loop, .loop, .ready, .accept 5, .negotiated true, .fork 100, .loop, .loop, .loop, .loop,
    .raise sent, .interrupt sent, .loop, .loop, .loop]

theorem restart_signals_kept_sigusr2 :
    (run step (masterServer .proxy .none .none .listen)
      (oneClient ⟨false, false, true, false⟩ ++ [.dup 6, .loop])).map State.pc = some .poll ∧
    ∀ s, run step (masterServer .proxy .none .none .listen)
      (oneClient ⟨false, false, true, false⟩ ++ [.dup 6, .loop]) = some s →
      s.pc = .poll → Settled s :=
  ⟨by decide, fun s h => (restart_signals_kept .proxy .none .none .listen).1 _ s h (by decide)⟩

/-- A proxy that is asked for a mode change and for a snapshot at once goes to
sleep without telling its worker. -/
theorem both_signals_lost :
    ∃ s, run step (masterServer .proxy .none .none .listen)
      (oneClient ⟨false, true, true, false⟩) = some s ∧ s.pc = .poll ∧
      s.restartingForModeChange = true ∧ ¬ Settled s :=
  ⟨_, rfl, by decide, by decide, by decide⟩

end Xnbd.Notice
