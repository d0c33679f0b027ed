import Xnbd.Restart

/-!
# Which connections a worker can reach

A fork copies every descriptor of the master, and the child closes those of the
listed sessions. A descriptor that the master has elsewhere stays open in the
child: one of `socklist` that has no session yet, or one whose negotiation failed.
-/
namespace Xnbd.Descriptors

open Master Restart Run

/-- No running worker holds a descriptor of another client's connection. -/
def Isolated (s : State) : Prop :=
  ∀ w ∈ s.workers, w.exited = false → ∀ e ∈ w.fds, e.conn = w.conn

instance (s : State) : Decidable (Isolated s) :=
  inferInstanceAs (Decidable (∀ w ∈ s.workers, _ → ∀ e ∈ w.fds, e.conn = w.conn))

/-- The descriptor that the next fork hands over. -/
def handed : Pc → Option Desc
  | .restart (d :: _) => some d
  | .invoke d => some d
  | _ => none

/-- A worker is forked only when `socklist` has no other descriptor than the one
handed over and those of listed sessions, and no negotiation has failed before. -/
def Clear (s : State) : Act → Prop
  | .fork _ =>
    ∀ d ∈ handed s.pc, (∀ e ∈ s.socklist, e = d ∨ e ∈ s.sessions.map Session.client) ∧ s.refused = []
  | _ => True

instance (s : State) (a : Act) : Decidable (Clear s a) :=
  match a with
  | .fork _ =>
    inferInstanceAs (Decidable (∀ d ∈ handed s.pc,
      (∀ e ∈ s.socklist, e = d ∨ e ∈ s.sessions.map Session.client) ∧ s.refused = []))
  | .raise _ | .exit _ | .loop | .waitpid _ | .dup _ | .interrupt _ | .ready | .accept _
  | .negotiated _ | .fail => isTrue trivial

/-- The connection that was accepted and has no session yet. -/
def inHand : Pc → List Desc
  | .negotiate d => [d]
  | .invoke d => [d]
  | _ => []

/-- Where the open descriptors of the master are recorded. -/
def Recorded (s : State) : Prop :=
  ∀ e ∈ s.fds, e ∈ s.sessions.map Session.client ∨ e ∈ s.socklist ∨ e ∈ s.refused ∨ e ∈ inHand s.pc

structure Kept (s : State) : Prop where
  recorded : s.pc ≠ .left → Recorded s
  own : ∀ w ∈ s.workers, ∀ e ∈ w.fds, e.conn = w.conn

theorem exit_fds (pid : Nat) (w : Worker) : (w.exit pid).fds = w.fds ∧ (w.exit pid).conn = w.conn := by
  simp only [Worker.exit]
  split <;> exact ⟨rfl, rfl⟩

theorem tell_fds (pid : Nat) (w : Worker) : (w.tell pid).fds = w.fds ∧ (w.tell pid).conn = w.conn := by
  simp only [Worker.tell]
  split <;> exact ⟨rfl, rfl⟩

variable {s t : State}

/-- What a child that is forked in the clear inherits. -/
theorem inherited_eq {pid : Nat} {d : Desc} (hrec : Recorded s) (hclear : Clear s (.fork pid))
    (hd : handed s.pc = some d) (hhand : ∀ e ∈ inHand s.pc, e = d) {e : Desc}
    (he : e ∈ inherited s) : e = d := by
  obtain ⟨hlisted, hrefused⟩ := hclear d hd
  simp only [inherited, List.mem_filter, decide_eq_true_eq] at he
  have hnot : e ∉ s.sessions.map Session.client := by
    intro hmem
    obtain ⟨x, hx, rfl⟩ := List.mem_map.mp hmem
    exact he.2 (List.mem_map_of_mem (f := fun x => x.client.fd) hx)
  obtain hmem | hmem | hmem | hmem := hrec e he.1
  · exact absurd hmem hnot
  · exact (hlisted e hmem).resolve_right hnot
  · simp [hrefused] at hmem
  · exact hhand e hmem

theorem own_fork {pid : Nat} {d : Desc} (h : Kept s) (hclear : Clear s (.fork pid))
    (hd : handed s.pc = some d) (hhand : ∀ e ∈ inHand s.pc, e = d) :
    ∀ w ∈ (invokeNewSession s d pid).workers, ∀ e ∈ w.fds, e.conn = w.conn := by
  have hleft : s.pc ≠ .left := by
    intro hpc
    simp [hpc, handed] at hd
  intro w hw e he
  cases List.mem_append.mp hw with
  | inl hw => exact h.own w hw e he
  | inr hw =>
    cases List.mem_singleton.mp hw
    rw [inherited_eq (h.recorded hleft) hclear hd hhand he]

theorem recorded_fork (h : Recorded s) {d : Desc} {pid : Nat} (hhand : ∀ e ∈ inHand s.pc, e = d)
    (pc : Pc) : Recorded { invokeNewSession s d pid with pc } := by
  intro e he
  simp only [invokeNewSession, List.map_append, List.map_singleton, List.mem_append,
    List.mem_singleton]
  obtain hmem | hmem | hmem | hmem := h e he
  · exact .inl (.inl hmem)
  · exact .inr (.inl hmem)
  · exact .inr (.inr (.inl hmem))
  · exact .inl (.inr (hhand e hmem))

/-- A session's process is forked with the one descriptor in hand. -/
theorem fork_kept {pid : Nat} {d : Desc} (h : Kept s) (hclear : Clear s (.fork pid))
    (hd : handed s.pc = some d) (hhand : ∀ e ∈ inHand s.pc, e = d) (pc : Pc) :
    Kept { invokeNewSession s d pid with pc } := by
  have hleft : s.pc ≠ .left := by
    intro hpc
    simp [hpc, handed] at hd
  exact ⟨fun _ => recorded_fork (h.recorded hleft) hhand pc, own_fork h hclear hd hhand⟩

theorem reap_kept (h : Kept s) {pid : Nat} {w : Worker} {x : Session} (hpc : s.pc = .reap)
    (hx : s.sessions.find? (fun x => x.pid = pid) = some x) : Kept (reapSession s pid w x) := by
  constructor
  · intro _ e he
    simp only [reapSession, List.mem_filter, decide_eq_true_eq] at he
    obtain hmem | hmem := h.recorded (by simp [hpc]) e he.1
    · obtain ⟨y, hy, rfl⟩ := List.mem_map.mp hmem
      cases mem_eraseP_or_eq hx hy with
      | inl hy => exact .inl (List.mem_map_of_mem hy)
      | inr hy => exact absurd (congrArg (fun x => x.client.fd) hy) he.2
    · exact .inr hmem
  · intro v hv
    exact h.own v (List.mem_of_mem_eraseP hv)

theorem notify_kept (h : Kept s) {x : Session} {rest : List Session} {fd : Nat}
    (hpc : s.pc = .notify (x :: rest)) :
    Kept { notifySession s x fd with pc := .notify rest } := by
  constructor
  · intro _ e he
    have hclient : (s.sessions.map (Session.notify x.pid)).map Session.client =
        s.sessions.map Session.client := by
      rw [List.map_map]
      exact List.map_congr_left fun y _ => notify_client x.pid y
    simp only [notifySession, hclient, List.mem_append, inHand, List.not_mem_nil, or_false] at he ⊢
    cases he with
    | inl he =>
      have hrec := h.recorded (by simp [hpc]) e he
      simp only [hpc, inHand, List.not_mem_nil, or_false] at hrec
      obtain hmem | hmem | hmem := hrec
      · exact .inl hmem
      · exact .inr (.inl (.inl hmem))
      · exact .inr (.inr hmem)
    | inr he => exact .inr (.inl (.inr he))
  · intro w hw e he
    obtain ⟨v, hv, rfl⟩ := List.mem_map.mp hw
    rw [(tell_fds x.pid v).1] at he
    rw [(tell_fds x.pid v).2]
    exact h.own v hv e he

theorem restarted_kept (hc : Conserved s) (h : Kept s) (hpc : s.pc = .restart []) :
    Kept (restartDone s) := by
  have hp := hc.place
  simp only [Place, hpc, List.append_nil] at hp
  constructor
  · intro _ e he
    obtain hmem | hmem | hmem | hmem := h.recorded (by simp [hpc]) e he
    · exact .inl hmem
    · -- every descriptor of the list belongs to a session by now
      exact .inl (hp.1 ▸ hmem)
    · exact .inr (.inr (.inl hmem))
    · simp [hpc, inHand] at hmem
  · exact h.own

/-- A move that leaves the tables alone and has nothing in hand. -/
theorem Kept.pass (h : Kept s) {pc : Pc} (hpc : s.pc = pc) (hidle : pc ≠ .left ∧ inHand pc = [])
    (ht : t.fds = s.fds ∧ t.sessions = s.sessions ∧ t.socklist = s.socklist ∧
      t.refused = s.refused ∧ t.workers = s.workers) : Kept t := by
  obtain ⟨hfds, hsessions, hsocklist, hrefused, hworkers⟩ := ht
  rw [← hpc] at hidle
  constructor
  · intro _ e he
    rw [hfds] at he
    rw [hsessions, hsocklist, hrefused]
    obtain hmem | hmem | hmem | hmem := h.recorded hidle.1 e he
    · exact .inl hmem
    · exact .inr (.inl hmem)
    · exact .inr (.inr (.inl hmem))
    · simp [hidle.2] at hmem
  · rw [hworkers]
    exact h.own

theorem move_kept {a : Act} (hc : Conserved s) (h : Kept s) (hclear : Clear s a)
    (m : Move s a t) : Kept t := by
  cases m with
  | raise pending => exact ⟨h.recorded, h.own⟩
  | exit pid pending =>
    constructor
    · exact h.recorded
    · intro w hw e he
      obtain ⟨v, hv, rfl⟩ := List.mem_map.mp hw
      rw [(exit_fds pid v).1] at he
      rw [(exit_fds pid v).2]
      exact h.own v hv e he
  | fail => exact ⟨fun hleft => absurd rfl hleft, h.own⟩
  | top got pc hpc hnext => exact h.pass hpc ⟨nofun, rfl⟩ ⟨rfl, rfl, rfl, rfl, rfl⟩
  | reap pid w x hpc hw hx => exact reap_kept h hpc hx
  | reaped hpc => exact h.pass hpc ⟨nofun, rfl⟩ ⟨rfl, rfl, rfl, rfl, rfl⟩
  | check hpc => exact h.pass hpc ⟨nofun, rfl⟩ ⟨rfl, rfl, rfl, rfl, rfl⟩
  | stopped hpc hnone => exact h.pass hpc ⟨nofun, rfl⟩ ⟨rfl, rfl, rfl, rfl, rfl⟩
  | reinit cmd hpc => exact h.pass hpc ⟨nofun, rfl⟩ ⟨rfl, rfl, rfl, rfl, rfl⟩
  | refork d rest pid hact hpc hpid =>
    subst hact
    exact fork_kept h hclear (by simp [hpc, handed]) (by simp [hpc, inHand]) _
  | restarted hpc => exact restarted_kept hc h hpc
  | sigusr hpc =>
    obtain ⟨got, mode, snapshot, armed, pc, he, hnext⟩ := handleSigusr_eq s
    rw [he]
    exact h.pass hpc ⟨nofun, rfl⟩ ⟨rfl, rfl, rfl, rfl, rfl⟩
  | skip x rest hpc hx => exact h.pass hpc ⟨nofun, rfl⟩ ⟨rfl, rfl, rfl, rfl, rfl⟩
  | notify x rest fd hpc hx hfd => exact notify_kept h hpc
  | notified hpc => exact h.pass hpc ⟨nofun, rfl⟩ ⟨rfl, rfl, rfl, rfl, rfl⟩
  | interrupt got pending hpc => exact h.pass hpc ⟨nofun, rfl⟩ ⟨rfl, rfl, rfl, rfl, rfl⟩
  | ready hpc => exact h.pass hpc ⟨nofun, rfl⟩ ⟨rfl, rfl, rfl, rfl, rfl⟩
  | accept fd hpc hfd =>
    constructor
    · intro _ e he
      cases List.mem_append.mp he with
      | inl he =>
        obtain hmem | hmem | hmem | hmem := h.recorded (by simp [hpc]) e he
        · exact .inl hmem
        · exact .inr (.inl hmem)
        · exact .inr (.inr (.inl hmem))
        · simp [hpc, inHand] at hmem
      | inr he => exact .inr (.inr (.inr he))
    · exact h.own
  | negotiated d hpc =>
    constructor
    · intro _ e he
      have hrec := h.recorded (by simp [hpc]) e he
      rw [hpc] at hrec
      exact hrec
    · exact h.own
  | refuse d hpc =>
    constructor
    · intro _ e he
      obtain hmem | hmem | hmem | hmem := h.recorded (by simp [hpc]) e he
      · exact .inl hmem
      · exact .inr (.inl hmem)
      · exact .inr (.inr (.inl (List.mem_append_left _ hmem)))
      · rw [hpc] at hmem
        exact .inr (.inr (.inl (List.mem_append_right _ hmem)))
    · exact h.own
  | fork d pid hact hpc hpid =>
    subst hact
    exact fork_kept h hclear (by simp [hpc, handed]) (by simp [hpc, inHand]) _
  | served hpc => exact h.pass hpc ⟨nofun, rfl⟩ ⟨rfl, rfl, rfl, rfl, rfl⟩

theorem masterServer_kept (cmd : Cmd) (got pending : Signals) (boot : Boot) :
    Kept (masterServer cmd got pending boot) := by
  cases boot with
  | listen => constructor <;> simp [masterServer, Recorded]
  | connect fd pid exited => constructor <;> simp [masterServer, Recorded]

theorem workers_isolated {cmd : Cmd} {got pending : Signals} {boot : Boot} {acts : List Act}
    (h : run step (masterServer cmd got pending boot) acts = some s)
    (hclear : Along step Clear (masterServer cmd got pending boot) acts) : Isolated s := by
  have hboth : Conserved s ∧ Kept s := by
    refine run_invariant (I := fun s => Conserved s ∧ Kept s) ?_ ?_ hclear h
    · intro s a t hi ha hs
      exact ⟨move_conserved hi.1 (step_move hs), move_kept hi.1 hi.2 ha (step_move hs)⟩
    · exact ⟨masterServer_conserved cmd got pending boot, masterServer_kept cmd got pending boot⟩
  intro w hw _
  exact hboth.2.own w hw

/-- Of two clients the first one leaves, the second one gets a new worker for a snapshot, and
a third client is accepted. -/
def threeClients : List Act :=
  [.loop, .loop, .loop, .ready, .accept 5, .negotiated true, .fork 100, .accept 6, .negotiated true,
    .fork 101, .loop, .loop, .loop, .loop, .exit 100, .interrupt ⟨true, false, false, false⟩, .loop,
    .waitpid (some 100), .waitpid none, .loop, .loop, .raise ⟨false, true, false, false⟩,
    .interrupt ⟨false, true, false, false⟩, .loop, .loop, .loop, .dup 5, .loop, .exit 101,
    .interrupt ⟨true, false, false, false⟩, .loop, .waitpid (some 101), .waitpid none, .loop, .loop,
    .fork 102, .loop, .loop, .ready, .accept 6, .negotiated true, .fork 103]

theorem workers_isolated_threeClients :
    (run step (masterServer .target .none .none .listen) threeClients).map
      (fun s => s.workers.map Worker.conn) = some [1, 2] ∧
    ∀ s, run step (masterServer .target .none .none .listen) threeClients = some s → Isolated s :=
  ⟨by decide, fun _ h => workers_isolated h (by decide)⟩

/-- The first worker of a restart with two connections holds the descriptor of the
second one. -/
theorem restart_shares_descriptor :
    ∃ s, run step (masterServer .target .none .none .listen)
      (twoClients ++ [.loop, .fork 200]) = some s ∧ ¬ Isolated s :=
  ⟨_, rfl, by decide⟩

end Xnbd.Descriptors
