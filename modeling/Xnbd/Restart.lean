import Mathlib.Data.List.Nodup
import Xnbd.Master

/-!
# Restarts conserve the clients

A session and its worker are listed together and removed together, so the two
lists stay parallel. What is said here about `socklist` follows the loop: outside
a restart it has exactly the connections of the notified sessions and of those
that are already gone, and during a restart it is what the new sessions have
together with what is still to be handed out.
-/
namespace Xnbd.Restart

open Master Run

/-- What a session and its worker have in common. -/
structure Tag where
  pid : Nat
  conn : Nat
  told : Bool

def sessionTag (x : Session) : Tag := ⟨x.pid, x.client.conn, x.notifying⟩

def workerTag (w : Worker) : Tag := ⟨w.pid, w.conn, w.told⟩

def Tag.tell (pid : Nat) (g : Tag) : Tag := if g.pid = pid then { g with told := true } else g

theorem sessionTag_notify (pid : Nat) (x : Session) :
    sessionTag (x.notify pid) = (sessionTag x).tell pid := by
  by_cases h : x.pid = pid <;> simp [Session.notify, sessionTag, Tag.tell, h]

theorem workerTag_tell (pid : Nat) (w : Worker) :
    workerTag (w.tell pid) = (workerTag w).tell pid := by
  by_cases h : w.pid = pid <;> simp [Worker.tell, workerTag, Tag.tell, h]

theorem workerTag_exit (pid : Nat) (w : Worker) : workerTag (w.exit pid) = workerTag w := by
  simp only [Worker.exit, workerTag]
  split <;> rfl

theorem notify_client (pid : Nat) (x : Session) : (x.notify pid).client = x.client := by
  simp only [Session.notify]
  split <;> rfl

theorem notify_pid (pid : Nat) (x : Session) : (x.notify pid).pid = x.pid := by
  simp only [Session.notify]
  split <;> rfl

theorem tell_conn (pid : Nat) (w : Worker) : (w.tell pid).conn = w.conn := by
  simp only [Worker.tell]
  split <;> rfl

theorem tell_told (pid : Nat) {w : Worker} (h : w.told = true) : (w.tell pid).told = true := by
  simp only [Worker.tell]
  split
  · rfl
  · exact h

/-- Only the entry that was found is taken out. -/
theorem mem_eraseP_or_eq {α : Type} {p : α → Bool} {l : List α} {a b : α}
    (ha : l.find? p = some a) (hb : b ∈ l) : b ∈ l.eraseP p ∨ b = a := by
  induction l with
  | nil => cases hb
  | cons c l ih =>
    by_cases hc : p c = true
    · rw [List.find?_cons_of_pos hc, Option.some.injEq] at ha
      subst ha
      rw [List.eraseP_cons_of_pos hc]
      exact (List.mem_cons.mp hb).symm
    · rw [List.find?_cons_of_neg hc] at ha
      rw [List.eraseP_cons_of_neg hc, List.mem_cons]
      cases List.mem_cons.mp hb with
      | inl hb => exact .inl (.inl hb)
      | inr hb => exact (ih ha hb).imp_left .inr

/-- The tables of the master beside its children. -/
structure Books (sessions : List Session) (workers : List Worker) (socklist : List Desc)
    (waited : List Worker) (conns : Nat) : Prop where
  tags : workers.map workerTag = sessions.map sessionTag
  pids : (sessions.map Session.pid).Nodup
  clients : (sessions.map fun x => x.client.conn).Nodup
  listed : (socklist.map Desc.conn).Nodup
  knownClients : ∀ x ∈ sessions, x.client.conn < conns
  knownListed : ∀ d ∈ socklist, d.conn < conns
  told : ∀ d ∈ socklist, ∃ w ∈ workers ++ waited, w.conn = d.conn ∧ w.told = true

/-- The notified sessions are those whose connection is in `socklist`. -/
def Notified (s : State) : Prop :=
  ∀ x ∈ s.sessions, x.notifying = true ↔ x.client.conn ∈ s.socklist.map Desc.conn

/-- A connection that is not in the tables yet. -/
def Fresh (s : State) (c : Nat) : Prop :=
  c < s.conns ∧ c ∉ s.sessions.map (fun x => x.client.conn) ∧ c ∉ s.socklist.map Desc.conn

def Place (s : State) : Prop :=
  match s.pc with
  | .reinit => s.sessions = []
  | .restart rest =>
    s.sessions.map Session.client ++ rest = s.socklist ∧ ∀ x ∈ s.sessions, x.notifying = false
  | .notify rest =>
    Notified s ∧ ∃ front, s.sessions = front ++ rest ∧ ∀ x ∈ front, x.notifying = true
  | .negotiate d => Notified s ∧ Fresh s d.conn
  | .invoke d => Notified s ∧ Fresh s d.conn
  | .left => True
  | _ => Notified s

structure Conserved (s : State) : Prop where
  books : Books s.sessions s.workers s.socklist s.waited s.conns
  place : Place s

/-- The places with nothing of their own to keep. -/
def Idle : Pc → Prop
  | .top | .reap | .restartCheck | .sigusr | .poll | .serve => True
  | _ => False

theorem Conserved.notified {s : State} (h : Conserved s) {pc : Pc} (hpc : s.pc = pc)
    (hidle : Idle pc) : Notified s := by
  have hp := h.place
  simp only [Place, hpc] at hp
  cases pc <;> first | exact hp | exact hidle.elim

section Tables

variable {sessions : List Session} {workers : List Worker} {socklist : List Desc}
  {waited : List Worker} {conns : Nat}

theorem worker_pids (h : Books sessions workers socklist waited conns) :
    workers.map Worker.pid = sessions.map Session.pid := by
  have hp := congrArg (List.map Tag.pid) h.tags
  rw [List.map_map, List.map_map] at hp
  exact hp

theorem worker_conns (h : Books sessions workers socklist waited conns) :
    workers.map Worker.conn = sessions.map fun x => x.client.conn := by
  have hc := congrArg (List.map Tag.conn) h.tags
  rw [List.map_map, List.map_map] at hc
  exact hc

/-- The worker of a session. -/
theorem Books.worker (h : Books sessions workers socklist waited conns) {x : Session}
    (hx : x ∈ sessions) :
    ∃ w ∈ workers, w.pid = x.pid ∧ w.conn = x.client.conn ∧ w.told = x.notifying := by
  have htag : sessionTag x ∈ workers.map workerTag := h.tags ▸ List.mem_map_of_mem hx
  obtain ⟨w, hw, hwx⟩ := List.mem_map.mp htag
  simp only [workerTag, sessionTag, Tag.mk.injEq] at hwx
  exact ⟨w, hw, hwx⟩

theorem books_exit (h : Books sessions workers socklist waited conns) (pid : Nat) :
    Books sessions (workers.map (Worker.exit pid)) socklist waited conns where
  tags := by
    rw [List.map_map, ← h.tags]
    exact List.map_congr_left fun w _ => workerTag_exit pid w
  pids := h.pids
  clients := h.clients
  listed := h.listed
  knownClients := h.knownClients
  knownListed := h.knownListed
  told d hd := by
    obtain ⟨w, hw, hc, ht⟩ := h.told d hd
    cases List.mem_append.mp hw with
    | inl hw =>
      have htag := workerTag_exit pid w
      simp only [workerTag, Tag.mk.injEq] at htag
      exact ⟨w.exit pid, List.mem_append_left _ (List.mem_map_of_mem hw), htag.2.1.trans hc,
        htag.2.2.trans ht⟩
    | inr hw => exact ⟨w, List.mem_append_right _ hw, hc, ht⟩

theorem books_fork (h : Books sessions workers socklist waited conns) {d : Desc} {pid : Nat}
    (hpid : pid ∉ workers.map Worker.pid) (hknown : d.conn < conns)
    (hnew : d.conn ∉ sessions.map fun x => x.client.conn) (fds : List Desc) :
    Books (sessions ++ [⟨d, pid, false⟩]) (workers ++ [⟨pid, d.conn, fds, false, false⟩]) socklist
      waited conns where
  tags := by
    rw [List.map_append, List.map_append, h.tags]
    rfl
  pids := by
    rw [List.map_append, List.map_singleton, List.nodup_append_comm]
    rw [worker_pids h] at hpid
    exact List.nodup_cons.mpr ⟨hpid, h.pids⟩
  clients := by
    rw [List.map_append, List.map_singleton, List.nodup_append_comm]
    exact List.nodup_cons.mpr ⟨hnew, h.clients⟩
  listed := h.listed
  knownClients x hx := by
    cases List.mem_append.mp hx with
    | inl hx => exact h.knownClients x hx
    | inr hx =>
      cases List.mem_singleton.mp hx
      exact hknown
  knownListed := h.knownListed
  told e he := by
    obtain ⟨w, hw, hc, ht⟩ := h.told e he
    have hmem : w ∈ workers ++ [⟨pid, d.conn, fds, false, false⟩] ++ waited := by
      simp only [List.mem_append] at hw ⊢
      exact hw.imp_left Or.inl
    exact ⟨w, hmem, hc, ht⟩

theorem books_reap (h : Books sessions workers socklist waited conns) {pid : Nat} {w : Worker}
    (hw : workers.find? (fun w => w.pid = pid) = some w) :
    Books (sessions.eraseP fun x => x.pid = pid) (workers.eraseP fun w => w.pid = pid) socklist
      (waited ++ [w]) conns where
  tags := by
    have he := congrArg (List.eraseP fun g : Tag => g.pid = pid) h.tags
    rw [List.eraseP_map, List.eraseP_map] at he
    exact he
  pids := h.pids.sublist (List.eraseP_sublist.map _)
  clients := h.clients.sublist (List.eraseP_sublist.map _)
  listed := h.listed
  knownClients x hx := h.knownClients x (List.mem_of_mem_eraseP hx)
  knownListed := h.knownListed
  told d hd := by
    obtain ⟨v, hv, hc, ht⟩ := h.told d hd
    have hkept : v ∈ (workers.eraseP fun w => w.pid = pid) ++ (waited ++ [w]) := by
      cases List.mem_append.mp hv with
      | inl hv =>
        cases mem_eraseP_or_eq hw hv with
        | inl hv => exact List.mem_append_left _ hv
        | inr hv => simp [hv]
      | inr hv => simp [hv]
    exact ⟨v, hkept, hc, ht⟩

theorem books_notify (h : Books sessions workers socklist waited conns) {x : Session}
    (hx : x ∈ sessions) (hnew : x.client.conn ∉ socklist.map Desc.conn) (fd : Nat) :
    Books (sessions.map (Session.notify x.pid)) (workers.map (Worker.tell x.pid))
      (socklist ++ [⟨fd, x.client.conn⟩]) waited conns where
  tags := by
    have ht := congrArg (List.map (Tag.tell x.pid)) h.tags
    simp only [List.map_map, Function.comp_def, sessionTag_notify, workerTag_tell] at ht ⊢
    exact ht
  pids := by
    simp only [List.map_map, Function.comp_def, notify_pid]
    exact h.pids
  clients := by
    simp only [List.map_map, Function.comp_def, notify_client]
    exact h.clients
  listed := by
    rw [List.map_append, List.map_singleton, List.nodup_append_comm]
    exact List.nodup_cons.mpr ⟨hnew, h.listed⟩
  knownClients y hy := by
    obtain ⟨z, hz, rfl⟩ := List.mem_map.mp hy
    rw [notify_client]
    exact h.knownClients z hz
  knownListed d hd := by
    cases List.mem_append.mp hd with
    | inl hd => exact h.knownListed d hd
    | inr hd =>
      cases List.mem_singleton.mp hd
      exact h.knownClients x hx
  told d hd := by
    cases List.mem_append.mp hd with
    | inl hd =>
      obtain ⟨w, hw, hc, ht⟩ := h.told d hd
      cases List.mem_append.mp hw with
      | inl hw =>
        have hmem := List.mem_append_left waited (List.mem_map_of_mem (f := Worker.tell x.pid) hw)
        exact ⟨w.tell x.pid, hmem, (tell_conn x.pid w).trans hc, tell_told x.pid ht⟩
      | inr hw => exact ⟨w, List.mem_append_right _ hw, hc, ht⟩
    | inr hd =>
      cases List.mem_singleton.mp hd
      obtain ⟨w, hw, hpid, hconn, -⟩ := h.worker hx
      have hmem := List.mem_append_left waited (List.mem_map_of_mem (f := Worker.tell x.pid) hw)
      exact ⟨w.tell x.pid, hmem, (tell_conn x.pid w).trans hconn, by simp [Worker.tell, hpid]⟩

end Tables

theorem startRestart_eq (s : State) :
    ∃ pc, startRestart s = { s with pc } ∧ (pc = .top ∨ pc = .notify s.sessions) := by
  simp only [startRestart]
  split
  · exact ⟨_, rfl, .inl rfl⟩
  · exact ⟨_, rfl, .inr rfl⟩

theorem handleSigusr1_eq (s : State) :
    ∃ got snapshot armed pc,
      handleSigusr1 s = { s with got, restartingForSnapshot := snapshot, armed, pc } ∧
      (pc = .poll ∨ pc = .top ∨ pc = .notify s.sessions) := by
  simp only [handleSigusr1]
  split
  · split
    · exact ⟨_, _, _, _, rfl, .inl rfl⟩
    · obtain ⟨pc, he, hpc⟩ := startRestart_eq
        { s with got.sigusr1 := false, restartingForSnapshot := true, armed := true }
      exact ⟨_, _, _, pc, he, .inr hpc⟩
  · obtain ⟨pc, he, hpc⟩ := startRestart_eq s
    exact ⟨_, _, _, pc, he, .inr hpc⟩

/-- The block for the two signals changes no table. -/
theorem handleSigusr_eq (s : State) :
    ∃ got mode snapshot armed pc,
      handleSigusr s =
        { s with
          got, restartingForModeChange := mode, restartingForSnapshot := snapshot, armed, pc } ∧
      (pc = .poll ∨ pc = .top ∨ pc = .notify s.sessions) := by
  simp only [handleSigusr]
  split
  · split
    · exact ⟨_, _, _, _, _, rfl, .inl rfl⟩
    · obtain ⟨got, snapshot, armed, pc, he, hpc⟩ := handleSigusr1_eq
        { s with got.sigusr2 := false, restartingForModeChange := true, armed := true }
      exact ⟨got, true, snapshot, armed, pc, he, hpc⟩
  · split
    · obtain ⟨got, snapshot, armed, pc, he, hpc⟩ := handleSigusr1_eq s
      exact ⟨got, _, snapshot, armed, pc, he, hpc⟩
    · exact ⟨_, _, _, _, _, rfl, .inl rfl⟩

section Steps

variable {s t : State}

theorem notified_fork (h : Notified s) {d : Desc} (hd : d.conn ∉ s.socklist.map Desc.conn)
    (pid : Nat) (x : Session) (hx : x ∈ s.sessions ++ [⟨d, pid, false⟩]) :
    x.notifying = true ↔ x.client.conn ∈ s.socklist.map Desc.conn := by
  cases List.mem_append.mp hx with
  | inl hx => exact h x hx
  | inr hx =>
    cases List.mem_singleton.mp hx
    simp [hd]

theorem map_notify_of_ne {l : List Session} {pid : Nat} (h : ∀ y ∈ l, y.pid ≠ pid) :
    l.map (Session.notify pid) = l := by
  induction l with
  | nil => rfl
  | cons y l ih =>
    rw [List.map_cons, ih fun z hz => h z (List.mem_cons_of_mem _ hz)]
    simp [Session.notify, h y List.mem_cons_self]

/-- Pids tell the sessions apart, so that exactly one of them is marked. -/
theorem map_notify {front rest : List Session} {x : Session}
    (hpids : ((front ++ x :: rest).map Session.pid).Nodup) :
    (front ++ x :: rest).map (Session.notify x.pid) =
      front ++ { x with notifying := true } :: rest := by
  simp only [List.map_append, List.map_cons, List.nodup_append, List.nodup_cons, List.mem_map,
    List.mem_cons] at hpids
  obtain ⟨-, ⟨hrest, -⟩, hfront⟩ := hpids
  have hf : front.map (Session.notify x.pid) = front :=
    map_notify_of_ne fun y hy => hfront y.pid ⟨y, hy, rfl⟩ x.pid (.inl rfl)
  have hr : rest.map (Session.notify x.pid) = rest :=
    map_notify_of_ne fun y hy he => hrest ⟨y, hy, he⟩
  rw [List.map_append, List.map_cons, hf, hr]
  simp [Session.notify]

theorem notify_conserved (h : Conserved s) {x : Session} {rest : List Session} {fd : Nat}
    (hpc : s.pc = .notify (x :: rest)) (hx : x.notifying = false) :
    Conserved { notifySession s x fd with pc := .notify rest } := by
  have hp := h.place
  simp only [Place, hpc] at hp
  obtain ⟨hnot, front, hfront, hall⟩ := hp
  have hmem : x ∈ s.sessions := by simp [hfront]
  have hnew : x.client.conn ∉ s.socklist.map Desc.conn := by
    rw [← hnot x hmem]
    simp [hx]
  have hsessions : s.sessions.map (Session.notify x.pid) =
      front ++ { x with notifying := true } :: rest := by
    rw [hfront]
    exact map_notify (hfront ▸ h.books.pids)
  have hclients := h.books.clients
  simp only [hfront, List.map_append, List.map_cons, List.nodup_append, List.nodup_cons,
    List.mem_cons] at hclients
  obtain ⟨-, ⟨hrest, -⟩, hbefore⟩ := hclients
  constructor
  · exact books_notify h.books hmem hnew fd
  · constructor
    · intro y hy
      simp only [notifySession, hsessions, List.mem_append, List.mem_cons] at hy
      simp only [notifySession, List.map_append, List.map_singleton, List.mem_append,
        List.mem_singleton]
      obtain hy | rfl | hy := hy
      · have hne : y.client.conn ≠ x.client.conn :=
          hbefore _ (List.mem_map_of_mem (f := fun x => x.client.conn) hy) _ (.inl rfl)
        rw [hnot y (by simp [hfront, hy])]
        simp [hne]
      · simp
      · have hne : y.client.conn ≠ x.client.conn := fun he =>
          hrest (he ▸ List.mem_map_of_mem (f := fun x => x.client.conn) hy)
        rw [hnot y (by simp [hfront, hy])]
        simp [hne]
    · refine ⟨front ++ [{ x with notifying := true }], ?_, ?_⟩
      · simp [notifySession, hsessions]
      · intro y hy
        cases List.mem_append.mp hy with
        | inl hy => exact hall y hy
        | inr hy =>
          cases List.mem_singleton.mp hy
          rfl

theorem refork_conserved (h : Conserved s) {d : Desc} {rest : List Desc} {pid : Nat}
    (hpc : s.pc = .restart (d :: rest)) (hpid : pid ∉ s.workers.map Worker.pid) :
    Conserved { invokeNewSession s d pid with pc := .restart rest } := by
  have hp := h.place
  simp only [Place, hpc] at hp
  obtain ⟨hsplit, hnone⟩ := hp
  have hlisted := h.books.listed
  rw [← hsplit, List.map_append, List.map_map, List.nodup_append] at hlisted
  have hnew : d.conn ∉ s.sessions.map fun x => x.client.conn := fun hmem =>
    hlisted.2.2 _ hmem d.conn (by simp) rfl
  have hknown : d.conn < s.conns := h.books.knownListed d (by simp [← hsplit])
  constructor
  · exact books_fork h.books hpid hknown hnew _
  · constructor
    · simp [invokeNewSession, ← hsplit]
    · intro x hx
      cases List.mem_append.mp hx with
      | inl hx => exact hnone x hx
      | inr hx =>
        cases List.mem_singleton.mp hx
        rfl

theorem restarted_conserved (h : Conserved s) (hpc : s.pc = .restart []) :
    Conserved (restartDone s) := by
  have hp := h.place
  simp only [Place, hpc] at hp
  constructor
  · exact {
      tags := h.books.tags
      pids := h.books.pids
      clients := h.books.clients
      listed := List.nodup_nil
      knownClients := h.books.knownClients
      knownListed := fun d hd => nomatch hd
      told := fun d hd => nomatch hd }
  · intro x hx
    have hf := hp.2 x hx
    simp [restartDone, hf]

theorem accept_conserved (h : Conserved s) (hpc : s.pc = .serve) (fd : Nat) :
    Conserved (acceptClient s fd) := by
  constructor
  · exact { h.books with
      knownClients := fun x hx => Nat.lt_succ_of_lt (h.books.knownClients x hx)
      knownListed := fun d hd => Nat.lt_succ_of_lt (h.books.knownListed d hd) }
  · refine ⟨h.notified hpc trivial, Nat.lt_succ_self _, ?_, ?_⟩
    · intro hmem
      obtain ⟨x, hx, he⟩ := List.mem_map.mp hmem
      exact absurd he (Nat.ne_of_lt (h.books.knownClients x hx))
    · intro hmem
      obtain ⟨d, hd, he⟩ := List.mem_map.mp hmem
      exact absurd he (Nat.ne_of_lt (h.books.knownListed d hd))

theorem reap_conserved (h : Conserved s) {pid : Nat} {w : Worker} {x : Session} (hpc : s.pc = .reap)
    (hw : s.workers.find? (fun w => w.pid = pid) = some w) : Conserved (reapSession s pid w x) := by
  constructor
  · exact books_reap h.books hw
  · simp only [Place, reapSession, hpc]
    intro y hy
    exact h.notified hpc trivial y (List.mem_of_mem_eraseP hy)

theorem fork_conserved (h : Conserved s) {d : Desc} {pid : Nat} (hpc : s.pc = .invoke d)
    (hpid : pid ∉ s.workers.map Worker.pid) :
    Conserved { invokeNewSession s d pid with pc := .serve } := by
  have hp := h.place
  simp only [Place, hpc] at hp
  obtain ⟨hnot, hknown, hnew, hunlisted⟩ := hp
  constructor
  · exact books_fork h.books hpid hknown hnew _
  · exact notified_fork hnot hunlisted pid

theorem move_conserved {a : Act} (h : Conserved s) (m : Move s a t) : Conserved t := by
  have hp := h.place
  cases m with
  | raise pending => exact ⟨h.books, hp⟩
  | exit pid pending => exact ⟨books_exit h.books pid, hp⟩
  | fail => exact ⟨h.books, trivial⟩
  | top got pc hpc hnext =>
    obtain rfl | rfl | rfl := hnext
    · exact ⟨h.books, trivial⟩
    · exact ⟨h.books, h.notified hpc trivial⟩
    · exact ⟨h.books, h.notified hpc trivial⟩
  | reap pid w x hpc hw hx => exact reap_conserved h hpc hw
  | reaped hpc => exact ⟨h.books, h.notified hpc trivial⟩
  | check hpc => exact ⟨h.books, h.notified hpc trivial⟩
  | stopped hpc hnone => exact ⟨h.books, hnone⟩
  | reinit cmd hpc =>
    simp only [Place, hpc] at hp
    constructor
    · exact h.books
    · simp [Place, hp]
  | refork d rest pid hact hpc hpid => exact refork_conserved h hpc hpid
  | restarted hpc => exact restarted_conserved h hpc
  | sigusr hpc =>
    have hnot := h.notified hpc trivial
    obtain ⟨got, mode, snapshot, armed, pc, he, hnext⟩ := handleSigusr_eq s
    rw [he]
    obtain rfl | rfl | rfl := hnext
    · exact ⟨h.books, hnot⟩
    · exact ⟨h.books, hnot⟩
    · exact ⟨h.books, hnot, [], rfl, fun x hx => nomatch hx⟩
  | skip x rest hpc hx =>
    simp only [Place, hpc] at hp
    obtain ⟨hnot, front, hfront, hall⟩ := hp
    refine ⟨h.books, hnot, front ++ [x], by simp [hfront], ?_⟩
    intro y hy
    cases List.mem_append.mp hy with
    | inl hy => exact hall y hy
    | inr hy =>
      cases List.mem_singleton.mp hy
      exact hx
  | notify x rest fd hpc hx hfd => exact notify_conserved h hpc hx
  | notified hpc =>
    simp only [Place, hpc] at hp
    exact ⟨h.books, hp.1⟩
  | interrupt got pending hpc => exact ⟨h.books, h.notified hpc trivial⟩
  | ready hpc => exact ⟨h.books, h.notified hpc trivial⟩
  | accept fd hpc hfd => exact accept_conserved h hpc fd
  | negotiated d hpc =>
    simp only [Place, hpc] at hp
    exact ⟨h.books, hp⟩
  | refuse d hpc =>
    simp only [Place, hpc] at hp
    exact ⟨h.books, hp.1⟩
  | fork d pid hact hpc hpid => exact fork_conserved h hpc hpid
  | served hpc => exact ⟨h.books, h.notified hpc trivial⟩

end Steps

theorem masterServer_conserved (cmd : Cmd) (got pending : Signals) (boot : Boot) :
    Conserved (masterServer cmd got pending boot) := by
  cases boot with
  | listen =>
    constructor
    · constructor <;> simp [masterServer]
    · intro x hx
      cases hx
  | connect fd pid exited =>
    constructor
    · constructor <;> simp [masterServer, workerTag, sessionTag]
    · intro x hx
      cases List.mem_singleton.mp hx
      simp [masterServer]

theorem run_conserved {cmd : Cmd} {got pending : Signals} {boot : Boot} {acts : List Act}
    {s : State} (h : run step (masterServer cmd got pending boot) acts = some s) : Conserved s :=
  run_invariant (P := fun _ _ => True) (fun _ _ _ hi _ hs => move_conserved hi (step_move hs))
    (masterServer_conserved cmd got pending boot) (along_true _ _ _) h

/-- The worker processes that run. -/
def alive (s : State) : List Worker := s.workers.filter fun w => !w.exited

theorem reinit_alone {s : State} (h : Conserved s) (hpc : s.pc = .reinit) : s.workers = [] := by
  have hp := h.place
  simp only [Place, hpc] at hp
  have htags := h.books.tags
  rw [hp] at htags
  exact List.map_eq_nil_iff.mp htags

/-- The workers forked so far and the descriptors left are the list, in its order. -/
theorem restart_hands {s : State} (h : Conserved s) {rest : List Desc} (hpc : s.pc = .restart rest) :
    s.workers.map Worker.conn ++ rest.map Desc.conn = s.socklist.map Desc.conn := by
  have hp := h.place
  simp only [Place, hpc] at hp
  rw [worker_conns h.books, ← hp.1, List.map_append, List.map_map]
  rfl

theorem alive_conns {s : State} (h : Conserved s) : ((alive s).map Worker.conn).Nodup := by
  have hall : (s.workers.map Worker.conn).Nodup := by
    rw [worker_conns h.books]
    exact h.books.clients
  exact hall.sublist (List.filter_sublist.map _)

theorem restart_conserves {cmd : Cmd} {got pending : Signals} {boot : Boot} {acts : List Act}
    {s : State} (h : run step (masterServer cmd got pending boot) acts = some s) :
    (s.pc = .reinit → alive s = []) ∧
    (s.socklist.map Desc.conn).Nodup ∧
    (∀ d ∈ s.socklist, ∃ w ∈ s.workers ++ s.waited, w.conn = d.conn ∧ w.told = true) ∧
    (∀ rest, s.pc = .restart rest →
      s.workers.map Worker.conn ++ rest.map Desc.conn = s.socklist.map Desc.conn) ∧
    (∀ t, s.pc = .restart [] → step s .loop = some t →
      t.workers.map Worker.conn = s.socklist.map Desc.conn ∧ t.socklist = []) ∧
    ((alive s).map Worker.conn).Nodup := by
  have hc := run_conserved h
  refine ⟨?_, hc.books.listed, hc.books.told, fun rest => restart_hands hc, ?_, alive_conns hc⟩
  · intro hpc
    simp [alive, reinit_alone hc hpc]
  · intro t hpc ht
    have hdone : t = restartDone s := by
      simp only [step, loop, hpc, Option.some.injEq] at ht
      exact ht.symm
    have hall := restart_hands hc hpc
    rw [List.map_nil, List.append_nil] at hall
    rw [hdone]
    exact ⟨hall, rfl⟩

/-- Two clients, a snapshot request, and both workers exit before one SIGCHLD is
seen. -/
def twoClients : List Act :=
  [.loop, .loop, .loop, .ready, .accept 5, .negotiated true, .fork 100, .accept 6, .negotiated true,
    .fork 101, .loop, .loop, .loop, .loop, .raise ⟨false, true, false, false⟩,
    .interrupt ⟨false, true, false, false⟩, .loop, .loop, .loop, .dup 7, .dup 8, .loop, .exit 100,
    .exit 101, .interrupt ⟨true, false, false, false⟩, .loop, .waitpid (some 101),
    .waitpid (some 100), .waitpid none, .loop]

theorem restart_conserves_twoClients :
    (run step (masterServer .target .none .none .listen) twoClients).map State.pc = some .reinit ∧
    ∀ s, run step (masterServer .target .none .none .listen) twoClients = some s →
      s.pc = .reinit → alive s = [] :=
  ⟨by decide, fun _ h => (restart_conserves h).1⟩

end Xnbd.Restart
