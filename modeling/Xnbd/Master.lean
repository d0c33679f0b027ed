import Mathlib.Data.List.Basic
import Xnbd.Run

/-!
# The master process and its workers (`master_server` in `xnbd_server.c`)

The loop of the master with the children it forks. All signals are blocked
outside `ppoll`: a signal that is sent becomes pending, pending signals of one
kind coalesce, and only `ppoll` runs the handlers. The kernel picks process ids
and descriptors; a pick may be any one that is not in use.

Only descriptors that refer to client connections are kept here. Every accepted
connection has a number of its own, which no step reads.
-/
namespace Xnbd.Master

inductive Cmd where
  | target
  | cowTarget
  | proxy
  deriving DecidableEq

/-- A descriptor and the client connection that it refers to. -/
structure Desc where
  fd : Nat
  conn : Nat
  deriving DecidableEq

/-- `struct xnbd_session`, as the master keeps it. -/
structure Session where
  client : Desc
  pid : Nat
  notifying : Bool
  deriving DecidableEq

/-- A child that has not been waited for. `told` says that a byte was written to
its pipe. -/
structure Worker where
  pid : Nat
  conn : Nat
  fds : List Desc
  told : Bool
  exited : Bool
  deriving DecidableEq

/-- The signals that the handler tells apart. -/
structure Signals where
  sigchld : Bool
  sigusr1 : Bool
  sigusr2 : Bool
  needExit : Bool
  deriving DecidableEq

namespace Signals

def none : Signals := ⟨false, false, false, false⟩

def union (a b : Signals) : Signals :=
  ⟨a.sigchld || b.sigchld, a.sigusr1 || b.sigusr1, a.sigusr2 || b.sigusr2, a.needExit || b.needExit⟩

def minus (a b : Signals) : Signals :=
  ⟨a.sigchld && !b.sigchld, a.sigusr1 && !b.sigusr1, a.sigusr2 && !b.sigusr2,
    a.needExit && !b.needExit⟩

end Signals

/-- Where the master is in an iteration of its loop. -/
inductive Pc where
  | top
  /-- In the `waitpid` loop. -/
  | reap
  | restartCheck
  /-- About to become a target or to take a snapshot. -/
  | reinit
  /-- The descriptors of `socklist` that have no new worker yet. -/
  | restart (rest : List Desc)
  | sigusr
  /-- The sessions that the notifying loop has not reached yet. -/
  | notify (rest : List Session)
  | poll
  | serve
  | negotiate (d : Desc)
  | invoke (d : Desc)
  /-- The loop was left, by `break` or by `err`. -/
  | left
  deriving DecidableEq

/-- `single` is `connect_fd != -1`. The last four fields are notes beside the
process: `conns` numbers the connections, `waited` keeps the workers waited for
since `socklist` was last emptied, `refused` the descriptors whose negotiation
failed, and `armed` says that this iteration has set a restarting flag. -/
structure State where
  cmd : Cmd
  single : Bool
  pc : Pc
  got : Signals
  pending : Signals
  restartingForModeChange : Bool
  restartingForSnapshot : Bool
  sessions : List Session
  socklist : List Desc
  fds : List Desc
  workers : List Worker
  conns : Nat
  waited : List Worker
  refused : List Desc
  armed : Bool
  deriving DecidableEq

/-- What the master cannot choose itself. -/
inductive Act where
  /-- Signals are sent to the master. -/
  | raise (sent : Signals)
  /-- A worker exits or is killed. -/
  | exit (pid : Nat)
  /-- The master goes on by itself. -/
  | loop
  /-- What `waitpid` returns: the pid of a child that has exited, if there is one. -/
  | waitpid (pid : Option Nat)
  | fork (pid : Nat)
  | dup (fd : Nat)
  /-- `ppoll` fails with `EINTR` after the handlers of these signals have run. -/
  | interrupt (caught : Signals)
  | ready
  | accept (fd : Nat)
  /-- What the negotiation with the accepted client comes to. -/
  | negotiated (ok : Bool)
  /-- A call fails, and the master gives up with `err`. -/
  | fail
  deriving DecidableEq

/-- The child of `invoke_new_session` inherits every descriptor and closes those
of the sessions in the list. -/
def inherited (s : State) : List Desc :=
  s.fds.filter fun e => e.fd ∉ s.sessions.map fun x => x.client.fd

def invokeNewSession (s : State) (d : Desc) (pid : Nat) : State :=
  { s with
    workers := s.workers ++ [⟨pid, d.conn, inherited s, false, false⟩]
    sessions := s.sessions ++ [⟨d, pid, false⟩] }

/-- What both signals come to: a restart at once when there are no sessions, and
the notifying loop otherwise. -/
def startRestart (s : State) : State :=
  if s.sessions.isEmpty then { s with pc := .top } else { s with pc := .notify s.sessions }

def handleSigusr1 (s : State) : State :=
  if s.got.sigusr1 then
    -- `goto skip_restarting` when there is nothing to take a snapshot of
    if s.cmd ≠ .target then { s with got.sigusr1 := false, pc := .poll }
    else startRestart { s with got.sigusr1 := false, restartingForSnapshot := true, armed := true }
  else startRestart s

def handleSigusr (s : State) : State :=
  if s.got.sigusr2 then
    if s.cmd ≠ .proxy then { s with got.sigusr2 := false, pc := .poll }
    else handleSigusr1
      { s with got.sigusr2 := false, restartingForModeChange := true, armed := true }
  else if s.got.sigusr1 then handleSigusr1 s
  else { s with pc := .poll }

def restarting (s : State) : Bool := s.restartingForModeChange || s.restartingForSnapshot

/-- The end of a restart: the list is emptied and one of the two flags is cleared. -/
def restartDone (s : State) : State :=
  { s with
    socklist := [], waited := [], pc := .sigusr
    restartingForModeChange := false
    restartingForSnapshot :=
      if s.restartingForModeChange then s.restartingForSnapshot else false }

def loop (s : State) : Option State :=
  match s.pc with
  | .top =>
    some <|
      if s.got.needExit then { s with pc := .left, armed := false }
      else if s.got.sigchld then { s with got.sigchld := false, pc := .reap, armed := false }
      else { s with pc := .restartCheck, armed := false }
  | .restartCheck =>
    some { s with pc := if restarting s && s.sessions.isEmpty then .reinit else .sigusr }
  | .reinit =>
    -- the snapshot itself changes nothing that the loop keeps
    some { s with
      cmd := if s.restartingForModeChange then .target else s.cmd
      pc := .restart s.socklist }
  | .restart [] => some (restartDone s)
  | .sigusr => some (handleSigusr s)
  | .notify [] => some { s with pc := .poll }
  | .notify (x :: rest) => if x.notifying then some { s with pc := .notify rest } else none
  | .serve => some { s with pc := .top }
  | _ => none

/-- The session of a child that was waited for is freed, and its descriptor closed. -/
def reapSession (s : State) (pid : Nat) (w : Worker) (x : Session) : State :=
  { s with
    workers := s.workers.eraseP fun w => w.pid = pid
    waited := s.waited ++ [w]
    sessions := s.sessions.eraseP fun x => x.pid = pid
    fds := s.fds.filter fun e => e.fd ≠ x.client.fd }

def waitpid (s : State) : Option Nat → Option State
  | some pid =>
    match s.workers.find? fun w => w.pid = pid, s.sessions.find? fun x => x.pid = pid with
    | some w, some x => if w.exited then some (reapSession s pid w x) else none
    | some w, none => if w.exited then some { s with pc := .left } else none
    | none, _ => none
  | none =>
    if s.workers.any Worker.exited then none
    else if s.single && !restarting s && s.sessions.isEmpty then some { s with pc := .left }
    else some { s with pc := .restartCheck }

def Session.notify (pid : Nat) (x : Session) : Session :=
  if x.pid = pid then { x with notifying := true } else x

def Worker.tell (pid : Nat) (w : Worker) : Worker :=
  if w.pid = pid then { w with told := true } else w

def Worker.exit (pid : Nat) (w : Worker) : Worker :=
  if w.pid = pid then { w with exited := true } else w

/-- The client descriptor is duplicated for the restart, and the worker is told to
terminate. -/
def notifySession (s : State) (x : Session) (fd : Nat) : State :=
  { s with
    sessions := s.sessions.map (Session.notify x.pid)
    workers := s.workers.map (Worker.tell x.pid)
    socklist := s.socklist ++ [⟨fd, x.client.conn⟩]
    fds := s.fds ++ [⟨fd, x.client.conn⟩] }

def acceptClient (s : State) (fd : Nat) : State :=
  { s with
    fds := s.fds ++ [⟨fd, s.conns⟩]
    conns := s.conns + 1
    pc := .negotiate ⟨fd, s.conns⟩ }

def step (s : State) : Act → Option State
  | .raise sent => some { s with pending := s.pending.union sent }
  | .exit pid =>
    some { s with workers := s.workers.map (Worker.exit pid), pending.sigchld := true }
  | .loop => loop s
  | .waitpid pid => if s.pc = .reap then waitpid s pid else none
  | .fork pid =>
    if pid ∈ s.workers.map Worker.pid then none
    else
      match s.pc with
      | .restart (d :: rest) => some { invokeNewSession s d pid with pc := .restart rest }
      | .invoke d => some { invokeNewSession s d pid with pc := .serve }
      | _ => none
  | .dup fd =>
    if fd ∈ s.fds.map Desc.fd then none
    else
      match s.pc with
      | .notify (x :: rest) =>
        if x.notifying then none else some { notifySession s x fd with pc := .notify rest }
      | _ => none
  | .interrupt caught =>
    if s.pc = .poll ∧ s.pending.union caught = s.pending ∧ caught ≠ .none then
      some { s with pc := .top, got := s.got.union caught, pending := s.pending.minus caught }
    else none
  | .ready => if s.pc = .poll ∧ s.single = false then some { s with pc := .serve } else none
  | .accept fd =>
    if s.pc = .serve ∧ s.single = false ∧ fd ∉ s.fds.map Desc.fd then some (acceptClient s fd)
    else none
  | .negotiated ok =>
    match s.pc with
    | .negotiate d =>
      some (if ok then { s with pc := .invoke d }
        else { s with refused := s.refused ++ [d], pc := .serve })
    | _ => none
  | .fail => some { s with pc := .left }

/-- How the server is started: on sockets of its own, or on one connection
(`connect_fd`), whose worker is forked before the loop. -/
inductive Boot where
  | listen
  | connect (fd pid : Nat) (exited : Bool)

/-- The master at the head of its loop. The handlers are installed before the
signals are blocked, so that some may have run, and a worker that exits before
that raises nothing. -/
def masterServer (cmd : Cmd) (got pending : Signals) : Boot → State
  | .listen =>
    { cmd, got, pending, single := false, pc := .top, restartingForModeChange := false,
      restartingForSnapshot := false, sessions := [], socklist := [], fds := [], workers := [],
      conns := 0, waited := [], refused := [], armed := false }
  | .connect fd pid exited =>
    { cmd, got, pending, single := true, pc := .top, restartingForModeChange := false,
      restartingForSnapshot := false, sessions := [⟨⟨fd, 0⟩, pid, false⟩], socklist := [],
      fds := [⟨fd, 0⟩], workers := [⟨pid, 0, [⟨fd, 0⟩], false, exited⟩], conns := 1, waited := [],
      refused := [], armed := false }

section Moves

/-- What one step can do, with the guards that the proofs rest on. -/
inductive Move (s : State) (a : Act) : State → Prop
  | raise (pending : Signals) : Move s a { s with pending }
  | exit (pid : Nat) (pending : Signals) :
    Move s a { s with workers := s.workers.map (Worker.exit pid), pending }
  | fail : Move s a { s with pc := .left }
  | top (got : Signals) (pc : Pc) (hpc : s.pc = .top)
      (hnext : pc = .left ∨ pc = .reap ∨ pc = .restartCheck) :
    Move s a { s with got, pc, armed := false }
  | reap (pid : Nat) (w : Worker) (x : Session) (hpc : s.pc = .reap)
      (hw : s.workers.find? (fun w => w.pid = pid) = some w)
      (hx : s.sessions.find? (fun x => x.pid = pid) = some x) :
    Move s a (reapSession s pid w x)
  | reaped (hpc : s.pc = .reap) : Move s a { s with pc := .restartCheck }
  | check (hpc : s.pc = .restartCheck) : Move s a { s with pc := .sigusr }
  | stopped (hpc : s.pc = .restartCheck) (hnone : s.sessions = []) : Move s a { s with pc := .reinit }
  | reinit (cmd : Cmd) (hpc : s.pc = .reinit) : Move s a { s with cmd, pc := .restart s.socklist }
  | refork (d : Desc) (rest : List Desc) (pid : Nat) (hact : a = .fork pid)
      (hpc : s.pc = .restart (d :: rest)) (hpid : pid ∉ s.workers.map Worker.pid) :
    Move s a { invokeNewSession s d pid with pc := .restart rest }
  | restarted (hpc : s.pc = .restart []) : Move s a (restartDone s)
  | sigusr (hpc : s.pc = .sigusr) : Move s a (handleSigusr s)
  | skip (x : Session) (rest : List Session) (hpc : s.pc = .notify (x :: rest))
      (hx : x.notifying = true) : Move s a { s with pc := .notify rest }
  | notify (x : Session) (rest : List Session) (fd : Nat) (hpc : s.pc = .notify (x :: rest))
      (hx : x.notifying = false) (hfd : fd ∉ s.fds.map Desc.fd) :
    Move s a { notifySession s x fd with pc := .notify rest }
  | notified (hpc : s.pc = .notify []) : Move s a { s with pc := .poll }
  | interrupt (got pending : Signals) (hpc : s.pc = .poll) :
    Move s a { s with pc := .top, got, pending }
  | ready (hpc : s.pc = .poll) : Move s a { s with pc := .serve }
  | accept (fd : Nat) (hpc : s.pc = .serve) (hfd : fd ∉ s.fds.map Desc.fd) :
    Move s a (acceptClient s fd)
  | negotiated (d : Desc) (hpc : s.pc = .negotiate d) : Move s a { s with pc := .invoke d }
  | refuse (d : Desc) (hpc : s.pc = .negotiate d) :
    Move s a { s with refused := s.refused ++ [d], pc := .serve }
  | fork (d : Desc) (pid : Nat) (hact : a = .fork pid) (hpc : s.pc = .invoke d)
      (hpid : pid ∉ s.workers.map Worker.pid) :
    Move s a { invokeNewSession s d pid with pc := .serve }
  | served (hpc : s.pc = .serve) : Move s a { s with pc := .top }

theorem loop_move {s t : State} {a : Act} (h : loop s = some t) : Move s a t := by
  simp only [loop] at h
  split at h
  · rename_i hpc
    cases h
    split
    · exact .top _ _ hpc (.inl rfl)
    · split
      · exact .top _ _ hpc (.inr (.inl rfl))
      · exact .top _ _ hpc (.inr (.inr rfl))
  · rename_i hpc
    cases h
    split
    · rename_i hstop
      simp only [Bool.and_eq_true, List.isEmpty_iff] at hstop
      exact .stopped hpc hstop.2
    · exact .check hpc
  · rename_i hpc
    cases h
    exact .reinit _ hpc
  · rename_i hpc
    cases h
    exact .restarted hpc
  · rename_i hpc
    cases h
    exact .sigusr hpc
  · rename_i hpc
    cases h
    exact .notified hpc
  · rename_i x rest hpc
    split at h
    · rename_i hx
      cases h
      exact .skip x rest hpc hx
    · cases h
  · rename_i hpc
    cases h
    exact .served hpc
  · cases h

theorem waitpid_move {s t : State} {a : Act} {pid : Option Nat} (hpc : s.pc = .reap)
    (h : waitpid s pid = some t) : Move s a t := by
  cases pid with
  | none =>
    simp only [waitpid] at h
    split at h
    · cases h
    · split at h
      · cases h
        exact .fail
      · cases h
        exact .reaped hpc
  | some pid =>
    simp only [waitpid] at h
    split at h
    · rename_i w x hw hx
      split at h
      · cases h
        exact .reap pid w x hpc hw hx
      · cases h
    · split at h
      · cases h
        exact .fail
      · cases h
    · cases h

theorem step_move {s t : State} {a : Act} (h : step s a = some t) : Move s a t := by
  cases a with
  | raise sent =>
    cases h
    exact .raise _
  | exit pid =>
    cases h
    exact .exit pid _
  | loop => exact loop_move h
  | waitpid pid =>
    simp only [step] at h
    split at h
    · rename_i hpc
      exact waitpid_move hpc h
    · cases h
  | fork pid =>
    simp only [step] at h
    split at h
    · cases h
    · rename_i hpid
      split at h
      · rename_i d rest hpc
        cases h
        exact .refork d rest pid rfl hpc hpid
      · rename_i d hpc
        cases h
        exact .fork d pid rfl hpc hpid
      · cases h
  | dup fd =>
    simp only [step] at h
    split at h
    · cases h
    · rename_i hfd
      split at h
      · rename_i x rest hpc
        split at h
        · cases h
        · rename_i hx
          cases h
          exact .notify x rest fd hpc (by simpa using hx) hfd
      · cases h
  | interrupt caught =>
    simp only [step] at h
    split at h
    · rename_i hg
      cases h
      exact .interrupt _ _ hg.1
    · cases h
  | ready =>
    simp only [step] at h
    split at h
    · rename_i hg
      cases h
      exact .ready hg.1
    · cases h
  | accept fd =>
    simp only [step] at h
    split at h
    · rename_i hg
      cases h
      exact .accept fd hg.1 hg.2.2
    · cases h
  | negotiated ok =>
    simp only [step] at h
    split at h
    · rename_i d hpc
      cases h
      cases ok with
      | true => exact .negotiated d hpc
      | false => exact .refuse d hpc
    · cases h
  | fail =>
    cases h
    exact .fail

end Moves

end Xnbd.Master
