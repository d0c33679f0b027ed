import Mathlib.Data.List.Perm.Basic
import Mathlib.Data.List.Nodup
import Mathlib.Logic.Function.Basic
import Xnbd.ForkLock

/-!
# The children of the wrapper (`xnbd_wrapper.c`)

The main thread forks an `xnbd-server` for every client and waits for those that have
ended when it reads a `SIGCHLD`, of which one may stand for many. The threads of the
control connections fork `xnbd-bgctl` and wait for it themselves. All of them count in
`child_process_count`, and the main thread refuses a client when the count has reached
its limit. The kernel gives a process number again once its process has been waited for.
-/
namespace Xnbd.Children

open Run Places
open ForkLock (maxNsrvs maxCtlConns)

section Model

/-- A child that has not been waited for, and whether it has ended. -/
inductive Proc where
  | server (ended : Bool)
  | bgctl (ended : Bool)
  deriving DecidableEq

def Proc.ended : Proc → Bool
  | .server ended | .bgctl ended => ended

/-- Where the main thread is. -/
inductive MainPc where
  /-- In `epoll_wait`. -/
  | polling
  /-- Before the comparison of `child_process_count` with `MAX_NSRVS`. -/
  | limit
  | forking
  /-- Before `g_hash_table_insert`. -/
  | inserting (pid : Nat)
  /-- Before `child_process_count++`. -/
  | counting
  /-- In `g_hash_table_foreach_remove`, with the entries that are left. -/
  | reaping (left : List Nat)
  /-- `waitpid_nohang_ghrfunc` has waited for `pid`. -/
  | terminated (pid : Nat) (left : List Nat)
  deriving DecidableEq

/-- Where the thread of a control connection is. -/
inductive ControlPc where
  /-- Before `count_mgr_threads(1)`. -/
  | starting
  | reading
  /-- `too many connections`. -/
  | refusing
  /-- `invoke_bgctl` has returned and the child is not counted. -/
  | forked (pid : Nat)
  /-- Before `waitpid`. -/
  | running (pid : Nat)
  /-- Behind `waitpid`; `waited` says that it has returned the process it was asked for. -/
  | ended (waited : Bool)
  | closed
  deriving DecidableEq

structure State where
  procs : Nat → Option Proc
  /-- `SIGCHLD` is pending. -/
  sigchld : Bool
  serverPidSet : List Nat
  childProcessCount : Int
  mgrThreads : Int
  main : MainPc
  threads : List ControlPc

inductive Act where
  | acceptControl
  | acceptClient
  | checkLimit
  | fork (pid : Nat)
  | insert
  | count
  /-- The set is visited in some order. -/
  | readSigchld (order : List Nat)
  | visit
  | uncount
  | exits (pid : Nat)
  /-- `SIGCHLD` for another reason: a child has been stopped, or somebody has sent it. -/
  | signal
  | countMgrThread (k : Nat)
  | invokeBgctl (k : Nat) (pid : Nat)
  | countBgctl (k : Nat)
  | waitBgctl (k : Nat)
  | uncountBgctl (k : Nat)
  | leave (k : Nat)
  deriving DecidableEq

/-- `g_hash_table_insert` on a set. -/
def setInsert (set : List Nat) (pid : Nat) : List Nat := if pid ∈ set then set else set ++ [pid]

/-- The child ends. -/
def Proc.exit : Proc → Option Proc
  | .server false => some (.server true)
  | .bgctl false => some (.bgctl true)
  | _ => none

/-- `waitpid(pid, &status, WNOHANG)` returns `pid`. -/
def waitable (procs : Nat → Option Proc) (pid : Nat) : Bool := (procs pid).any Proc.ended

/-- A thread of a control connection goes on. -/
def controlStep (s : State) (k : Nat) (next : ControlPc → Option (State × ControlPc)) :
    Option State :=
  (s.threads[k]?).bind fun pc =>
    (next pc).map fun r => { r.1 with threads := s.threads.set k r.2 }

def step (s : State) : Act → Option State
  | .acceptControl =>
    if s.main = .polling then some { s with threads := s.threads ++ [.starting] } else none
  | .acceptClient => if s.main = .polling then some { s with main := .limit } else none
  | .checkLimit =>
    if s.main = .limit then
      some { s with main := if maxNsrvs ≤ s.childProcessCount then .polling else .forking }
    else none
  | .fork pid =>
    if s.main = .forking ∧ s.procs pid = none then
      some { s with
        procs := Function.update s.procs pid (some (.server false)), main := .inserting pid }
    else none
  | .insert =>
    match s.main with
    | .inserting pid =>
      some { s with serverPidSet := setInsert s.serverPidSet pid, main := .counting }
    | _ => none
  | .count =>
    if s.main = .counting then
      some { s with childProcessCount := s.childProcessCount + 1, main := .polling }
    else none
  | .readSigchld order =>
    if s.main = .polling ∧ s.sigchld ∧ order.Perm s.serverPidSet then
      some { s with sigchld := false, main := .reaping order }
    else none
  | .visit =>
    match s.main with
    | .reaping [] => some { s with main := .polling }
    | .reaping (pid :: left) =>
      if waitable s.procs pid then
        some { s with
          procs := Function.update s.procs pid none, main := .terminated pid left }
      else some { s with main := .reaping left }
    | _ => none
  | .uncount =>
    match s.main with
    | .terminated pid left =>
      some { s with
        childProcessCount := s.childProcessCount - 1
        serverPidSet := s.serverPidSet.erase pid
        main := .reaping left }
    | _ => none
  | .exits pid =>
    ((s.procs pid).bind Proc.exit).map fun p =>
      { s with procs := Function.update s.procs pid (some p), sigchld := true }
  | .signal => some { s with sigchld := true }
  | .countMgrThread k => controlStep s k fun
    | .starting =>
      let mgrThreads := s.mgrThreads + 1
      some ({ s with mgrThreads }, if mgrThreads ≤ maxCtlConns then .reading else .refusing)
    | _ => none
  | .invokeBgctl k pid => controlStep s k fun
    | .reading =>
      if s.procs pid = none then
        some ({ s with procs := Function.update s.procs pid (some (.bgctl false)) }, .forked pid)
      else none
    | _ => none
  | .countBgctl k => controlStep s k fun
    | .forked pid =>
      some ({ s with childProcessCount := s.childProcessCount + 1 }, .running pid)
    | _ => none
  | .waitBgctl k => controlStep s k fun
    | .running pid =>
      match s.procs pid with
      -- no such child: `waitpid` fails and `status` stays -1
      | none => some (s, .ended false)
      | some p =>
        if p.ended then
          some ({ s with procs := Function.update s.procs pid none }, .ended true)
        else none
    | _ => none
  | .uncountBgctl k => controlStep s k fun
    -- without a status, `assert(WIFSIGNALED(status))` fails
    | .ended true =>
      some ({ s with childProcessCount := s.childProcessCount - 1 }, .reading)
    | _ => none
  | .leave k => controlStep s k fun
    | .reading | .refusing => some ({ s with mgrThreads := s.mgrThreads - 1 }, .closed)
    | _ => none

/-- The wrapper before its first `epoll_wait`. -/
def start : State where
  procs := fun _ => none
  sigchld := false
  serverPidSet := []
  childProcessCount := 0
  mgrThreads := 0
  main := .polling
  threads := []

end Model

section Moves

variable {s t : State}

/-- What a step does. -/
inductive Move (s : State) : State → Prop where
  | acceptControl (hmain : s.main = .polling) : Move s { s with threads := s.threads ++ [.starting] }
  | acceptClient (hmain : s.main = .polling) : Move s { s with main := .limit }
  | refuse (hmain : s.main = .limit) : Move s { s with main := .polling }
  | allow (hmain : s.main = .limit) (hroom : s.childProcessCount < maxNsrvs) :
    Move s { s with main := .forking }
  | fork (pid : Nat) (hmain : s.main = .forking) (hfree : s.procs pid = none) :
    Move s { s with
      procs := Function.update s.procs pid (some (.server false)), main := .inserting pid }
  | insert (pid : Nat) (hmain : s.main = .inserting pid) :
    Move s { s with serverPidSet := setInsert s.serverPidSet pid, main := .counting }
  | count (hmain : s.main = .counting) :
    Move s { s with childProcessCount := s.childProcessCount + 1, main := .polling }
  | readSigchld (order : List Nat) (hmain : s.main = .polling)
      (horder : order.Perm s.serverPidSet) :
    Move s { s with sigchld := false, main := .reaping order }
  | swept (hmain : s.main = .reaping []) : Move s { s with main := .polling }
  | kept (pid : Nat) (left : List Nat) (hmain : s.main = .reaping (pid :: left))
      (halive : waitable s.procs pid = false) : Move s { s with main := .reaping left }
  | waited (pid : Nat) (left : List Nat) (hmain : s.main = .reaping (pid :: left)) :
    Move s { s with procs := Function.update s.procs pid none, main := .terminated pid left }
  | uncount (pid : Nat) (left : List Nat) (hmain : s.main = .terminated pid left) :
    Move s { s with
      childProcessCount := s.childProcessCount - 1
      serverPidSet := s.serverPidSet.erase pid
      main := .reaping left }
  | exits (pid : Nat) (p q : Proc) (hp : s.procs pid = some p) (hexit : p.exit = some q) :
    Move s { s with procs := Function.update s.procs pid (some q), sigchld := true }
  | signal : Move s { s with sigchld := true }
  | countMgrThread (k : Nat) (hk : s.threads[k]? = some .starting) :
    Move s { s with
      mgrThreads := s.mgrThreads + 1
      threads := s.threads.set k (if s.mgrThreads + 1 ≤ maxCtlConns then .reading else .refusing) }
  | invokeBgctl (k pid : Nat) (hk : s.threads[k]? = some .reading) (hfree : s.procs pid = none) :
    Move s { s with
      procs := Function.update s.procs pid (some (.bgctl false))
      threads := s.threads.set k (.forked pid) }
  | countBgctl (k pid : Nat) (hk : s.threads[k]? = some (.forked pid)) :
    Move s { s with
      childProcessCount := s.childProcessCount + 1, threads := s.threads.set k (.running pid) }
  | lost (k pid : Nat) (hk : s.threads[k]? = some (.running pid)) (hnone : s.procs pid = none) :
    Move s { s with threads := s.threads.set k (.ended false) }
  | waitBgctl (k pid : Nat) (hk : s.threads[k]? = some (.running pid)) :
    Move s { s with
      procs := Function.update s.procs pid none, threads := s.threads.set k (.ended true) }
  | uncountBgctl (k : Nat) (hk : s.threads[k]? = some (.ended true)) :
    Move s { s with
      childProcessCount := s.childProcessCount - 1, threads := s.threads.set k .reading }
  | leave (k : Nat) (pc : ControlPc) (hk : s.threads[k]? = some pc)
      (hpc : pc = .reading ∨ pc = .refusing) :
    Move s { s with mgrThreads := s.mgrThreads - 1, threads := s.threads.set k .closed }

theorem controlStep_some {k : Nat} {next : ControlPc → Option (State × ControlPc)}
    (ht : controlStep s k next = some t) :
    ∃ pc r, s.threads[k]? = some pc ∧ next pc = some r ∧
      t = { r.1 with threads := s.threads.set k r.2 } := by
  simp only [controlStep, Option.bind_eq_some_iff, Option.map_eq_some_iff] at ht
  obtain ⟨pc, hk, r, hr, rfl⟩ := ht
  exact ⟨pc, r, hk, hr, rfl⟩

theorem step_move_main {a : Act} (ht : step s a = some t)
    (hmain : a = .checkLimit ∨ a = .visit) : Move s t := by
  rcases hmain with rfl | rfl
  · simp only [step] at ht
    split at ht
    · rename_i hmain
      cases ht
      split
      · exact .refuse hmain
      · exact .allow hmain (by omega)
    · cases ht
  · simp only [step] at ht
    split at ht
    · cases ht
      exact .swept (by assumption)
    · rename_i pid left hmain
      split at ht
      · cases ht
        exact .waited pid left hmain
      · rename_i halive
        cases ht
        exact .kept pid left hmain (Bool.eq_false_iff.mpr halive)
    · cases ht

theorem step_move {a : Act} (ht : step s a = some t) : Move s t := by
  cases a with
  | checkLimit => exact step_move_main ht (.inl rfl)
  | visit => exact step_move_main ht (.inr rfl)
  | acceptControl =>
    simp only [step, Option.ite_none_right_eq_some] at ht
    obtain ⟨hmain, ⟨⟩⟩ := ht
    exact .acceptControl hmain
  | acceptClient =>
    simp only [step, Option.ite_none_right_eq_some] at ht
    obtain ⟨hmain, ⟨⟩⟩ := ht
    exact .acceptClient hmain
  | fork pid =>
    simp only [step, Option.ite_none_right_eq_some] at ht
    obtain ⟨⟨hmain, hfree⟩, ⟨⟩⟩ := ht
    exact .fork pid hmain hfree
  | insert =>
    simp only [step] at ht
    split at ht
    · cases ht
      exact .insert _ (by assumption)
    · cases ht
  | count =>
    simp only [step, Option.ite_none_right_eq_some] at ht
    obtain ⟨hmain, ⟨⟩⟩ := ht
    exact .count hmain
  | readSigchld order =>
    simp only [step, Option.ite_none_right_eq_some] at ht
    obtain ⟨⟨hmain, -, horder⟩, ⟨⟩⟩ := ht
    exact .readSigchld order hmain horder
  | uncount =>
    simp only [step] at ht
    split at ht
    · cases ht
      exact .uncount _ _ (by assumption)
    · cases ht
  | exits pid =>
    simp only [step, Option.map_eq_some_iff, Option.bind_eq_some_iff] at ht
    obtain ⟨q, ⟨p, hp, hexit⟩, rfl⟩ := ht
    exact .exits pid p q hp hexit
  | signal =>
    cases ht
    exact .signal
  | countMgrThread k =>
    obtain ⟨pc, r, hk, hr, rfl⟩ := controlStep_some ht
    split at hr
    · cases hr
      exact .countMgrThread k hk
    · cases hr
  | invokeBgctl k pid =>
    obtain ⟨pc, r, hk, hr, rfl⟩ := controlStep_some ht
    split at hr
    · simp only [Option.ite_none_right_eq_some] at hr
      obtain ⟨hfree, ⟨⟩⟩ := hr
      exact .invokeBgctl k pid hk hfree
    · cases hr
  | countBgctl k =>
    obtain ⟨pc, r, hk, hr, rfl⟩ := controlStep_some ht
    split at hr
    · cases hr
      exact .countBgctl k _ hk
    · cases hr
  | waitBgctl k =>
    obtain ⟨pc, r, hk, hr, rfl⟩ := controlStep_some ht
    split at hr
    · split at hr
      · cases hr
        exact .lost k _ hk (by assumption)
      · simp only [Option.ite_none_right_eq_some] at hr
        obtain ⟨-, ⟨⟩⟩ := hr
        exact .waitBgctl k _ hk
    · cases hr
  | uncountBgctl k =>
    obtain ⟨pc, r, hk, hr, rfl⟩ := controlStep_some ht
    split at hr
    · cases hr
      exact .uncountBgctl k hk
    · cases hr
  | leave k =>
    obtain ⟨pc, r, hk, hr, rfl⟩ := controlStep_some ht
    split at hr
    · cases hr
      exact .leave k _ hk (.inl rfl)
    · cases hr
      exact .leave k _ hk (.inr rfl)
    · cases hr

end Moves

section Servers

/-- The entries that the scan of the set has still to visit. -/
def MainPc.left : MainPc → List Nat
  | .reaping left | .terminated _ left => left
  | _ => []

/-- The servers that the main thread knows and has not waited for. -/
def known : MainPc → List Nat → List Nat
  | .inserting pid, set => set ++ [pid]
  | .terminated pid _, set => set.erase pid
  | _, set => set

/-- The set of the main thread and the servers among the processes. -/
structure Tracked (procs : Nat → Option Proc) (sigchld : Bool) (main : MainPc)
    (set : List Nat) : Prop where
  nodup : set.Nodup
  servers : ∀ p, p ∈ known main set ↔ ∃ ended, procs p = some (.server ended)
  fresh : ∀ p, main = .inserting p → p ∉ set
  member : ∀ p left, main = .terminated p left → p ∈ set
  leftNodup : main.left.Nodup
  leftTracked : ∀ p ∈ main.left, p ∈ known main set
  /-- A server that has ended is still to be found, now or with the next `SIGCHLD`. -/
  noticed : ∀ p, procs p = some (.server true) → sigchld = true ∨ p ∈ main.left

variable {procs : Nat → Option Proc} {sigchld : Bool} {main : MainPc} {set : List Nat}

/-- The main thread goes on outside the scan and between a fork and its insertion. -/
theorem Tracked.turn (h : Tracked procs sigchld main set) {next : MainPc}
    (hset : known main set = set) (hnext : ∀ l, known next l = l) (hleft : main.left = [])
    (hnone : next.left = []) (hinsert : ∀ p, next ≠ .inserting p)
    (hterminated : ∀ p left, next ≠ .terminated p left) : Tracked procs sigchld next set where
  nodup := h.nodup
  servers := by
    intro p
    rw [hnext, ← hset]
    exact h.servers p
  fresh := fun p hp => absurd hp (hinsert p)
  member := fun p left hp => absurd hp (hterminated p left)
  leftNodup := by simp [hnone]
  leftTracked := by simp [hnone]
  noticed := by
    rw [hnone, ← hleft]
    exact h.noticed

/-- A process changes that neither was nor becomes a server. -/
theorem Tracked.other (h : Tracked procs sigchld main set) {pid : Nat} {proc : Option Proc}
    (hold : ∀ ended, procs pid ≠ some (.server ended)) (hnew : ∀ ended, proc ≠ some (.server ended)) :
    Tracked (Function.update procs pid proc) sigchld main set := by
  have hsame : ∀ p ended, Function.update procs pid proc p = some (.server ended) ↔
      procs p = some (.server ended) := by
    intro p ended
    by_cases hp : p = pid
    · subst hp
      rw [Function.update_self]
      exact iff_of_false (hnew ended) (hold ended)
    · rw [Function.update_of_ne hp]
  exact {
    nodup := h.nodup
    servers := fun p => by simpa only [hsame] using h.servers p
    fresh := h.fresh
    member := h.member
    leftNodup := h.leftNodup
    leftTracked := h.leftTracked
    noticed := fun p hp => h.noticed p ((hsame p true).mp hp) }

theorem Tracked.signal (h : Tracked procs sigchld main set) : Tracked procs true main set where
  nodup := h.nodup
  servers := h.servers
  fresh := h.fresh
  member := h.member
  leftNodup := h.leftNodup
  leftTracked := h.leftTracked
  noticed := fun _ _ => .inl rfl

theorem Tracked.fork (h : Tracked procs sigchld .forking set) {pid : Nat} (hfree : procs pid = none) :
    Tracked (Function.update procs pid (some (.server false))) sigchld (.inserting pid) set := by
  have hnew : pid ∉ set := by
    intro hmem
    obtain ⟨ended, hp⟩ := (h.servers pid).mp hmem
    rw [hfree] at hp
    cases hp
  refine ⟨h.nodup, ?_, ?_, by simp, List.nodup_nil, by simp [MainPc.left], ?_⟩
  · intro p
    have hold := h.servers p
    by_cases hp : p = pid
    · subst hp
      simp [known]
    · rw [Function.update_of_ne hp, ← hold]
      simp [known, hp]
  · intro p hp
    cases hp
    exact hnew
  · intro p hp
    by_cases heq : p = pid
    · subst heq
      simp at hp
    · rw [Function.update_of_ne heq] at hp
      exact h.noticed p hp

theorem setInsert_new {pid : Nat} (h : pid ∉ set) : setInsert set pid = set ++ [pid] := if_neg h

theorem Tracked.insert {pid : Nat} (h : Tracked procs sigchld (.inserting pid) set) :
    Tracked procs sigchld .counting (setInsert set pid) := by
  have hnew := h.fresh pid rfl
  rw [setInsert_new hnew]
  refine ⟨?_, h.servers, by simp, by simp, List.nodup_nil, by simp [MainPc.left], h.noticed⟩
  refine List.nodup_append.mpr ⟨h.nodup, by simp, fun p hp q hq heq => ?_⟩
  rw [List.mem_singleton.mp hq] at heq
  exact hnew (heq ▸ hp)

theorem Tracked.read (h : Tracked procs sigchld .polling set) {order : List Nat}
    (horder : order.Perm set) : Tracked procs false (.reaping order) set where
  nodup := h.nodup
  servers := h.servers
  fresh := by simp
  member := by simp
  leftNodup := horder.nodup_iff.mpr h.nodup
  leftTracked := fun _ hp => horder.subset hp
  noticed := fun p hp => .inr (horder.symm.subset ((h.servers p).mpr ⟨true, hp⟩))

theorem Tracked.kept {pid : Nat} {left : List Nat}
    (h : Tracked procs sigchld (.reaping (pid :: left)) set)
    (halive : waitable procs pid = false) : Tracked procs sigchld (.reaping left) set where
  nodup := h.nodup
  servers := h.servers
  fresh := by simp
  member := by simp
  leftNodup := (List.nodup_cons.mp h.leftNodup).2
  leftTracked := fun p hp => h.leftTracked p (List.mem_cons_of_mem _ hp)
  noticed := by
    intro p hp
    refine (h.noticed p hp).imp_right fun hmem => ?_
    rcases List.mem_cons.mp hmem with rfl | hmem
    · simp [waitable, hp, Proc.ended] at halive
    · exact hmem

theorem Tracked.waited {pid : Nat} {left : List Nat}
    (h : Tracked procs sigchld (.reaping (pid :: left)) set) :
    Tracked (Function.update procs pid none) sigchld (.terminated pid left) set := by
  have hmem : pid ∈ set := h.leftTracked pid List.mem_cons_self
  obtain ⟨hout, hnodup⟩ := List.nodup_cons.mp h.leftNodup
  refine ⟨h.nodup, ?_, by simp, ?_, hnodup, ?_, ?_⟩
  · intro p
    simp only [known, h.nodup.mem_erase_iff]
    by_cases hp : p = pid
    · subst hp
      simp
    · rw [Function.update_of_ne hp, ← h.servers p]
      simp [known, hp]
  · intro p rest hp
    cases hp
    exact hmem
  · intro p hp
    have hne : p ≠ pid := fun heq => hout (heq ▸ hp)
    exact (List.mem_erase_of_ne hne).mpr (h.leftTracked p (List.mem_cons_of_mem _ hp))
  · intro p hp
    have hne : p ≠ pid := fun heq => by simp [heq] at hp
    rw [Function.update_of_ne hne] at hp
    refine (h.noticed p hp).imp_right fun hmem => ?_
    exact (List.mem_cons.mp hmem).resolve_left hne

theorem Tracked.uncount {pid : Nat} {left : List Nat}
    (h : Tracked procs sigchld (.terminated pid left) set) :
    Tracked procs sigchld (.reaping left) (set.erase pid) where
  nodup := h.nodup.erase pid
  servers := h.servers
  fresh := by simp
  member := by simp
  leftNodup := h.leftNodup
  leftTracked := h.leftTracked
  noticed := h.noticed

/-- A child that runs ends. -/
theorem Tracked.exits (h : Tracked procs sigchld main set) {pid : Nat} {p q : Proc}
    (hp : procs pid = some p) (hexit : p.exit = some q) :
    Tracked (Function.update procs pid (some q)) true main set := by
  match p, q, hexit with
  | .bgctl false, .bgctl true, _ => exact h.signal.other (by simp [hp]) (by simp)
  | .server false, .server true, _ =>
    refine ⟨h.nodup, ?_, h.fresh, h.member, h.leftNodup, h.leftTracked, fun _ _ => .inl rfl⟩
    intro r
    by_cases hr : r = pid
    · subst hr
      simp [(h.servers r).mpr ⟨false, hp⟩]
    · rw [Function.update_of_ne hr]
      exact h.servers r

end Servers

section Threads

/-- The `xnbd-bgctl` that a thread has forked and not waited for. -/
def ControlPc.child : ControlPc → Option Nat
  | .forked pid | .running pid => some pid
  | _ => none

/-- A thread of a control connection and its child. -/
structure Place (procs : Nat → Option Proc) (owner : Nat → Nat) (k : Nat) (pc : ControlPc) :
    Prop where
  owned : ∀ p ∈ pc.child, owner p = k
  alive : ∀ p ∈ pc.child, ∃ ended, procs p = some (.bgctl ended)
  /-- `waitpid` has not failed. -/
  kept : pc ≠ .ended false

/-- Every thread has a child of its own, if it has one. -/
def Owned (procs : Nat → Option Proc) (threads : List ControlPc) : Prop :=
  ∃ owner, ∀ k pc, threads[k]? = some pc → Place procs owner k pc

variable {procs : Nat → Option Proc} {threads : List ControlPc} {k pid : Nat} {pc : ControlPc}

/-- A place without a child. -/
theorem Place.idle {owner : Nat → Nat} (hchild : pc.child = none) (hkept : pc ≠ .ended false) :
    Place procs owner k pc := ⟨by simp [hchild], by simp [hchild], hkept⟩

/-- One process changes, and the children of the thread remain. -/
theorem Place.update {owner : Nat → Nat} (h : Place procs owner k pc) {proc : Option Proc}
    (hmine : pid ∈ pc.child → ∃ ended, proc = some (.bgctl ended)) :
    Place (Function.update procs pid proc) owner k pc where
  owned := h.owned
  alive := by
    intro p hp
    by_cases heq : p = pid
    · subst heq
      obtain ⟨ended, rfl⟩ := hmine hp
      exact ⟨ended, Function.update_self ..⟩
    · rw [Function.update_of_ne heq]
      exact h.alive p hp
  kept := h.kept

/-- A thread goes on with the same child or with none. -/
theorem Owned.move (h : Owned procs threads) {next : ControlPc} (hk : threads[k]? = some pc)
    (hchild : next.child = none ∨ next.child = pc.child) (hkept : next ≠ .ended false) :
    Owned procs (threads.set k next) := by
  obtain ⟨owner, hplace⟩ := h
  refine ⟨owner, forall_set (fun j b hj _ => hplace j b hj) ?_⟩
  rcases hchild with hchild | hchild
  · exact .idle hchild hkept
  · exact ⟨hchild ▸ (hplace k pc hk).owned, hchild ▸ (hplace k pc hk).alive, hkept⟩

theorem Owned.accept (h : Owned procs threads) : Owned procs (threads ++ [.starting]) := by
  obtain ⟨owner, hplace⟩ := h
  exact ⟨owner, forall_append hplace (.idle rfl (by simp))⟩

/-- A process changes that is no `xnbd-bgctl`, or still is one. -/
theorem Owned.update (h : Owned procs threads) {proc : Option Proc}
    (hkeep : (∀ ended, procs pid ≠ some (.bgctl ended)) ∨ ∃ ended, proc = some (.bgctl ended)) :
    Owned (Function.update procs pid proc) threads := by
  obtain ⟨owner, hplace⟩ := h
  refine ⟨owner, fun k pc hk => (hplace k pc hk).update fun hmem => ?_⟩
  refine hkeep.resolve_left fun hnone => ?_
  obtain ⟨ended, halive⟩ := (hplace k pc hk).alive pid hmem
  exact hnone ended halive

theorem Owned.invoke (h : Owned procs threads) (hfree : procs pid = none) :
    Owned (Function.update procs pid (some (.bgctl false))) (threads.set k (.forked pid)) := by
  obtain ⟨owner, hplace⟩ := h
  refine ⟨Function.update owner pid k, forall_set ?_ ⟨?_, ?_, by simp⟩⟩
  · intro j b hj _
    have hb := hplace j b hj
    have hne : ∀ p ∈ b.child, p ≠ pid := by
      intro p hp heq
      obtain ⟨ended, halive⟩ := hb.alive p hp
      rw [heq, hfree] at halive
      cases halive
    exact ⟨fun p hp => by rw [Function.update_of_ne (hne p hp)]; exact hb.owned p hp,
      fun p hp => by rw [Function.update_of_ne (hne p hp)]; exact hb.alive p hp, hb.kept⟩
  · intro p hp
    cases hp
    exact Function.update_self ..
  · intro p hp
    cases hp
    exact ⟨false, Function.update_self ..⟩

/-- What a thread waits for is its own. -/
theorem Owned.wait (h : Owned procs threads) (hk : threads[k]? = some (.running pid)) :
    Owned (Function.update procs pid none) (threads.set k (.ended true)) := by
  obtain ⟨owner, hplace⟩ := h
  refine ⟨owner, forall_set ?_ (.idle rfl (by simp))⟩
  intro j b hj hne
  refine (hplace j b hj).update fun hmem => absurd ?_ hne
  rw [← (hplace j b hj).owned pid hmem]
  exact (hplace k _ hk).owned pid rfl

theorem Owned.alive (h : Owned procs threads) (hk : threads[k]? = some (.running pid)) :
    ∃ ended, procs pid = some (.bgctl ended) := by
  obtain ⟨owner, hplace⟩ := h
  exact (hplace k _ hk).alive pid rfl

end Threads

section Counters

/-- The thread is counted in `mgr_threads`. -/
def ControlPc.registered : ControlPc → Bool
  | .starting | .closed => false
  | _ => true

/-- The thread serves its connection. -/
def ControlPc.admitted : ControlPc → Bool
  | .starting | .refusing | .closed => false
  | _ => true

/-- The child of the thread is counted in `child_process_count`. -/
def ControlPc.counts : ControlPc → Bool
  | .running _ | .ended _ => true
  | _ => false

/-- What the main thread knows and has not counted yet. -/
def MainPc.uncounted : MainPc → Int
  | .inserting _ | .counting => 1
  | .terminated _ _ => -1
  | _ => 0

/-- The two counters. -/
structure Counted (s : State) : Prop where
  children : s.childProcessCount + s.main.uncounted =
    (known s.main s.serverPidSet).length + s.threads.countP ControlPc.counts
  mgrThreads : s.mgrThreads = s.threads.countP ControlPc.registered
  admitted : (s.threads.countP ControlPc.admitted : Int) ≤ maxCtlConns
  room : (known s.main s.serverPidSet).length ≤ maxNsrvs
  lower : s.main.uncounted ≤ (known s.main s.serverPidSet).length
  upper : (known s.main s.serverPidSet).length ≤ maxNsrvs + s.main.uncounted
  forking : s.main = .forking → (known s.main s.serverPidSet).length < maxNsrvs

variable {s : State}

/-- The main thread goes on without a change of what it knows. -/
theorem Counted.turn (h : Counted s) {main : MainPc} {set : List Nat} {count : Int}
    (hset : (known main set).length = (known s.main s.serverPidSet).length)
    (hcount : count + main.uncounted = s.childProcessCount + s.main.uncounted)
    (hmain : main = .forking → (known s.main s.serverPidSet).length < maxNsrvs)
    (hun : main.uncounted = 0 ∨ main.uncounted = s.main.uncounted)
    (procs : Nat → Option Proc) (sigchld : Bool) :
    Counted { s with procs, sigchld, serverPidSet := set, childProcessCount := count, main } where
  children := by
    rw [hset]
    exact hcount.trans h.children
  mgrThreads := h.mgrThreads
  admitted := h.admitted
  room := by
    rw [hset]
    exact h.room
  lower := by
    have hlower := h.lower
    simp only [hset]
    omega
  upper := by
    have hupper := h.upper
    have hroom := h.room
    simp only [hset]
    omega
  forking := by
    intro heq
    rw [hset]
    exact hmain heq

/-- An admitted thread is registered. -/
theorem admitted_le (threads : List ControlPc) :
    threads.countP ControlPc.admitted ≤ threads.countP ControlPc.registered := by
  apply List.countP_mono_left
  intro pc _ hpc
  cases pc <;> first | rfl | cases hpc

/-- A thread goes on, with what it adds to the counters. -/
theorem Counted.control (h : Counted s) {k : Nat} {pc next : ControlPc} {count mgr : Int}
    (hk : s.threads[k]? = some pc)
    (hcount : count + pc.counts.toNat = s.childProcessCount + next.counts.toNat)
    (hmgr : mgr + pc.registered.toNat = s.mgrThreads + next.registered.toNat)
    (hadmitted : pc.admitted = false → next.admitted = true → mgr ≤ maxCtlConns)
    (procs : Nat → Option Proc) :
    Counted { s with
      procs, childProcessCount := count, mgrThreads := mgr, threads := s.threads.set k next } := by
  have hcounts := countP_change (a := next) ControlPc.counts hk
  have hregistered := countP_change (a := next) ControlPc.registered hk
  have hadmits := countP_change (a := next) ControlPc.admitted hk
  have hthreads : mgr = (s.threads.set k next).countP ControlPc.registered := by
    have hold := h.mgrThreads
    omega
  refine ⟨?_, hthreads, ?_, h.room, h.lower, h.upper, h.forking⟩
  · have hchildren := h.children
    simp only
    omega
  · have hold := h.admitted
    have hle := admitted_le (s.threads.set k next)
    simp only
    cases hpc : pc.admitted <;> cases hnext : next.admitted <;>
      simp only [hpc, hnext, Bool.toNat_true, Bool.toNat_false] at hadmits
    case false.true =>
      -- the thread that comes in is among those that `mgr_threads` counts
      have hmgrle := hadmitted hpc hnext
      omega
    all_goals omega

theorem Counted.accept (h : Counted s) :
    Counted { s with threads := s.threads ++ [.starting] } := by
  refine ⟨?_, ?_, ?_, h.room, h.lower, h.upper, h.forking⟩
  · simpa [List.countP_append, List.countP_singleton, ControlPc.counts] using h.children
  · simpa [List.countP_append, List.countP_singleton, ControlPc.registered] using h.mgrThreads
  · simpa [List.countP_append, List.countP_singleton, ControlPc.admitted] using h.admitted

theorem Counted.ended (h : Counted s) (procs : Nat → Option Proc) (sigchld : Bool) :
    Counted { s with procs, sigchld } :=
  ⟨h.children, h.mgrThreads, h.admitted, h.room, h.lower, h.upper, h.forking⟩

end Counters

section Runs

/-- What every step keeps. -/
structure Inv (s : State) : Prop where
  tracked : Tracked s.procs s.sigchld s.main s.serverPidSet
  owned : Owned s.procs s.threads
  counted : Counted s

theorem inv_start : Inv start where
  tracked := by constructor <;> simp [start, known, MainPc.left]
  owned := ⟨id, by simp [start]⟩
  counted := by constructor <;> simp [start, known, MainPc.uncounted, maxNsrvs, maxCtlConns]

variable {s t : State}

/-- A server is forked below the limit. -/
theorem Inv.fork (h : Inv s) {pid : Nat} (hmain : s.main = .forking) (hfree : s.procs pid = none) :
    Inv { s with
      procs := Function.update s.procs pid (some (.server false)), main := .inserting pid } := by
  have htracked := h.tracked
  rw [hmain] at htracked
  have hchildren := h.counted.children
  have hlt := h.counted.forking hmain
  rw [hmain] at hchildren hlt
  refine ⟨htracked.fork hfree, h.owned.update (.inl (by simp [hfree])), ?_⟩
  simp only [known, MainPc.uncounted] at hchildren hlt
  refine ⟨?_, h.counted.mgrThreads, h.counted.admitted, ?_, ?_, ?_, by simp⟩
  all_goals
    simp only [known, MainPc.uncounted, List.length_append, List.length_singleton]
    omega

/-- A server that has ended leaves the processes, and then the set and the count. -/
theorem Inv.waited (h : Inv s) {pid : Nat} {left : List Nat}
    (hmain : s.main = .reaping (pid :: left)) :
    Inv { s with
      procs := Function.update s.procs pid none, main := .terminated pid left } := by
  have htracked := h.tracked
  rw [hmain] at htracked
  have hmem : pid ∈ s.serverPidSet := htracked.leftTracked pid List.mem_cons_self
  obtain ⟨ended, hserver⟩ := (htracked.servers pid).mp hmem
  have hlength := List.length_erase_of_mem hmem
  have hpos := List.length_pos_of_mem hmem
  have hchildren := h.counted.children
  have hroom := h.counted.room
  rw [hmain] at hchildren hroom
  refine ⟨htracked.waited, h.owned.update (.inl (by simp [hserver])), ?_⟩
  simp only [known, MainPc.uncounted] at hchildren hroom
  refine ⟨?_, h.counted.mgrThreads, h.counted.admitted, ?_, ?_, ?_, by simp⟩
  all_goals
    simp only [known, MainPc.uncounted]
    omega

theorem Inv.insert (h : Inv s) {pid : Nat} (hmain : s.main = .inserting pid) :
    Inv { s with serverPidSet := setInsert s.serverPidSet pid, main := .counting } := by
  have htracked := h.tracked
  rw [hmain] at htracked
  have hset := setInsert_new (htracked.fresh pid rfl)
  refine ⟨htracked.insert, h.owned, h.counted.turn ?_ ?_ (by simp) ?_ s.procs s.sigchld⟩
  all_goals simp [hset, hmain, known, MainPc.uncounted]

theorem Inv.uncount (h : Inv s) {pid : Nat} {left : List Nat}
    (hmain : s.main = .terminated pid left) :
    Inv { s with
      childProcessCount := s.childProcessCount - 1
      serverPidSet := s.serverPidSet.erase pid
      main := .reaping left } := by
  have htracked := h.tracked
  rw [hmain] at htracked
  refine ⟨htracked.uncount, h.owned, h.counted.turn ?_ ?_ (by simp) ?_ s.procs s.sigchld⟩
  all_goals simp [hmain, known, MainPc.uncounted]
  omega

/-- A thread of a control connection has an `xnbd-bgctl` of its own to wait for. -/
theorem Inv.waitBgctl (h : Inv s) {k pid : Nat} (hk : s.threads[k]? = some (.running pid)) :
    Inv { s with
      procs := Function.update s.procs pid none, threads := s.threads.set k (.ended true) } := by
  obtain ⟨ended, halive⟩ := h.owned.alive hk
  refine ⟨h.tracked.other (by simp [halive]) (by simp), h.owned.wait hk,
    h.counted.control hk ?_ ?_ ?_ _⟩
  · rfl
  · rfl
  · simp [ControlPc.admitted]

/-- The main thread turns from one place outside its sections to another. -/
theorem Inv.turn (h : Inv s) {main : MainPc} (htracked : Tracked s.procs s.sigchld main s.serverPidSet)
    (hset : (known main s.serverPidSet).length = (known s.main s.serverPidSet).length)
    {count : Int} (hcount : count + main.uncounted = s.childProcessCount + s.main.uncounted)
    (hmain : main = .forking → (known s.main s.serverPidSet).length < maxNsrvs)
    (hun : main.uncounted = 0) : Inv { s with childProcessCount := count, main } :=
  ⟨htracked, h.owned, h.counted.turn hset hcount hmain (.inl hun) s.procs s.sigchld⟩

theorem move_inv (h : Inv s) (ht : Move s t) : Inv t := by
  have htracked := h.tracked
  cases ht with
  | acceptControl hmain => exact ⟨htracked, h.owned.accept, h.counted.accept⟩
  | acceptClient hmain | refuse hmain | count hmain | swept hmain =>
    rw [hmain] at htracked
    refine h.turn (htracked.turn rfl (fun _ => rfl) rfl rfl (by simp) (by simp)) ?_ ?_ (by simp) rfl
    all_goals simp [hmain, known, MainPc.uncounted]
  | allow hmain hroom =>
    have hchildren := h.counted.children
    rw [hmain] at htracked hchildren
    refine h.turn (htracked.turn rfl (fun _ => rfl) rfl rfl (by simp) (by simp)) ?_ ?_ ?_ rfl <;>
      rw [hmain]
    · rfl
    · rfl
    · intro _
      simp only [MainPc.uncounted] at hchildren
      omega
  | fork pid hmain hfree => exact h.fork hmain hfree
  | insert pid hmain => exact h.insert hmain
  | readSigchld order hmain horder =>
    rw [hmain] at htracked
    refine ⟨htracked.read horder, h.owned, h.counted.turn ?_ ?_ ?_ ?_ s.procs false⟩
    all_goals simp [hmain, known, MainPc.uncounted]
  | kept pid left hmain halive =>
    rw [hmain] at htracked
    refine h.turn (htracked.kept halive) ?_ ?_ (by simp) rfl
    all_goals simp [hmain, known, MainPc.uncounted]
  | waited pid left hmain => exact h.waited hmain
  | uncount pid left hmain => exact h.uncount hmain
  | exits pid p q hp hexit =>
    refine ⟨htracked.exits hp hexit, h.owned.update ?_, h.counted.ended _ true⟩
    match p, q, hexit with
    | .bgctl false, .bgctl true, _ => exact .inr ⟨true, rfl⟩
    | .server false, .server true, _ => exact .inl (by simp [hp])
  | signal => exact ⟨htracked.signal, h.owned, h.counted.ended _ true⟩
  | countMgrThread k hk =>
    refine ⟨htracked, h.owned.move hk ?_ ?_, h.counted.control hk ?_ ?_ ?_ s.procs⟩ <;> split
    all_goals simp_all [ControlPc.child, ControlPc.counts, ControlPc.registered, ControlPc.admitted]
  | invokeBgctl k pid hk hfree =>
    refine ⟨htracked.other (by simp [hfree]) (by simp), h.owned.invoke hfree,
      h.counted.control hk ?_ ?_ ?_ _⟩
    all_goals simp [ControlPc.counts, ControlPc.registered, ControlPc.admitted]
  | countBgctl k pid hk =>
    refine ⟨htracked, h.owned.move hk (.inr rfl) (by simp), h.counted.control hk ?_ ?_ ?_ s.procs⟩
    all_goals simp [ControlPc.counts, ControlPc.registered, ControlPc.admitted]
  | lost k pid hk hnone =>
    obtain ⟨ended, halive⟩ := h.owned.alive hk
    rw [hnone] at halive
    cases halive
  | waitBgctl k pid hk => exact h.waitBgctl hk
  | uncountBgctl k hk =>
    refine ⟨htracked, h.owned.move hk (.inl rfl) (by simp), h.counted.control hk ?_ ?_ ?_ s.procs⟩
    all_goals simp [ControlPc.counts, ControlPc.registered, ControlPc.admitted]
  | leave k pc hk hpc =>
    refine ⟨htracked, h.owned.move hk (.inl rfl) (by simp), h.counted.control hk ?_ ?_ ?_ s.procs⟩
    all_goals rcases hpc with rfl | rfl
    all_goals simp [ControlPc.counts, ControlPc.registered, ControlPc.admitted]

theorem run_inv {acts : List Act} (h : run step start acts = some s) : Inv s :=
  run_invariant (I := Inv) (fun _ _ _ hi _ ht => move_inv hi (step_move ht)) inv_start
    (along_true step start acts) h

/-- The counted children of the control connections belong to admitted threads. -/
theorem counts_le (threads : List ControlPc) :
    threads.countP ControlPc.counts ≤ threads.countP ControlPc.admitted := by
  apply List.countP_mono_left
  intro pc _ hpc
  cases pc <;> first | rfl | cases hpc

/-- Whatever the main thread is doing, the count is between 0 and the sum of the limits. -/
theorem Inv.bounds (h : Inv s) :
    0 ≤ s.childProcessCount ∧ s.childProcessCount ≤ maxNsrvs + maxCtlConns := by
  have hchildren := h.counted.children
  have hlower := h.counted.lower
  have hupper := h.counted.upper
  have hadmitted := h.counted.admitted
  have hcounts := counts_le s.threads
  omega

theorem Inv.knownNodup (h : Inv s) : (known s.main s.serverPidSet).Nodup := by
  have hnodup := h.tracked.nodup
  cases hmain : s.main with
  | inserting pid =>
    have hnew := h.tracked.fresh pid hmain
    refine List.nodup_append.mpr ⟨hnodup, by simp, fun p hp q hq heq => ?_⟩
    rw [List.mem_singleton.mp hq] at heq
    exact hnew (heq ▸ hp)
  | terminated pid left => exact hnodup.erase pid
  | polling | limit | forking | counting | reaping left => exact hnodup

/-- The processes with a property, each of them once. -/
structure Listed (s : State) (P : Proc → Prop) (pids : List Nat) : Prop where
  nodup : pids.Nodup
  mem : ∀ p, p ∈ pids ↔ ∃ proc, s.procs p = some proc ∧ P proc

def Proc.isServer : Proc → Prop
  | .server _ => True
  | .bgctl _ => False

theorem Inv.listed (h : Inv s) : Listed s Proc.isServer (known s.main s.serverPidSet) where
  nodup := h.knownNodup
  mem := by
    intro p
    rw [h.tracked.servers]
    constructor
    · rintro ⟨ended, hp⟩
      exact ⟨_, hp, trivial⟩
    · rintro ⟨proc, hp, hserver⟩
      cases proc with
      | server ended => exact ⟨ended, hp⟩
      | bgctl ended => cases hserver

/-- With no `SIGCHLD` to read, a server that has ended is one that the scan will visit. -/
theorem Inv.running (h : Inv s) (hmain : s.main = .polling) (hsigchld : s.sigchld = false) (p : Nat) :
    s.procs p ≠ some (.server true) := by
  intro hp
  rcases h.tracked.noticed p hp with hpending | hleft
  · rw [hsigchld] at hpending
    cases hpending
  · rw [hmain] at hleft
    cases hleft

theorem Inv.settled (h : Inv s) (hmain : s.main = .polling) (hsigchld : s.sigchld = false) :
    Listed s (· = .server false) s.serverPidSet := by
  have hlisted := h.listed
  rw [hmain] at hlisted
  refine ⟨hlisted.nodup, fun p => (hlisted.mem p).trans ⟨?_, ?_⟩⟩
  · rintro ⟨proc, hp, hserver⟩
    match proc, hserver with
    | .server false, _ => exact ⟨_, hp, rfl⟩
    | .server true, _ => exact absurd hp (h.running hmain hsigchld p)
  · rintro ⟨proc, hp, rfl⟩
    exact ⟨_, hp, trivial⟩

/-- Every server is waited for, and by the main thread alone. There are never more than
`MAX_NSRVS` of them, a client is refused only when almost as many are there, and once the
signals have been handled the count is that of the children which run. -/
theorem children_accounted {acts : List Act} {s : State} (h : run step start acts = some s) :
    (∃ servers, Listed s Proc.isServer servers ∧ servers.length ≤ maxNsrvs) ∧
    (0 ≤ s.childProcessCount ∧ s.childProcessCount ≤ maxNsrvs + maxCtlConns) ∧
    .ended false ∉ s.threads ∧
    (s.main = .limit → maxNsrvs ≤ s.childProcessCount →
      ∃ servers, Listed s Proc.isServer servers ∧ maxNsrvs - maxCtlConns ≤ servers.length) ∧
    (s.main = .polling → s.sigchld = false →
      (∀ p, s.procs p ≠ some (.server true)) ∧
      ∃ servers, Listed s (· = .server false) servers ∧
        s.childProcessCount = servers.length + s.threads.countP ControlPc.counts) := by
  have hinv := run_inv h
  have hchildren := hinv.counted.children
  refine ⟨⟨_, hinv.listed, hinv.counted.room⟩, hinv.bounds, ?_, ?_, ?_⟩
  · intro hmem
    obtain ⟨owner, hplace⟩ := hinv.owned
    obtain ⟨k, hk⟩ := List.mem_iff_getElem?.mp hmem
    exact (hplace k _ hk).kept rfl
  · intro hmain hfull
    refine ⟨_, hinv.listed, ?_⟩
    have hadmitted := hinv.counted.admitted
    have hcounts := counts_le s.threads
    simp only [hmain, MainPc.uncounted] at hchildren ⊢
    omega
  · intro hmain hsigchld
    refine ⟨hinv.running hmain hsigchld, _, hinv.settled hmain hsigchld, ?_⟩
    simpa [hmain, MainPc.uncounted, known] using hchildren

/-- Two clients and an `xnbd-bgctl`, and one `SIGCHLD` for a server and for `xnbd-bgctl`. -/
theorem children_accounted_client :
    ∃ s, run step start
      [.acceptControl, .countMgrThread 0,
        .acceptClient, .checkLimit, .fork 7, .insert, .count,
        .invokeBgctl 0 8, .countBgctl 0,
        .acceptClient, .checkLimit, .fork 9, .insert, .count,
        .exits 8, .exits 7, .readSigchld [9, 7], .visit, .visit, .uncount, .waitBgctl 0, .visit] =
        some s ∧
      (s.main = .polling → s.sigchld = false →
        (∀ p, s.procs p ≠ some (.server true)) ∧
        ∃ servers, Listed s (· = .server false) servers ∧
          s.childProcessCount = servers.length + s.threads.countP ControlPc.counts) ∧
      s.main = .polling ∧ s.sigchld = false ∧ s.serverPidSet = [9] ∧ s.childProcessCount = 2 := by
  obtain ⟨s, hrun, hmain, hsigchld, hset, hcount⟩ :
      ∃ s, run step start
        [.acceptControl, .countMgrThread 0,
          .acceptClient, .checkLimit, .fork 7, .insert, .count,
          .invokeBgctl 0 8, .countBgctl 0,
          .acceptClient, .checkLimit, .fork 9, .insert, .count,
          .exits 8, .exits 7, .readSigchld [9, 7], .visit, .visit, .uncount, .waitBgctl 0, .visit] =
          some s ∧
        s.main = .polling ∧ s.sigchld = false ∧ s.serverPidSet = [9] ∧ s.childProcessCount = 2 :=
    ⟨_, rfl, rfl, rfl, rfl, rfl⟩
  exact ⟨s, hrun, (children_accounted hrun).2.2.2.2, hmain, hsigchld, hset, hcount⟩

end Runs

end Xnbd.Children
