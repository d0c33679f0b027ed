import Xnbd.Places
import Xnbd.Wrapper

/-!
# The mutex of the wrapper and its forks (`main` in `xnbd_wrapper.c`)

The main thread accepts control connections, each of which gets a thread, and
clients, for each of which it forks. A child has one thread and a copy of all
memory, the mutex among it. It looks up the export that its client asks for under
its own copy, which nobody else can unlock.

Here a critical section is entered and left in two steps, and `inside` says that a
thread is between them. What a section does to the registry is `Wrapper.advance`.
-/
namespace Xnbd.ForkLock

open Registry Wrapper Places Run

section Model

/-- `MAX_NSRVS`. -/
def maxNsrvs : Int := 512

/-- `MAX_CTL_CONNS`. -/
def maxCtlConns : Int := 8

/-- Where the thread of a control connection is. -/
inductive ControlPc where
  /-- Before `count_mgr_threads(1)`. -/
  | starting
  /-- In `fgets`. -/
  | waiting
  | listDiskimg
  /-- Before a critical section of a command on the registry. -/
  | command (thread : Wrapper.Thread)
  /-- `xnbd-bgctl` has been forked and is not counted yet. -/
  | childStarted (name : CStr) (update : Update)
  | childRunning (name : CStr) (update : Update)
  | childEnded (name : CStr) (update : Update) (ok : Bool)
  /-- Before `count_mgr_threads(-1)`. -/
  | leaving
  | ended
  deriving DecidableEq

structure Control where
  pc : ControlPc
  inside : Bool
  deriving DecidableEq

/-- Where the main thread is. -/
inductive MainPc where
  /-- In `epoll_wait`. -/
  | polling
  /-- Before the comparison of `child_process_count` with its limit. -/
  | limit
  | forking
  /-- Before `child_process_count++`. -/
  | counting
  /-- Before the `child_process_count--` of `waitpid_nohang_ghrfunc`. -/
  | reaping
  deriving DecidableEq

structure Main where
  pc : MainPc
  inside : Bool
  deriving DecidableEq

/-- What the mutex protects. -/
structure Shared where
  exports : Exports
  mgrThreads : Int
  childProcessCount : Int

/-- A forked child before `exec`: its copies of the mutex and of the registry, and what
its client asked for with what was found. -/
structure Child where
  locked : Bool
  exports : Exports
  found : Option (CStr × Option DiskData)

structure State where
  shared : Shared
  /-- The mutex is locked. -/
  locked : Bool
  main : Main
  threads : List Control
  children : List Child

inductive Act where
  | acceptControl
  | acceptClient
  /-- `SIGCHLD`, for a server that has ended. -/
  | sigchld
  | mainLock
  | mainUnlock
  | fork
  | list (k : Nat)
  | line (k : Nat) (c : Command)
  /-- The image file of an `add` does not open. -/
  | accessError (k : Nat)
  | childExits (k : Nat) (ok : Bool)
  /-- The end of the stream, or `quit`. -/
  | hangUp (k : Nat)
  | lock (k : Nat)
  /-- The section is carried out and left; `ok` is as for `Wrapper.Act.go`. -/
  | unlock (k : Nat) (ok : Bool)
  /-- `get_disk_data_for` in a child. -/
  | getDiskDataFor (child : Nat) (name : CStr)
  deriving DecidableEq

/-- A line that is read. A deletion with a number below 1 never locks. -/
def beginLine : Command → ControlPc
  | .del (.byIndex num) => if 0 ≤ num - 1 then .command (.delDiskimg (.byIndex num)) else .waiting
  | c => .command (begin c)

/-- Where a thread of `Wrapper` goes on. -/
def goesTo : Wrapper.Thread → ControlPc
  | .idle => .waiting
  | .child name update => .childStarted name update
  | thread => .command thread

/-- What a control thread does in its next critical section. -/
def critical (m : Shared) (ok : Bool) : ControlPc → Option (Shared × ControlPc)
  | .starting =>
    let mgrThreads := m.mgrThreads + 1
    some ({ m with mgrThreads }, if mgrThreads ≤ maxCtlConns then .waiting else .leaving)
  | .listDiskimg => some (m, .waiting)
  -- the file has been opened before the mutex is locked
  | .command (.addDiskimg image) =>
    (advance m.exports true (.addDiskimg image)).map fun r => ({ m with exports := r.1 }, goesTo r.2)
  | .command (.child _ _) => none
  | .command thread =>
    (advance m.exports ok thread).map fun r => ({ m with exports := r.1 }, goesTo r.2)
  | .childStarted name update =>
    some ({ m with childProcessCount := m.childProcessCount + 1 }, .childRunning name update)
  | .childEnded name update ok =>
    some ({ m with childProcessCount := m.childProcessCount - 1 },
      if ok = false ∨ update = .keep then .waiting else .command (.update name update))
  | .leaving => some ({ m with mgrThreads := m.mgrThreads - 1 }, .ended)
  | .waiting | .childRunning _ _ | .ended => none

/-- What the main thread does in its next critical section. -/
def mainCritical (m : Shared) : MainPc → Option (Shared × MainPc)
  | .limit => some (m, if maxNsrvs ≤ m.childProcessCount then .polling else .forking)
  | .counting => some ({ m with childProcessCount := m.childProcessCount + 1 }, .polling)
  | .reaping => some ({ m with childProcessCount := m.childProcessCount - 1 }, .polling)
  | .polling | .forking => none

/-- `get_disk_data_for` in a child. A mutex that was locked at the fork stays locked. -/
def Child.getDiskDataFor (c : Child) (name : CStr) : Option (Option DiskData) :=
  if c.locked then none else some (Registry.getDiskDataFor c.exports name)

/-- The main thread goes on from a place outside the mutex. -/
def mainAt (s : State) (pc : MainPc) (t : State) : Option State :=
  if s.main = ⟨pc, false⟩ then some t else none

/-- A control thread goes from one place outside the mutex to another. -/
def controlAt (s : State) (k : Nat) (p : ControlPc → Option ControlPc) : Option State :=
  (s.threads[k]?).bind fun c =>
    if c.inside then none
    else (p c.pc).map fun pc => { s with threads := s.threads.set k ⟨pc, false⟩ }

def step (s : State) : Act → Option State
  | .acceptControl => mainAt s .polling { s with threads := s.threads ++ [⟨.starting, false⟩] }
  | .acceptClient => mainAt s .polling { s with main := ⟨.limit, false⟩ }
  | .sigchld => mainAt s .polling { s with main := ⟨.reaping, false⟩ }
  | .mainLock =>
    if s.locked = false ∧ s.main.inside = false ∧ (mainCritical s.shared s.main.pc).isSome then
      some { s with locked := true, main := { s.main with inside := true } }
    else none
  | .mainUnlock =>
    if s.main.inside then
      (mainCritical s.shared s.main.pc).map fun m =>
        { s with shared := m.1, locked := false, main := ⟨m.2, false⟩ }
    else none
  | .fork =>
    mainAt s .forking
      { s with
        main := ⟨.counting, false⟩
        children := s.children ++ [⟨s.locked, s.shared.exports, none⟩] }
  | .list k => controlAt s k fun pc => if pc = .waiting then some .listDiskimg else none
  | .line k c => controlAt s k fun pc => if pc = .waiting then some (beginLine c) else none
  | .accessError k =>
    controlAt s k fun
      | .command (.addDiskimg _) => some .waiting
      | _ => none
  | .childExits k ok =>
    controlAt s k fun
      | .childRunning name update => some (.childEnded name update ok)
      | _ => none
  | .hangUp k => controlAt s k fun pc => if pc = .waiting then some .leaving else none
  | .lock k =>
    (s.threads[k]?).bind fun c =>
      if s.locked = false ∧ c.inside = false ∧ (critical s.shared true c.pc).isSome then
        some { s with locked := true, threads := s.threads.set k { c with inside := true } }
      else none
  | .unlock k ok =>
    (s.threads[k]?).bind fun c =>
      if c.inside then
        (critical s.shared ok c.pc).map fun m =>
          { s with shared := m.1, locked := false, threads := s.threads.set k ⟨m.2, false⟩ }
      else none
  | .getDiskDataFor child name =>
    (s.children[child]?).bind fun c =>
      if c.found.isSome then none
      else (c.getDiskDataFor name).map fun d =>
        { s with children := s.children.set child { c with found := some (name, d) } }

/-- The wrapper after start-up. -/
def start (images : List Image) : State where
  shared := ⟨loadImages images, 0, 0⟩
  locked := false
  main := ⟨.polling, false⟩
  threads := []
  children := []

end Model

section Rest

/-- Where a thread has no critical section before it until something comes from outside: in
`fgets`, waiting for `xnbd-bgctl`, or ended. No thread gets to the last two places. -/
def ControlPc.AtRest : ControlPc → Prop
  | .waiting | .childRunning _ _ | .ended => True
  | .command .idle | .command (.child _ _) => True
  | _ => False

instance (pc : ControlPc) : Decidable pc.AtRest := by
  unfold ControlPc.AtRest
  split <;> infer_instance

theorem critical_isSome {m : Shared} {ok : Bool} {pc : ControlPc} :
    (critical m ok pc).isSome = true ↔ ¬ pc.AtRest := by
  cases pc with
  | command thread =>
    cases thread with
    | lookup name update =>
      simp only [critical, advance, ControlPc.AtRest, Option.isSome_map]
      split <;> simp
    | _ => simp [critical, advance, ControlPc.AtRest]
  | _ => simp [critical, ControlPc.AtRest]

end Rest

section Holder

/-- The thread that holds the mutex. -/
inductive Holder where
  | main
  | control (k : Nat)

/-- Who holds the mutex, in terms of where the threads are. -/
structure Held (s : State) (h : Option Holder) : Prop where
  word : s.locked = h.isSome
  main : s.main.inside = true ↔ h = some .main
  control : ∀ k c, s.threads[k]? = some c → (c.inside = true ↔ h = some (.control k))
  exists_control : ∀ k, h = some (.control k) → k < s.threads.length

variable {s t : State} {h : Option Holder}

theorem held_start (images : List Image) : Held (start images) none where
  word := rfl
  main := by simp [start]
  control := by simp [start]
  exists_control := by simp

theorem Held.free (hs : Held s h) (hfree : s.locked = false) : h = none := by
  have hword := hs.word
  rw [hfree] at hword
  exact Option.not_isSome_iff_eq_none.mp (by simp [← hword])

/-- The main thread moves outside the mutex. -/
theorem held_main (hs : Held s h) {pc : MainPc} (hmain : s.main.inside = false) {children : List Child} :
    Held { s with main := ⟨pc, false⟩, children } h where
  word := hs.word
  main := by
    have := hs.main
    rw [hmain] at this
    exact this
  control := hs.control
  exists_control := hs.exists_control

/-- One control thread changes, and with it at most whether that thread holds the mutex. -/
theorem held_set {h' : Option Holder} (hs : Held s h) {k : Nat} {c : Control} {locked : Bool}
    {shared : Shared} (hk : k < s.threads.length) (hword : locked = h'.isSome)
    (hmain : h = some .main ↔ h' = some .main) (hsame : c.inside = true ↔ h' = some (.control k))
    (hother : ∀ j, j ≠ k → (h = some (.control j) ↔ h' = some (.control j))) :
    Held { s with shared, locked, threads := s.threads.set k c } h' where
  word := hword
  main := hs.main.trans hmain
  control := forall_set (fun j d hd hne => (hs.control j d hd).trans (hother j hne)) hsame
  exists_control := by
    intro j hj
    rw [List.length_set]
    by_cases heq : j = k
    · rw [heq]
      exact hk
    · exact hs.exists_control j ((hother j heq).mpr hj)

theorem mainAt_some {pc : MainPc} {next : State} (ht : mainAt s pc next = some t) :
    s.main.inside = false ∧ t = next := by
  simp only [mainAt] at ht
  split at ht
  · rename_i hmain
    cases ht
    exact ⟨by rw [hmain], rfl⟩
  · cases ht

/-- A new control thread is outside the mutex. -/
theorem held_accept (hs : Held s h) :
    Held { s with threads := s.threads ++ [⟨.starting, false⟩] } h where
  word := hs.word
  main := hs.main
  control := by
    apply forall_append hs.control
    constructor
    · intro hin
      cases hin
    · exact fun hin => absurd (hs.exists_control _ hin) (Nat.lt_irrefl _)
  exists_control := by
    intro k hk
    rw [List.length_append]
    exact Nat.lt_add_right _ (hs.exists_control k hk)

/-- What a step does to the mutex and to the places of the threads. -/
inductive Move (s : State) : Act → State → Prop where
  | acceptControl :
    Move s .acceptControl { s with threads := s.threads ++ [⟨.starting, false⟩] }
  | main (a : Act) (pc : MainPc) (hmain : s.main.inside = false) (hact : a ≠ .fork) :
    Move s a { s with main := ⟨pc, false⟩ }
  | mainLock (hfree : s.locked = false) :
    Move s .mainLock { s with locked := true, main := { s.main with inside := true } }
  | mainUnlock (shared : Shared) (pc : MainPc) (hin : s.main.inside = true) :
    Move s .mainUnlock { s with shared, locked := false, main := ⟨pc, false⟩ }
  | fork (hmain : s.main.inside = false) :
    Move s .fork { s with
      main := ⟨.counting, false⟩
      children := s.children ++ [⟨s.locked, s.shared.exports, none⟩] }
  | control (a : Act) (k : Nat) (c : Control) (pc : ControlPc) (hc : s.threads[k]? = some c)
      (hout : c.inside = false) (hact : a ≠ .fork) :
    Move s a { s with threads := s.threads.set k ⟨pc, false⟩ }
  | lock (k : Nat) (c : Control) (hc : s.threads[k]? = some c) (hfree : s.locked = false)
      (hpc : ¬ c.pc.AtRest) :
    Move s (.lock k) { s with
      locked := true, threads := s.threads.set k { c with inside := true } }
  | unlock (k : Nat) (ok : Bool) (c : Control) (shared : Shared) (pc : ControlPc)
      (hc : s.threads[k]? = some c) (hin : c.inside = true) :
    Move s (.unlock k ok) { s with
      shared, locked := false, threads := s.threads.set k ⟨pc, false⟩ }
  | lookup (child : Nat) (name : CStr) (c : Child) (d : Option DiskData)
      (hc : s.children[child]? = some c) :
    Move s (.getDiskDataFor child name) { s with
      children := s.children.set child { c with found := some (name, d) } }

theorem controlAt_move {a : Act} {k : Nat} {p : ControlPc → Option ControlPc} (hact : a ≠ .fork)
    (ht : controlAt s k p = some t) : Move s a t := by
  simp only [controlAt, Option.bind_eq_some_iff] at ht
  obtain ⟨c, hc, ht⟩ := ht
  split at ht
  · cases ht
  · rename_i hout
    obtain ⟨pc, -, rfl⟩ := Option.map_eq_some_iff.mp ht
    exact .control a k c pc hc (Bool.eq_false_iff.mpr hout) hact

theorem step_move {a : Act} (ht : step s a = some t) : Move s a t := by
  cases a with
  | acceptControl =>
    obtain ⟨-, rfl⟩ := mainAt_some ht
    exact .acceptControl
  | acceptClient =>
    obtain ⟨hmain, rfl⟩ := mainAt_some ht
    exact .main _ .limit hmain nofun
  | sigchld =>
    obtain ⟨hmain, rfl⟩ := mainAt_some ht
    exact .main _ .reaping hmain nofun
  | mainLock =>
    simp only [step] at ht
    split at ht
    · rename_i hfree
      cases ht
      exact .mainLock hfree.1
    · cases ht
  | mainUnlock =>
    simp only [step] at ht
    split at ht
    · rename_i hin
      obtain ⟨m, -, rfl⟩ := Option.map_eq_some_iff.mp ht
      exact .mainUnlock m.1 m.2 hin
    · cases ht
  | fork =>
    obtain ⟨hmain, rfl⟩ := mainAt_some ht
    exact .fork hmain
  | list k | line k c | accessError k | childExits k ok | hangUp k =>
    simp only [step] at ht
    exact controlAt_move nofun ht
  | lock k =>
    simp only [step, Option.bind_eq_some_iff] at ht
    obtain ⟨c, hc, ht⟩ := ht
    split at ht
    · rename_i hfree
      cases ht
      exact .lock k c hc hfree.1 (critical_isSome.mp hfree.2.2)
    · cases ht
  | unlock k ok =>
    simp only [step, Option.bind_eq_some_iff] at ht
    obtain ⟨c, hc, ht⟩ := ht
    split at ht
    · rename_i hin
      obtain ⟨m, -, rfl⟩ := Option.map_eq_some_iff.mp ht
      exact .unlock k ok c m.1 m.2 hc hin
    · cases ht
  | getDiskDataFor child name =>
    simp only [step, Option.bind_eq_some_iff] at ht
    obtain ⟨c, hc, ht⟩ := ht
    split at ht
    · cases ht
    · obtain ⟨d, -, rfl⟩ := Option.map_eq_some_iff.mp ht
      exact .lookup child name c d hc

/-- The mutex changes hands with every lock and unlock, and in no other step. -/
theorem step_held {a : Act} (hs : Held s h) (ht : step s a = some t) : ∃ h', Held t h' := by
  cases step_move ht with
  | acceptControl => exact ⟨h, held_accept hs⟩
  | main a pc hmain hact => exact ⟨h, held_main hs hmain⟩
  | fork hmain => exact ⟨h, held_main hs hmain⟩
  | mainLock hfree =>
    have hnone := hs.free hfree
    subst hnone
    exact ⟨some .main, rfl, by simp, fun k c hc => by simpa using hs.control k c hc, by simp⟩
  | mainUnlock shared pc hin =>
    have hmain := hs.main.mp hin
    subst hmain
    exact ⟨none, rfl, by simp, fun k c hc => by simpa using hs.control k c hc, by simp⟩
  | control a k c pc hc hout hact =>
    have hnot : ¬ h = some (.control k) := by
      intro hin
      rw [(hs.control k c hc).mpr hin] at hout
      cases hout
    exact ⟨h, held_set hs (List.getElem?_eq_some_iff.mp hc).1 hs.word Iff.rfl (by simp [hnot])
      fun _ _ => Iff.rfl⟩
  | lock k c hc hfree hpc =>
    have hnone := hs.free hfree
    subst hnone
    exact ⟨some (.control k), held_set hs (List.getElem?_eq_some_iff.mp hc).1 rfl (by simp)
      (by simp) (by simp; exact fun j hne heq => hne heq.symm)⟩
  | unlock k ok c shared pc hc hin =>
    have hk := (hs.control k c hc).mp hin
    subst hk
    exact ⟨none, held_set hs (List.getElem?_eq_some_iff.mp hc).1 rfl (by simp) (by simp)
      (by simp; exact fun j hne heq => hne heq.symm)⟩
  | lookup child name c d hc => exact ⟨h, hs.word, hs.main, hs.control, hs.exists_control⟩

/-- A thread in its critical section is not at rest. -/
def Busy (s : State) : Prop := ∀ c ∈ s.threads, c.inside = true → ¬ c.pc.AtRest

theorem busy_set (hs : Busy s) {k : Nat} {c : Control} (hc : c.inside = true → ¬ c.pc.AtRest) :
    ∀ d ∈ s.threads.set k c, d.inside = true → ¬ d.pc.AtRest := by
  intro d hd
  cases List.mem_or_eq_of_mem_set hd with
  | inl hold => exact hs d hold
  | inr hnew => exact hnew ▸ hc

theorem step_busy {a : Act} (hs : Busy s) (ht : step s a = some t) : Busy t := by
  cases step_move ht with
  | acceptControl =>
    intro c hc hin
    cases List.mem_append.mp hc with
    | inl hold => exact hs c hold hin
    | inr hnew =>
      cases List.mem_singleton.mp hnew
      cases hin
  | main | fork | mainLock | mainUnlock | lookup => exact hs
  | control a k c pc hc hout hact => exact busy_set hs nofun
  | lock k c hc hfree hpc => exact busy_set hs fun _ => hpc
  | unlock k ok c shared pc hc hin => exact busy_set hs nofun

end Holder

section Fork

variable {s t : State} {h : Option Holder}

/-- No child has a mutex that is locked for ever. -/
def Unlocked (s : State) : Prop := ∀ c ∈ s.children, c.locked = false

/-- When the main thread forks, no control thread is carrying out a command or about to be
counted in `count_mgr_threads`. Waiting for `xnbd-bgctl` does no harm. -/
def Calm (s : State) : Act → Prop
  | .fork => ∀ c ∈ s.threads, c.pc.AtRest
  | _ => True

instance (s : State) (a : Act) : Decidable (Calm s a) := by
  cases a <;> unfold Calm <;> infer_instance

/-- While the main thread is outside, only a control thread can hold the mutex, and none does
that is at rest. -/
theorem Held.free_of_rest (hs : Held s h) (hbusy : Busy s) (hmain : s.main.inside = false)
    (hrest : ∀ c ∈ s.threads, c.pc.AtRest) : s.locked = false := by
  rw [hs.word]
  cases h with
  | none => rfl
  | some holder =>
    cases holder with
    | main =>
      have hin := hs.main.mpr rfl
      rw [hmain] at hin
      cases hin
    | control k =>
      have hk := hs.exists_control k rfl
      have hin := (hs.control k _ (List.getElem?_eq_getElem hk)).mpr rfl
      exact absurd (hrest _ (List.getElem_mem hk)) (hbusy _ (List.getElem_mem hk) hin)

/-- Only a fork makes a child, and a child never changes its mutex. -/
theorem step_children {a : Act} (ht : step s a = some t) :
    (a = .fork ∧ s.main.inside = false ∧
      t.children = s.children ++ [⟨s.locked, s.shared.exports, none⟩]) ∨
    (a ≠ .fork ∧ t.children.map Child.locked = s.children.map Child.locked) := by
  cases step_move ht with
  | fork hmain => exact .inl ⟨rfl, hmain, rfl⟩
  | acceptControl | mainLock hfree | mainUnlock shared pc hin | lock k c hc hfree hpc
    | unlock k ok c shared pc hc hin => exact .inr ⟨nofun, rfl⟩
  | main a pc hmain hact => exact .inr ⟨hact, rfl⟩
  | control a k c pc hc hout hact => exact .inr ⟨hact, rfl⟩
  | lookup child name c d hc =>
    have hlt := (List.getElem?_eq_some_iff.mp hc).1
    refine .inr ⟨nofun, ?_⟩
    rw [List.map_set]
    apply List.ext_getElem?
    intro j
    by_cases heq : child = j
    · subst heq
      rw [List.getElem?_set_self (by simpa using hlt), List.getElem?_map, hc]
      rfl
    · rw [List.getElem?_set_ne heq]

theorem unlocked_of_map {s t : State}
    (h : t.children.map Child.locked = s.children.map Child.locked) : Unlocked t ↔ Unlocked s := by
  have hall : ∀ u : State, Unlocked u ↔ ∀ b ∈ u.children.map Child.locked, b = false := by
    intro u
    rw [List.forall_mem_map]
    rfl
  rw [hall, hall, h]

/-- Who holds the mutex, and that no child got a copy of it that is locked. -/
structure Safe (s : State) : Prop where
  held : ∃ h, Held s h
  busy : Busy s
  unlocked : Unlocked s

theorem safe_start (images : List Image) : Safe (start images) :=
  ⟨⟨none, held_start images⟩, fun _ hc => (List.not_mem_nil hc).elim,
    fun _ hc => (List.not_mem_nil hc).elim⟩

theorem step_safe {a : Act} (hs : Safe s) (hcalm : Calm s a) (ht : step s a = some t) : Safe t := by
  obtain ⟨⟨h, hheld⟩, hbusy, hunlocked⟩ := hs
  refine ⟨step_held hheld ht, step_busy hbusy ht, ?_⟩
  cases step_children ht with
  | inl hfork =>
    obtain ⟨rfl, hmain, hchildren⟩ := hfork
    rw [Unlocked, hchildren, List.forall_mem_append, List.forall_mem_singleton]
    exact ⟨hunlocked, hheld.free_of_rest hbusy hmain hcalm⟩
  | inr hother => exact (unlocked_of_map hother.2).mpr hunlocked

/-- A thread that is not at rest can lock the mutex just before the fork. -/
theorem fork_locked {k : Nat} {c : Control} (hc : s.threads[k]? = some c) (hpc : ¬ c.pc.AtRest)
    (hout : c.inside = false) (hmain : s.main = ⟨.forking, false⟩) (hfree : s.locked = false) :
    ∃ t, run step s [.lock k, .fork] = some t ∧ ¬ Unlocked t := by
  have hlock : step s (.lock k) = some { s with
      locked := true, threads := s.threads.set k { c with inside := true } } := by
    simp [step, hc, hfree, hout, critical_isSome.mpr hpc]
  refine ⟨_, by rw [run_step hlock, run_cons]; simp [step, mainAt, hmain]; rfl, ?_⟩
  intro hunlocked
  have hlast := hunlocked _ (List.mem_append_right _ (List.mem_singleton.mpr rfl))
  cases hlast

/-- A child finds what the registry held at the fork. -/
def LooksUp (c : Child) : Prop :=
  ∀ name, c.getDiskDataFor name = some (Registry.getDiskDataFor c.exports name)

theorem looksUp_of_unlocked {c : Child} (h : c.locked = false) : LooksUp c := by
  simp [LooksUp, Child.getDiskDataFor, h]

theorem child_lookup (images : List Image) (acts : List Act) (s : State)
    (hrun : run step (start images) acts = some s) :
    (Along step Calm (start images) acts → ∀ c ∈ s.children, c.locked = false ∧ LooksUp c) ∧
    ∀ k c, s.threads[k]? = some c → ¬ c.pc.AtRest → s.main = ⟨.forking, false⟩ →
      s.locked = false → ∃ t, run step s [.lock k, .fork] = some t ∧
        ¬ ∀ child ∈ t.children, child.locked = false := by
  constructor
  · intro hcalm c hc
    have hsafe : Safe s :=
      run_invariant (fun _ _ _ hi hp ht => step_safe hi hp ht) (safe_start images) hcalm hrun
    have hfree := hsafe.unlocked c hc
    exact ⟨hfree, looksUp_of_unlocked hfree⟩
  · intro k c hc hpc hmain hfree
    obtain ⟨h, hheld⟩ : ∃ h, Held s h :=
      run_invariant (P := fun _ _ => True) (I := fun s => ∃ h, Held s h)
        (fun _ _ _ hi _ ht => step_held hi.choose_spec ht) ⟨none, held_start images⟩
        (along_true step _ acts) hrun
    have hnone := hheld.free hfree
    have hout : c.inside = false := by
      rw [← Bool.not_eq_true, hheld.control k c hc, hnone]
      exact nofun
    exact fork_locked hc hpc hout hmain hfree

/-- When a client comes, one control connection is idle and another one waits for
`xnbd-bgctl`. -/
def calmFork : List Act :=
  [.acceptControl, .lock 0, .unlock 0 true, .acceptControl, .lock 1, .unlock 1 true,
    .line 1 (.bgctl [97] .keep), .lock 1, .unlock 1 true, .lock 1, .unlock 1 true, .acceptClient,
    .mainLock, .mainUnlock, .fork, .getDiskDataFor 0 [97]]

theorem child_lookup_calm :
    ∃ s, run step (start [.proxy [97] [104] [49] [99] [98] [115] none]) calmFork = some s ∧
      s.threads.map Control.pc = [.waiting, .childRunning [97] .keep] ∧
      ∀ c ∈ s.children, c.locked = false ∧ LooksUp c :=
  ⟨_, rfl, rfl, (child_lookup [.proxy [97] [104] [49] [99] [98] [115] none] calmFork _ rfl).1
    (by decide)⟩

/-- A control connection saves the database between the comparison with the limit and the
fork. -/
def forkDuringSave : List Act :=
  [.acceptControl, .lock 0, .unlock 0 true, .line 0 .save, .acceptClient, .mainLock, .mainUnlock,
    .lock 0, .fork, .unlock 0 true]

/-- The child waits for ever, also when the save is over. -/
theorem child_locked_by_save :
    ∃ s, run step (start [.target [97] [102]]) forkDuringSave = some s ∧ s.locked = false ∧
      ∃ c ∈ s.children, c.locked = true ∧ ∀ name, c.getDiskDataFor name = none :=
  ⟨_, rfl, rfl, _, List.mem_singleton.mpr rfl, rfl, fun _ => rfl⟩

end Fork

end Xnbd.ForkLock
