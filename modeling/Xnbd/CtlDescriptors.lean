import Xnbd.FdTable
import Xnbd.Places
import Xnbd.Run

/-!
# The descriptors of the control threads (`start_filemgr_thread`)

The threads of the wrapper share one table of descriptors. A control thread closes
its connection with `fclose(fp)`, since `fp` was made of the connection with
`fdopen`, and then closes the number of the connection once more.
-/
namespace Xnbd.CtlDescriptors

open FdTable Places Run

section Model

/-- What a descriptor of the wrapper refers to. -/
inductive Owner where
  /-- The standard streams and what the main loop waits for. -/
  | wrapper
  /-- A client connection, by the number of clients accepted before it. -/
  | client (n : Nat)
  /-- The connection of a control thread. -/
  | control (k : Nat)
  /-- A control connection that no thread has been started for. Nobody closes it. -/
  | orphan
  /-- A file that a control thread has opened: an image that is added, the database file
  that is saved, `/dev/null`. -/
  | file (k : Nat)
  deriving DecidableEq

inductive Phase where
  | running
  /-- After `fclose(fp)`. -/
  | closing
  | done
  deriving DecidableEq

/-- A control thread, with its `conn_uxsock` and the descriptors of the files that it has
open now. -/
structure Thread where
  connUxsock : Nat
  files : List Nat
  phase : Phase
  deriving DecidableEq

structure State where
  table : Table Owner
  threads : List Thread
  /-- The clients accepted so far. -/
  clients : Nat
  /-- `conn_sockfd` while the main thread has it open. -/
  connSockfd : Option Nat
  /-- The closes at the end of the threads: the thread, and what the number referred to. -/
  closes : List (Nat × Option Owner)

inductive Act where
  | acceptControl
  /-- `g_try_new` or `pthread_create` fails. -/
  | acceptOrphan
  | acceptClient
  /-- The parent closes the connection of a client, after the fork or for the limit. -/
  | closeClient
  /-- `asprintf` fails, and the connection stays open. -/
  | dropClient
  | openFile (k : Nat)
  | closeFile (k : Nat)
  /-- `fclose(fp)`. -/
  | fclose (k : Nat)
  /-- `close(p_thread_data->conn_uxsock)`. -/
  | close (k : Nat)
  deriving DecidableEq

def step (s : State) : Act → Option State
  | .acceptControl =>
    if s.connSockfd = none then
      some { s with
        table := allocate s.table (.control s.threads.length)
        threads := s.threads ++ [⟨lowestFree s.table, [], .running⟩] }
    else none
  | .acceptOrphan =>
    if s.connSockfd = none then some { s with table := allocate s.table .orphan } else none
  | .acceptClient =>
    if s.connSockfd = none then
      some { s with
        table := allocate s.table (.client s.clients)
        clients := s.clients + 1
        connSockfd := some (lowestFree s.table) }
    else none
  | .closeClient =>
    s.connSockfd.map fun fd => { s with table := FdTable.close s.table fd, connSockfd := none }
  | .dropClient => s.connSockfd.map fun _ => { s with connSockfd := none }
  | .openFile k =>
    (s.threads[k]?).bind fun thread =>
      if thread.phase = .running then
        some { s with
          table := allocate s.table (.file k)
          threads := s.threads.set k { thread with files := lowestFree s.table :: thread.files } }
      else none
  | .closeFile k =>
    (s.threads[k]?).bind fun thread =>
      match thread.files with
      | [] => none
      | fd :: files =>
        some { s with
          table := FdTable.close s.table fd
          threads := s.threads.set k { thread with files } }
  | .fclose k =>
    (s.threads[k]?).bind fun thread =>
      if thread.phase = .running ∧ thread.files = [] then
        some { s with
          table := FdTable.close s.table thread.connUxsock
          threads := s.threads.set k { thread with phase := .closing }
          closes := s.closes ++ [(k, refers s.table thread.connUxsock)] }
      else none
  | .close k =>
    (s.threads[k]?).bind fun thread =>
      if thread.phase = .closing then
        some { s with
          table := FdTable.close s.table thread.connUxsock
          threads := s.threads.set k { thread with phase := .done }
          closes := s.closes ++ [(k, refers s.table thread.connUxsock)] }
      else none

/-- The wrapper before its first connection, with `n` descriptors of its own. -/
def start (n : Nat) : State := ⟨List.replicate n (some .wrapper), [], 0, none, []⟩

end Model

section Ownership

/-- The close was on the connection of the thread, or on a number that was free. -/
def Harmless (e : Nat × Option Owner) : Prop := e.2 = none ∨ e.2 = some (.control e.1)

instance (e : Nat × Option Owner) : Decidable (Harmless e) := inferInstanceAs (Decidable (_ ∨ _))

/-- The step makes a new descriptor. -/
def allocates : Act → Bool
  | .acceptControl | .acceptOrphan | .acceptClient | .openFile _ => true
  | _ => false

/-- A new descriptor does not get the number of a thread between its two closes. -/
def NotBetween (s : State) (a : Act) : Prop :=
  allocates a = true →
    ∀ thread ∈ s.threads, thread.phase = .closing → thread.connUxsock ≠ lowestFree s.table

instance (s : State) (a : Act) : Decidable (NotBetween s a) :=
  inferInstanceAs (Decidable (allocates a = true →
    ∀ thread ∈ s.threads, thread.phase = .closing → thread.connUxsock ≠ lowestFree s.table))

/-- What a thread knows about its descriptors. -/
structure Owns (table : Table Owner) (k : Nat) (thread : Thread) : Prop where
  running : thread.phase = .running → refers table thread.connUxsock = some (.control k)
  closing : thread.phase = .closing → refers table thread.connUxsock = none
  files : ∀ fd ∈ thread.files, refers table fd = some (.file k)
  nodup : thread.files.Nodup

/-- Every thread, and the main thread for its client, has the descriptors it has opened. -/
structure Owned (s : State) : Prop where
  threads : ∀ k thread, s.threads[k]? = some thread → Owns s.table k thread
  client : ∀ fd ∈ s.connSockfd, ∃ n, refers s.table fd = some (.client n)
  closes : ∀ e ∈ s.closes, Harmless e

variable {s t : State}

theorem owned_start (n : Nat) : Owned (start n) where
  threads := by simp [start]
  client := by simp [start]
  closes := by simp [start]

variable {table : Table Owner} {k : Nat} {thread : Thread}

/-- Another descriptor is allocated, not with the number of a thread between its closes. -/
theorem Owns.allocate (h : Owns table k thread) {owner : Owner}
    (hbetween : thread.phase = .closing → thread.connUxsock ≠ lowestFree table) :
    Owns (allocate table owner) k thread where
  running hphase := refers_allocate_used (h.running hphase) owner
  closing hphase := by
    rw [refers_allocate, if_neg (hbetween hphase)]
    exact h.closing hphase
  files fd hfd := refers_allocate_used (h.files fd hfd) owner
  nodup := h.nodup

/-- A descriptor of somebody else is closed. -/
theorem Owns.close (h : Owns table k thread) {fd : Nat} {owner : Owner}
    (hfd : refers table fd = some owner) (hcontrol : .control k ≠ owner) (hfile : .file k ≠ owner) :
    Owns (FdTable.close table fd) k thread where
  running hphase := refers_close_other hfd (h.running hphase) hcontrol
  closing hphase := by
    rw [refers_close]
    split
    · rfl
    · exact h.closing hphase
  files i hi := refers_close_other hfd (h.files i hi) hfile
  nodup := h.nodup

/-- The table gives the same answers. -/
theorem Owns.congr (h : Owns table k thread) {table' : Table Owner}
    (hsame : ∀ fd, refers table' fd = refers table fd) : Owns table' k thread where
  running hphase := by rw [hsame, h.running hphase]
  closing hphase := by rw [hsame, h.closing hphase]
  files fd hfd := by rw [hsame, h.files fd hfd]
  nodup := h.nodup

/-- A thread opens a file. -/
theorem Owns.openFile (h : Owns table k thread) (hphase : thread.phase = .running) :
    Owns (FdTable.allocate table (.file k)) k
      { thread with files := lowestFree table :: thread.files } where
  running _ := refers_allocate_used (h.running hphase) _
  closing hclosing := by
    rw [hphase] at hclosing
    cases hclosing
  files fd hfd := by
    cases List.mem_cons.mp hfd with
    | inl hnew => rw [hnew, refers_allocate, if_pos rfl]
    | inr hold => exact refers_allocate_used (h.files fd hold) _
  nodup := by
    apply List.nodup_cons.mpr
    constructor
    · intro hmem
      have hused := h.files _ hmem
      rw [refers_lowestFree] at hused
      cases hused
    · exact h.nodup

/-- A thread closes the file that it has opened last. -/
theorem Owns.closeFile (h : Owns table k thread) {fd : Nat} {files : List Nat}
    (hfiles : thread.files = fd :: files) :
    Owns (FdTable.close table fd) k { thread with files } := by
  have hnodup := h.nodup
  rw [hfiles] at hnodup
  obtain ⟨hfd, hrest⟩ := List.nodup_cons.mp hnodup
  have hfile : refers table fd = some (.file k) := h.files fd (by rw [hfiles]; exact List.mem_cons_self)
  constructor
  · intro hphase
    exact refers_close_other hfile (h.running hphase) (by simp)
  · intro hphase
    rw [refers_close]
    split
    · rfl
    · exact h.closing hphase
  · intro i hi
    have hne : i ≠ fd := fun heq => hfd (heq ▸ hi)
    rw [refers_close, if_neg hne]
    exact h.files i (by rw [hfiles]; exact List.mem_cons_of_mem _ hi)
  · exact hrest

/-- A new connection. -/
theorem owns_accept (table : Table Owner) (k : Nat) :
    Owns (FdTable.allocate table (.control k)) k ⟨lowestFree table, [], .running⟩ where
  running _ := by rw [refers_allocate, if_pos rfl]
  closing hclosing := by cases hclosing
  files fd hfd := by cases hfd
  nodup := List.nodup_nil

/-- The close inside `fclose(fp)`. -/
theorem Owns.fclose (h : Owns table k thread) (hfiles : thread.files = []) :
    Owns (FdTable.close table thread.connUxsock) k { thread with phase := .closing } where
  running hrunning := by cases hrunning
  closing _ := by rw [refers_close, if_pos rfl]
  files fd hfd := by
    rw [hfiles] at hfd
    cases hfd
  nodup := h.nodup

/-- The second close finds the number free. -/
theorem Owns.closeAgain (h : Owns table k thread) (hphase : thread.phase = .closing) :
    Owns (FdTable.close table thread.connUxsock) k { thread with phase := .done } where
  running hrunning := by cases hrunning
  closing hclosing := by cases hclosing
  files fd hfd := by
    rw [refers_close_free (h.closing hphase)]
    exact h.files fd hfd
  nodup := h.nodup

/-- The client that the main thread holds is not touched when something else is closed. -/
theorem Owned.client_close (h : Owned s) {fd : Nat} {owner : Owner}
    (hfd : refers s.table fd = some owner) (hne : ∀ n, .client n ≠ owner) :
    ∀ i ∈ s.connSockfd, ∃ n, refers (FdTable.close s.table fd) i = some (.client n) := by
  intro i hi
  obtain ⟨n, hclient⟩ := h.client i hi
  exact ⟨n, refers_close_other hfd hclient (hne n)⟩

/-- Something is allocated, not with the number of a thread between its closes. -/
theorem Owned.allocate (h : Owned s) {a : Act} (hn : NotBetween s a) (ha : allocates a = true)
    {owner : Owner} {j : Nat} {other : Thread} (hj : s.threads[j]? = some other) :
    Owns (FdTable.allocate s.table owner) j other :=
  (h.threads j other hj).allocate (hn ha other (List.mem_of_getElem? hj))

/-- A client that the main thread holds is still there after an allocation. -/
theorem Owned.client_allocate (h : Owned s) (owner : Owner) :
    ∀ fd ∈ s.connSockfd, ∃ n, refers (FdTable.allocate s.table owner) fd = some (.client n) := by
  intro fd hfd
  obtain ⟨n, hclient⟩ := h.client fd hfd
  exact ⟨n, refers_allocate_used hclient _⟩

theorem Owned.acceptControl (h : Owned s) (hn : NotBetween s .acceptControl) :
    Owned { s with
      table := FdTable.allocate s.table (.control s.threads.length)
      threads := s.threads ++ [⟨lowestFree s.table, [], .running⟩] } where
  threads := by
    apply forall_append
    · intro j other hj
      exact h.allocate hn rfl hj
    · exact owns_accept s.table s.threads.length
  client := h.client_allocate _
  closes := h.closes

theorem Owned.acceptOrphan (h : Owned s) (hn : NotBetween s .acceptOrphan) :
    Owned { s with table := FdTable.allocate s.table .orphan } where
  threads _ _ hj := h.allocate hn rfl hj
  client := h.client_allocate _
  closes := h.closes

theorem Owned.acceptClient (h : Owned s) (hn : NotBetween s .acceptClient) :
    Owned { s with
      table := FdTable.allocate s.table (.client s.clients)
      clients := s.clients + 1
      connSockfd := some (lowestFree s.table) } where
  threads _ _ hj := h.allocate hn rfl hj
  client := by
    intro fd hfd
    cases hfd
    exact ⟨s.clients, by rw [refers_allocate, if_pos rfl]⟩
  closes := h.closes

theorem Owned.closeClient (h : Owned s) {fd : Nat} (hfd : s.connSockfd = some fd) :
    Owned { s with table := FdTable.close s.table fd, connSockfd := none } where
  threads := by
    obtain ⟨n, hclient⟩ := h.client fd hfd
    intro j other hj
    exact (h.threads j other hj).close hclient (by simp) (by simp)
  client := by simp
  closes := h.closes

theorem Owned.openFile (h : Owned s) (hn : NotBetween s (.openFile k))
    (hat : s.threads[k]? = some thread) (hrunning : thread.phase = .running) :
    Owned { s with
      table := FdTable.allocate s.table (.file k)
      threads := s.threads.set k { thread with files := lowestFree s.table :: thread.files } } where
  threads := by
    apply forall_set
    · intro j other hj _
      exact h.allocate hn rfl hj
    · exact (h.threads k thread hat).openFile hrunning
  client := h.client_allocate _
  closes := h.closes

theorem Owned.closeFile (h : Owned s) (hat : s.threads[k]? = some thread) {fd : Nat}
    {files : List Nat} (hfiles : thread.files = fd :: files) :
    Owned { s with
      table := FdTable.close s.table fd
      threads := s.threads.set k { thread with files } } := by
  have hfile : refers s.table fd = some (.file k) :=
    (h.threads k thread hat).files fd (by rw [hfiles]; exact List.mem_cons_self)
  constructor
  · apply forall_set
    · intro j other hj hne
      exact (h.threads j other hj).close hfile (by simp) (by simpa using hne)
    · exact (h.threads k thread hat).closeFile hfiles
  · exact h.client_close hfile (by simp)
  · exact h.closes

/-- The first close is on the connection of the thread. -/
theorem Owned.fclose (h : Owned s) (hat : s.threads[k]? = some thread)
    (hrunning : thread.phase = .running) (hfiles : thread.files = []) :
    Owned { s with
      table := FdTable.close s.table thread.connUxsock
      threads := s.threads.set k { thread with phase := .closing }
      closes := s.closes ++ [(k, refers s.table thread.connUxsock)] } := by
  have howns := (h.threads k thread hat).running hrunning
  constructor
  · apply forall_set
    · intro j other hj hne
      exact (h.threads j other hj).close howns (by simpa using hne) (by simp)
    · exact (h.threads k thread hat).fclose hfiles
  · exact h.client_close howns (by simp)
  · rw [List.forall_mem_append, List.forall_mem_singleton]
    exact ⟨h.closes, .inr howns⟩

/-- The second close is on a number that is free. -/
theorem Owned.close (h : Owned s) (hat : s.threads[k]? = some thread)
    (hclosing : thread.phase = .closing) :
    Owned { s with
      table := FdTable.close s.table thread.connUxsock
      threads := s.threads.set k { thread with phase := .done }
      closes := s.closes ++ [(k, refers s.table thread.connUxsock)] } := by
  have hfree := (h.threads k thread hat).closing hclosing
  constructor
  · apply forall_set
    · intro j other hj _
      exact (h.threads j other hj).congr (refers_close_free hfree)
    · exact (h.threads k thread hat).closeAgain hclosing
  · intro i hi
    obtain ⟨n, hclient⟩ := h.client i hi
    exact ⟨n, by rw [refers_close_free hfree, hclient]⟩
  · rw [List.forall_mem_append, List.forall_mem_singleton]
    exact ⟨h.closes, .inl hfree⟩

theorem step_owned {a : Act} (h : Owned s) (hn : NotBetween s a) (hs : step s a = some t) :
    Owned t := by
  cases a with
  | acceptControl =>
    simp only [step] at hs
    split at hs <;> cases hs
    exact h.acceptControl hn
  | acceptOrphan =>
    simp only [step] at hs
    split at hs <;> cases hs
    exact h.acceptOrphan hn
  | acceptClient =>
    simp only [step] at hs
    split at hs <;> cases hs
    exact h.acceptClient hn
  | closeClient =>
    obtain ⟨fd, hfd, rfl⟩ := Option.map_eq_some_iff.mp hs
    exact h.closeClient hfd
  | dropClient =>
    obtain ⟨fd, hfd, rfl⟩ := Option.map_eq_some_iff.mp hs
    exact ⟨h.threads, by simp, h.closes⟩
  | openFile k =>
    simp only [step, Option.bind_eq_some_iff] at hs
    obtain ⟨thread, hat, hs⟩ := hs
    split at hs <;> cases hs
    exact h.openFile hn hat (by assumption)
  | closeFile k =>
    simp only [step, Option.bind_eq_some_iff] at hs
    obtain ⟨thread, hat, hs⟩ := hs
    split at hs <;> cases hs
    exact h.closeFile hat (by assumption)
  | fclose k =>
    simp only [step, Option.bind_eq_some_iff] at hs
    obtain ⟨thread, hat, hs⟩ := hs
    split at hs
    · rename_i hend
      cases hs
      exact h.fclose hat hend.1 hend.2
    · cases hs
  | close k =>
    simp only [step, Option.bind_eq_some_iff] at hs
    obtain ⟨thread, hat, hs⟩ := hs
    split at hs <;> cases hs
    exact h.close hat (by assumption)

/-- A thread between its closes whose number is given to another descriptor. -/
theorem close_hits {k : Nat} {thread : Thread} (hat : t.threads[k]? = some thread)
    (hphase : thread.phase = .closing) (owner : Owner)
    (howner : refers t.table thread.connUxsock = some owner) (hne : owner ≠ .control k) :
    ∃ u, step t (.close k) = some u ∧ ∃ e ∈ u.closes, ¬ Harmless e := by
  have hharm : ¬ Harmless (k, refers t.table thread.connUxsock) := by
    rw [howner]
    rintro (hnone | hown)
    · cases hnone
    · exact hne (Option.some.inj hown)
  have hstep : step t (.close k) = some { t with
      table := FdTable.close t.table thread.connUxsock
      threads := t.threads.set k { thread with phase := .done }
      closes := t.closes ++ [(k, refers t.table thread.connUxsock)] } := by
    simp [step, hat, hphase]
  exact ⟨_, hstep, _, List.mem_append_right _ (List.mem_singleton.mpr rfl), hharm⟩

/-- An allocation between the closes leaves the second close with what was allocated. -/
theorem allocation_hits {a : Act} (hs : step s a = some t) (hnot : ¬ NotBetween s a) :
    ∃ k u, step t (.close k) = some u ∧ ∃ e ∈ u.closes, ¬ Harmless e := by
  simp only [NotBetween, not_forall, not_not, exists_prop] at hnot
  obtain ⟨hallocates, thread, hmem, hphase, hfd⟩ := hnot
  obtain ⟨k, hat⟩ := List.mem_iff_getElem?.mp hmem
  have hk := (List.getElem?_eq_some_iff.mp hat).1
  cases a with
  | acceptControl =>
    simp only [step] at hs
    split at hs
    · cases hs
      have hstill : (s.threads ++ [⟨lowestFree s.table, [], .running⟩])[k]? = some thread := by
        rw [List.getElem?_append_left hk, hat]
      exact ⟨k, close_hits hstill hphase (.control s.threads.length)
        (by rw [hfd, refers_allocate, if_pos rfl]) (by simp; omega)⟩
    · cases hs
  | acceptOrphan =>
    simp only [step] at hs
    split at hs
    · cases hs
      exact ⟨k, close_hits hat hphase .orphan (by rw [hfd, refers_allocate, if_pos rfl]) (by simp)⟩
    · cases hs
  | acceptClient =>
    simp only [step] at hs
    split at hs
    · cases hs
      exact ⟨k, close_hits hat hphase (.client s.clients)
        (by rw [hfd, refers_allocate, if_pos rfl]) (by simp)⟩
    · cases hs
  | openFile j =>
    simp only [step, Option.bind_eq_some_iff] at hs
    obtain ⟨other, hj, hs⟩ := hs
    split at hs
    · rename_i hrunning
      cases hs
      have hne : j ≠ k := by
        rintro rfl
        rw [hat] at hj
        cases hj
        rw [hphase] at hrunning
        cases hrunning
      have hstill : (s.threads.set j { other with files := lowestFree s.table :: other.files })[k]? =
          some thread := by
        rw [List.getElem?_set_ne hne, hat]
      exact ⟨k, close_hits hstill hphase (.file j)
        (by rw [hfd, refers_allocate, if_pos rfl]) (by simp)⟩
    · cases hs
  | closeClient | dropClient | closeFile _ | fclose _ | close _ => cases hallocates

end Ownership

theorem closes_own_descriptor (n : Nat) :
    (∀ acts s, run step (start n) acts = some s → Along step NotBetween (start n) acts →
      ∀ e ∈ s.closes, Harmless e) ∧
    ∀ s a t, step s a = some t → ¬ NotBetween s a →
      ∃ k u, step t (.close k) = some u ∧ ∃ e ∈ u.closes, ¬ Harmless e := by
  constructor
  · intro acts s hrun hbetween
    exact (run_invariant (fun _ _ _ h hn hs => step_owned h hn hs) (owned_start n) hbetween
      hrun).closes
  · intro s a t hs hnot
    exact allocation_hits hs hnot

/-- A control connection saves the database and ends, and then a client comes. -/
def saveAndQuit : List Act :=
  [.acceptControl, .openFile 0, .openFile 0, .closeFile 0, .closeFile 0, .fclose 0, .close 0,
    .acceptClient, .closeClient]

theorem closes_own_descriptor_save :
    ∃ s, run step (start 7) saveAndQuit = some s ∧ s.closes = [(0, some (.control 0)), (0, none)] ∧
      ∀ e ∈ s.closes, Harmless e :=
  ⟨_, rfl, rfl, (closes_own_descriptor 7).1 saveAndQuit _ rfl (by decide)⟩

/-- A client comes between the two closes of a control thread. -/
theorem close_of_client :
    ∃ s, run step (start 7) [.acceptControl, .fclose 0, .acceptClient, .close 0] = some s ∧
      s.connSockfd = some 7 ∧ refers s.table 7 = none ∧ ∃ e ∈ s.closes, ¬ Harmless e :=
  ⟨_, rfl, rfl, rfl, (0, some (.client 0)), by decide, by decide⟩

end Xnbd.CtlDescriptors
