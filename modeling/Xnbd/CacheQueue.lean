import Xnbd.CacheAll
import Xnbd.SizedQueue

/-!
# The sender and the receiver of `--cache-all` (`xnbd_bgctl.c`)

`cache_all_blocks_async` pushes a token for every block to a bounded queue, after the
request for it, and its receiving thread pops the tokens and waits for the replies of
the proxy.
-/
namespace Xnbd.CacheQueue

open Run Monitor SizedQueue

section System

open CacheAll

/-- What the loops of the sender do: send a request, or push a token. -/
inductive Work where
  | send
  | push (token : Token)
  deriving DecidableEq

/-- A request is sent right before its first token is pushed. -/
def workOf : List Token → List Work
  | [] => []
  | .remoteFirst :: rest => .send :: .push .remoteFirst :: workOf rest
  | token :: rest => .push token :: workOf rest

/-- `XNBD_BGCTL_DEFAULT_ASYNC_DEPTH`. -/
def asyncDepth : Nat := 1000

/-- Where `cache_all_blocks_receiver_main` is. -/
inductive Receiver where
  | idle
  | popping
  | got (token : Token)
  | finished
  deriving DecidableEq

/-- The sender is thread 0 of the queue, the receiver thread 1. `sent` counts the requests on
the control connection and `replied` the replies of the proxy to them. -/
structure System where
  queue : Monitor.State (SizedAsyncQueue Token) (Op Token) (Option Token)
  program : List Work
  sent : Nat
  replied : Nat
  receiver : Receiver
  received : List Token
  deriving DecidableEq

inductive Event where
  | request
  | push
  /-- A step inside `sized_async_queue_push` or `sized_async_queue_pop`. -/
  | inside (a : Action (Op Token))
  | reply
  | pop
  | popped
  | receive
  deriving DecidableEq

/-- The progress of the receiver. -/
def System.progress (s : System) : Received := s.received.foldl CacheAll.receive ⟨0, 0, 0⟩

def System.phase (s : System) (t : Nat) : Option (Phase (Op Token) (Option Token)) :=
  s.queue.threads[t]?

def inside : Action (Op Token) → Bool
  | .call _ _ => false
  | .unlock t => t = 0
  | _ => true

def advance (s : System) : Event → Option System
  | .request =>
    match s.program, s.phase 0 with
    | .send :: rest, some .outside => some { s with program := rest, sent := s.sent + 1 }
    | _, _ => none
  | .push =>
    match s.program with
    | .push token :: rest =>
      (Monitor.step (sizedAsyncQueue Token) s.queue (.call 0 (.push token))).map fun queue =>
        { s with queue := queue, program := rest }
    | _ => none
  | .inside a =>
    if inside a then
      (Monitor.step (sizedAsyncQueue Token) s.queue a).map fun queue => { s with queue := queue }
    else none
  | .reply => if s.replied < s.sent then some { s with replied := s.replied + 1 } else none
  | .pop =>
    if s.receiver = .idle then
      (Monitor.step (sizedAsyncQueue Token) s.queue (.call 1 .pop)).map fun queue =>
        { s with queue := queue, receiver := .popping }
    else none
  | .popped =>
    match s.phase 1 with
    | some (.unlocking .pop (some token)) =>
      (Monitor.step (sizedAsyncQueue Token) s.queue (.unlock 1)).map fun queue =>
        { s with queue := queue, receiver := .got token }
    | _ => none
  | .receive =>
    match s.receiver with
    | .got .eof => some { s with receiver := .finished }
    | .got token =>
      -- `nbd_client_recv_reply_header` waits for a reply
      if token = .remoteFirst → s.progress.replies < s.replied then
        some { s with receiver := .idle, received := s.received ++ [token] }
      else none
    | _ => none

/-- `cache_all_blocks_async` behind `pthread_create_or_abort`, for the tokens of its loops. -/
def start (tokens : List Token) : System where
  queue := initial (sizedAsyncQueueNew asyncDepth) 2
  program := workOf tokens ++ [.push .eof]
  sent := 0
  replied := 0
  receiver := .idle
  received := []

end System

section Safety

open CacheAll

/-- The tokens that are still to be pushed. -/
def pushes (program : List Work) : List Token :=
  program.filterMap fun
    | .send => none
    | .push token => some token

/-- The token of a push that has not taken effect. -/
def inHand : Status (Op Token) (Option Token) → List Token
  | .called (.push token) => [token]
  | _ => []

/-- The token of a pop that has taken effect and has not returned. -/
def handed : Status (Op Token) (Option Token) → List Token
  | .done .pop result => result.toList
  | _ => []

def Receiver.tokens : Receiver → List Token
  | .got token => [token]
  | .finished => [.eof]
  | _ => []

/-- Every request comes before its first token. -/
def Paired (program : List Work) : Prop :=
  ∀ rest, rest <:+ program → rest.count .send ≤ (pushes rest).count .remoteFirst

/-- Each request is sent once, replied to at most once, and each reply is received at most
once. -/
structure Counts (tokens : List Token) (program : List Work) (sent replied : Nat)
    (received : List Token) : Prop where
  paired : Paired program
  sent_eq : sent + program.count .send = tokens.count .remoteFirst
  replied_le : replied ≤ sent
  replies_le : received.count .remoteFirst ≤ replied
  noEof : .eof ∉ received

/-- What holds between the steps of the sender, the receiver and the proxy. -/
structure Holds (tokens : List Token) (s : System) (tx rx : Status (Op Token) (Option Token)) :
    Prop where
  queue : Invariant asyncDepth s.queue
  calls : (atomic s.queue).calls = [tx, rx]
  sender : tx = .out ∨ (∃ token, tx = .called (.push token)) ∨
    ∃ token result, tx = .done (.push token) result
  popping : s.receiver = .popping → rx = .called .pop ∨ ∃ token, rx = .done .pop (some token)
  resting : s.receiver ≠ .popping → rx = .out
  sends : pushed s.queue.log ++ inHand tx ++ pushes s.program = tokens ++ [.eof]
  takes : popped s.queue.log = s.received ++ s.receiver.tokens ++ handed rx
  counts : Counts tokens s.program s.sent s.replied s.received

theorem pushes_workOf (tokens : List Token) :
    pushes (workOf tokens ++ [Work.push .eof]) = tokens ++ [.eof] := by
  induction tokens with
  | nil => rfl
  | cons token rest ih =>
    cases token <;>
    · simp only [workOf, List.cons_append, pushes, List.filterMap_cons] at ih ⊢
      rw [ih]

theorem count_workOf (tokens : List Token) :
    (workOf tokens ++ [Work.push .eof]).count Work.send = tokens.count .remoteFirst := by
  induction tokens with
  | nil => rfl
  | cons token rest ih =>
    cases token <;> simpa [workOf, List.count_cons] using ih

theorem paired_push {program : List Work} {token : Token} (h : Paired program) :
    Paired (.push token :: program) := by
  intro rest hrest
  rcases List.suffix_cons_iff.mp hrest with rfl | hrest
  · have hle := h program List.suffix_rfl
    simp only [pushes, List.filterMap_cons, List.count_cons] at hle ⊢
    simp only [reduceCtorEq, beq_iff_eq, if_false]
    omega
  · exact h rest hrest

theorem paired_request {program : List Work} (h : Paired program) :
    Paired (.send :: .push .remoteFirst :: program) := by
  intro rest hrest
  rcases List.suffix_cons_iff.mp hrest with rfl | hrest
  · have hle := h program List.suffix_rfl
    simp only [pushes, List.filterMap_cons, List.count_cons] at hle ⊢
    simp only [reduceCtorEq, beq_iff_eq, if_false, if_true]
    omega
  · exact paired_push h rest hrest

theorem paired_workOf (tokens : List Token) : Paired (workOf tokens ++ [Work.push .eof]) := by
  induction tokens with
  | nil => exact paired_push fun rest hrest => by simp [List.suffix_nil.mp hrest, pushes]
  | cons token rest ih =>
    cases token with
    | remoteFirst => exact paired_request ih
    | eof => exact paired_push ih
    | remoteLater => exact paired_push ih
    | cached => exact paired_push ih

theorem start_holds (tokens : List Token) : Holds tokens (start tokens) .out .out where
  queue := initial_invariant (by decide) 2
  calls := rfl
  sender := .inl rfl
  popping := fun h => by cases h
  resting := fun _ => rfl
  sends := pushes_workOf tokens
  takes := rfl
  counts :=
    ⟨paired_workOf tokens, (Nat.zero_add _).trans (count_workOf tokens), Nat.le_refl _,
      Nat.le_refl _, List.not_mem_nil⟩

variable {tokens : List Token} {s : System} {tx rx : Status (Op Token) (Option Token)}
  {queue : Monitor.State (SizedAsyncQueue Token) (Op Token) (Option Token)}

/-- The two threads in the queue, once one of them has changed. -/
theorem Holds.calls_set (hs : Holds tokens s tx rx) (t : Nat)
    (new : Status (Op Token) (Option Token)) (h : (atomic queue).calls =
      (atomic s.queue).calls.set t new) :
    t = 0 ∧ (atomic queue).calls = [new, rx] ∨ t = 1 ∧ (atomic queue).calls = [tx, new] ∨
      (atomic s.queue).calls[t]? = none := by
  rw [hs.calls] at h ⊢
  match t with
  | 0 => exact .inl ⟨rfl, h⟩
  | 1 => exact .inr (.inl ⟨rfl, h⟩)
  | t + 2 => exact .inr (.inr rfl)

/-- A push takes effect. -/
theorem Holds.push_done (hs : Holds tokens s tx rx) {token : Token} {result : Option Token}
    (htx : tx = .called (.push token)) (hqueue : Invariant asyncDepth queue)
    (hcalls : (atomic queue).calls = [.done (.push token) result, rx])
    (hlog : queue.log = s.queue.log ++ [(.push token, result)]) :
    Holds tokens { s with queue := queue } (.done (.push token) result) rx where
  queue := hqueue
  calls := hcalls
  sender := .inr (.inr ⟨token, result, rfl⟩)
  popping := hs.popping
  resting := hs.resting
  sends := by
    have hsends := hs.sends
    rw [htx] at hsends
    show pushed queue.log ++ [] ++ _ = _
    rw [hlog, pushed_push, List.append_nil]
    exact hsends
  takes := by
    show popped queue.log = _
    rw [hlog, popped_push]
    exact hs.takes
  counts := hs.counts

/-- A pop takes effect. -/
theorem Holds.pop_done (hs : Holds tokens s tx rx) {token : Token}
    (hrx : rx = .called .pop) (hqueue : Invariant asyncDepth queue)
    (hcalls : (atomic queue).calls = [tx, .done .pop (some token)])
    (hlog : queue.log = s.queue.log ++ [(.pop, some token)]) :
    Holds tokens { s with queue := queue } tx (.done .pop (some token)) where
  queue := hqueue
  calls := hcalls
  sender := hs.sender
  popping := fun _ => .inr ⟨token, rfl⟩
  resting := by
    intro hne
    have hout := hs.resting hne
    rw [hrx] at hout
    cases hout
  sends := by
    show pushed queue.log ++ _ ++ _ = _
    rw [hlog, pushed_pop]
    exact hs.sends
  takes := by
    have htakes := hs.takes
    rw [hrx] at htakes
    show popped queue.log = _ ++ [token]
    rw [hlog, popped_pop, htakes]
    simp [handed]
  counts := hs.counts

/-- A step that changes nothing but where the two threads are. -/
theorem Holds.quiet (hs : Holds tokens s tx rx) (hqueue : Invariant asyncDepth queue)
    (h : atomic queue = atomic s.queue) : Holds tokens { s with queue := queue } tx rx where
  queue := hqueue
  calls := (congrArg Atomic.calls h).trans hs.calls
  sender := hs.sender
  popping := hs.popping
  resting := hs.resting
  sends := by
    show pushed (atomic queue).log ++ _ ++ _ = _
    rw [h]
    exact hs.sends
  takes := by
    show popped (atomic queue).log = _
    rw [h]
    exact hs.takes
  counts := hs.counts

/-- A push returns. -/
theorem Holds.push_returned (hs : Holds tokens s tx rx) (hqueue : Invariant asyncDepth queue)
    {op : Op Token} {result : Option Token} (htx : tx = .done op result)
    (hcalls : (atomic queue).calls = [.out, rx]) (hlog : queue.log = s.queue.log) :
    Holds tokens { s with queue := queue } .out rx where
  queue := hqueue
  calls := hcalls
  sender := .inl rfl
  popping := hs.popping
  resting := hs.resting
  sends := by
    have hsends := hs.sends
    rw [htx] at hsends
    show pushed queue.log ++ [] ++ _ = _
    rw [hlog]
    exact hsends
  takes := by
    show popped queue.log = _
    rw [hlog]
    exact hs.takes
  counts := hs.counts

theorem Holds.op_sender (hs : Holds tokens s tx rx) {op : Op Token} (htx : tx = .called op) :
    ∃ token, op = .push token := by
  rcases hs.sender with h | ⟨token, h⟩ | ⟨token, result, h⟩ <;> rw [htx] at h <;> cases h
  exact ⟨token, rfl⟩

theorem Holds.op_receiver (hs : Holds tokens s tx rx) {op : Op Token} (hrx : rx = .called op) :
    op = .pop := by
  by_cases hpop : s.receiver = .popping
  · rcases hs.popping hpop with h | ⟨token, h⟩ <;> rw [hrx] at h <;> cases h
    rfl
  · have hout := hs.resting hpop
    rw [hrx] at hout
    cases hout

/-- A step of one of the threads inside the queue. -/
theorem inside_holds (hs : Holds tokens s tx rx) {a : Action (Op Token)} (hin : inside a = true)
    (h : Monitor.step (sizedAsyncQueue Token) s.queue a = some queue) :
    ∃ tx rx, Holds tokens { s with queue := queue } tx rx := by
  have hqueue := step_queue hs.queue h
  have hmove := step_atomic h
  generalize hafter : atomic queue = after at hmove
  cases hmove with
  | call _ => cases hin
  | lock => exact ⟨tx, rx, hs.quiet hqueue hafter⟩
  | wait => exact ⟨tx, rx, hs.quiet hqueue hafter⟩
  | spurious => exact ⟨tx, rx, hs.quiet hqueue hafter⟩
  | @pass t op waked ht hready =>
    have hcalls := congrArg Atomic.calls hafter
    have hlog := congrArg Atomic.log hafter
    rcases hs.calls_set t _ hcalls with ⟨rfl, hboth⟩ | ⟨rfl, hboth⟩ | hnone
    · have htx : tx = .called op := by simpa [hs.calls] using ht
      obtain ⟨token, rfl⟩ := hs.op_sender htx
      exact ⟨_, rx, hs.push_done htx hqueue hboth hlog⟩
    · have hrx : rx = .called op := by simpa [hs.calls] using ht
      obtain rfl := hs.op_receiver hrx
      have hsome := ready_pop.mp hready
      have hresult : ((sizedAsyncQueue Token).body .pop (atomic s.queue).shared).result =
          some ((atomic s.queue).shared.queue.getLast hsome) :=
        List.getLast?_eq_some_getLast hsome
      rw [hresult] at hboth hlog
      exact ⟨tx, _, hs.pop_done hrx hqueue hboth hlog⟩
    · rw [hnone] at ht
      cases ht
  | @unlock t op result ht =>
    have hcalls := congrArg Atomic.calls hafter
    have hlog := congrArg Atomic.log hafter
    have hzero : t = 0 := by simpa [inside] using hin
    subst hzero
    rw [hs.calls] at ht hcalls
    have htx : tx = .done op result := by simpa using ht
    exact ⟨.out, rx, hs.push_returned hqueue htx hcalls hlog⟩

theorem Paired.tail {program : List Work} {work : Work} (h : Paired (work :: program)) :
    Paired program :=
  fun rest hrest => h rest (hrest.trans (List.suffix_cons _ _))

/-- The sender sends a request. -/
theorem Holds.request (hs : Holds tokens s tx rx) {rest : List Work}
    (hprogram : s.program = .send :: rest) :
    Holds tokens { s with program := rest, sent := s.sent + 1 } tx rx where
  queue := hs.queue
  calls := hs.calls
  sender := hs.sender
  popping := hs.popping
  resting := hs.resting
  sends := by
    have hsends := hs.sends
    rw [hprogram] at hsends
    exact hsends
  takes := hs.takes
  counts := by
    have hcounts := hs.counts
    rw [hprogram] at hcounts
    refine ⟨hcounts.paired.tail, ?_, Nat.le_succ_of_le hcounts.replied_le, hcounts.replies_le,
      hcounts.noEof⟩
    have hsent := hcounts.sent_eq
    rw [List.count_cons_self] at hsent
    show s.sent + 1 + rest.count .send = _
    omega

/-- The sender calls `sized_async_queue_push`. -/
theorem Holds.push (hs : Holds tokens s tx rx) {rest : List Work} {token : Token}
    (hprogram : s.program = .push token :: rest)
    (h : Monitor.step (sizedAsyncQueue Token) s.queue (.call 0 (.push token)) = some queue) :
    Holds tokens { s with queue := queue, program := rest } (.called (.push token)) rx := by
  have hqueue := step_queue hs.queue h
  have hmove := step_atomic h
  generalize hafter : atomic queue = after at hmove
  cases hmove with
  | call ht =>
    have hcalls := congrArg Atomic.calls hafter
    have hlog : queue.log = s.queue.log := congrArg Atomic.log hafter
    rw [hs.calls] at ht hcalls
    have htx : tx = .out := by simpa using ht
    refine ⟨hqueue, hcalls, .inr (.inl ⟨token, rfl⟩), hs.popping, hs.resting, ?_, ?_, ?_⟩
    · have hsends := hs.sends
      rw [htx, hprogram] at hsends
      show pushed queue.log ++ [token] ++ pushes rest = _
      rw [hlog, ← hsends]
      simp [inHand, pushes]
    · show popped queue.log = _
      rw [hlog]
      exact hs.takes
    · have hcounts := hs.counts
      rw [hprogram] at hcounts
      refine ⟨hcounts.paired.tail, ?_, hcounts.replied_le, hcounts.replies_le, hcounts.noEof⟩
      have hsent := hcounts.sent_eq
      rw [List.count_cons_of_ne (by simp)] at hsent
      exact hsent

/-- The receiver calls `sized_async_queue_pop`. -/
theorem Holds.pop (hs : Holds tokens s tx rx) (hidle : s.receiver = .idle)
    (h : Monitor.step (sizedAsyncQueue Token) s.queue (.call 1 .pop) = some queue) :
    Holds tokens { s with queue := queue, receiver := .popping } tx (.called .pop) := by
  have hqueue := step_queue hs.queue h
  have hmove := step_atomic h
  generalize hafter : atomic queue = after at hmove
  cases hmove with
  | call ht =>
    have hcalls := congrArg Atomic.calls hafter
    have hlog : queue.log = s.queue.log := congrArg Atomic.log hafter
    rw [hs.calls] at ht hcalls
    have hrx : rx = .out := by simpa using ht
    refine ⟨hqueue, hcalls, hs.sender, fun _ => .inl rfl, fun hne => absurd rfl hne, ?_, ?_,
      hs.counts⟩
    · show pushed queue.log ++ _ ++ _ = _
      rw [hlog]
      exact hs.sends
    · have htakes := hs.takes
      rw [hidle, hrx] at htakes
      show popped queue.log = _
      rw [hlog, htakes]
      rfl

/-- `sized_async_queue_pop` returns. -/
theorem Holds.popped (hs : Holds tokens s tx rx) {token : Token}
    (hphase : s.phase 1 = some (.unlocking .pop (some token)))
    (h : Monitor.step (sizedAsyncQueue Token) s.queue (.unlock 1) = some queue) :
    Holds tokens { s with queue := queue, receiver := .got token } tx .out := by
  have hqueue := step_queue hs.queue h
  have hmove := step_atomic h
  generalize hafter : atomic queue = after at hmove
  cases hmove with
  | @unlock _ op result ht =>
    have hcalls := congrArg Atomic.calls hafter
    have hlog : queue.log = s.queue.log := congrArg Atomic.log hafter
    have hdone := map_status_get hphase
    have hrx : rx = .done .pop (some token) := by
      have hget : (atomic s.queue).calls[1]? = some (.done .pop (some token)) := hdone
      rw [hs.calls] at hget
      simpa using hget
    have hpopping : s.receiver = .popping := by
      by_contra hne
      have hout := hs.resting hne
      rw [hrx] at hout
      cases hout
    rw [hs.calls] at hcalls
    refine ⟨hqueue, hcalls, hs.sender, fun hpop => (by cases hpop), fun _ => rfl, ?_, ?_,
      hs.counts⟩
    · show pushed queue.log ++ _ ++ _ = _
      rw [hlog]
      exact hs.sends
    · have htakes := hs.takes
      rw [hpopping, hrx] at htakes
      show SizedQueue.popped queue.log = _
      rw [hlog, htakes]
      simp [handed, Receiver.tokens]

/-- The progress of the receiver counts what it has received. -/
theorem Holds.replies (hs : Holds tokens s tx rx) :
    s.progress.replies = s.received.count .remoteFirst := by
  rw [System.progress, receive_counts _ _ hs.counts.noEof]
  exact Nat.zero_add _

/-- The receiver deals with a token. -/
theorem Holds.receive (hs : Holds tokens s tx rx) {token : Token}
    (hgot : s.receiver = .got token) (hne : token ≠ .eof)
    (hreply : token = .remoteFirst → s.progress.replies < s.replied) :
    Holds tokens { s with receiver := .idle, received := s.received ++ [token] } tx rx where
  queue := hs.queue
  calls := hs.calls
  sender := hs.sender
  popping := fun h => by cases h
  resting := fun _ => hs.resting (by rw [hgot]; simp)
  sends := hs.sends
  takes := by
    rw [hs.takes, hgot]
    simp [Receiver.tokens]
  counts := by
    refine ⟨hs.counts.paired, hs.counts.sent_eq, hs.counts.replied_le, ?_, ?_⟩
    · rw [List.count_append]
      by_cases hfirst : token = .remoteFirst
      · have hlt := hreply hfirst
        rw [hs.replies] at hlt
        rw [hfirst, List.count_singleton_self]
        exact hlt
      · rw [List.count_singleton, if_neg (by simpa using hfirst)]
        exact hs.counts.replies_le
    · rw [List.mem_append, List.mem_singleton]
      rintro (hmem | heof)
      · exact hs.counts.noEof hmem
      · exact hne heof.symm

/-- The receiver is told that everything has been pushed. -/
theorem Holds.finish (hs : Holds tokens s tx rx) (hgot : s.receiver = .got .eof) :
    Holds tokens { s with receiver := .finished } tx rx where
  queue := hs.queue
  calls := hs.calls
  sender := hs.sender
  popping := fun h => by cases h
  resting := fun _ => hs.resting (by rw [hgot]; simp)
  sends := hs.sends
  takes := by
    rw [hs.takes, hgot]
    rfl
  counts := hs.counts

theorem advance_holds {s' : System} {e : Event} (hs : Holds tokens s tx rx)
    (h : advance s e = some s') : ∃ tx rx, Holds tokens s' tx rx := by
  cases e with
  | request =>
    simp only [advance] at h
    split at h
    · rename_i rest hprogram _
      cases h
      exact ⟨tx, rx, hs.request hprogram⟩
    · cases h
  | push =>
    simp only [advance] at h
    split at h
    · rename_i token rest hprogram
      obtain ⟨queue, hqueue, rfl⟩ := Option.map_eq_some_iff.mp h
      exact ⟨_, rx, hs.push hprogram hqueue⟩
    · cases h
  | inside a =>
    simp only [advance] at h
    split at h
    · rename_i hin
      obtain ⟨queue, hqueue, rfl⟩ := Option.map_eq_some_iff.mp h
      exact inside_holds hs hin hqueue
    · cases h
  | reply =>
    simp only [advance] at h
    split at h
    · rename_i hlt
      cases h
      have hcounts := hs.counts
      exact ⟨tx, rx, hs.queue, hs.calls, hs.sender, hs.popping, hs.resting, hs.sends, hs.takes,
        hcounts.paired, hcounts.sent_eq, hlt, Nat.le_succ_of_le hcounts.replies_le, hcounts.noEof⟩
    · cases h
  | pop =>
    simp only [advance] at h
    split at h
    · rename_i hidle
      obtain ⟨queue, hqueue, rfl⟩ := Option.map_eq_some_iff.mp h
      exact ⟨tx, _, hs.pop hidle hqueue⟩
    · cases h
  | popped =>
    simp only [advance] at h
    split at h
    · rename_i token hphase
      obtain ⟨queue, hqueue, rfl⟩ := Option.map_eq_some_iff.mp h
      exact ⟨tx, .out, hs.popped hphase hqueue⟩
    · cases h
  | receive =>
    simp only [advance] at h
    split at h
    · rename_i hgot
      cases h
      exact ⟨tx, rx, hs.finish hgot⟩
    · rename_i token hne hgot
      split at h
      · rename_i hreply
        cases h
        exact ⟨tx, rx, hs.receive hgot hne hreply⟩
      · cases h
    · cases h

end Safety

section Completion

open CacheAll Block

variable {tokens : List Token} {s : System} {tx rx : Status (Op Token) (Option Token)}

/-- Nothing happens any more, unless a thread wakes up without a signal. -/
def Quiet (s : System) : Prop :=
  ∀ e, (∀ t, e ≠ .inside (.spurious t)) → advance s e = none

theorem Holds.two_threads (hs : Holds tokens s tx rx) :
    ∃ p q, s.queue.threads = [p, q] ∧ status p = tx ∧ status q = rx := by
  have hcalls : s.queue.threads.map status = [tx, rx] := hs.calls
  match hthreads : s.queue.threads with
  | [] => simp [hthreads] at hcalls
  | [p] => simp [hthreads] at hcalls
  | [p, q] => exact ⟨p, q, rfl, by simpa [hthreads] using hcalls⟩
  | p :: q :: r :: rest => simp [hthreads] at hcalls

/-- A pop that has taken effect returns to a receiver that waits for it. -/
theorem Holds.unlocking_pop (hs : Holds tokens s tx rx) {op : Op Token} {result : Option Token}
    (hphase : s.queue.threads[1]? = some (.unlocking op result)) :
    op = .pop ∧ ∃ token, result = some token := by
  have hget : (atomic s.queue).calls[1]? = some (.done op result) := map_status_get hphase
  rw [hs.calls] at hget
  have hrx : rx = .done op result := by simpa using hget
  have hpopping : s.receiver = .popping := by
    by_contra hne
    have hout := hs.resting hne
    rw [hrx] at hout
    cases hout
  rcases hs.popping hpopping with h | ⟨token, h⟩ <;> rw [hrx] at h <;> cases h
  exact ⟨rfl, token, rfl⟩

theorem Quiet.stuck (hs : Holds tokens s tx rx) (hquiet : Quiet s) :
    Stuck (sizedAsyncQueue Token) s.queue := by
  intro a hcall hspurious
  by_cases hin : inside a = true
  · have hnone := hquiet (.inside a) (fun t he => hspurious t (by cases he; rfl))
    rw [advance, if_pos hin] at hnone
    exact Option.map_eq_none_iff.mp hnone
  · cases a with
    | call t op => exact absurd rfl (hcall t op)
    | unlock t =>
      rw [Option.eq_none_iff_forall_ne_some]
      intro queue hstep
      have hmove := step_move hstep
      obtain ⟨p, q, hthreads, -, -⟩ := hs.two_threads
      cases hmove with
      | @unlock _ op result ht =>
        match t with
        | 0 => exact hin rfl
        | 1 =>
          obtain ⟨rfl, token, rfl⟩ := hs.unlocking_pop ht
          have hnone := hquiet .popped (by simp)
          have hphase : s.phase 1 = some (.unlocking .pop (some token)) := ht
          simp [advance, hphase, hstep] at hnone
        | t + 2 => simp [hthreads] at ht
    | lock t => exact absurd rfl hin
    | wait t => exact absurd rfl hin
    | pass t waked => exact absurd rfl hin
    | spurious t => exact absurd rfl hin

/-- Where the receiver rests although there is a token or a reply for it, it goes on. -/
theorem Quiet.receiver (hs : Holds tokens s tx rx) (hquiet : Quiet s) :
    s.receiver = .popping ∨ s.receiver = .finished := by
  have hreply := hquiet .reply (by simp)
  simp only [advance] at hreply
  have hall : s.sent ≤ s.replied := by
    by_contra hlt
    rw [if_pos (by omega)] at hreply
    cases hreply
  obtain ⟨p, q, hthreads, -, hq⟩ := hs.two_threads
  cases hrec : s.receiver with
  | popping => exact .inl rfl
  | finished => exact .inr rfl
  | idle =>
    have hout := hs.resting (by rw [hrec]; simp)
    have hphase : q = .outside := by
      rw [hout] at hq
      cases q <;> first | rfl | cases hq
    have hnone := hquiet .pop (by simp)
    simp [advance, hrec, Monitor.step, hthreads, hphase] at hnone
  | got token =>
    have hnone := hquiet .receive (by simp)
    simp only [advance, hrec] at hnone
    cases token with
    | eof => simp at hnone
    | remoteFirst =>
      -- its request was sent before the token was pushed, so its reply has come
      have hfifo := hs.queue.fifo
      have htakes := hs.takes
      have hsends := hs.sends
      have hpaired := hs.counts.paired _ List.suffix_rfl
      have hsent := hs.counts.sent_eq
      have htotal := congrArg (List.count Token.remoteFirst) hsends
      rw [hfifo, htakes, hrec] at htotal
      have heof : List.count Token.remoteFirst [Token.eof] = 0 := rfl
      have hone : List.count Token.remoteFirst (Receiver.got .remoteFirst).tokens = 1 := rfl
      simp only [List.count_append, heof, hone] at htotal
      have hlt : s.progress.replies < s.replied := by
        rw [hs.replies]
        omega
      simp [hlt] at hnone
    | remoteLater => simp at hnone
    | cached => simp at hnone

/-- The sender, the receiver and the proxy come to rest only when everything is done. -/
structure Finished (tokens : List Token) (s : System) : Prop where
  receiver : s.receiver = .finished
  received : s.received = tokens
  sent : s.sent = tokens.count .remoteFirst
  replied : s.replied = s.sent
  replies : s.progress.replies = s.replied
  queue : s.queue.shared.queue = []
  threads : s.queue.threads = [.outside, .outside]

theorem Quiet.sender (hs : Holds tokens s tx rx) (hquiet : Quiet s) (htx : tx = .out) :
    s.program = [] := by
  obtain ⟨p, q, hthreads, hp, -⟩ := hs.two_threads
  have hphase : p = .outside := by
    rw [htx] at hp
    cases p <;> first | rfl | cases hp
  have hfirst : s.phase 0 = some .outside := by simp [System.phase, hthreads, hphase]
  cases hprogram : s.program with
  | nil => rfl
  | cons work rest =>
    cases work with
    | send =>
      have hnone := hquiet .request (by simp)
      simp [advance, hprogram, hfirst] at hnone
    | push token =>
      have hnone := hquiet .push (by simp)
      simp [advance, hprogram, Monitor.step, hthreads, hphase] at hnone

theorem Quiet.not_popping (hs : Holds tokens s tx rx) (hquiet : Quiet s) :
    s.receiver ≠ .popping := by
  intro hpopping
  have hstuck := hquiet.stuck hs
  obtain ⟨p, q, hthreads, hp, hq⟩ := hs.two_threads
  have hpmem : p ∈ s.queue.threads := by simp [hthreads]
  have hqmem : q ∈ s.queue.threads := by simp [hthreads]
  -- the receiver waits, so the queue is empty
  have hempty : s.queue.shared.queue = [] := by
    rcases stuck_phase hstuck hqmem with rfl | ⟨op, rfl⟩
    · rcases hs.popping hpopping with h | ⟨token, h⟩ <;> rw [h] at hq <;> cases hq
    · rw [hs.op_receiver hq.symm] at hqmem
      exact hs.queue.pop_waits hstuck hqmem
  -- the sender does not wait for room in an empty queue, so it has pushed the end of file
  have htx : tx = .out := by
    rcases stuck_phase hstuck hpmem with rfl | ⟨op, rfl⟩
    · exact hp.symm
    · obtain ⟨token, rfl⟩ := hs.op_sender hp.symm
      have hfull := hs.queue.push_waits hstuck hpmem
      have hsize := hs.queue.sound.size_eq
      rw [hempty, hfull] at hsize
      cases hsize
  have hrx : handed rx = [] := by
    rcases stuck_phase hstuck hqmem with rfl | ⟨op, rfl⟩ <;> rw [← hq] <;> rfl
  have hsends := hs.sends
  rw [hs.queue.fifo, hs.takes, hempty, hquiet.sender hs htx, hpopping, htx, hrx] at hsends
  simp only [Receiver.tokens, inHand, pushes, List.reverse_nil, List.filterMap_nil,
    List.append_nil] at hsends
  exact hs.counts.noEof (by rw [hsends]; simp)

theorem Quiet.finished (heof : .eof ∉ tokens) (hs : Holds tokens s tx rx) (hquiet : Quiet s) :
    Finished tokens s := by
  have hreceiver : s.receiver = .finished :=
    (hquiet.receiver hs).resolve_left (hquiet.not_popping hs)
  have hstuck := hquiet.stuck hs
  obtain ⟨p, q, hthreads, hp, hq⟩ := hs.two_threads
  have hrx : rx = .out := hs.resting (by rw [hreceiver]; simp)
  have hsends := hs.sends
  rw [hs.queue.fifo, hs.takes, hreceiver, hrx] at hsends
  simp only [Receiver.tokens, handed, List.append_nil, List.append_assoc] at hsends
  -- the end of file is the last token, so nothing is behind it
  have hreceived : s.received = tokens ∧
      s.queue.shared.queue.reverse ++ (inHand tx ++ pushes s.program) = [] := by
    generalize s.queue.shared.queue.reverse ++ (inHand tx ++ pushes s.program) = behind at hsends
    rw [List.append_eq_append_iff] at hsends
    rcases hsends with ⟨more, htokens, hrest⟩ | ⟨more, hmore, hrest⟩
    · cases more with
      | nil =>
        rw [List.append_nil] at htokens
        exact ⟨htokens.symm, (List.cons.inj hrest).2⟩
      | cons token more =>
        rw [List.cons_append] at hrest
        have heq := (List.cons.inj hrest).1
        exact absurd (by rw [htokens, ← heq]; simp) heof
    · cases more with
      | nil =>
        rw [List.append_nil] at hmore
        exact ⟨hmore, (List.cons.inj hrest.symm).2⟩
      | cons token more =>
        rw [List.cons_append] at hrest
        have heq := (List.cons.inj hrest).1
        exact absurd (by rw [hmore, ← heq]; simp) hs.counts.noEof
  obtain ⟨hreceived, hnothing⟩ := hreceived
  have hempty : s.queue.shared.queue = [] := by
    simpa using (List.append_eq_nil_iff.mp hnothing).1
  have hhand : inHand tx = [] := (List.append_eq_nil_iff.mp (List.append_eq_nil_iff.mp hnothing).2).1
  have hpout : p = .outside := by
    have hpmem : p ∈ s.queue.threads := by simp [hthreads]
    rcases stuck_phase hstuck hpmem with h | ⟨op, rfl⟩
    · exact h
    · obtain ⟨token, rfl⟩ := hs.op_sender hp.symm
      rw [← hp] at hhand
      cases hhand
  have hqout : q = .outside := by
    rw [hrx] at hq
    cases q <;> first | rfl | cases hq
  have hprogram := hquiet.sender hs (by rw [← hp, hpout]; rfl)
  have hsent := hs.counts.sent_eq
  rw [hprogram, List.count_nil, Nat.add_zero] at hsent
  have hreplies := hs.replies
  have hle := hs.counts.replied_le
  have hge := hs.counts.replies_le
  rw [hreceived] at hreplies hge
  exact ⟨hreceiver, hreceived, hsent, by omega, by omega, hempty, by rw [hthreads, hpout, hqout]⟩

/-- What the receiver still has to do before it is idle again or has finished. -/
def Receiver.left : Receiver → Nat
  | .idle => 7
  | .popping | .got _ => 1
  | .finished => 0

/-- What is still to be done. -/
def left (tokens : List Token) (s : System) : Nat :=
  total weight s.queue.threads + 6 * s.program.length +
    7 * (tokens.length + 1 - s.received.length) + s.receiver.left + (s.sent - s.replied)

/-- What an event adds to it. -/
def eventCost : Event → Nat
  | .inside (.spurious _) => 3
  | _ => 0

theorem Holds.received_le (hs : Holds tokens s tx rx) {token : Token}
    (hgot : s.receiver = .got token) : s.received.length ≤ tokens.length := by
  have hsends := congrArg List.length hs.sends
  rw [hs.queue.fifo, hs.takes, hgot] at hsends
  simp only [List.length_append, Receiver.tokens, List.length_singleton] at hsends
  omega

theorem advance_left {s' : System} {e : Event} (hs : Holds tokens s tx rx)
    (h : advance s e = some s') : left tokens s' + 1 ≤ left tokens s + eventCost e := by
  have hreplied := hs.counts.replied_le
  cases e with
  | request =>
    simp only [advance] at h
    split at h
    · rename_i rest hprogram _
      cases h
      simp only [left, hprogram, List.length_cons, eventCost]
      omega
    · cases h
  | push =>
    simp only [advance] at h
    split at h
    · rename_i token rest hprogram
      obtain ⟨queue, hqueue, rfl⟩ := Option.map_eq_some_iff.mp h
      have hweight := step_weight hqueue
      simp only [left, hprogram, List.length_cons, eventCost, cost] at hweight ⊢
      omega
    · cases h
  | inside a =>
    simp only [advance] at h
    split at h
    · rename_i hin
      obtain ⟨queue, hqueue, rfl⟩ := Option.map_eq_some_iff.mp h
      have hweight := step_weight hqueue
      have hcost : cost a = eventCost (.inside a) := by
        cases a <;> first | rfl | cases hin
      simp only [left]
      omega
    · cases h
  | reply =>
    simp only [advance] at h
    split at h
    · rename_i hlt
      cases h
      simp only [left, eventCost]
      omega
    · cases h
  | pop =>
    simp only [advance] at h
    split at h
    · rename_i hidle
      obtain ⟨queue, hqueue, rfl⟩ := Option.map_eq_some_iff.mp h
      have hweight := step_weight hqueue
      simp only [left, hidle, Receiver.left, eventCost, cost] at hweight ⊢
      omega
    · cases h
  | popped =>
    simp only [advance] at h
    split at h
    · rename_i token hphase
      obtain ⟨queue, hqueue, rfl⟩ := Option.map_eq_some_iff.mp h
      have hweight := step_weight hqueue
      have hpopping : s.receiver.left = 1 := by
        have hget : (atomic s.queue).calls[1]? = some (.done .pop (some token)) :=
          map_status_get hphase
        by_cases hpop : s.receiver = .popping
        · rw [hpop]
          rfl
        · rw [hs.calls, hs.resting hpop] at hget
          simp at hget
      have hgot : (Receiver.got token).left = 1 := rfl
      simp only [left, hpopping, hgot, eventCost, cost] at hweight ⊢
      omega
    · cases h
  | receive =>
    simp only [advance] at h
    split at h
    · rename_i hgot
      cases h
      simp only [left, hgot, Receiver.left, eventCost]
      omega
    · rename_i token hne hgot
      have hle := hs.received_le hgot
      split at h
      · cases h
        simp only [left, hgot, Receiver.left, eventCost, List.length_append,
          List.length_singleton]
        omega
      · cases h
    · cases h

theorem length_workOf (tokens : List Token) :
    (workOf tokens ++ [Work.push .eof]).length =
      tokens.length + tokens.count .remoteFirst + 1 := by
  induction tokens with
  | nil => rfl
  | cons token rest ih =>
    cases token <;> simp [workOf] at ih ⊢ <;> omega

variable {bits : Nat → Nat → Bool} {disksize blocksAtOnce fuel : Nat} {d : Done}

/-- However the sender, the receiver and the proxy take turns: the receiver deals with the
tokens in order and does not wait for a reply that no request was sent for, there is a bound on
the steps, and where nothing can happen any more every block has been counted. -/
theorem cache_all_completes (hd : disksize ≤ offMax) (hone : 1 ≤ blocksAtOnce)
    (hmax : blocksAtOnce < 2 ^ 64) (hsmall : blocksAtOnce < 2 ^ 20 ∨ disksize < 2 ^ 32)
    (hgrow : Growing bits) (hfuel : getDiskNblocks disksize < fuel)
    (hleft : cacheAllBlocksAsync bits disksize blocksAtOnce fuel = .left d)
    {events : List Event} (h : run advance (start d.tokens) events = some s) :
    s.received <+: d.tokens ∧ s.queue.shared.size ≤ asyncDepth ∧
      s.progress.replies ≤ s.replied ∧ s.replied ≤ s.sent ∧ s.sent ≤ d.requests.length ∧
      (Quiet s → Finished d.tokens s ∧ s.sent = d.requests.length ∧
        s.progress.blocksFromRemote + s.progress.blocksFromCache = getDiskNblocks disksize) ∧
      events.length ≤ 19 * getDiskNblocks disksize + 20 + (events.map eventCost).sum := by
  obtain ⟨d', hleft', hupto, -⟩ := cacheAll_left hgrow hd (.inr hsmall) hone hmax hfuel
  rw [hleft] at hleft'
  cases hleft'
  have hstart : ∃ tx rx, Holds d.tokens (start d.tokens) tx rx := ⟨_, _, start_holds _⟩
  have hpaid : ∀ s e t, (∃ tx rx, Holds d.tokens s tx rx) → advance s e = some t →
      (∃ tx rx, Holds d.tokens t tx rx) ∧ left d.tokens t + 1 ≤ left d.tokens s + eventCost e := by
    rintro s e t ⟨tx, rx, hi⟩ hstep
    exact ⟨advance_holds hi hstep, advance_left hi hstep⟩
  have hbound := run_paid hpaid hstart h
  obtain ⟨tx, rx, hs⟩ := run_invariant (P := fun _ _ => True)
    (I := fun s => ∃ tx rx, Holds d.tokens s tx rx)
    (fun _ _ _ ⟨_, _, hi⟩ _ hstep => advance_holds hi hstep) hstart (along_true _ _ _) h
  have hsize := hs.queue.sound.size_le
  rw [hs.queue.maxSize_eq] at hsize
  have hsent := hs.counts.sent_eq
  rw [hupto.firsts] at hsent
  refine ⟨?_, hsize, ?_, hs.counts.replied_le, by omega, ?_, ?_⟩
  · have hsends := hs.sends
    rw [hs.queue.fifo, hs.takes] at hsends
    simp only [List.append_assoc] at hsends
    have hprefix : s.received <+: d.tokens ++ [.eof] := ⟨_, hsends⟩
    rcases List.prefix_concat_iff.mp hprefix with heq | hprefix
    · exact absurd (by rw [heq]; simp) hs.counts.noEof
    · exact hprefix
  · rw [hs.replies]
    exact hs.counts.replies_le
  · intro hquiet
    have hfinished := hquiet.finished hupto.eof hs
    have hkinds := length_tokens hupto.eof
    have hlength := hupto.length
    refine ⟨hfinished, by rw [hfinished.sent, hupto.firsts], ?_⟩
    rw [System.progress, hfinished.received, receive_counts _ _ hupto.eof]
    dsimp only
    omega
  · have hfirst : left d.tokens (start d.tokens) =
        6 * (d.tokens.length + d.tokens.count .remoteFirst + 1) + 7 * (d.tokens.length + 1) + 7 := by
      rw [← length_workOf]
      simp only [left, start, initial, total_replicate weight rfl, Receiver.left, List.length_nil]
      omega
    have hcount := List.count_le_length (a := Token.remoteFirst) (l := d.tokens)
    have hlength := hupto.length
    omega

/-- The receiver waits for the sender, and then for the reply. -/
def blockEvents : List Event :=
  [.pop, .inside (.lock 1), .inside (.wait 1), .request, .push, .inside (.lock 0),
    .inside (.pass 0 (some 1)), .inside (.unlock 0), .reply, .inside (.lock 1),
    .inside (.pass 1 none), .popped, .push, .inside (.lock 0), .inside (.pass 0 none),
    .inside (.unlock 0), .receive, .pop, .inside (.lock 1), .inside (.pass 1 none), .popped,
    .receive]

/-- A disk of one block that is not cached, until the receiver has finished. -/
theorem cache_all_completes_block :
    ∃ s, run advance (start [.remoteFirst]) blockEvents = some s ∧ s.receiver = .finished ∧
      s.received <+: [.remoteFirst] := by
  have hn : getDiskNblocks 4096 = 1 := rfl
  have hleft : cacheAllBlocksAsync (fun _ _ => false) 4096 1 2 =
      .left ⟨[(0, false), (1, false), (1, false)], [⟨0, 1, 0, 4096⟩], [], [.remoteFirst]⟩ := by
    have hrequest (d : Done) := request_eq (show 4096 ≤ offMax by decide) (Nat.lt_succ_self 0)
      (Nat.le_of_eq hn.symm) d
    simp [cacheAllBlocksAsync, chunks, chunk, scan, CacheAll.test, hn, hrequest, skip, runLength,
      cblocksize]
  obtain ⟨s, hrun, hend⟩ : ∃ s, run advance (start [.remoteFirst]) blockEvents = some s ∧
      s.receiver = .finished := ⟨_, rfl, rfl⟩
  refine ⟨s, hrun, hend, ?_⟩
  exact (cache_all_completes (by decide) (by decide) (by decide) (.inl (by decide))
    (by intro _ _ _ _ hb; exact hb) (by decide) hleft hrun).1

end Completion

end Xnbd.CacheQueue
