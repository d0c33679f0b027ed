import Xnbd.Forwarder

/-!
# The proxy process (`xnbd_proxy.c`)

The forwarder with its clients: every session has an rx thread, which receives
requests and pushes them to `fwd_tx_queue`, and a tx thread, which pops the
requests that `forwarder_rx` hands back and sends the replies. The main thread
registers sessions and frees them after both threads have returned. A session
is named by its place in the list, and stays there when it is freed.

`pushed` and `replied` record what happened and are read by no step.
-/
namespace Xnbd.Proxy

open Block Bitmap Bytes Nbd Requests Forwarder

variable {disksize : Nat}

/-- `sizeof(struct proxy_priv)`. -/
def sizeofProxyPriv : Nat := 624

/-- The bytes of `read_buff` or `write_buff`. -/
def buffer : Entry disksize → Nat
  | .stop => 0
  | .exit _ b => b.getD 0
  | .req p =>
    match p.call.request.iotype with
    | .read => p.call.request.iolen
    | .write => p.call.request.iolen
    | _ => 0

def isExit : Entry disksize → Bool
  | .exit _ _ => true
  | _ => false

/-- The session whose `tx_queue` the entry names. -/
def session? : Entry disksize → Option Nat
  | .stop => none
  | .exit k _ => some k
  | .req p => some p.call.session

/-- What `recv_request` meets: an error or a request of the worker to end, or a
header with the payload, if that arrived. -/
inductive Arrival where
  | broken
  | message (header : List UInt8) (payload : Option (List UInt8))
  deriving DecidableEq, Repr

/-- The entry that `recv_request` builds from what it receives. A WRITE of
2 GiB or more never gets its payload past `net_recv_all_or_error`. -/
def recvRequest (cfg : Config disksize) (k : Nat) : Arrival → Option (Entry disksize)
  | .broken => some (.exit k none)
  | .message header payload =>
    match h : nbdServerRecvRequest disksize header with
    | .ok iotype iofrom iolen handle =>
      have hadm := (nbdServerRecvRequest_ok h).2.2.2.2.2
      let plain (hw : iotype ≠ .write) : Entry disksize :=
        .req (.fresh ⟨k, handle, ⟨iotype, iofrom, iolen, [], hadm, fun h => absurd h hw⟩⟩)
      if cfg.readonly = true ∧ (iotype = .write ∨ iotype = .trim) then some (.exit k none)
      else if hw : iotype = .write then
        match payload with
        | none => some (.exit k (some iolen))
        | some data =>
          if hl : data.length = iolen ∧ iolen < 2 ^ 31 then
            some (.req (.fresh ⟨k, handle, ⟨iotype, iofrom, iolen, data, hadm, fun _ => hl.1⟩⟩))
          else none
      else if iotype = .read ∨ iotype = .cache ∨ iotype = .flush ∨ iotype = .trim then
        some (plain hw)
      else some (.exit k none)
    | .badRequest _ _ => some (.exit k none)
    | .magicMismatch => some (.exit k none)
    | .terminate => some (.exit k none)

/-- Where `rx_thread_main` stands: receiving, in `mem_usage_wait`, before
`mem_usage_add`, before the push to `fwd_tx_queue`, or returned. -/
inductive SessionRx (disksize : Nat) where
  | recv
  | wait (e : Entry disksize)
  | add (e : Entry disksize)
  | push (e : Entry disksize)
  | exited
  deriving DecidableEq

/-- Where `tx_thread_main` stands: waiting, before `net_writev_all_or_error`,
before `mem_usage_del`, or returned. -/
inductive SessionTx (disksize : Nat) where
  | pop
  | send (p : Priv disksize)
  | release (e : Entry disksize)
  | exited
  deriving DecidableEq

/-- `struct proxy_session` with its two threads. -/
structure Session (disksize : Nat) where
  rx : SessionRx disksize
  tx : SessionTx disksize
  txQueue : List (Entry disksize)
  needSkip : Bool
  freed : Bool
  pushed : List (Entry disksize)
  replied : List (Priv disksize)
  deriving DecidableEq

/-- A session as `REGISTER_FD` creates it. -/
def Session.new : Session disksize := ⟨.recv, .pop, [], false, false, [], []⟩

structure State (disksize : Nat) where
  fwd : Fwd disksize
  sessions : List (Session disksize)
  curUseBuf : Nat
  curUseQue : Nat
  pushedFreed : Bool
  assertFailed : Bool

/-- The process is gone: `err()`, an assertion, or an access to a freed session. -/
def State.dead (s : State disksize) : Bool := s.fwd.aborted || s.pushedFreed || s.assertFailed

inductive Act (disksize : Nat) where
  | register
  | cleanup (k : Nat)
  | rx (k : Nat) (arrival : Arrival)
  | tx (k : Nat) (sent : Bool)
  | fwd (a : Action disksize)

section MemUsage

variable (cfg : Config disksize) (s : State disksize) (e : Entry disksize)

def memUsageAdd : State disksize :=
  { s with
    curUseBuf := if cfg.maxBufSize = 0 then s.curUseBuf
      else (s.curUseBuf + sizeofProxyPriv + buffer e) % 2 ^ 64
    curUseQue := if cfg.maxQueSize = 0 then s.curUseQue else (s.curUseQue + 1) % 2 ^ 64 }

def memUsageDel : State disksize :=
  { s with
    curUseBuf := if cfg.maxBufSize = 0 then s.curUseBuf
      else (s.curUseBuf + 2 ^ 65 - sizeofProxyPriv - buffer e) % 2 ^ 64
    curUseQue := if cfg.maxQueSize = 0 then s.curUseQue
      else (s.curUseQue + 2 ^ 64 - 1) % 2 ^ 64 }

/-- `mem_usage_wait` comes back. -/
def MemUsageFits : Prop :=
  (cfg.maxBufSize ≠ 0 → s.curUseBuf ≤ cfg.maxBufSize) ∧
    (cfg.maxQueSize ≠ 0 → s.curUseQue ≤ cfg.maxQueSize)

instance : Decidable (MemUsageFits cfg s) := inferInstanceAs (Decidable (_ ∧ _))

end MemUsage

section Threads

variable (cfg : Config disksize) (remote : File) (s : State disksize) (k : Nat)
  (ps : Session disksize)

def State.setSession (ps : Session disksize) : State disksize :=
  { s with sessions := s.sessions.set k ps }

/-- `recv_request`, one access to shared state at a time. -/
def rxThread (arrival : Arrival) : Option (State disksize) :=
  match ps.rx with
  | .recv => (recvRequest cfg k arrival).map fun e =>
      s.setSession k { ps with rx := if isExit e then .add e else .wait e }
  | .wait e => if MemUsageFits cfg s then some (s.setSession k { ps with rx := .add e }) else none
  | .add e => some ((memUsageAdd cfg s e).setSession k { ps with rx := .push e })
  | .push e => (Forwarder.step cfg remote s.fwd (.push e)).map fun f =>
      { s with fwd := f }.setSession k { ps with rx := if isExit e then .exited else .recv }
  | .exited => none

/-- The reply fits the `int` that `net_writev_all_or_error` compares. -/
def ReplyFits (p : Priv disksize) : Prop :=
  p.call.request.iotype = .read → p.call.request.iolen + 16 < 2 ^ 31

instance (p : Priv disksize) : Decidable (ReplyFits p) := inferInstanceAs (Decidable (_ → _))

/-- `tx_thread_main`. A reply counts as soon as it is written to the socket,
whether or not all of it goes through. -/
def txThread (sent : Bool) : Option (State disksize) :=
  match ps.tx with
  | .pop =>
    match ps.txQueue with
    | [] => none
    | e :: rest =>
      let tx := match e with
        | .req p => if ps.needSkip then .release e else .send p
        | _ => .release e
      some (s.setSession k { ps with txQueue := rest, tx := tx })
  | .send p =>
    if sent = true → ReplyFits p then
      some (s.setSession k { ps with
        tx := .release (.req p)
        needSkip := ps.needSkip || !sent
        replied := ps.replied ++ [p] })
    else none
  | .release e =>
    some ((memUsageDel cfg s e).setSession k { ps with tx := if isExit e then .exited else .pop })
  | .exited => none

/-- The cleanup of a session in `main_loop`, with its assertion. -/
def cleanup : Option (State disksize) :=
  if s.fwd.main = .loop ∧ ps.rx = .exited ∧ ps.tx = .exited ∧ ps.freed = false then
    if ps.txQueue = [] then some (s.setSession k { ps with freed := true })
    else some { s with assertFailed := true }
  else none

/-- The entry that `forwarder_rx` is about to push to a session's queue. -/
def handing (f : Fwd disksize) : Action disksize → Option (Entry disksize)
  | .rx _ =>
    match f.rx with
    | .hand e => some e
    | _ => none
  | _ => none

/-- The push of `forwarder_rx` to a session's `tx_queue`. -/
def deliver (e : Entry disksize) : State disksize :=
  match session? e with
  | none => s
  | some k =>
    match s.sessions[k]? with
    | none => s
    | some ps =>
      { s with pushedFreed := ps.freed }.setSession k
        { ps with txQueue := ps.txQueue ++ [e], pushed := ps.pushed ++ [e] }

/-- A step of the forwarder or of `main_loop` with it. -/
def fwdThread (a : Action disksize) : Option (State disksize) :=
  (Forwarder.step cfg remote s.fwd a).map fun f =>
    match handing s.fwd a with
    | some e => deliver { s with fwd := f } e
    | none => { s with fwd := f }

end Threads

def step (cfg : Config disksize) (remote : File) (s : State disksize) (a : Act disksize) :
    Option (State disksize) :=
  if s.dead then none
  else match a with
    | .register =>
      if s.fwd.main = .loop then some { s with sessions := s.sessions ++ [.new] } else none
    | .cleanup k => (s.sessions[k]?).bind fun ps => cleanup s k ps
    | .rx k arrival => (s.sessions[k]?).bind fun ps => rxThread cfg remote s k ps arrival
    | .tx k sent => (s.sessions[k]?).bind fun ps => txThread cfg s k ps sent
    | .fwd (.push _) => none
    | .fwd a => fwdThread cfg remote s a

/-- The proxy process before its first session. -/
def start (cbitmap : Words) (cache : File) : State disksize :=
  ⟨initial cbitmap cache, [], 0, 0, false, false⟩

end Xnbd.Proxy
