import Xnbd.Bitmap
import Xnbd.Requests

/-!
# The proxy's forwarder threads (`xnbd_proxy_forwarder.c`, `xnbd_proxy.c`)

`forwarder_tx` takes requests from `fwd_tx_queue`, marks their blocks in the
bitmap, sends READs for the missing blocks to the remote server and passes the
request on; `forwarder_rx` receives the replies into the cache file, carries
the request out and hands it to its session, or parks it for a later
connection. The main thread stops both with a marker and starts them again on
a new connection. A step is one access to what the threads share. `err()`, a
failed assertion and an access outside the bitmap set `aborted`.

The fields below `cache` record what happened and are read by no step.
-/
namespace Xnbd.Forwarder

open Block Bitmap Bytes Nbd Requests

/-- `struct remote_read_request`. -/
structure ReadReq where
  bindexIofrom : Nat
  bindexIolen : Nat
  deriving DecidableEq, Repr

/-- `MAXNBLOCK`. -/
def maxnblock : Nat := 32

/-- What `recv_request` stored about a client's request. -/
structure Call (disksize : Nat) where
  session : Nat
  handle : Nat
  request : Request disksize
  deriving DecidableEq

/-- `struct proxy_priv` of an ordinary request. -/
structure Priv (disksize : Nat) where
  call : Call disksize
  req : List ReadReq
  readBuff : List UInt8
  needRetry : Bool
  prepareDone : Bool
  seqnum : Nat
  deriving DecidableEq

/-- An element of the queues: `priv_stop_forwarder`, the `need_exit` entry of a
session with the length of the buffer it still owns, or a request. -/
inductive Entry (disksize : Nat) where
  | stop
  | exit (session : Nat) (buffer : Option Nat)
  | req (p : Priv disksize)
  deriving DecidableEq

structure Config (disksize : Nat) where
  pagesize : Nat
  readonly : Bool
  maxBufSize : Nat
  maxQueSize : Nat
  size_pos : 0 < disksize
  size_max : disksize ≤ offMax
  page_pos : 0 < pagesize
  page_max : pagesize ≤ 2 ^ 32

theorem two_le_offMax : 2 ≤ offMax := by decide

theorem page_pos : 0 < 4096 := by decide

theorem page_le : 4096 ≤ 2 ^ 32 := by decide

variable {disksize : Nat}

/-- A request as `g_slice_new0` and `recv_request` leave it. -/
def Priv.fresh (c : Call disksize) : Priv disksize := ⟨c, [], [], false, false, 0⟩

section Prepare

/-- `add_read_block_to_tail`; `none` is `err("bug, MAXNBLOCK is too small")`. -/
def addReadBlockToTail (req : List ReadReq) (i : Nat) : Option (List ReadReq) :=
  match req.getLast? with
  | some last =>
    if i = last.bindexIofrom + last.bindexIolen then
      some (req.dropLast ++ [⟨last.bindexIofrom, last.bindexIolen + 1⟩])
    else if req.length + 1 = maxnblock then none else some (req ++ [⟨i, 1⟩])
  | none => if req.length + 1 = maxnblock then none else some (req ++ [⟨i, 1⟩])

/-- The loop body of `prepare_read_priv`. -/
def prepareReadBlock (cbitmap : Words) (req : List ReadReq) (i : Nat) :
    Option (Words × List ReadReq) :=
  if Inside cbitmap i then
    if bitmapTest cbitmap i then some (cbitmap, req)
    else (addReadBlockToTail req i).map fun req' => (bitmapOn cbitmap i, req')
  else none

/-- The loop body of `prepare_write_priv`. -/
def prepareWriteBlock (cbitmap : Words) (i : Nat) : Option Words :=
  if Inside cbitmap i then
    some (if bitmapTest cbitmap i then cbitmap else bitmapOn cbitmap i)
  else none

/-- The bits that `prepare_write_priv` tests lie in the bitmap. -/
def EdgesInside (cbitmap : Words) (r : Request disksize) : Prop :=
  (r.iofrom.tmod cblocksize ≠ 0 → Inside cbitmap r.blockIndexStart) ∧
    (r.ioend.tmod cblocksize ≠ 0 → r.blockIndexStart ≤ r.blockIndexEnd →
      Inside cbitmap r.blockIndexEnd)

instance (cbitmap : Words) (r : Request disksize) : Decidable (EdgesInside cbitmap r) :=
  inferInstanceAs (Decidable (_ ∧ _))

/-- The remote reads of a WRITE: the start block, then the end block. -/
def edgeReqs (r : Request disksize) (getStart getEnd : Bool) : List ReadReq :=
  (if getStart then [⟨r.blockIndexStart, 1⟩] else []) ++
    (if getEnd then [⟨r.blockIndexEnd, 1⟩] else [])

/-- The offset and length of a remote read, confined to the disk. -/
def remoteRange (disksize : Nat) (rr : ReadReq) : Nat × Nat :=
  (rr.bindexIofrom * cblocksize,
    confineIolenWithinDisk disksize (rr.bindexIofrom * cblocksize) (rr.bindexIolen * cblocksize))

/-- The assertions of `nbd_client_send_request_header`. -/
def Sendable (range : Nat × Nat) : Prop := range.2 < 2 ^ 32 ∧ range.1 + range.2 ≤ offMax

instance (range : Nat × Nat) : Decidable (Sendable range) := inferInstanceAs (Decidable (_ ∧ _))

end Prepare

/-- Where `forwarder_tx_thread_main` stands: waiting, holding a popped entry, in
the loop of `prepare_read_priv` or `prepare_write_priv` at block `i`, sending
the `i`-th remote read, or returned. -/
inductive TxPc (disksize : Nat) where
  | idle
  | got (e : Entry disksize)
  | readLoop (p : Priv disksize) (i : Nat)
  | writeLoop (p : Priv disksize) (getStart getEnd : Bool) (i : Nat)
  | send (p : Priv disksize) (i : Nat)
  | exited

/-- Where `forwarder_rx_thread_mainloop` stands: waiting, receiving the `i`-th
reply, between `fsync` and `bitmap_sync_file` of a FLUSH, about to push to a
session's `tx_queue`, or returned. -/
inductive RxPc (disksize : Nat) where
  | idle
  | recv (p : Priv disksize) (mbr : MmapBlockRegion) (i : Nat)
  | flushing (p : Priv disksize) (synced : File)
  | hand (e : Entry disksize)
  | exited

/-- The main thread: in `main_loop`, joining the forwarder (for good if
`final`), moving parked requests back, or after `proxy_shutdown`. -/
inductive MainPc where
  | loop
  | joining (final : Bool)
  | requeue
  | closed
  deriving DecidableEq, Repr

/-- What a FLUSH made durable: the cache file at `fsync`, the bitmap at
`bitmap_sync_file`, and the requests carried out before it. -/
structure Durable (disksize : Nat) where
  cache : File
  bitmap : Words
  before : List (Call disksize)

/-- `struct xnbd_proxy` with its two forwarder threads. `wire` holds the remote
reads sent on the present connection and not yet answered. -/
structure Fwd (disksize : Nat) where
  main : MainPc
  aborted : Bool
  fwdTxQueue : List (Entry disksize)
  fwdRxQueue : List (Entry disksize)
  fwdRetryQueue : List (Priv disksize)
  tx : TxPc disksize
  rx : RxPc disksize
  sendingFailed : Bool
  receivingFailed : Bool
  fwdCounter : Nat
  wire : List (Nat × Nat)
  cbitmap : Words
  cache : File
  entered : List (Call disksize)
  popped : List (Call disksize)
  prepared : List (Call disksize)
  executed : List (Call disksize)
  handed : List (Entry disksize)
  durable : List (Durable disksize)

/-- The end of `nbd_client_recv_read_reply`: the next reply in order, bytes of a
stream that is out of step, or a failure after some bytes. -/
inductive RecvEvent where
  | reply
  | stray (bytes : List UInt8)
  | failed (bytes : List UInt8)
  deriving DecidableEq, Repr

inductive Action (disksize : Nat) where
  | push (e : Entry disksize)
  | tx (sent : Bool)
  | rx (ev : RecvEvent)
  | stop (final : Bool)
  | joined
  | requeue

namespace Fwd

def abort (f : Fwd disksize) : Fwd disksize := { f with aborted := true }

/-- The end of the `!priv->prepare_done` branch. -/
def finishPrepare (f : Fwd disksize) (p : Priv disksize) : Fwd disksize :=
  { f with
    tx := .send { p with seqnum := f.fwdCounter, prepareDone := true } 0
    fwdCounter := f.fwdCounter + 1
    prepared := f.prepared ++ [p.call] }

def startPrepare (f : Fwd disksize) (p : Priv disksize) : Fwd disksize :=
  let r := p.call.request
  match r.iotype with
  | .write =>
    if EdgesInside f.cbitmap r then
      let getStart := r.getStartBlock (bitmapTest f.cbitmap)
      let getEnd := r.getEndBlock (bitmapTest f.cbitmap)
      { f with tx := .writeLoop p getStart getEnd r.blockIndexStart }
    else f.abort
  | .read => { f with tx := .readLoop p r.blockIndexStart }
  | .cache => { f with tx := .readLoop p r.blockIndexStart }
  | _ => f.finishPrepare p

/-- `forwarder_tx` with a popped entry. -/
def txGot (f : Fwd disksize) : Entry disksize → Fwd disksize
  | .stop => { f with fwdRxQueue := f.fwdRxQueue ++ [.stop], tx := .exited }
  | .exit k b => { f with fwdRxQueue := f.fwdRxQueue ++ [.exit k b], tx := .idle }
  | .req p => if p.prepareDone then { f with tx := .send p 0 } else f.startPrepare p

def txReadLoop (f : Fwd disksize) (p : Priv disksize) (i : Nat) : Fwd disksize :=
  if i ≤ p.call.request.blockIndexEnd then
    match prepareReadBlock f.cbitmap p.req i with
    | some (bm, req) =>
      { f with cbitmap := bm, tx := .readLoop { p with req := req } ((i + 1) % 2 ^ 64) }
    | none => f.abort
  else f.finishPrepare p

def txWriteLoop (f : Fwd disksize) (p : Priv disksize) (getStart getEnd : Bool) (i : Nat) :
    Fwd disksize :=
  if i ≤ p.call.request.blockIndexEnd then
    match prepareWriteBlock f.cbitmap i with
    | some bm =>
      { f with cbitmap := bm, tx := .writeLoop p getStart getEnd ((i + 1) % 2 ^ 64) }
    | none => f.abort
  else
    let req := p.req ++ edgeReqs p.call.request getStart getEnd
    if req.length ≤ maxnblock then f.finishPrepare { p with req := req } else f.abort

/-- The sending loop; behind its end the request goes to `fwd_rx_queue`. -/
def txSend (f : Fwd disksize) (p : Priv disksize) (i : Nat) (sent : Bool) :
    Fwd disksize :=
  match p.req[i]? with
  | some rr =>
    if Sendable (remoteRange disksize rr) then
      if sent then { f with wire := f.wire ++ [remoteRange disksize rr], tx := .send p (i + 1) }
      else { f with sendingFailed := true, tx := .send p p.req.length }
    else f.abort
  | none =>
    let p' := { p with needRetry := p.needRetry || f.sendingFailed }
    { f with fwdRxQueue := f.fwdRxQueue ++ [.req p'], tx := .idle }

def txStep (f : Fwd disksize) (sent : Bool) : Option (Fwd disksize) :=
  match f.tx with
  | .idle =>
    match f.fwdTxQueue with
    | [] => none
    | e :: rest =>
      let popped := match e with
        | .req p => if p.prepareDone then f.popped else f.popped ++ [p.call]
        | _ => f.popped
      some { f with fwdTxQueue := rest, tx := .got e, popped := popped }
  | .got e => some (f.txGot e)
  | .readLoop p i => some (f.txReadLoop p i)
  | .writeLoop p getStart getEnd i => some (f.txWriteLoop p getStart getEnd i)
  | .send p i => some (f.txSend p i sent)
  | .exited => none

/-- One reply into the cache file at the block's place in the mapping. -/
def rxRecv (remote : File) (f : Fwd disksize) (p : Priv disksize) (mbr : MmapBlockRegion)
    (i : Nat) (rr : ReadReq) : RecvEvent → Option (Fwd disksize)
  | .reply =>
    let (off, len) := remoteRange disksize rr
    if f.wire.head? = some (off, len) ∧ len < 2 ^ 31 then
      some { f with
        wire := f.wire.tail
        cache := store f.cache (mbr.baIobuf + (off - mbr.baIofrom)).toNat (slice remote off len)
        rx := .recv p mbr (i + 1) }
    else none
  | .stray bytes =>
    let (off, len) := remoteRange disksize rr
    if (p.needRetry = true ∨ f.receivingFailed = true ∨ f.wire.head? ≠ some (off, len)) ∧
        bytes.length = len ∧ len < 2 ^ 31 then
      some { f with
        cache := store f.cache (mbr.baIobuf + (off - mbr.baIofrom)).toNat bytes
        rx := .recv p mbr (i + 1) }
    else none
  | .failed bytes =>
    let (off, len) := remoteRange disksize rr
    if bytes.length ≤ len then
      some { f with
        cache := store f.cache (mbr.baIobuf + (off - mbr.baIofrom)).toNat bytes
        receivingFailed := true
        rx := .recv p mbr p.req.length }
    else none

/-- The command itself, after all replies were received. -/
def rxExecute (f : Fwd disksize) (p : Priv disksize) (mbr : MmapBlockRegion) :
    Fwd disksize :=
  let r := p.call.request
  let done := f.executed ++ [p.call]
  match r.iotype with
  | .read =>
    let p' := { p with readBuff := slice f.cache mbr.iobuf.toNat r.iolen }
    { f with rx := .hand (.req p'), executed := done }
  | .write =>
    { f with cache := store f.cache mbr.iobuf.toNat r.data, rx := .hand (.req p), executed := done }
  | .cache => { f with rx := .hand (.req p), executed := done }
  | .flush => { f with rx := .flushing p f.cache }
  | .trim =>
    { f with cache := zero f.cache r.start r.iolen, rx := .hand (.req p), executed := done }
  | _ => f.abort

/-- Behind the receiving loop: a request of a failed connection is parked. -/
def rxFinish (f : Fwd disksize) (p : Priv disksize) (mbr : MmapBlockRegion) :
    Fwd disksize :=
  let p' := { p with needRetry := p.needRetry || f.receivingFailed }
  if p'.needRetry then { f with fwdRetryQueue := f.fwdRetryQueue ++ [p'], rx := .idle }
  else f.rxExecute p' mbr

def rxPop (cfg : Config disksize) (f : Fwd disksize) : Option (Fwd disksize) :=
  match f.fwdRxQueue with
  | [] => none
  | .stop :: rest => some { f with fwdRxQueue := rest, rx := .exited }
  | .exit k b :: rest => some { f with fwdRxQueue := rest, rx := .hand (.exit k b) }
  | .req p :: rest =>
    match mmapBlockRegionCreate cfg.pagesize disksize p.call.request.iofrom p.call.request.iolen with
    | some mbr => some { f with fwdRxQueue := rest, rx := .recv p mbr 0 }
    | none => some f.abort

def rxStep (cfg : Config disksize) (remote : File) (f : Fwd disksize) (ev : RecvEvent) :
    Option (Fwd disksize) :=
  match f.rx with
  | .idle => rxPop cfg f
  | .recv p mbr i =>
    match p.req[i]? with
    | some rr => rxRecv remote f p mbr i rr ev
    | none => some (f.rxFinish p mbr)
  | .flushing p synced =>
    some { f with
      rx := .hand (.req p)
      durable := f.durable ++ [⟨synced, f.cbitmap, f.executed⟩]
      executed := f.executed ++ [p.call] }
  | .hand e => some { f with rx := .idle, handed := f.handed ++ [e] }
  | .exited => none

/-- `REGISTER_FORWARDER_FD` between the two `pthread_join` and the new threads.
`g_async_queue_push_unshift` sorts with a comparison that is always -1, which
puts the element behind the most recently pushed one. -/
def requeueStep (f : Fwd disksize) : Fwd disksize :=
  match f.fwdRetryQueue with
  | p :: rest =>
    { f with
      fwdRetryQueue := rest
      fwdTxQueue := f.fwdTxQueue ++ [.req { p with needRetry := false }] }
  | [] =>
    { f with
      main := .loop
      tx := .idle
      rx := .idle
      sendingFailed := false
      receivingFailed := false
      wire := [] }

/-- The entries that `recv_request` pushes. -/
def pushStep (f : Fwd disksize) : Entry disksize → Option (Fwd disksize)
  | .stop => none
  | .exit k b => some { f with fwdTxQueue := f.fwdTxQueue ++ [.exit k b] }
  | .req p =>
    if p = Priv.fresh p.call then
      some { f with fwdTxQueue := f.fwdTxQueue ++ [.req p], entered := f.entered ++ [p.call] }
    else none

end Fwd

def TxPc.isExited : TxPc disksize → Bool
  | .exited => true
  | _ => false

def RxPc.isExited : RxPc disksize → Bool
  | .exited => true
  | _ => false

def step (cfg : Config disksize) (remote : File) (f : Fwd disksize) :
    Action disksize → Option (Fwd disksize)
  | .push e => if f.aborted then none else f.pushStep e
  | .tx sent => if f.aborted then none else f.txStep sent
  | .rx ev => if f.aborted then none else Fwd.rxStep cfg remote f ev
  | .stop final =>
    if f.aborted = false ∧ f.main = .loop then
      some { f with fwdTxQueue := f.fwdTxQueue ++ [.stop], main := .joining final }
    else none
  | .joined =>
    match f.main with
    | .joining final =>
      if f.aborted = false ∧ f.tx.isExited = true ∧ f.rx.isExited = true then
        some { f with main := if final then .closed else .requeue }
      else none
    | _ => none
  | .requeue => if f.aborted = false ∧ f.main = .requeue then some f.requeueStep else none

/-- The proxy after `proxy_initialize_forwarder`. -/
def initial (cbitmap : Words) (cache : File) : Fwd disksize where
  main := .loop
  aborted := false
  fwdTxQueue := []
  fwdRxQueue := []
  fwdRetryQueue := []
  tx := .idle
  rx := .idle
  sendingFailed := false
  receivingFailed := false
  fwdCounter := 0
  wire := []
  cbitmap := cbitmap
  cache := cache
  entered := []
  popped := []
  prepared := []
  executed := []
  handed := []
  durable := []

end Xnbd.Forwarder
