import Xnbd.Framing
import Xnbd.ReadReply
import Xnbd.Restart

/-!
# Snapshots of a target server with clients (`xnbd_server.c`, `xnbd_target.c`)

The master of `Xnbd.Master`, what its workers do on the connections, one system call a step,
and `xnbd_target_make_snapshot` between two generations of workers. A client sends what it
likes; its bytes are taken off the connection by whichever worker has it.
-/
namespace Xnbd.Snapshot

open CInt Block Bytes Nbd NetIov Master Restart Run ReadReply
open TargetRead (sizeofNbdReply eio Memory replyBytes replyIov replyMemory fill ReadvMay WritevMay
  replyBytes_length)
open Framing (headerAt)

section Model

structure Config where
  readonly : Bool
  pagesize : Nat
  disksize : Nat

/-- A connection: what the client has sent so far, whether it has closed its side, how far the
workers have read, and what they have sent. `lost` is a note: a worker ended while it had a
request of this connection in hand, went on after a payload that did not arrive, or took a
request whose length an `int` does not hold. -/
structure Client where
  sent : List UInt8
  closed : Bool
  pos : Nat
  replied : List UInt8
  lost : Bool

def Client.new : Client := ⟨[], false, 0, [], false⟩

/-- What has come in and was not read. -/
def Client.arrived (c : Client) : List UInt8 := c.sent.drop c.pos

/-- Where a worker is in `target_mode_main_mmap`. -/
inductive Phase where
  /-- In `poll_request_arrival`. -/
  | poll
  | header
  | payload (iolen handle : Nat) (iov : List Iovec) (total : Int)
  | seek (iofrom : Int) (iolen handle : Nat)
  | read (iolen handle : Nat) (iov : List Iovec) (total : Int) (buf : Memory)
  | fsync (handle : Nat)
  | reply (iov : List Iovec) (total : Int) (mem : Memory)

/-- The reply without data. -/
def sendReply (error handle : Nat) : Phase :=
  .reply [⟨-16, sizeofNbdReply⟩] 0 (replyMemory error handle fun _ => 0)

/-- What one step of a worker comes to; it exits if there is no next phase. -/
structure Effect where
  client : Client
  stores : List (Int × UInt8)
  offset : Nat
  next : Option Phase

/-- `err(..)`, in the middle of a request. -/
def err (c : Client) (offset : Nat) : Effect := ⟨{ c with lost := true }, [], offset, none⟩

def enter (c : Client) (offset : Nat) (p : Phase) : Effect := ⟨c, [], offset, some p⟩

/-- The length of the request, with the reply of a READ, fits an `int`. -/
def Fits (iotype : Iotype) (iolen : Nat) : Prop :=
  if iotype = .read then iolen + sizeofNbdReply < 2 ^ 31 else iolen < 2 ^ 31

instance (iotype : Iotype) (iolen : Nat) : Decidable (Fits iotype iolen) :=
  inferInstanceAs (Decidable (ite _ _ _))

/-- The commands. A TRIM punches its hole, if `fallocate` does it, and falls into the default
branch. -/
def command (cfg : Config) (c : Client) (offset : Nat) (iotype : Iotype) (iofrom : Int)
    (iolen handle : Nat) (punched : Bool) : Effect :=
  if cfg.readonly = true ∧ (iotype = .write ∨ iotype = .trim) then err c offset
  else match iotype with
    | .write =>
      match mmapRegionCreate cfg.pagesize iofrom iolen with
      | some mr => enter c offset (.payload iolen handle [⟨mr.iobuf, iolen⟩] 0)
      | none => err c offset
    | .read => enter c offset (.seek iofrom iolen handle)
    | .flush => enter c offset (.fsync handle)
    | .trim =>
      { err c offset with
        stores := if punched ∧ 0 ≤ iofrom then (entryCells ⟨iofrom, iolen⟩).map (·, 0) else [] }
    | _ => err c offset

/-- One system call of a worker, with its result. The offset is that of the disk file, which
all workers share. `flag` is `errno == EIO` after a failure, or the success of `fallocate`. -/
def work (cfg : Config) (disk : File) (offset : Nat) (told : Bool) (c : Client) (p : Phase)
    (sent : Int) (flag : Bool) : Option Effect :=
  match p with
  | .poll =>
    if told then some ⟨c, [], offset, none⟩
    else if c.closed || !c.arrived.isEmpty then some (enter c offset .header)
    else none
  | .header =>
    if c.arrived.length < sizeofNbdRequest then
      if c.closed then some ⟨c, [], offset, none⟩ else none
    else
      let c' := { c with pos := c.pos + sizeofNbdRequest }
      match nbdServerRecvRequest cfg.disksize (headerAt c.sent c.pos) with
      | .badRequest error handle => some (enter c' offset (sendReply error handle))
      | .magicMismatch => some (err c' offset)
      | .terminate => some ⟨c', [], offset, none⟩
      | .ok iotype iofrom iolen handle =>
        let c' := { c' with lost := c.lost || !decide (Fits iotype iolen) }
        some (command cfg c' offset iotype iofrom iolen handle flag)
  | .payload iolen handle iov total =>
    if StreamMay c.arrived iov sent ∧ (sent = 0 → size iov = 0 ∨ c.closed = true) then
      let stores := (cells iov).zip (c.arrived.take sent.toNat)
      let c' := { c with pos := c.pos + sent.toNat }
      match netIovStep iov total sent with
      | .next rest total' => some ⟨c', stores, offset, some (.payload iolen handle rest total')⟩
      | .done ret =>
        if 0 ≤ allOrError iolen ret then some ⟨c', stores, offset, some (sendReply 0 handle)⟩
        else if flag then
          some ⟨{ c' with lost := true }, stores, offset, some (sendReply eio handle)⟩
        else some { err c' offset with stores }
    else none
  | .seek iofrom iolen handle =>
    if iofrom < 0 then some (err c offset)
    else some (enter c iofrom.toNat (.read iolen handle [⟨0, iolen⟩] 0 fun _ => 0))
  | .read iolen handle iov total buf =>
    if ReadvMay cfg.disksize offset iov sent then
      let buf' := fill buf iov (slice disk offset sent.toNat)
      let offset' := offset + sent.toNat
      match netIovStep iov total sent with
      | .next rest total' => some (enter c offset' (.read iolen handle rest total' buf'))
      | .done ret =>
        if 0 ≤ allOrError iolen ret then
          some (enter c offset' (.reply (replyIov 0 iolen) 0 (replyMemory 0 handle buf')))
        else if flag then some (enter c offset' (sendReply eio handle))
        else some (err c offset')
    else none
  | .fsync handle =>
    if sent = 0 then some (enter c offset (sendReply 0 handle))
    else if flag then some (enter c offset (sendReply eio handle))
    else some (err c offset)
  | .reply iov total mem =>
    if WritevMay iov sent then
      let c' := { c with replied := c.replied ++ ((cells iov).take sent.toNat).map mem }
      match netIovStep iov total sent with
      | .next rest total' => some (enter c' offset (.reply rest total' mem))
      | .done ret => if CheckDone ret then some (enter c' offset .poll) else some (err c' offset)
    else none

/-- How far `xnbd_target_make_snapshot` is. Of the bytes copied, `buf` is what `write_all` has
not written yet. -/
inductive Copy where
  | before
  | copying (now total : Nat) (dst buf : List UInt8)
  | done

/-- A snapshot file, named by the time. The last two fields are notes: the stores made before
the snapshot was begun, and how the connections stood then. -/
structure Image where
  now : Nat
  bytes : List UInt8
  log : List (Nat × Int × UInt8)
  clients : Nat → Client

/-- `log` is a note of every byte that a worker stored, with its connection. -/
structure System where
  master : State
  disk : File
  offset : Nat
  clients : Nat → Client
  phases : Nat → Phase
  copy : Copy
  snapshots : List Image
  log : List (Nat × Int × UInt8)

inductive Event where
  | master (a : Act)
  | send (conn : Nat) (bytes : List UInt8)
  | close (conn : Nat)
  /-- `poll` of a worker fails with `EINTR`. -/
  | interrupt (pid : Nat)
  | work (pid : Nat) (sent : Int) (flag : Bool)
  /-- The file of that time cannot be opened. -/
  | openFails
  | reflink (now : Nat)
  /-- Cloning by reflink fails, and the copy begins. -/
  | fallBack (now : Nat)
  | pread (count : Nat)
  | write (count : Nat)

def kill (m : State) (pid : Nat) : State :=
  { m with workers := m.workers.map (Worker.exit pid), pending.sigchld := true }

def find (m : State) (pid : Nat) : Option Worker := (alive m).find? fun w => w.pid = pid

def apply (s : System) (w : Worker) (e : Effect) : System :=
  { s with
    master := if e.next.isSome then s.master else kill s.master w.pid
    disk := storeAll s.disk e.stores
    offset := e.offset
    clients := Function.update s.clients w.conn e.client
    phases := match e.next with
      | some p => Function.update s.phases w.pid p
      | none => s.phases
    log := s.log ++ e.stores.map (w.conn, ·) }

/-- `link` does not replace a file, and the master gives up. -/
def linkSnapshot (s : System) (now : Nat) (bytes : List UInt8) : System :=
  if now ∈ s.snapshots.map Image.now then { s with master := { s.master with pc := .left } }
  else { s with copy := .done, snapshots := s.snapshots ++ [⟨now, bytes, s.log, s.clients⟩] }

/-- The master makes a snapshot. -/
def snapshotting (m : State) : Bool := m.pc = .reinit && !m.restartingForModeChange

def masterStep (s : System) (a : Act) : Option System :=
  (Master.step s.master a).map fun m =>
    match a with
    | .fork pid => { s with master := m, phases := Function.update s.phases pid .poll }
    | .loop => { s with master := m, copy := .before }
    | _ => { s with master := m }

/-- A worker dies of a signal. -/
def killed (s : System) (pid : Nat) : Option System :=
  (find s.master pid).map fun w =>
    apply s w <| match s.phases pid with
      | .poll => ⟨s.clients w.conn, [], s.offset, none⟩
      | _ => err (s.clients w.conn) s.offset

def step (cfg : Config) (s : System) : Event → Option System
  | .master a =>
    match a with
    | .exit pid => killed s pid
    | .loop =>
      match snapshotting s.master, s.copy with
      | false, _ => masterStep s .loop
      | true, .done => masterStep s .loop
      | true, _ => none
    | _ => masterStep s a
  | .send conn bytes =>
    let c := s.clients conn
    if c.closed then none
    else
      some { s with clients := Function.update s.clients conn { c with sent := c.sent ++ bytes } }
  | .close conn =>
    some { s with clients := Function.update s.clients conn { s.clients conn with closed := true } }
  | .interrupt pid =>
    match find s.master pid, s.phases pid with
    | some w, .poll => some (apply s w ⟨s.clients w.conn, [], s.offset, none⟩)
    | _, _ => none
  | .work pid sent flag =>
    (find s.master pid).bind fun w =>
      (work cfg s.disk s.offset w.told (s.clients w.conn) (s.phases pid) sent flag).map (apply s w)
  | .openFails =>
    match snapshotting s.master, s.copy with
    | true, .before => some { s with copy := .done }
    | _, _ => none
  | .reflink now =>
    match snapshotting s.master, s.copy with
    | true, .before => some (linkSnapshot s now (slice s.disk 0 cfg.disksize))
    | _, _ => none
  | .fallBack now =>
    match snapshotting s.master, s.copy with
    | true, .before => some { s with copy := .copying now 0 [] [] }
    | _, _ => none
  | .pread count =>
    match snapshotting s.master, s.copy with
    | true, .copying now total dst [] =>
      if count ≤ 1024 ∧ total + count ≤ cfg.disksize ∧ (count = 0 → cfg.disksize ≤ total) then
        -- at the end of the file the size is compared, and the file gets its name
        if count = 0 then
          if total = cfg.disksize then some (linkSnapshot s now dst)
          else some { s with master := { s.master with pc := .left } }
        else some { s with copy := .copying now (total + count) dst (slice s.disk total count) }
      else none
    | _, _ => none
  | .write count =>
    match snapshotting s.master, s.copy with
    | true, .copying now total dst buf =>
      if 0 < count ∧ count ≤ buf.length then
        some { s with copy := .copying now total (dst ++ buf.take count) (buf.drop count) }
      else none
    | _, _ => none

def start (got pending : Signals) (boot : Boot) (disk : File) : System :=
  ⟨masterServer .target got pending boot, disk, 0, fun _ => .new, fun _ => .poll, .before, [], []⟩

end Model

section Rounds

variable {disksize : Nat}

/-- A request as a worker takes it off the connection, the reply to it, and what it stores.
What a READ brings depends on the other workers, which share the offset of the disk file. -/
inductive Round (disksize : Nat) : List UInt8 → List UInt8 → List (Int × UInt8) → Prop where
  | refused (header : List UInt8) (error handle : Nat)
      (h : nbdServerRecvRequest disksize header = .badRequest error handle) :
      Round disksize header (replyBytes error handle) []
  | write (header payload : List UInt8) (iofrom : Int) (handle : Nat)
      (h : nbdServerRecvRequest disksize header = .ok .write iofrom payload.length handle) :
      Round disksize (header ++ payload) (replyBytes 0 handle)
        ((entryCells ⟨iofrom, payload.length⟩).zip payload)
  | read (header data : List UInt8) (iofrom : Int) (handle : Nat)
      (h : nbdServerRecvRequest disksize header = .ok .read iofrom data.length handle) :
      Round disksize header (replyBytes 0 handle ++ data) []
  | readFails (header : List UInt8) (iofrom : Int) (iolen handle : Nat)
      (h : nbdServerRecvRequest disksize header = .ok .read iofrom iolen handle) :
      Round disksize header (replyBytes eio handle) []
  | flush (header : List UInt8) (iofrom : Int) (iolen handle error : Nat)
      (herror : error = 0 ∨ error = eio)
      (h : nbdServerRecvRequest disksize header = .ok .flush iofrom iolen handle) :
      Round disksize header (replyBytes error handle) []
  | disc (header : List UInt8) (h : nbdServerRecvRequest disksize header = .terminate) :
      Round disksize header [] []

/-- Requests one after the other. -/
inductive Rounds (disksize : Nat) : List UInt8 → List UInt8 → List (Int × UInt8) → Prop where
  | none : Rounds disksize [] [] []
  | more {taken replies : List UInt8} {stores : List (Int × UInt8)}
      {header reply : List UInt8} {placed : List (Int × UInt8)}
      (before : Rounds disksize taken replies stores) (last : Round disksize header reply placed) :
      Rounds disksize (taken ++ header) (replies ++ reply) (stores ++ placed)

/-- The worker has read a header, and `part` behind it, and has not replied yet. -/
def Pending (disksize : Nat) (c : Client) (stores : List (Int × UInt8)) (iotype : Iotype)
    (iofrom : Int) (iolen handle : Nat) (part : List UInt8) : Prop :=
  ∃ taken header done, c.sent.take c.pos = taken ++ (header ++ part) ∧
    Rounds disksize taken c.replied done ∧
    nbdServerRecvRequest disksize header = .ok iotype iofrom iolen handle ∧
    stores = done ++ (entryCells ⟨iofrom, iolen⟩).zip part

/-- How a connection stands whose worker is in this phase. -/
def Stands (disksize : Nat) (c : Client) (stores : List (Int × UInt8)) : Phase → Prop
  | .poll => Rounds disksize (c.sent.take c.pos) c.replied stores
  | .header => Rounds disksize (c.sent.take c.pos) c.replied stores
  | .payload iolen handle iov total =>
    ∃ iofrom part, Pending disksize c stores .write iofrom iolen handle part ∧
      iolen < 2 ^ 31 ∧ part.length ≤ iolen ∧ total = part.length ∧
      cells iov = (entryCells ⟨iofrom, iolen⟩).drop part.length
  | .seek iofrom iolen handle =>
    Pending disksize c stores .read iofrom iolen handle [] ∧ iolen + sizeofNbdReply < 2 ^ 31
  | .read iolen handle iov total _ =>
    ∃ iofrom, Pending disksize c stores .read iofrom iolen handle [] ∧
      iolen + sizeofNbdReply < 2 ^ 31 ∧ 0 ≤ total ∧ total + size iov = iolen
  | .fsync handle => ∃ iofrom iolen, Pending disksize c stores .flush iofrom iolen handle []
  | .reply iov total mem =>
    0 ≤ total ∧ total + size iov < 2 ^ 31 ∧
      Rounds disksize (c.sent.take c.pos) (c.replied ++ (cells iov).map mem) stores

/-- What becomes of a connection: its client sends more, workers read and reply. -/
structure Grows (c d : Client) : Prop where
  sent : c.sent <+: d.sent
  pos : c.pos ≤ d.pos
  replied : c.replied <+: d.replied
  lost : c.lost = true → d.lost = true

theorem Grows.refl (c : Client) : Grows c c :=
  ⟨List.prefix_refl _, le_refl _, List.prefix_refl _, id⟩

theorem Grows.trans {b c d : Client} (h : Grows b c) (h' : Grows c d) : Grows b d :=
  ⟨h.sent.trans h'.sent, h.pos.trans h'.pos, h.replied.trans h'.replied, h'.lost ∘ h.lost⟩

end Rounds

section Workers

variable {cfg : Config} {disk : File} {offset : Nat} {told : Bool} {c : Client} {p : Phase}
  {sent total : Int} {flag : Bool} {e : Effect} {stores : List (Int × UInt8)} {iov : List Iovec}
  {iolen handle : Nat}

/-- The prefix that was read, when `count` bytes more are read. -/
theorem take_arrived (c : Client) (count : Nat) :
    c.sent.take (c.pos + count) = c.sent.take c.pos ++ c.arrived.take count := List.take_add

theorem sendReply_stands {error : Nat} {taken header reply placed}
    (hreply : reply = replyBytes error handle) (htaken : c.sent.take c.pos = taken ++ header)
    (hbefore : Rounds cfg.disksize taken c.replied stores)
    (hround : Round cfg.disksize header reply placed) :
    Stands cfg.disksize c (stores ++ placed) (sendReply error handle) := by
  subst hreply
  refine ⟨le_refl 0, by simp [sizeofNbdReply], ?_⟩
  have hcells : (cells [⟨-16, sizeofNbdReply⟩]).map (replyMemory error handle fun _ => 0) =
      replyBytes error handle := rfl
  rw [hcells, htaken]
  exact .more hbefore hround

/-- The reply to a request with nothing behind its header. -/
theorem Pending.replies {iotype : Iotype} {iofrom : Int} {error : Nat}
    (h : Pending cfg.disksize c stores iotype iofrom iolen handle [])
    (hround : ∀ header, nbdServerRecvRequest cfg.disksize header = .ok iotype iofrom iolen handle →
      Round cfg.disksize header (replyBytes error handle) []) :
    Stands cfg.disksize c stores (sendReply error handle) := by
  obtain ⟨taken, header, done, htaken, hbefore, hok, hstores⟩ := h
  rw [List.append_nil] at htaken
  rw [hstores, List.zip_nil_right]
  exact sendReply_stands rfl htaken hbefore (hround header hok)

/-- A call that leaves something to move. -/
theorem moves_on {rest : List Iovec} {total' : Int} (h0 : 0 ≤ total)
    (hmax : total + size iov < 2 ^ 31) (hsent : 0 ≤ sent)
    (h : netIovStep iov total sent = .next rest total') :
    total' = total + sent ∧ cells rest = (cells iov).drop sent.toNat ∧
      total' + size rest = total + size iov := by
  obtain ⟨-, -, hadvance, rfl⟩ := netIovStep_next h
  obtain ⟨hcells, hsize⟩ := advance_cells (le_refl 0) (by omega) hadvance hsent
  rw [Int.sub_zero] at hcells
  exact ⟨rfl, hcells, by omega⟩

/-- The call after which the transfer returns. -/
theorem moves_last {ret : Int} (h0 : 0 ≤ total) (hmax : total + size iov < 2 ^ 31)
    (hsent : 0 ≤ sent) (hle : sent ≤ size iov) (h : netIovStep iov total sent = .done ret) :
    ret = total + sent ∧ (sent = 0 ∨ sent = size iov) := by
  obtain rfl | hpos := hsent.eq_or_lt
  · simp only [netIovStep, if_true, IovStep.done.injEq] at h
    rw [toInt32_of_range (by omega) (by omega)] at h
    exact ⟨by omega, .inl rfl⟩
  · have hne0 : sent ≠ 0 := by omega
    have hne1 : sent ≠ -1 := by omega
    simp only [netIovStep, hne0, hne1, if_false] at h
    split at h
    · cases h
    · rename_i hadvance
      cases h
      have hall := advance_none (le_refl 0) (by omega) hadvance (by omega)
      rw [toInt32_of_range (by omega) (by omega)]
      exact ⟨rfl, .inr (by omega)⟩

/-- A transfer reports success when everything has been moved. -/
theorem moves_whole {ret : Int} (h0 : 0 ≤ total) (hsize : total + size iov = iolen)
    (hmax : iolen < 2 ^ 31) (hsent : 0 ≤ sent) (hle : sent ≤ size iov)
    (h : netIovStep iov total sent = .done ret) (hok : 0 ≤ allOrError iolen ret) :
    sent = size iov := by
  obtain ⟨hret, hlast⟩ := moves_last h0 (by omega) hsent hle h
  have hint : toInt32 (iolen : Int) = iolen := toInt32_of_range (by omega) (by omega)
  unfold allOrError at hok
  split at hok
  · omega
  · rename_i heq
    rw [hint, not_not] at heq
    omega

theorem allOrError_neg (iolen : Nat) : ¬0 ≤ allOrError iolen (-1) := by
  unfold allOrError
  split <;> omega

/-- The worker exits, or it goes on as the client stands. -/
theorem command_cases {iotype : Iotype} {iofrom : Int}
    (h : command cfg c offset iotype iofrom iolen handle flag = e) (hlost : e.client.lost = false) :
    (∃ mr, iotype = .write ∧ mmapRegionCreate cfg.pagesize iofrom iolen = some mr ∧
        e = enter c offset (.payload iolen handle [⟨mr.iobuf, iolen⟩] 0)) ∨
      (iotype = .read ∧ e = enter c offset (.seek iofrom iolen handle)) ∨
      (iotype = .flush ∧ e = enter c offset (.fsync handle)) := by
  unfold command at h
  split at h
  · subst h
    cases hlost
  split at h
  · split at h
    · rename_i mr hmr
      exact .inl ⟨mr, rfl, hmr, h.symm⟩
    · subst h
      cases hlost
  · exact .inr (.inl ⟨rfl, h.symm⟩)
  · exact .inr (.inr ⟨rfl, h.symm⟩)
  · subst h
    cases hlost
  · subst h
    cases hlost

theorem command_stands {iotype : Iotype} {iofrom : Int}
    (h : command cfg c offset iotype iofrom iolen handle flag = e) (hlost : e.client.lost = false)
    (hfits : Fits iotype iolen) (hp : Pending cfg.disksize c stores iotype iofrom iolen handle []) :
    Stands cfg.disksize e.client (stores ++ e.stores) (e.next.getD .poll) := by
  rcases command_cases h hlost with ⟨mr, rfl, hmr, rfl⟩ | ⟨rfl, rfl⟩ | ⟨rfl, rfl⟩
  all_goals rw [enter, List.append_nil]
  · have hsmall : iolen < 2 ^ 31 := by simpa [Fits] using hfits
    refine ⟨iofrom, [], hp, hsmall, Nat.zero_le _, rfl, ?_⟩
    rw [(mmapRegionCreate_some hmr).1, cells_cons, cells_nil, List.append_nil]
    rfl
  · exact ⟨hp, by simpa [Fits] using hfits⟩
  · exact ⟨iofrom, iolen, hp⟩

theorem header_stands (h : work cfg disk offset told c .header sent flag = some e)
    (hlost : e.client.lost = false)
    (hs : Rounds cfg.disksize (c.sent.take c.pos) c.replied stores) :
    Stands cfg.disksize e.client (stores ++ e.stores) (e.next.getD .poll) := by
  simp only [work] at h
  split at h
  · split at h
    · cases h
      rw [List.append_nil]
      exact hs
    · cases h
  · rename_i hlength
    have htaken := take_arrived c sizeofNbdRequest
    have hheader : c.arrived.take sizeofNbdRequest = headerAt c.sent c.pos := rfl
    rw [hheader] at htaken
    split at h
    · rename_i error handle hparse
      cases h
      exact sendReply_stands rfl htaken hs (.refused _ _ _ hparse)
    · cases h
      cases hlost
    · rename_i hparse
      cases h
      have hall := Rounds.more hs (.disc _ hparse)
      rw [← htaken, List.append_nil] at hall
      exact hall
    · rename_i iotype iofrom iolen handle hparse
      cases h
      have hkept : (c.lost || !decide (Fits iotype iolen)) = false := by
        rcases command_cases rfl hlost with ⟨mr, -, -, he⟩ | ⟨-, he⟩ | ⟨-, he⟩
        all_goals
          rw [he] at hlost
          exact hlost
      have hfits : Fits iotype iolen := by simpa using (Bool.or_eq_false_iff.mp hkept).2
      refine command_stands rfl hlost hfits ⟨_, _, stores, ?_, hs, hparse, ?_⟩
      · rw [List.append_nil]
        exact htaken
      · rw [List.zip_nil_right, List.append_nil]

/-- Two deliveries into the buffers of one list. -/
theorem zip_delivered {α β : Type} {places : List α} {part bytes : List β}
    (h : part.length ≤ places.length) :
    places.zip (part ++ bytes) = places.zip part ++ (places.drop part.length).zip bytes := by
  have hfirst : (places.take part.length).length = part.length := by
    rw [List.length_take]
    omega
  have hall : ∀ rest : List β, places.zip (part ++ rest) =
      (places.take part.length).zip part ++ (places.drop part.length).zip rest := by
    intro rest
    rw [← List.zip_append hfirst, List.take_append_drop]
  have hpart := hall []
  rw [List.append_nil, List.zip_nil_right, List.append_nil] at hpart
  rw [hall, hpart]

theorem payload_stands
    (h : work cfg disk offset told c (.payload iolen handle iov total) sent flag = some e)
    (hlost : e.client.lost = false)
    (hs : Stands cfg.disksize c stores (.payload iolen handle iov total)) :
    Stands cfg.disksize e.client (stores ++ e.stores) (e.next.getD .poll) := by
  obtain ⟨iofrom, part, ⟨taken, header, done, htaken, hbefore, hok, hstores⟩, hsmall, hpart, htotal,
    hcells⟩ := hs
  simp only [work] at h
  split at h
  · rename_i hmay
    obtain ⟨hcount, hfew⟩ := streamMay_count hmay.1
    have hsize : size iov = iolen - part.length := by
      rw [← cells_length, hcells, List.length_drop, entryCells_length]
    rw [cells_length, hsize] at hfew
    -- what has arrived of the payload with this call
    generalize hbytes : c.arrived.take sent.toNat = bytes at *
    have hread : c.sent.take (c.pos + sent.toNat) = taken ++ (header ++ (part ++ bytes)) := by
      rw [take_arrived, hbytes, htaken, List.append_assoc, List.append_assoc]
    have hplaced : stores ++ (cells iov).zip bytes =
        done ++ (entryCells ⟨iofrom, iolen⟩).zip (part ++ bytes) := by
      have hroom : part.length ≤ (entryCells ⟨iofrom, iolen⟩).length := by
        rw [entryCells_length]
        exact hpart
      rw [hstores, hcells, zip_delivered hroom, List.append_assoc]
    have hlength : (part ++ bytes).length = part.length + sent.toNat := by
      rw [List.length_append, hcount]
    have hsent : ∀ ret, netIovStep iov total sent = .done ret → 0 ≤ allOrError iolen ret →
        (part ++ bytes).length = iolen := by
      intro ret hdone hok
      rcases hmay.1 with rfl | ⟨h0, hle, -, -⟩
      · cases hdone
        exact absurd hok (allOrError_neg iolen)
      · have hall := moves_whole (by omega) (by omega) hsmall h0 hle hdone hok
        omega
    split at h
    · rename_i rest total' hnext
      cases h
      have h0 : 0 ≤ sent := by
        rcases hmay.1 with rfl | ⟨h0, -⟩
        · cases hnext
        · exact h0
      obtain ⟨rfl, hrest, hleft⟩ := moves_on (by omega) (by omega) h0 hnext
      refine ⟨iofrom, part ++ bytes, ⟨taken, header, done, hread, hbefore, hok, hplaced⟩, hsmall,
        by omega, by omega, ?_⟩
      rw [hrest, hcells, List.drop_drop, hlength]
    · rename_i ret hdone
      split at h
      · rename_i hwhole
        cases h
        have hall := hsent ret hdone hwhole
        subst hall
        exact hplaced ▸ sendReply_stands rfl hread hbefore (.write _ _ _ _ hok)
      split at h
      · cases h
        cases hlost
      · cases h
        cases hlost
  · cases h

/-- The whole of the data has been read. -/
theorem data_stands {buf : Memory} {iofrom : Int}
    (h : Pending cfg.disksize c stores .read iofrom iolen handle [])
    (hsmall : iolen + sizeofNbdReply < 2 ^ 31) :
    Stands cfg.disksize c stores (.reply (replyIov 0 iolen) 0 (replyMemory 0 handle buf)) := by
  obtain ⟨taken, header, done, htaken, hbefore, hok, hstores⟩ := h
  have hsize : size (replyIov 0 iolen) = sizeofNbdReply + iolen := by simp [replyIov]
  have hdata := @TargetRead.replyIov_cells buf (fun x => buf x) 0 iolen handle fun k _ => by
    rw [Nat.zero_add]
  have hlength : (slice (fun x => buf x) 0 iolen).length = iolen := slice_length _ _ _
  refine ⟨le_refl 0, by omega, ?_⟩
  rw [hdata, htaken, List.append_nil, hstores, List.zip_nil_right]
  exact .more hbefore (.read _ _ iofrom _ (by rw [hlength]; exact hok))

theorem read_stands {buf : Memory}
    (h : work cfg disk offset told c (.read iolen handle iov total buf) sent flag = some e)
    (hlost : e.client.lost = false)
    (hs : Stands cfg.disksize c stores (.read iolen handle iov total buf)) :
    Stands cfg.disksize e.client (stores ++ e.stores) (e.next.getD .poll) := by
  obtain ⟨iofrom, hpending, hsmall, h0, hsum⟩ := hs
  have hnothing : e.stores = [] → stores ++ e.stores = stores := fun he => by
    rw [he, List.append_nil]
  simp only [work] at h
  split at h
  · rename_i hmay
    split at h
    · rename_i rest total' hnext
      cases h
      have hsent : 0 ≤ sent := by
        rcases hmay with rfl | ⟨hsent, -⟩
        · cases hnext
        · exact hsent
      obtain ⟨rfl, -, hleft⟩ := moves_on h0 (by omega) hsent hnext
      rw [hnothing rfl]
      exact ⟨iofrom, hpending, hsmall, by omega, by omega⟩
    · rename_i ret hdone
      split at h
      · cases h
        rw [hnothing rfl]
        exact data_stands hpending hsmall
      split at h
      · cases h
        rw [hnothing rfl]
        exact hpending.replies fun header hok => .readFails header iofrom iolen handle hok
      · cases h
        cases hlost
  · cases h

theorem reply_stands {mem : Memory}
    (h : work cfg disk offset told c (.reply iov total mem) sent flag = some e)
    (hlost : e.client.lost = false)
    (hs : Stands cfg.disksize c stores (.reply iov total mem)) :
    Stands cfg.disksize e.client (stores ++ e.stores) (e.next.getD .poll) := by
  obtain ⟨h0, hmax, hrounds⟩ := hs
  simp only [work] at h
  split at h
  · rename_i hmay
    split at h
    · rename_i rest total' hnext
      cases h
      have hsent : 0 ≤ sent := by
        rcases hmay with rfl | ⟨hsent, -⟩
        · cases hnext
        · exact hsent.le
      obtain ⟨rfl, hrest, hleft⟩ := moves_on h0 hmax hsent hnext
      refine ⟨by omega, by omega, ?_⟩
      rw [enter, List.append_nil, hrest, List.append_assoc, ← List.map_append,
        List.take_append_drop]
      exact hrounds
    · rename_i ret hdone
      split at h
      · rename_i hcheck
        cases h
        rcases hmay with rfl | ⟨hsent, hle⟩
        · cases hdone
          exact absurd hcheck (by decide)
        obtain ⟨-, hlast⟩ := moves_last h0 hmax hsent.le hle hdone
        have hall : (cells iov).take sent.toNat = cells iov :=
          List.take_of_length_le (by rw [cells_length]; omega)
        rw [enter, List.append_nil, hall]
        exact hrounds
      · cases h
        cases hlost
  · cases h
/-- A step of a worker keeps the connection in order. -/
theorem work_stands (h : work cfg disk offset told c p sent flag = some e)
    (hlost : e.client.lost = false) (hs : Stands cfg.disksize c stores p) :
    Stands cfg.disksize e.client (stores ++ e.stores) (e.next.getD .poll) := by
  cases p with
  | poll =>
    simp only [work] at h
    split at h
    · cases h
      rw [List.append_nil]
      exact hs
    split at h
    · cases h
      rw [enter, List.append_nil]
      exact hs
    · cases h
  | header => exact header_stands h hlost hs
  | payload iolen handle iov total => exact payload_stands h hlost hs
  | seek iofrom iolen handle =>
    simp only [work] at h
    split at h
    · cases h
      cases hlost
    · cases h
      rw [enter, List.append_nil]
      exact ⟨iofrom, hs.1, hs.2, le_refl 0, by simp⟩
  | read iolen handle iov total buf => exact read_stands h hlost hs
  | fsync handle =>
    obtain ⟨iofrom, iolen, hpending⟩ := hs
    simp only [work] at h
    split at h
    · cases h
      rw [enter, List.append_nil]
      exact hpending.replies fun header hok => .flush header iofrom iolen handle 0 (.inl rfl) hok
    split at h
    · cases h
      rw [enter, List.append_nil]
      exact hpending.replies fun header hok => .flush header iofrom iolen handle eio (.inr rfl) hok
    · cases h
      cases hlost
  | reply iov total mem => exact reply_stands h hlost hs

/-- A step reads a few of the bytes that have arrived, or sends a few. -/
inductive Moves (c : Client) : Client → Prop where
  | reads (count : Nat) (lost : Bool) (hcount : count ≤ c.arrived.length)
      (hlost : c.lost = true → lost = true) : Moves c { c with pos := c.pos + count, lost }
  | sends (out : List UInt8) (lost : Bool) (hlost : c.lost = true → lost = true) :
      Moves c { c with replied := c.replied ++ out, lost }

theorem Moves.stays (c : Client) : Moves c c := .reads 0 c.lost (Nat.zero_le _) id

theorem Moves.err (c : Client) (offset : Nat) : Moves c (err c offset).client :=
  .reads 0 true (Nat.zero_le _) fun _ => rfl

theorem command_moves {iotype : Iotype} {iofrom : Int} {d : Client} (h : Moves c d)
    (htrue : Moves c { d with lost := true }) :
    Moves c (command cfg d offset iotype iofrom iolen handle flag).client := by
  unfold command
  split
  · exact htrue
  split
  · split
    · exact h
    · exact htrue
  · exact h
  · exact h
  · exact htrue
  · exact htrue

theorem work_moves (h : work cfg disk offset told c p sent flag = some e) : Moves c e.client := by
  cases p with
  | poll =>
    simp only [work] at h
    split at h
    · cases h
      exact .stays c
    split at h
    · cases h
      exact .stays c
    · cases h
  | header =>
    simp only [work] at h
    split at h
    · split at h
      · cases h
        exact .stays c
      · cases h
    · rename_i hlength
      have htakes : ∀ lost : Bool, (c.lost = true → lost = true) →
          Moves c { c with pos := c.pos + sizeofNbdRequest, lost } :=
        fun lost hlost => .reads _ lost (by omega) hlost
      split at h
      · cases h
        exact htakes c.lost id
      · cases h
        exact htakes true fun _ => rfl
      · cases h
        exact htakes c.lost id
      · cases h
        refine command_moves (htakes _ fun hlost => ?_) (htakes true fun _ => rfl)
        rw [hlost, Bool.true_or]
  | payload iolen handle iov total =>
    simp only [work] at h
    split at h
    · rename_i hmay
      have hfew : sent.toNat ≤ c.arrived.length := by
        rcases hmay.1 with rfl | ⟨-, -, hle, -⟩
        · exact Nat.zero_le _
        · omega
      split at h
      · cases h
        exact .reads _ c.lost hfew id
      split at h
      · cases h
        exact .reads _ c.lost hfew id
      split at h
      · cases h
        exact .reads _ true hfew fun _ => rfl
      · cases h
        exact .reads _ true hfew fun _ => rfl
    · cases h
  | seek iofrom iolen handle =>
    simp only [work] at h
    split at h
    · cases h
      exact .err c offset
    · cases h
      exact .stays c
  | read iolen handle iov total buf =>
    simp only [work] at h
    split at h
    · split at h
      · cases h
        exact .stays c
      split at h
      · cases h
        exact .stays c
      split at h
      · cases h
        exact .stays c
      · cases h
        exact .err c _
    · cases h
  | fsync handle =>
    simp only [work] at h
    split at h
    · cases h
      exact .stays c
    split at h
    · cases h
      exact .stays c
    · cases h
      exact .err c offset
  | reply iov total mem =>
    simp only [work] at h
    split at h
    · split at h
      · cases h
        exact .sends _ c.lost id
      split at h
      · cases h
        exact .sends _ c.lost id
      · cases h
        exact .sends _ true fun _ => rfl
    · cases h

theorem Moves.grows {d : Client} (h : Moves c d) : Grows c d := by
  cases h with
  | reads count lost hcount hlost =>
    exact ⟨List.prefix_refl _, Nat.le_add_right _ _, List.prefix_refl _, hlost⟩
  | sends out lost hlost =>
    exact ⟨List.prefix_refl _, le_refl _, List.prefix_append _ _, hlost⟩

theorem Moves.bounded {d : Client} (h : Moves c d) (hc : c.pos ≤ c.sent.length) :
    d.pos ≤ d.sent.length := by
  cases h with
  | reads count lost hcount hlost =>
    rw [Client.arrived, List.length_drop] at hcount
    exact show c.pos + count ≤ c.sent.length by omega
  | sends out lost hlost => exact hc

end Workers

section Generations

variable {m n : State} {a : Act} {pid : Nat}

/-- The workers that run, with their connections. -/
def roll (m : State) : List (Nat × Nat) := (alive m).map fun w => (w.pid, w.conn)

theorem filter_eraseP {α : Type} {p q : α → Bool} {l : List α} {x : α} (hx : l.find? p = some x)
    (hq : q x = false) : (l.eraseP p).filter q = l.filter q := by
  induction l with
  | nil => rfl
  | cons y l ih =>
    by_cases hy : p y = true
    · rw [List.find?_cons_of_pos hy, Option.some.injEq] at hx
      subst hx
      rw [List.eraseP_cons_of_pos hy, List.filter_cons_of_neg (by simp [hq])]
    · rw [List.find?_cons_of_neg hy] at hx
      rw [List.eraseP_cons_of_neg hy, List.filter_cons, List.filter_cons, ih hx]

theorem loop_workers (h : loop m = some n) : n.workers = m.workers := by
  simp only [loop] at h
  split at h
  · cases h
    split
    · rfl
    · split <;> rfl
  · cases h
    rfl
  · cases h
    rfl
  · cases h
    rfl
  · cases h
    obtain ⟨got, mode, snapshot, armed, pc, he, -⟩ := handleSigusr_eq m
    rw [he]
  · cases h
    rfl
  · split at h
    · cases h
      rfl
    · cases h
  · cases h
    rfl
  · cases h

theorem roll_eq (h : n.workers = m.workers) : roll n = roll m := by
  rw [roll, alive, h]
  rfl

theorem roll_tell (l : List Worker) :
    ((l.map (Worker.tell pid)).filter fun w => !w.exited).map (fun w => (w.pid, w.conn)) =
      (l.filter fun w => !w.exited).map fun w => (w.pid, w.conn) := by
  have htell : ∀ w : Worker, (w.tell pid).exited = w.exited ∧ (w.tell pid).pid = w.pid ∧
      (w.tell pid).conn = w.conn := by
    intro w
    unfold Worker.tell
    split <;> exact ⟨rfl, rfl, rfl⟩
  rw [List.filter_map, List.map_map]
  have hfilter : ((fun w : Worker => !w.exited) ∘ Worker.tell pid) = fun w => !w.exited :=
    funext fun w => by rw [Function.comp_apply, (htell w).1]
  rw [hfilter]
  apply List.map_congr_left
  intro w _
  rw [Function.comp_apply, (htell w).2.1, (htell w).2.2]

theorem waitpid_roll {got : Option Nat} (h : waitpid m got = some n) : roll n = roll m := by
  cases got with
  | none =>
    simp only [waitpid] at h
    split at h
    · cases h
    · split at h
      · cases h
        rfl
      · cases h
        rfl
  | some pid =>
    simp only [waitpid] at h
    split at h
    · rename_i w x hw hx
      split at h
      · rename_i hexited
        cases h
        rw [roll, alive, reapSession, filter_eraseP hw (by simp [hexited])]
        rfl
      · cases h
    · split at h
      · cases h
        rfl
      · cases h
    · cases h

/-- The master forks a worker for a connection; no other step of it changes what workers run. -/
theorem step_roll (h : Master.step m a = some n) (hexit : ∀ pid, a ≠ .exit pid) :
    (∃ pid conn, a = .fork pid ∧ roll n = roll m ++ [(pid, conn)] ∧
        pid ∉ m.workers.map Worker.pid) ∨
      (∀ pid, a ≠ .fork pid) ∧ roll n = roll m := by
  cases a with
  | raise sent =>
    cases h
    exact .inr ⟨fun _ => by simp, rfl⟩
  | exit pid => exact absurd rfl (hexit pid)
  | loop => exact .inr ⟨fun _ => by simp, roll_eq (loop_workers h)⟩
  | waitpid got =>
    simp only [Master.step] at h
    split at h
    · exact .inr ⟨fun _ => by simp, waitpid_roll h⟩
    · cases h
  | fork pid =>
    simp only [Master.step] at h
    split at h
    · cases h
    rename_i hpid
    have hforked : ∀ (d : Desc) (pc : Pc),
        roll { invokeNewSession m d pid with pc } = roll m ++ [(pid, d.conn)] := by
      intro d pc
      simp [roll, alive, invokeNewSession]
    split at h
    · cases h
      exact .inl ⟨pid, _, rfl, hforked _ _, hpid⟩
    · cases h
      exact .inl ⟨pid, _, rfl, hforked _ _, hpid⟩
    · cases h
  | dup fd =>
    simp only [Master.step] at h
    split at h
    · cases h
    split at h
    · split at h
      · cases h
      · cases h
        exact .inr ⟨fun _ => by simp, roll_tell _⟩
    · cases h
  | interrupt caught =>
    simp only [Master.step] at h
    split at h
    · cases h
      exact .inr ⟨fun _ => by simp, rfl⟩
    · cases h
  | ready =>
    simp only [Master.step] at h
    split at h
    · cases h
      exact .inr ⟨fun _ => by simp, rfl⟩
    · cases h
  | accept fd =>
    simp only [Master.step] at h
    split at h
    · cases h
      exact .inr ⟨fun _ => by simp, rfl⟩
    · cases h
  | negotiated ok =>
    simp only [Master.step] at h
    split at h
    · cases h
      cases ok <;> exact .inr ⟨fun _ => by simp, rfl⟩
    · cases h
  | fail =>
    cases h
    exact .inr ⟨fun _ => by simp, rfl⟩

theorem kill_roll (m : State) (pid : Nat) :
    roll (kill m pid) = (roll m).filter fun x => x.1 ≠ pid := by
  have hone : ∀ l : List Worker,
      ((l.map (Worker.exit pid)).filter fun w => !w.exited).map (fun w => (w.pid, w.conn)) =
        ((l.filter fun w => !w.exited).map fun w => (w.pid, w.conn)).filter fun x => x.1 ≠ pid := by
    intro l
    induction l with
    | nil => rfl
    | cons w l ih =>
      by_cases hpid : w.pid = pid
      · by_cases hexited : w.exited = true
        · simpa [Worker.exit, hpid, hexited] using ih
        · simpa [Worker.exit, hpid, hexited] using ih
      · by_cases hexited : w.exited = true
        · simpa [Worker.exit, hpid, hexited] using ih
        · simpa [Worker.exit, hpid, hexited] using ih
  exact hone m.workers

theorem kill_step (m : State) (pid : Nat) : Master.step m (.exit pid) = some (kill m pid) := rfl

end Generations

section Order

variable {cfg : Config} {s t : System} {initial : File} {ev : Event} {conn pid : Nat}

/-- What the workers of a connection have stored. -/
def storesOf (log : List (Nat × Int × UInt8)) (conn : Nat) : List (Int × UInt8) :=
  (log.filter fun x => x.1 = conn).map Prod.snd

/-- What the copy has, while nothing else goes on. -/
def Copied (disksize : Nat) (s : System) : Prop :=
  match s.copy with
  | .before => True
  | .copying _ total dst buf => s.master.pc = .left ∨ (s.master.pc = .reinit ∧ total ≤ disksize ∧
      dst ++ buf = slice s.disk 0 total)
  | .done => s.master.pc = .left ∨ s.master.pc = .reinit

/-- A snapshot is the disk as it was when every request that had been begun was finished. -/
structure Image.Whole (disksize : Nat) (initial : File) (log : List (Nat × Int × UInt8))
    (clients : Nat → Client) (x : Image) : Prop where
  bytes : x.bytes = slice (storeAll initial (x.log.map Prod.snd)) 0 disksize
  before : x.log <+: log
  grown : ∀ conn, Grows (x.clients conn) (clients conn)
  rounds : ∀ conn, (x.clients conn).lost = false →
    Rounds disksize ((x.clients conn).sent.take (x.clients conn).pos) (x.clients conn).replied
      (storesOf x.log conn)

structure Sound (disksize : Nat) (initial : File) (s : System) : Prop where
  conserved : Conserved s.master
  disk : s.disk = storeAll initial (s.log.map Prod.snd)
  bounded : ∀ conn, (s.clients conn).pos ≤ (s.clients conn).sent.length
  served : ∀ x ∈ roll s.master, (s.clients x.2).lost = false →
    Stands disksize (s.clients x.2) (storesOf s.log x.2) (s.phases x.1)
  waiting : ∀ conn, conn ∉ (roll s.master).map Prod.snd → (s.clients conn).lost = false →
    Stands disksize (s.clients conn) (storesOf s.log conn) .poll
  copied : Copied disksize s
  whole : ∀ x ∈ s.snapshots, x.Whole disksize initial s.log s.clients
  named : (s.snapshots.map Image.now).Nodup

theorem storesOf_append (log : List (Nat × Int × UInt8)) (stores : List (Int × UInt8)) :
    storesOf (log ++ stores.map (conn, ·)) conn = storesOf log conn ++ stores := by
  have hall : (stores.map (conn, ·)).filter (fun x => x.1 = conn) = stores.map (conn, ·) := by
    apply List.filter_eq_self.mpr
    intro x hx
    obtain ⟨y, -, rfl⟩ := List.mem_map.mp hx
    simp
  have hsnd : (stores.map (conn, ·)).map Prod.snd = stores := by
    rw [List.map_map]
    exact List.map_id _
  rw [storesOf, List.filter_append, List.map_append, hall, hsnd]
  rfl

theorem storesOf_other {other : Nat} (h : other ≠ conn) (log : List (Nat × Int × UInt8))
    (stores : List (Int × UInt8)) :
    storesOf (log ++ stores.map (conn, ·)) other = storesOf log other := by
  have hnone : (stores.map (conn, ·)).filter (fun x => x.1 = other) = [] := by
    apply List.filter_eq_nil_iff.mpr
    intro x hx
    obtain ⟨y, -, rfl⟩ := List.mem_map.mp hx
    simpa using h.symm
  rw [storesOf, List.filter_append, hnone, List.append_nil]
  rfl

theorem storeAll_append (f : File) (first second : List (Int × UInt8)) :
    storeAll f (first ++ second) = storeAll (storeAll f first) second := List.foldl_append

theorem roll_pids {m : State} (h : Conserved m) : ((roll m).map Prod.fst).Nodup := by
  have hpids : (m.workers.map Worker.pid).Nodup := by
    rw [worker_pids h.books]
    exact h.books.pids
  rw [roll, List.map_map]
  exact hpids.sublist (List.filter_sublist.map _)

theorem roll_conns {m : State} (h : Conserved m) : ((roll m).map Prod.snd).Nodup := by
  rw [roll, List.map_map]
  exact alive_conns h

/-- A worker and its connection name each other. -/
theorem roll_unique {m : State} (h : Conserved m) {x y : Nat × Nat} (hx : x ∈ roll m)
    (hy : y ∈ roll m) : (x.1 = y.1 ↔ x = y) ∧ (x.2 = y.2 ↔ x = y) :=
  ⟨⟨List.inj_on_of_nodup_map (roll_pids h) hx hy, congrArg _⟩,
    ⟨List.inj_on_of_nodup_map (roll_conns h) hx hy, congrArg _⟩⟩

theorem find_roll {m : State} {w : Worker} (h : find m pid = some w) :
    (w.pid, w.conn) ∈ roll m ∧ w.pid = pid := by
  have hpid := List.find?_some h
  exact ⟨List.mem_map.mpr ⟨w, List.mem_of_find?_eq_some h, rfl⟩, by simpa using hpid⟩

theorem Image.Whole.grows {disksize : Nat} {x : Image} {log log' : List (Nat × Int × UInt8)}
    {clients clients' : Nat → Client} (h : x.Whole disksize initial log clients)
    (hlog : log <+: log') (hclients : ∀ conn, Grows (clients conn) (clients' conn)) :
    x.Whole disksize initial log' clients' :=
  ⟨h.bytes, h.before.trans hlog, fun conn => (h.grown conn).trans (hclients conn), h.rounds⟩

theorem reinit_roll {disksize : Nat} (h : Sound disksize initial s) (hpc : s.master.pc = .reinit) :
    roll s.master = [] := by
  rw [roll, alive, reinit_alone h.conserved hpc]
  rfl

theorem apply_roll (s : System) (w : Worker) (e : Effect) :
    roll (apply s w e).master =
      if e.next.isSome then roll s.master else (roll s.master).filter fun x => x.1 ≠ w.pid := by
  unfold apply
  dsimp only
  split
  · rfl
  · exact kill_roll _ _

theorem apply_own (s : System) (w : Worker) (e : Effect) :
    (apply s w e).clients w.conn = e.client ∧
      storesOf (apply s w e).log w.conn = storesOf s.log w.conn ++ e.stores :=
  ⟨by simp [apply], storesOf_append _ _⟩

/-- The step of a worker leaves the other connections alone. -/
theorem apply_other {w : Worker} (hconn : conn ≠ w.conn) (s : System) (e : Effect) :
    (apply s w e).clients conn = s.clients conn ∧
      storesOf (apply s w e).log conn = storesOf s.log conn :=
  ⟨by simp [apply, hconn], storesOf_other hconn _ _⟩

section Apply

variable {disksize : Nat} {w : Worker} {e : Effect}

/-- Every worker stands well, the one that goes on and the others. -/
theorem apply_served (h : Sound disksize initial s) (hmem : (w.pid, w.conn) ∈ roll s.master)
    (hstands : e.client.lost = false →
      Stands disksize e.client (storesOf s.log w.conn ++ e.stores) (e.next.getD .poll)) :
    ∀ x ∈ roll (apply s w e).master, ((apply s w e).clients x.2).lost = false →
      Stands disksize ((apply s w e).clients x.2) (storesOf (apply s w e).log x.2)
        ((apply s w e).phases x.1) := by
  intro x hx hlost
  have hold : x ∈ roll s.master := by
    rw [apply_roll] at hx
    split at hx
    · exact hx
    · exact (List.mem_filter.mp hx).1
  by_cases hpid : x.1 = w.pid
  · -- the worker itself, which goes on
    have hself := (roll_unique h.conserved hold hmem).1.mp hpid
    subst hself
    rw [apply_roll] at hx
    split at hx
    · rename_i hnext
      obtain ⟨p, hp⟩ := Option.isSome_iff_exists.mp hnext
      obtain ⟨hclient, hlog⟩ := apply_own s w e
      rw [hclient] at hlost ⊢
      have hs := hstands hlost
      rw [hp, Option.getD_some] at hs
      rw [hlog]
      simpa [apply, hp] using hs
    · simp at hx
  · have hself : ¬x = (w.pid, w.conn) := fun hself => hpid (congrArg Prod.fst hself)
    have hconn : x.2 ≠ w.conn := fun hconn => hself ((roll_unique h.conserved hold hmem).2.mp hconn)
    have hphase : (apply s w e).phases x.1 = s.phases x.1 := by
      cases hnext : e.next with
      | some p => simp only [apply, hnext, Function.update_of_ne hpid]
      | none => simp only [apply, hnext]
    obtain ⟨hclient, hstores⟩ := apply_other hconn s e
    rw [hclient] at hlost ⊢
    rw [hphase, hstores]
    exact h.served x hold hlost

/-- Every connection without a worker stands between two requests, that of a worker which has
exited as well. -/
theorem apply_waiting (h : Sound disksize initial s) (hmem : (w.pid, w.conn) ∈ roll s.master)
    (hstands : e.client.lost = false →
      Stands disksize e.client (storesOf s.log w.conn ++ e.stores) (e.next.getD .poll)) :
    ∀ conn, conn ∉ (roll (apply s w e).master).map Prod.snd →
      ((apply s w e).clients conn).lost = false →
      Stands disksize ((apply s w e).clients conn) (storesOf (apply s w e).log conn) .poll := by
  intro conn hconn hlost
  rw [apply_roll] at hconn
  by_cases hself : conn = w.conn
  · subst hself
    split at hconn
    · exact absurd (List.mem_map.mpr ⟨_, hmem, rfl⟩) hconn
    · rename_i hnext
      rw [Bool.not_eq_true, Option.isSome_eq_false_iff, Option.isNone_iff_eq_none] at hnext
      obtain ⟨hclient, hlog⟩ := apply_own s w e
      rw [hclient] at hlost ⊢
      have hs := hstands hlost
      rw [hnext, Option.getD_none] at hs
      rw [hlog]
      exact hs
  · obtain ⟨hclient, hstores⟩ := apply_other hself s e
    rw [hclient] at hlost ⊢
    rw [hstores]
    refine h.waiting conn (fun hin => hconn ?_) hlost
    obtain ⟨x, hx, rfl⟩ := List.mem_map.mp hin
    refine List.mem_map.mpr ⟨x, ?_, rfl⟩
    split
    · exact hx
    · have hpid : x.1 ≠ w.pid := fun hpid =>
        hself (congrArg Prod.snd ((roll_unique h.conserved hx hmem).1.mp hpid))
      exact List.mem_filter.mpr ⟨hx, by simpa using hpid⟩

/-- While a snapshot is copied there is no worker. -/
theorem apply_copied (h : Sound disksize initial s) (hmem : (w.pid, w.conn) ∈ roll s.master) :
    Copied disksize (apply s w e) := by
  have hpc : (apply s w e).master.pc = s.master.pc := by
    unfold apply
    dsimp only
    split <;> rfl
  have hcopied := h.copied
  unfold Copied at hcopied ⊢
  rw [hpc]
  change match s.copy with | .before => _ | .copying _ _ _ _ => _ | .done => _
  split at hcopied
  · trivial
  · rcases hcopied with hleft | ⟨hreinit, -⟩
    · exact .inl hleft
    · rw [reinit_roll h hreinit] at hmem
      cases hmem
  · exact hcopied

/-- A worker takes a step or exits. -/
theorem apply_sound (h : Sound disksize initial s) (hw : find s.master pid = some w)
    (hmoves : Moves (s.clients w.conn) e.client)
    (hstands : e.client.lost = false →
      Stands disksize e.client (storesOf s.log w.conn ++ e.stores) (e.next.getD .poll)) :
    Sound disksize initial (apply s w e) := by
  obtain ⟨hmem, -⟩ := find_roll hw
  obtain ⟨hown, -⟩ := apply_own s w e
  constructor
  · unfold apply
    dsimp only
    split
    · exact h.conserved
    · exact move_conserved h.conserved (step_move (kill_step s.master w.pid))
  · have hsnd : (e.stores.map (w.conn, ·)).map Prod.snd = e.stores := by
      rw [List.map_map]
      exact List.map_id _
    simp only [apply, List.map_append, storeAll_append, hsnd, ← h.disk]
  · intro conn
    by_cases hconn : conn = w.conn
    · subst hconn
      rw [hown]
      exact hmoves.bounded (h.bounded w.conn)
    · rw [(apply_other hconn s e).1]
      exact h.bounded conn
  · exact apply_served h hmem hstands
  · exact apply_waiting h hmem hstands
  · exact apply_copied h hmem
  · refine fun x hx => (h.whole x hx).grows (List.prefix_append _ _) fun conn => ?_
    by_cases hconn : conn = w.conn
    · subst hconn
      rw [hown]
      exact hmoves.grows
    · rw [(apply_other hconn s e).1]
      exact .refl (s.clients conn)
  · exact h.named

end Apply

/-- The master stays where it makes the snapshot, or where it has given up, but for its own
next step. -/
theorem place_kept {m n : State} {a : Act} (h : Master.step m a = some n) (hloop : a ≠ .loop) :
    (m.pc = .left → n.pc = .left) ∧ (m.pc = .reinit → n.pc = .reinit ∨ n.pc = .left) := by
  cases a with
  | raise sent =>
    cases h
    exact ⟨id, .inl⟩
  | exit pid =>
    cases h
    exact ⟨id, .inl⟩
  | loop => exact absurd rfl hloop
  | fail =>
    cases h
    exact ⟨fun _ => rfl, fun _ => .inr rfl⟩
  | _ =>
    constructor
    all_goals
      intro hpc
      simp [Master.step, hpc] at h

theorem Copied.pass {disksize : Nat} (h : Copied disksize s) (hcopy : t.copy = s.copy)
    (hdisk : t.disk = s.disk) (hleft : s.master.pc = .left → t.master.pc = .left)
    (hreinit : s.master.pc = .reinit → t.master.pc = .reinit ∨ t.master.pc = .left) :
    Copied disksize t := by
  unfold Copied at h ⊢
  rw [hcopy, hdisk]
  split at h
  · trivial
  · rcases h with hpc | ⟨hpc, hrest⟩
    · exact .inl (hleft hpc)
    · exact (hreinit hpc).symm.imp_right fun hpc => ⟨hpc, hrest⟩
  · rcases h with hpc | hpc
    · exact .inl (hleft hpc)
    · exact (hreinit hpc).symm

theorem masterStep_sound {disksize : Nat} {a : Act} (h : Sound disksize initial s)
    (hexit : ∀ pid, a ≠ .exit pid) (hs : masterStep s a = some t) : Sound disksize initial t := by
  obtain ⟨m, hm, rfl⟩ := Option.map_eq_some_iff.mp hs
  have hconserved := move_conserved h.conserved (step_move hm)
  rcases step_roll hm hexit with ⟨pid, conn, rfl, hroll, hpid⟩ | ⟨hfork, hroll⟩
  · -- a worker takes up the connection where it stands
    have hfresh : conn ∉ (roll s.master).map Prod.snd := by
      have hnodup := roll_conns hconserved
      rw [hroll, List.map_append] at hnodup
      exact fun hin => (List.disjoint_of_nodup_append hnodup) hin (List.mem_singleton.mpr rfl)
    obtain ⟨hleft, hreinit⟩ := place_kept hm (by simp)
    refine ⟨hconserved, h.disk, h.bounded, ?_, ?_, h.copied.pass rfl rfl hleft hreinit, h.whole,
      h.named⟩
    · intro x hx hlost
      rw [hroll, List.mem_append, List.mem_singleton] at hx
      rcases hx with hx | rfl
      · have hother : x.1 ≠ pid := by
          rintro rfl
          obtain ⟨w, hw, rfl⟩ := List.mem_map.mp hx
          exact hpid (List.mem_map.mpr ⟨w, (List.mem_filter.mp hw).1, rfl⟩)
        dsimp only
        rw [Function.update_of_ne hother]
        exact h.served x hx hlost
      · dsimp only
        rw [Function.update_self]
        exact h.waiting conn hfresh hlost
    · intro other hother hlost
      refine h.waiting other (fun hin => hother ?_) hlost
      rw [hroll, List.map_append]
      exact List.mem_append_left _ hin
  · have hkeeps : ∀ copy, Copied disksize { s with master := m, copy } →
        Sound disksize initial { s with master := m, copy } := fun copy hcopied =>
      ⟨hconserved, h.disk, h.bounded, fun x hx => h.served x (hroll ▸ hx),
        fun conn hconn => h.waiting conn (hroll ▸ hconn), hcopied, h.whole, h.named⟩
    by_cases hloop : a = .loop
    · subst hloop
      exact hkeeps .before trivial
    · obtain ⟨hleft, hreinit⟩ := place_kept hm hloop
      have hsame := hkeeps s.copy (h.copied.pass rfl rfl hleft hreinit)
      cases a with
      | fork pid => exact absurd rfl (hfork pid)
      | loop => exact absurd rfl hloop
      | _ => exact hsame

theorem Stands.congr {disksize : Nat} {c d : Client} {stores : List (Int × UInt8)} {p : Phase}
    (h : Stands disksize c stores p) (htaken : d.sent.take d.pos = c.sent.take c.pos)
    (hreplied : d.replied = c.replied) : Stands disksize d stores p := by
  have hpending : ∀ {iotype iofrom iolen handle part},
      Pending disksize c stores iotype iofrom iolen handle part →
        Pending disksize d stores iotype iofrom iolen handle part := by
    intro _ _ _ _ _ h
    unfold Pending at h ⊢
    rw [htaken, hreplied]
    exact h
  cases p with
  | payload iolen handle iov total =>
    obtain ⟨iofrom, part, hp, hrest⟩ := h
    exact ⟨iofrom, part, hpending hp, hrest⟩
  | seek iofrom iolen handle => exact ⟨hpending h.1, h.2⟩
  | read iolen handle iov total buf =>
    obtain ⟨iofrom, hp, hrest⟩ := h
    exact ⟨iofrom, hpending hp, hrest⟩
  | fsync handle =>
    obtain ⟨iofrom, iolen, hp⟩ := h
    exact ⟨iofrom, iolen, hpending hp⟩
  | _ =>
    simp only [Stands] at h ⊢
    rw [htaken, hreplied]
    exact h

/-- A client sends more, or closes its side. -/
theorem client_sound {disksize : Nat} {d : Client} (h : Sound disksize initial s)
    (hsent : (s.clients conn).sent <+: d.sent) (hpos : d.pos = (s.clients conn).pos)
    (hreplied : d.replied = (s.clients conn).replied) (hlost : d.lost = (s.clients conn).lost) :
    Sound disksize initial { s with clients := Function.update s.clients conn d } := by
  have htaken : d.sent.take d.pos = (s.clients conn).sent.take (s.clients conn).pos := by
    obtain ⟨more, hmore⟩ := hsent
    rw [hpos, ← hmore, List.take_append_of_le_length (h.bounded conn)]
  have hstands : ∀ other stores p, (d.lost = false → (s.clients conn).lost = false) →
      ((s.clients other).lost = false → Stands disksize (s.clients other) stores p) →
      (Function.update s.clients conn d other).lost = false →
      Stands disksize (Function.update s.clients conn d other) stores p := by
    intro other stores p hkept hs hgone
    by_cases hother : other = conn
    · subst hother
      rw [Function.update_self] at hgone ⊢
      exact (hs (hkept hgone)).congr htaken hreplied
    · rw [Function.update_of_ne hother] at hgone ⊢
      exact hs hgone
  have hkept : d.lost = false → (s.clients conn).lost = false := fun hgone => hlost ▸ hgone
  have hgrows : ∀ other, Grows (s.clients other) (Function.update s.clients conn d other) := by
    intro other
    by_cases hother : other = conn
    · subst hother
      rw [Function.update_self]
      exact ⟨hsent, hpos.ge, hreplied ▸ List.prefix_refl _, fun hgone => hlost ▸ hgone⟩
    · rw [Function.update_of_ne hother]
      exact Grows.refl _
  refine ⟨h.conserved, h.disk, fun other => ?_, fun x hx => hstands x.2 _ _ hkept (h.served x hx),
    fun other hother => hstands other _ _ hkept (h.waiting other hother), h.copied, ?_, h.named⟩
  · dsimp only
    by_cases hother : other = conn
    · subst hother
      rw [Function.update_self, hpos]
      exact (h.bounded other).trans hsent.length_le
    · rw [Function.update_of_ne hother]
      exact h.bounded other
  · intro x hx
    exact (h.whole x hx).grows (List.prefix_refl _) hgrows

/-- The master goes on with the snapshot, while no worker runs. -/
theorem copy_sound {disksize : Nat} {copy : Copy} (h : Sound disksize initial s)
    (hcopied : Copied disksize { s with copy }) : Sound disksize initial { s with copy } :=
  ⟨h.conserved, h.disk, h.bounded, h.served, h.waiting, hcopied, h.whole, h.named⟩

theorem left_sound {disksize : Nat} (h : Sound disksize initial s) :
    Sound disksize initial { s with master := { s.master with pc := .left } } := by
  refine ⟨⟨h.conserved.books, trivial⟩, h.disk, h.bounded, h.served, h.waiting, ?_, h.whole,
    h.named⟩
  exact h.copied.pass rfl rfl (fun _ => rfl) fun _ => .inr rfl

theorem snapshotting_reinit (h : snapshotting s.master = true) : s.master.pc = .reinit := by
  simp only [snapshotting, Bool.and_eq_true, decide_eq_true_eq] at h
  exact h.1

theorem linkSnapshot_sound {disksize now : Nat} {bytes : List UInt8}
    (h : Sound disksize initial s) (hmaking : snapshotting s.master = true)
    (hbytes : bytes = slice s.disk 0 disksize) :
    Sound disksize initial (linkSnapshot s now bytes) := by
  have hpc := snapshotting_reinit hmaking
  have hroll := reinit_roll h hpc
  unfold linkSnapshot
  split
  · exact left_sound h
  · rename_i hfresh
    have hwhole : Image.Whole disksize initial s.log s.clients ⟨now, bytes, s.log, s.clients⟩ :=
      ⟨by rw [hbytes, h.disk], List.prefix_refl _, fun conn => Grows.refl _,
        fun conn hlost => h.waiting conn (by rw [hroll]; simp) hlost⟩
    refine ⟨h.conserved, h.disk, h.bounded, h.served, h.waiting, .inr hpc, ?_, ?_⟩
    · intro x hx
      rcases List.mem_append.mp hx with hx | hx
      · exact h.whole x hx
      · cases List.mem_singleton.mp hx
        exact hwhole
    · rw [List.map_append]
      refine h.named.append (List.nodup_singleton now) ?_
      intro y hy hnow
      cases List.mem_singleton.mp hnow
      exact hfresh hy

theorem killed_sound {disksize : Nat} (h : Sound disksize initial s)
    (hs : killed s pid = some t) : Sound disksize initial t := by
  obtain ⟨w, hw, rfl⟩ := Option.map_eq_some_iff.mp hs
  obtain ⟨hmem, rfl⟩ := find_roll hw
  split
  · rename_i hphase
    refine apply_sound h hw (.stays _) fun hlost => ?_
    have hstands := h.served _ hmem hlost
    rw [hphase] at hstands
    rw [List.append_nil]
    exact hstands
  · exact apply_sound h hw (.err _ _) fun hlost => by cases hlost

theorem master_sound {a : Act} (h : Sound cfg.disksize initial s)
    (hs : step cfg s (.master a) = some t) : Sound cfg.disksize initial t := by
  cases a with
  | exit pid => exact killed_sound h hs
  | loop =>
    simp only [step] at hs
    split at hs
    · exact masterStep_sound h (by simp) hs
    · exact masterStep_sound h (by simp) hs
    · cases hs
  | raise sent => exact masterStep_sound (a := .raise sent) h (by simp) hs
  | fail => exact masterStep_sound (a := .fail) h (by simp) hs
  | _ => exact masterStep_sound h (by simp) hs

/-- `poll` of a worker fails between two requests. -/
theorem interrupt_sound (h : Sound cfg.disksize initial s)
    (hs : step cfg s (.interrupt pid) = some t) : Sound cfg.disksize initial t := by
  simp only [step] at hs
  split at hs
  · rename_i w hw hphase
    cases hs
    obtain ⟨hmem, rfl⟩ := find_roll hw
    refine apply_sound h hw (.stays _) fun hlost => ?_
    have hstands := h.served _ hmem hlost
    rw [hphase] at hstands
    rw [List.append_nil]
    exact hstands
  · cases hs

theorem work_sound {sent : Int} {flag : Bool} (h : Sound cfg.disksize initial s)
    (hs : step cfg s (.work pid sent flag) = some t) : Sound cfg.disksize initial t := by
  obtain ⟨w, hw, hwork⟩ := Option.bind_eq_some_iff.mp hs
  obtain ⟨e, he, rfl⟩ := Option.map_eq_some_iff.mp hwork
  obtain ⟨hmem, rfl⟩ := find_roll hw
  have hmoves := work_moves he
  refine apply_sound h hw hmoves fun hlost => work_stands he hlost (h.served _ hmem ?_)
  by_contra hbefore
  rw [Bool.not_eq_false] at hbefore
  rw [hmoves.grows.lost hbefore] at hlost
  cases hlost

/-- The copy goes on with what is read next, and is complete at the end of the disk. -/
theorem pread_sound {count : Nat} (h : Sound cfg.disksize initial s)
    (hs : step cfg s (.pread count) = some t) : Sound cfg.disksize initial t := by
  simp only [step] at hs
  split at hs
  · rename_i now total dst hmaking hcopy
    have hpc := snapshotting_reinit hmaking
    have hcopied := h.copied
    simp only [Copied, hcopy, List.append_nil] at hcopied
    obtain ⟨hle, hdst⟩ : total ≤ cfg.disksize ∧ dst = slice s.disk 0 total := by
      rcases hcopied with hleft | ⟨-, hle, hdst⟩
      · rw [hpc] at hleft
        cases hleft
      · exact ⟨hle, hdst⟩
    split at hs
    · rename_i hmay
      split at hs
      · split at hs
        · rename_i hsize
          cases hs
          exact linkSnapshot_sound h hmaking (hsize ▸ hdst)
        · cases hs
          exact left_sound h
      · cases hs
        refine copy_sound h (.inr ⟨hpc, hmay.2.1, ?_⟩)
        rw [slice_add, ← hdst, Nat.zero_add]
    · cases hs
  · cases hs

theorem write_sound {count : Nat} (h : Sound cfg.disksize initial s)
    (hs : step cfg s (.write count) = some t) : Sound cfg.disksize initial t := by
  simp only [step] at hs
  split at hs
  · rename_i now total dst buf hmaking hcopy
    have hpc := snapshotting_reinit hmaking
    have hcopied := h.copied
    simp only [Copied, hcopy] at hcopied
    split at hs
    · cases hs
      refine copy_sound h (hcopied.imp_right fun ⟨_, hle, hdst⟩ => ⟨hpc, hle, ?_⟩)
      rw [List.append_assoc, List.take_append_drop]
      exact hdst
    · cases hs
  · cases hs

theorem step_sound (h : Sound cfg.disksize initial s) (hs : step cfg s ev = some t) :
    Sound cfg.disksize initial t := by
  cases ev with
  | master a => exact master_sound h hs
  | send conn bytes =>
    simp only [step] at hs
    split at hs
    · cases hs
    · cases hs
      exact client_sound h (List.prefix_append _ _) rfl rfl rfl
  | close conn =>
    cases hs
    exact client_sound h (List.prefix_refl _) rfl rfl rfl
  | interrupt pid => exact interrupt_sound h hs
  | work pid sent flag => exact work_sound h hs
  | openFails =>
    simp only [step] at hs
    split at hs
    · rename_i hmaking _
      cases hs
      exact copy_sound h (.inr (snapshotting_reinit hmaking))
    · cases hs
  | reflink now =>
    simp only [step] at hs
    split at hs
    · rename_i hmaking _
      cases hs
      exact linkSnapshot_sound h hmaking rfl
    · cases hs
  | fallBack now =>
    simp only [step] at hs
    split at hs
    · rename_i hmaking _
      cases hs
      exact copy_sound h (.inr ⟨snapshotting_reinit hmaking, Nat.zero_le _, rfl⟩)
    · cases hs
  | pread count => exact pread_sound h hs
  | write count => exact write_sound h hs

theorem start_sound (disksize : Nat) (got pending : Signals) (boot : Boot) (disk : File) :
    Sound disksize disk (start got pending boot disk) :=
  ⟨masterServer_conserved _ _ _ boot, rfl, fun _ => le_refl 0, fun _ _ _ => .none,
    fun _ _ _ => .none, trivial, by simp [start], by simp [start]⟩

end Order

section Runs

/-- Restarts for snapshots go unnoticed by the clients, and a snapshot is the disk between
requests. Whatever the clients send, however the workers take turns and whenever signals come,
what the workers of one connection read, reply and store is one sequence of requests, however
many workers it went through. A snapshot file has the bytes that the whole requests before it
have stored, also when it was copied piece by piece, and no two have one name. -/
theorem snapshots_between_requests (cfg : Config) (got pending : Signals) (boot : Boot)
    (disk : File) (events : List Event) (s : System)
    (hrun : run (step cfg) (start got pending boot disk) events = some s) :
    s.disk = storeAll disk (s.log.map Prod.snd) ∧
      (∀ w ∈ alive s.master, (s.clients w.conn).lost = false →
        Stands cfg.disksize (s.clients w.conn) (storesOf s.log w.conn) (s.phases w.pid)) ∧
      (∀ conn, (∀ w ∈ alive s.master, w.conn ≠ conn) → (s.clients conn).lost = false →
        Rounds cfg.disksize ((s.clients conn).sent.take (s.clients conn).pos)
          (s.clients conn).replied (storesOf s.log conn)) ∧
      (∀ x ∈ s.snapshots, x.Whole cfg.disksize disk s.log s.clients) ∧
      (s.snapshots.map Image.now).Nodup := by
  have h : Sound cfg.disksize disk s :=
    run_invariant (P := fun _ _ => True) (fun _ _ _ hi _ hs => step_sound hi hs)
      (start_sound cfg.disksize got pending boot disk) (along_true _ _ _) hrun
  refine ⟨h.disk, fun w hw => h.served _ (List.mem_map.mpr ⟨w, hw, rfl⟩), fun conn hconn => ?_,
    h.whole, h.named⟩
  refine h.waiting conn fun hin => ?_
  obtain ⟨x, hx, rfl⟩ := List.mem_map.mp hin
  obtain ⟨w, hw, rfl⟩ := List.mem_map.mp hx
  exact hconn w hw rfl

def eightBytes : Config := ⟨false, 4096, 8⟩

/-- A client writes two bytes. While the disk is copied, the client has no worker; the next one
serves its READ. -/
def writeThenRead : List Event :=
  let offset : List UInt8 := List.replicate 8 0
  [.loop, .loop, .loop, .ready, .accept 5, .negotiated true, .fork 100, .loop, .loop, .loop,
    .loop].map Event.master ++
  [.send 0 (Framing.header 1 offset 2 ++ [3, 4]), .work 100 0 false, .work 100 0 false,
    .work 100 2 false, .work 100 16 false] ++
  [.raise ⟨false, true, false, false⟩, .interrupt ⟨false, true, false, false⟩, .loop, .loop, .loop,
    .dup 7, .loop].map Event.master ++
  [.work 100 0 false] ++
  [.interrupt ⟨true, false, false, false⟩, .loop, .waitpid (some 100), .waitpid none,
    .loop].map Event.master ++
  [.fallBack 42, .pread 8, .write 5, .write 3, .pread 0] ++
  [.loop, .fork 101, .loop].map Event.master ++
  [.send 0 (Framing.header 0 offset 2), .work 101 0 false, .work 101 0 false, .work 101 0 false,
    .work 101 2 false, .work 101 18 false]

theorem snapshots_between_requests_read :
    ∃ s, run (step eightBytes) (start .none .none .listen fun _ => 0) writeThenRead = some s ∧
      s.snapshots.map (fun x => (x.now, x.bytes)) = [(42, [3, 4, 0, 0, 0, 0, 0, 0])] ∧
      (s.clients 0).replied = replyBytes 0 0 ++ (replyBytes 0 0 ++ [3, 4]) ∧
      ∀ x ∈ s.snapshots, x.Whole 8 (fun _ => 0) s.log s.clients := by
  have hmap : ((run (step eightBytes) (start .none .none .listen fun _ => 0) writeThenRead).map
      fun s => (s.snapshots.map fun x => (x.now, x.bytes), (s.clients 0).replied)) =
      some ([(42, [3, 4, 0, 0, 0, 0, 0, 0])], replyBytes 0 0 ++ (replyBytes 0 0 ++ [3, 4])) := by
    decide +kernel
  obtain ⟨s, hs, hproj⟩ := Option.map_eq_some_iff.mp hmap
  obtain ⟨hsnapshots, hreplied⟩ := Prod.mk.inj hproj
  have h := snapshots_between_requests eightBytes .none .none .listen (fun _ => 0) writeThenRead s hs
  exact ⟨s, hs, hsnapshots, hreplied, h.2.2.2.1⟩

end Runs

end Xnbd.Snapshot
