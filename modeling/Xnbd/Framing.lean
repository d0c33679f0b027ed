import Xnbd.Nbd
import Xnbd.NetIov
import Xnbd.Run

/-!
# Request framing of the target workers (`xnbd_target.c`, `xnbd_target_cow_lzo.c`)

A worker reads a header, then whatever the command makes it read, and starts
over at the byte it stands on. The model follows the position in the byte
stream of the client; a round is one call of `target_mode_main_mmap` or
`target_mode_main_cow`.
-/
namespace Xnbd.Framing

open CInt Block Nbd NetIov Run

/-- One message of a well-formed client. -/
structure Message where
  header : List UInt8
  payload : List UInt8
  header_length : header.length = sizeofNbdRequest
  payload_length : payload.length =
    if Iotype.ofCode (NbdRequest.ofBytes header).type = .write then
      (NbdRequest.ofBytes header).len else 0

def Message.bytes (m : Message) : List UInt8 := m.header ++ m.payload

/-- The bytes the client sends. -/
def wire (msgs : List Message) : List UInt8 := msgs.flatMap Message.bytes

/-- Where each message's header lies on the wire, with the header. -/
def layout (pos : Nat) : List Message → List (Nat × List UInt8)
  | [] => []
  | m :: rest => (pos, m.header) :: layout (pos + m.bytes.length) rest

inductive Mode where
  | target | cow
  deriving DecidableEq, Repr

structure Config where
  mode : Mode
  readonly : Bool
  pagesize : Nat
  disksize : Nat

/-- What the kernel answered during one round: the results of the calls that
receive the header and the payload, whether `errno` is `EIO` after a payload
that did not arrive, and whether everything else of the round (mappings, disk
reads, replies) went through. -/
structure Env where
  headerResults : List Int
  payloadResults : List Int
  errnoIsEio : Bool
  completed : Bool

/-- A receive of `len` bytes at `pos`: its return value and the bytes consumed.
The kernel delivers no more than the list asks for and the wire holds. -/
def receive (stream : List UInt8) (pos len : Nat) (results : List Int) : Option (Int × Nat) :=
  match netRecvAll len results with
  | some (ret, moved) =>
    if Offered [⟨0, len⟩] 0 results ∧ moved ≤ stream.length - pos then some (ret, moved.toNat)
    else none
  | none => none

/-- A worker's place on its connection: the position, the headers it parsed
with their positions, and whether it still serves. -/
structure Conn where
  pos : Nat
  parsed : List (Nat × List UInt8)
  alive : Bool
  deriving DecidableEq

/-- The end of a command that read up to `pos`. -/
def Conn.finish (s : Conn) (pos : Nat) (env : Env) : Conn := { s with pos, alive := env.completed }

/-- The worker exits. -/
def Conn.stop (s : Conn) : Conn := { s with alive := false }

/-- `target_mode_main_mmap` on an admitted request. A TRIM falls through to the
unknown commands. -/
def targetCommand (cfg : Config) (stream : List UInt8) (s : Conn) (env : Env) (iotype : Iotype)
    (iofrom : Int) (iolen : Nat) : Option Conn :=
  if cfg.readonly = true ∧ (iotype = .write ∨ iotype = .trim) then some s.stop
  else match iotype with
    | .write =>
      if (mmapRegionCreate cfg.pagesize iofrom iolen).isNone then some s.stop
      else (receive stream s.pos iolen env.payloadResults).map fun (ret, moved) =>
        if allOrError iolen ret < 0 then
          if env.errnoIsEio then s.finish (s.pos + moved) env else s.stop
        else s.finish (s.pos + moved) env
    | .read => some (s.finish s.pos env)
    | .flush => some (s.finish s.pos env)
    | _ => some s.stop

/-- `target_mode_main_cow` on an admitted request. A FLUSH does not come back
from the marking loop of `disk_stack_mmap`. -/
def cowCommand (cfg : Config) (stream : List UInt8) (s : Conn) (env : Env) (iotype : Iotype)
    (iofrom : Int) (iolen : Nat) : Option Conn :=
  if cfg.readonly = true ∧ (iotype = .write ∨ iotype = .trim) then some s.stop
  else if (mmapBlockRegionCreate cfg.pagesize cfg.disksize iofrom iolen).isNone then some s.stop
  else match iotype with
    | .write => (receive stream s.pos iolen env.payloadResults).map fun (ret, moved) =>
        if CheckFin iolen ret then s.finish (s.pos + moved) env else s.stop
    | .read => some (s.finish s.pos env)
    | .readCompress => some (s.finish s.pos env)
    | .readCompressLzo => some (s.finish s.pos env)
    | .trim => some (s.finish s.pos env)
    | _ => some s.stop

def command (cfg : Config) (stream : List UInt8) (s : Conn) (env : Env) (iotype : Iotype)
    (iofrom : Int) (iolen : Nat) : Option Conn :=
  match cfg.mode with
  | .target => targetCommand cfg stream s env iotype iofrom iolen
  | .cow => cowCommand cfg stream s env iotype iofrom iolen

/-- The header at the worker's position. -/
def headerAt (stream : List UInt8) (pos : Nat) : List UInt8 :=
  (stream.drop pos).take sizeofNbdRequest

/-- One round. `none` means that a receive has not returned. -/
def round (cfg : Config) (stream : List UInt8) (s : Conn) (env : Env) : Option Conn :=
  if s.alive = false then none
  else match receive stream s.pos sizeofNbdRequest env.headerResults with
    | none => none
    | some (ret, moved) =>
      if allOrError sizeofNbdRequest ret < 0 then some s.stop
      else
        let header := headerAt stream s.pos
        let s' : Conn := ⟨s.pos + moved, s.parsed ++ [(s.pos, header)], true⟩
        match nbdServerRecvRequest cfg.disksize header with
        | .badRequest _ _ => some (s'.finish s'.pos env)
        | .magicMismatch => some s'.stop
        | .terminate => some s'.stop
        | .ok iotype iofrom iolen _ => command cfg stream s' env iotype iofrom iolen

def start : Conn := ⟨0, [], true⟩

/-- The payload of a WRITE would be left on the wire: its header is rejected
although bytes follow it, or the receive of the payload fails in target mode
with `EIO`, for which the worker goes on. -/
def leavesPayload (cfg : Config) (stream : List UInt8) (s : Conn) (env : Env) : Bool :=
  let header := headerAt stream s.pos
  match nbdServerRecvRequest cfg.disksize header with
  | .badRequest _ _ => decide (Iotype.ofCode (NbdRequest.ofBytes header).type = .write) &&
      decide (0 < (NbdRequest.ofBytes header).len)
  | .ok .write _ iolen _ => decide (cfg.mode = .target) && env.errnoIsEio &&
      (netRecvAll iolen env.payloadResults).any fun p => decide (allOrError iolen p.1 < 0)
  | _ => false

def InStep (cfg : Config) (stream : List UInt8) (s : Conn) (env : Env) : Prop :=
  leavesPayload cfg stream s env = false

instance (cfg : Config) (stream : List UInt8) (s : Conn) (env : Env) :
    Decidable (InStep cfg stream s env) := inferInstanceAs (Decidable (_ = _))

section Wire

variable {m : Message} {msgs done rest : List Message} {pos : Nat}

@[simp] theorem wire_cons : wire (m :: rest) = m.bytes ++ wire rest := by simp [wire]
@[simp] theorem wire_append : wire (done ++ rest) = wire done ++ wire rest := by simp [wire]

theorem layout_append : layout pos (done ++ rest) =
    layout pos done ++ layout (pos + (wire done).length) rest := by
  induction done generalizing pos with
  | nil => simp [layout, wire]
  | cons m done ih =>
    simp only [List.cons_append, layout, ih, wire_cons, List.length_append]
    rw [Nat.add_assoc]

theorem layout_prefix : layout pos done <+: layout pos (done ++ rest) := by
  rw [layout_append]
  exact List.prefix_append _ _

theorem Message.bytes_length (m : Message) :
    m.bytes.length = sizeofNbdRequest + m.payload.length := by
  simp [Message.bytes, m.header_length]

/-- At a message boundary the worker sees that message's header. -/
theorem headerAt_boundary : headerAt (wire (done ++ m :: rest)) (wire done).length = m.header := by
  rw [headerAt, wire_append, List.drop_left, wire_cons, Message.bytes, List.append_assoc,
    List.take_append_of_le_length (by rw [m.header_length]),
    List.take_of_length_le (by rw [m.header_length])]

end Wire

section Rounds

variable {cfg : Config} {stream : List UInt8} {s t : Conn} {env : Env} {pos len : Nat}
  {results : List Int} {ret : Int} {moved : Nat}

theorem receive_some (h : receive stream pos len results = some (ret, moved)) :
    ∃ n : Int, netRecvAll len results = some (ret, n) ∧ Offered [⟨0, len⟩] 0 results ∧
      n ≤ stream.length - pos ∧ moved = n.toNat := by
  unfold receive at h
  split at h
  · rename_i ret' n hrecv
    split at h
    · rename_i hoff
      cases h
      exact ⟨n, hrecv, hoff.1, by omega, rfl⟩
    · cases h
  · cases h

/-- A receive that is taken as complete consumed what was asked for. -/
theorem receive_complete (hlen : len < 2 ^ 32)
    (h : receive stream pos len results = some (ret, moved))
    (hok : ¬allOrError len ret < 0 ∨ CheckFin len ret) : moved = len ∧ len ≤ stream.length - pos := by
  obtain ⟨n, hrecv, hoff, hle, rfl⟩ := receive_some h
  have hc := netRecvAll_complete hlen hoff hrecv (hok.imp_left (by omega))
  omega

/-- The places a command can leave the worker at: it exits, or it stands right
behind the payload, unless a payload was left on the wire. -/
theorem command_pos {iotype : Iotype} {iofrom : Int} {iolen : Nat} (hlen : iolen < 2 ^ 32)
    (hin : iotype = .write → cfg.mode = .target → env.errnoIsEio = true →
      ∀ ret moved, netRecvAll iolen env.payloadResults = some (ret, moved) →
        ¬allOrError iolen ret < 0)
    (h : command cfg stream s env iotype iofrom iolen = some t) :
    t.parsed = s.parsed ∧
      (t.alive = true → t.pos = s.pos + if iotype = .write then iolen else 0) := by
  have hstop : s.stop.parsed = s.parsed ∧
      (s.stop.alive = true → s.stop.pos = s.pos + if iotype = .write then iolen else 0) :=
    ⟨rfl, fun h => by cases h⟩
  unfold command at h
  split at h
  · rename_i hmode
    unfold targetCommand at h
    split at h
    · cases h
      exact hstop
    split at h
    · split at h
      · cases h
        exact hstop
      · obtain ⟨⟨ret, moved⟩, hrecv, rfl⟩ := Option.map_eq_some_iff.mp h
        dsimp only
        split
        · rename_i hbad
          split
          · rename_i heio
            obtain ⟨n, hall, -⟩ := receive_some hrecv
            exact absurd hbad (hin rfl hmode heio ret n hall)
          · exact hstop
        · rename_i hok
          have hc := receive_complete hlen hrecv (.inl hok)
          exact ⟨rfl, fun _ => by simp [Conn.finish, hc.1]⟩
    · cases h
      exact ⟨rfl, fun _ => rfl⟩
    · cases h
      exact ⟨rfl, fun _ => rfl⟩
    · cases h
      exact hstop
  · unfold cowCommand at h
    split at h
    · cases h
      exact hstop
    split at h
    · cases h
      exact hstop
    split at h
    · obtain ⟨⟨ret, moved⟩, hrecv, rfl⟩ := Option.map_eq_some_iff.mp h
      dsimp only
      split
      · rename_i hfin
        have hc := receive_complete hlen hrecv (.inr hfin)
        exact ⟨rfl, fun _ => by simp [Conn.finish, hc.1]⟩
      · exact hstop
    · cases h
      exact ⟨rfl, fun _ => rfl⟩
    · cases h
      exact ⟨rfl, fun _ => rfl⟩
    · cases h
      exact ⟨rfl, fun _ => rfl⟩
    · cases h
      exact ⟨rfl, fun _ => rfl⟩
    · cases h
      exact hstop

/-- The worker stands at a message boundary and has parsed the headers before
it; a worker that exited has parsed a prefix of the headers. -/
def Synchronized (msgs : List Message) (s : Conn) : Prop :=
  if s.alive = true then
    ∃ done rest, msgs = done ++ rest ∧ s.parsed = layout 0 done ∧ s.pos = (wire done).length
  else s.parsed <+: layout 0 msgs

theorem synchronized_prefix {msgs : List Message} (h : Synchronized msgs s) :
    s.parsed <+: layout 0 msgs := by
  unfold Synchronized at h
  split at h
  · obtain ⟨done, rest, rfl, hparsed, -⟩ := h
    rw [hparsed]
    exact layout_prefix
  · exact h

/-- A place behind one more message is synchronized whether or not the worker
goes on. -/
theorem synchronized_next {done rest : List Message} {m : Message}
    (hparsed : t.parsed = layout 0 done ++ [((wire done).length, m.header)])
    (hpos : t.alive = true → t.pos = (wire done).length + m.bytes.length) :
    Synchronized (done ++ m :: rest) t := by
  have hlayout : t.parsed = layout 0 (done ++ [m]) := by
    rw [hparsed, layout_append, Nat.zero_add]
    rfl
  unfold Synchronized
  split
  · rename_i halive
    refine ⟨done ++ [m], rest, by simp, hlayout, ?_⟩
    rw [hpos halive]
    simp [wire]
  · have hsplit : done ++ m :: rest = (done ++ [m]) ++ rest := by simp
    rw [hlayout, hsplit]
    exact layout_prefix

theorem round_synchronized {msgs : List Message} (hs : Synchronized msgs s)
    (hin : InStep cfg (wire msgs) s env) (h : round cfg (wire msgs) s env = some t) :
    Synchronized msgs t := by
  unfold round at h
  split at h
  · cases h
  rename_i halive
  have halive : s.alive = true := by simpa using halive
  have hpre := synchronized_prefix hs
  unfold Synchronized at hs
  rw [if_pos halive] at hs
  obtain ⟨done, rest, rfl, hparsed, hpos⟩ := hs
  split at h
  · cases h
  rename_i ret moved hrecv
  split at h
  · cases h
    unfold Synchronized
    simpa [Conn.stop] using hpre
  rename_i hok
  obtain ⟨hmoved, havail⟩ := receive_complete (by decide) hrecv (.inl hok)
  obtain ⟨m, rest, rfl⟩ : ∃ m tail, rest = m :: tail := by
    cases rest with
    | nil =>
      rw [List.append_nil, hpos, Nat.sub_self] at havail
      exact absurd havail (by decide)
    | cons m tail => exact ⟨m, tail, rfl⟩
  have hheader : headerAt (wire (done ++ m :: rest)) s.pos = m.header := by
    rw [hpos]
    exact headerAt_boundary
  have hpl := m.payload_length
  have hbl := m.bytes_length
  simp only [InStep, leavesPayload, hheader] at hin
  rw [hheader] at h
  dsimp only at h
  split at h
  · rename_i error handle hbad
    cases h
    rw [hbad] at hin
    apply synchronized_next
    · simp [Conn.finish, hparsed, hpos]
    · intro _
      simp only [Conn.finish, hpos, hmoved, hbl]
      split at hpl
      · rename_i hw
        have hzero : m.payload.length = 0 := by simpa [hw, ← hpl] using hin
        omega
      · omega
  · cases h
    apply synchronized_next
    · simp [Conn.stop, hparsed, hpos]
    · intro h
      cases h
  · cases h
    apply synchronized_next
    · simp [Conn.stop, hparsed, hpos]
    · intro h
      cases h
  · rename_i iotype iofrom iolen handle hrecv'
    obtain ⟨-, -, htype, -, hil, hadm⟩ := nbdServerRecvRequest_ok hrecv'
    rw [hrecv'] at hin
    obtain ⟨hp, ha⟩ := command_pos hadm.length (by
      rintro rfl hmode heio ret' moved' hrecv'' hbad
      simp [hmode, heio, hrecv'', hbad] at hin) h
    apply synchronized_next
    · rw [hp]
      simp [hparsed, hpos]
    · intro halive'
      rw [ha halive', hbl, hpl, ← htype, ← hil]
      simp only [hpos, hmoved, Nat.add_assoc]

/-- In every run in which no WRITE leaves its payload on the wire, the k-th header
the worker parses is the header of the k-th message, at its place. -/
theorem framing_synchronized (cfg : Config) (msgs : List Message) (envs : List Env) (t : Conn)
    (hin : Along (round cfg (wire msgs)) (InStep cfg (wire msgs)) start envs)
    (h : run (round cfg (wire msgs)) start envs = some t) :
    t.parsed <+: layout 0 msgs := by
  have hstart : Synchronized msgs start := ⟨[], msgs, rfl, rfl, rfl⟩
  exact synchronized_prefix (run_invariant
    (fun _ _ _ hs hp hr => round_synchronized hs hp hr) hstart hin h)

end Rounds

section Example

/-- A header with the given type, offset and length bytes and handle 0. -/
def header (type : UInt8) (iofrom : List UInt8) (len : UInt8) : List UInt8 :=
  [0x25, 0x60, 0x95, 0x13, 0, 0, 0, type, 0, 0, 0, 0, 0, 0, 0, 0] ++ iofrom ++ [0, 0, 0, len]

def readFirst : Message where
  header := header 0 [0, 0, 0, 0, 0, 0, 0, 0] 1
  payload := []
  header_length := by decide
  payload_length := by decide

def writeFirst : Message where
  header := header 1 [0, 0, 0, 0, 0, 0, 0, 0] 1
  payload := [7]
  header_length := by decide
  payload_length := by decide

/-- A WRITE of 28 bytes behind the end of a disk of one block; its payload
reads as the header of a READ. -/
def writeBehind : Message where
  header := header 1 [0, 0, 0, 0, 0, 0, 0x10, 0] 28
  payload := readFirst.header
  header_length := by decide
  payload_length := by decide

/-- A round in which everything arrives at once. -/
def allArrives : Env := ⟨[28], [1], false, true⟩

theorem framing_synchronized_write_read :
    ∃ t, run (round ⟨.target, false, 4096, 4096⟩ (wire [writeFirst, readFirst])) start
        [allArrives, allArrives] = some t ∧
      t.parsed.length = 2 ∧ t.parsed <+: layout 0 [writeFirst, readFirst] := by
  have hin : Along (round ⟨.target, false, 4096, 4096⟩ (wire [writeFirst, readFirst]))
      (InStep ⟨.target, false, 4096, 4096⟩ (wire [writeFirst, readFirst])) start
      [allArrives, allArrives] := by decide
  have hrun : run (round ⟨.target, false, 4096, 4096⟩ (wire [writeFirst, readFirst])) start
      [allArrives, allArrives] =
      some ⟨57, layout 0 [writeFirst, readFirst], true⟩ := by decide
  exact ⟨_, hrun, rfl, framing_synchronized _ _ _ _ hin hrun⟩

/-- Both modes take the payload of the rejected WRITE for the next header. -/
theorem framing_desynchronized :
    (¬∀ (msgs : List Message) (envs : List Env) (t : Conn),
        run (round ⟨.target, false, 4096, 4096⟩ (wire msgs)) start envs = some t →
          t.parsed <+: layout 0 msgs) ∧
      ¬∀ (msgs : List Message) (envs : List Env) (t : Conn),
        run (round ⟨.cow, false, 4096, 4096⟩ (wire msgs)) start envs = some t →
          t.parsed <+: layout 0 msgs := by
  have htarget : run (round ⟨.target, false, 4096, 4096⟩ (wire [writeBehind])) start
      [allArrives, allArrives] =
      some ⟨56, [(0, writeBehind.header), (28, readFirst.header)], true⟩ := by decide
  have hcow : run (round ⟨.cow, false, 4096, 4096⟩ (wire [writeBehind])) start
      [allArrives, allArrives] =
      some ⟨56, [(0, writeBehind.header), (28, readFirst.header)], true⟩ := by decide
  have hno : ¬[(0, writeBehind.header), (28, readFirst.header)] <+: layout 0 [writeBehind] := by
    decide
  exact ⟨fun h => hno (h _ _ _ htarget), fun h => hno (h _ _ _ hcow)⟩

end Example

end Xnbd.Framing
