import Xnbd.CowServers
import Xnbd.ExecServer
import Xnbd.Negotiate
import Xnbd.SessionDisk

/-!
# From a connection to its server (`xnbd_wrapper.c`, the child in `main`)

The child of the wrapper reads the name that its client asks for, looks it up in the registry
that it was forked with, finds out how large the disk is, tells the client and becomes the
server of the disk. It sends nothing behind the greeting if one of these fails.
-/
namespace Xnbd.Connection

open Block Bytes Nbd FlatDisk Dialogue Negotiate Registry CText ExecServer CowServers Replies
  SessionDisk

section Model

/-- What `open` and `get_disksize` find under a name. -/
structure Found where
  size : Nat
  size_max : size ≤ offMax
  contents : File

/-- What there is besides the wrapper: the files under their names, and what a remote server
sends to a client that connects to it. -/
structure World where
  file : CStr → Option Found
  remote : CStr → CStr → Option (List UInt8)

/-- `query_remote_disk_size`; `none` where the size is left at -1. -/
def queryRemoteDiskSize (w : World) (host port : CStr) (exportname : Option CStr) : Option Nat :=
  (w.remote host port).bind fun stream =>
    match exportname with
    | some name => ((nbdNegotiateV2ClientSide name).hear stream).map Export.exportsize
    | none => (nbdNegotiateV1ClientSide.hear stream).map Export.exportsize

/-- `disk_size_bytes`; `none` where the child exits. -/
def diskSizeBytes (w : World) (d : DiskData) : Option Nat :=
  match d.proxy.targetHost, d.proxy.targetPort with
  | some host, some port => queryRemoteDiskSize w host port d.proxy.targetExportname
  | some _, none => none
  | none, _ => (w.file d.diskFileName).map Found.size

/-- What the child finds for the name that is requested. -/
def requested (w : World) (r : Exports) (name : CStr) : Option (DiskData × Nat) :=
  (getDiskDataFor r name).bind fun d => (diskSizeBytes w d).map fun bytes => (d, bytes)

/-- The child between `fork` and `execvp`, which gets the words of a command line. -/
def child (w : World) (r : Exports) (params : ExecParams) (binpath : CStr) (stack : List UInt8)
    (connSockfd : Nat) : Party UInt8 (Option (List CStr)) :=
  (nbdNegotiateV2ServerPhase0 stack).bind fun requestedImg =>
    match requestedImg.bind fun buffer => requested w r (cString buffer) with
    | none => .ret none
    | some (d, bytes) =>
      (nbdNegotiateV2ServerPhase1 bytes false).bind fun ret =>
        if ret ≠ 0 then .ret none
        else .ret (some (argvOf (execArgs params binpath connSockfd d)))

/-- The disk that a server opens, and its size. The proxy asks its remote server. -/
def openDisk (w : World) : ExecServer.Disk → Option ((disksize : Nat) × Replies.Disk disksize)
  | .target path => (w.file path).map fun f => ⟨f.size, .target f.contents⟩
  | .cowTarget path => (w.file path).bind fun f =>
    if h : 0 < f.size then some ⟨f.size, .cow (Base.fresh ⟨f.contents, h, f.size_max⟩)⟩ else none
  | .proxy .. => none

end Model

section Sizes

variable {w : World} {r : Exports} {name : CStr} {d : DiskData} {bytes : Nat}

theorem v1Client_size {stream : List UInt8} {e : Export}
    (h : nbdNegotiateV1ClientSide.hear stream = some e) : e.exportsize ≤ offMax := by
  simp only [nbdNegotiateV1ClientSide, Party.hear] at h
  obtain ⟨-, h⟩ := Party.hear_guard h
  obtain ⟨-, h⟩ := Party.hear_guard h
  obtain ⟨-, h⟩ := Party.hear_guard h
  obtain ⟨-, h⟩ := Party.hear_guard h
  rw [Party.hear] at h
  obtain ⟨-, h⟩ := Party.hear_guard h
  obtain ⟨hsize, h⟩ := Party.hear_guard h
  cases h
  exact Nat.le_of_not_lt hsize

theorem awaitExport_size {stream : List UInt8} {e : Export}
    (h : awaitExport.hear stream = some e) : e.exportsize ≤ offMax := by
  rw [awaitExport, Party.hear] at h
  obtain ⟨-, h⟩ := Party.hear_guard h
  obtain ⟨hsize, h⟩ := Party.hear_guard h
  cases h
  exact Nat.le_of_not_lt hsize

theorem v2Client_size {name stream : List UInt8} {e : Export}
    (h : (nbdNegotiateV2ClientSide name).hear stream = some e) : e.exportsize ≤ offMax := by
  rw [nbdNegotiateV2ClientSide, Party.hear] at h
  obtain ⟨-, h⟩ := Party.hear_guard h
  obtain ⟨-, h⟩ := Party.hear_guard h
  obtain ⟨-, h⟩ := Party.hear_guard h
  obtain ⟨-, h⟩ := Party.hear_guard h
  exact awaitExport_size h

theorem diskSizeBytes_of (h : requested w r name = some (d, bytes)) :
    diskSizeBytes w d = some bytes := by
  obtain ⟨d', -, hsome⟩ := Option.bind_eq_some_iff.mp h
  obtain ⟨n, hn, hpair⟩ := Option.map_eq_some_iff.mp hsome
  cases hpair
  exact hn

/-- No size is told that an `off_t` does not hold. -/
theorem requested_size (h : requested w r name = some (d, bytes)) : bytes ≤ offMax := by
  have hn := diskSizeBytes_of h
  unfold diskSizeBytes at hn
  split at hn
  · obtain ⟨stream, -, hsize⟩ := Option.bind_eq_some_iff.mp hn
    split at hsize
    · obtain ⟨e, he, rfl⟩ := Option.map_eq_some_iff.mp hsize
      exact v2Client_size he
    · obtain ⟨e, he, rfl⟩ := Option.map_eq_some_iff.mp hsize
      exact v1Client_size he
  · cases hn
  · obtain ⟨f, -, rfl⟩ := Option.map_eq_some_iff.mp hn
    exact f.size_max

end Sizes

section Talk

/-- The connection is closed, and no export was described. -/
theorem awaitExport_closed : awaitExport.hear [] = none := by
  simp [awaitExport, Party.hear]

theorem refused_stuck {α : Type} (rest : List UInt8) (side : Side) :
    Dialogue.step (⟨.ret none, awaitExport, rest, []⟩ : Talk UInt8 (Option α) (Option Export))
      side = none := by
  cases side <;> rfl

end Talk

section Served

variable {w : World} {r : Exports} {params : ExecParams} {binpath : CStr} {stack : List UInt8}
  {connSockfd bytes : Nat} {name : List UInt8} {d : DiskData}

/-- The client learns the size of the disk, and the server is started. -/
theorem child_reaches (hname : name.length ≤ exportNameMaxlen) (hnul : 0 ∉ name)
    (h : requested w r name = some (d, bytes)) :
    Reaches (start (child w r params binpath stack connSockfd) (nbdNegotiateV2ClientSide name))
      (ended (some (argvOf (execArgs params binpath connSockfd d)))
        (some ⟨bytes, exportFlags false⟩)) := by
  have hsize := requested_size h
  have hlen := exportBytes_length 2 bytes (exportFlags false)
  apply phase0_reaches hname
  simp only [Option.bind_some, cString_terminated hnul, h]
  apply reaches_send_left
  rw [List.nil_append, v2Pdu2]
  apply reaches_recv_all_right hlen
  simp only [hlen, exportBytes_size hsize, exportBytes_flags (exportFlags_lt false),
    not_lt.mpr hsize, lt_irrefl, if_false]
  exact reaches_self _

/-- A name that is not registered or too long: the child exits, and nothing is on its way to
the client. -/
theorem child_refuses (hsize : name.length < 2 ^ 32) (hnul : 0 ∉ name)
    (h : exportNameMaxlen < name.length ∨ requested w r name = none) :
    ∃ rest, Reaches
      (start (child w r params binpath stack connSockfd) (nbdNegotiateV2ClientSide name))
      ⟨.ret none, awaitExport, rest, []⟩ := by
  by_cases hlong : exportNameMaxlen < name.length
  · refine ⟨name, ?_⟩
    apply phase0_refuses hlong (lt_of_lt_of_eq hsize (by decide))
    exact reaches_self _
  · refine ⟨[], ?_⟩
    apply phase0_reaches (Nat.le_of_not_lt hlong)
    simp only [Option.bind_some, cString_terminated hnul, h.resolve_left hlong]
    exact reaches_self _

/-- The server opens the file whose size the child has told. -/
theorem served_disk (hd : d.proxy.targetHost = none) (h : requested w r name = some (d, bytes))
    (hpos : 0 < bytes) (cow : Bool) :
    ∃ f info, w.file d.diskFileName = some f ∧ diskServed cow d = some info ∧
      ∃ disk : Replies.Disk bytes, openDisk w info = some ⟨bytes, disk⟩ ∧
        disk.mode = (if cow then .cow else .target) ∧ ∀ x < bytes, shown disk x = f.contents x := by
  have hn := diskSizeBytes_of h
  rw [diskSizeBytes, hd] at hn
  obtain ⟨f, hf, rfl⟩ := Option.map_eq_some_iff.mp hn
  obtain ⟨exportname, file, index, ⟨host, port, bitmap, control, target⟩⟩ := d
  cases hd
  cases cow with
  | false =>
    refine ⟨f, _, hf, rfl, .target f.contents, ?_, rfl, fun _ _ => rfl⟩
    simp only [openDisk, hf, Bool.false_eq_true, if_false, Option.map_some]
  | true =>
    refine ⟨f, _, hf, rfl, .cow (Base.fresh ⟨f.contents, hpos, f.size_max⟩), ?_, rfl,
      fun x hx => fresh_logical _ hx⟩
    simp only [openDisk, hf, if_true, Option.bind_some, dif_pos hpos]

/-- The proxy is for the remote disk whose size the child has told. -/
theorem served_remote {host : CStr} (hd : d.proxy.targetHost = some host)
    (h : requested w r name = some (d, bytes)) (hplain : Plain d) (cow : Bool) :
    ∃ port bitmap control,
      diskServed cow d = some (.proxy host port d.diskFileName bitmap control) ∧
      queryRemoteDiskSize w host port d.proxy.targetExportname = some bytes := by
  have hn := diskSizeBytes_of h
  obtain ⟨exportname, file, index, ⟨host', port, bitmap, control, target⟩⟩ := d
  cases hd
  simp only [Plain, operands, List.mem_cons, List.not_mem_nil, or_false, forall_eq_or_imp,
    forall_eq] at hplain
  obtain ⟨-, hport, -, hbitmap, hcontrol⟩ := hplain
  obtain ⟨port, rfl, -⟩ := Option.map_eq_some_iff.mp hport
  obtain ⟨bitmap, rfl, -⟩ := Option.map_eq_some_iff.mp hbitmap
  obtain ⟨control, rfl, -⟩ := Option.map_eq_some_iff.mp hcontrol
  exact ⟨port, bitmap, control, rfl, hn⟩

end Served

section Connection

/-- The words start a server of the file of the entry, on the connection of the client. Its
clients get what a flat disk with the bytes of the file answers. -/
def ServesFile (w : World) (params : ExecParams) (connSockfd pagesize : Nat) (d : DiskData)
    (bytes : Nat) (argv : List CStr) : Prop :=
  ∃ f info, w.file d.diskFileName = some f ∧ serverMain argv = some info ∧
    info.connectedFd = connSockfd ∧ info.readonly = params.readonly ∧
    ∃ disk : Replies.Disk bytes, openDisk w info.disk = some ⟨bytes, disk⟩ ∧
      (params.readonly = false → ∀ qs, (∀ q ∈ qs, Asked q.request) →
        (∀ q ∈ qs, Answerable (if params.cow then .cow else .target) q.request) →
        ∃ disk', session pagesize disk qs = some (disk', flatOuts f.contents qs) ∧
          ∀ x < bytes, shown disk' x = flatRun f.contents (requests qs) x)

/-- The words start a proxy of the remote disk of the entry, on the connection of the client. -/
def ServesRemote (w : World) (connSockfd : Nat) (d : DiskData) (host : CStr) (bytes : Nat)
    (argv : List CStr) : Prop :=
  ∃ info port bitmap control, serverMain argv = some info ∧ info.connectedFd = connSockfd ∧
    info.disk = .proxy host port d.diskFileName bitmap control ∧
    queryRemoteDiskSize w host port info.proxyTargetExportname = some bytes

variable {w : World} {r : Exports} {params : ExecParams} {connSockfd : Nat} {name : List UInt8}
  {d : DiskData} {bytes : Nat}

theorem serves_file (hfd : connSockfd < 2 ^ 31) (h : requested w r name = some (d, bytes))
    (hplain : Plain d) (hd : d.proxy.targetHost = none) (hpos : 0 < bytes) (binpath : CStr)
    (pagesize : Nat) :
    ServesFile w params connSockfd pagesize d bytes
      (argvOf (execArgs params binpath connSockfd d)) := by
  obtain ⟨f, served, hf, hserved, disk, hopen, hmode, hshown⟩ :=
    served_disk hd h hpos params.cow
  have hargv := argvOf_execArgs params connSockfd d binpath
  refine ⟨f, serverOf params connSockfd d served, hf, ?_, rfl, rfl, disk, hopen, ?_⟩
  · rw [serverMain_plain hfd hargv hplain, hserved, Option.map_some]
  -- `session` is the loop of a server that may write
  intro _ qs hasked hanswerable
  have hsize := requested_size h
  rw [← hmode] at hanswerable
  obtain ⟨disk', hsession, -, hrun⟩ := session_flat pagesize hsize disk hasked hanswerable
  refine ⟨disk', ?_, fun x hx => ?_⟩
  · rw [hsession, flatOuts_congr (fun q hq => asked_le hsize (hasked q hq)) hshown]
  · rw [hrun x hx]
    exact flatRun_congr (requests qs) (hshown x hx)

theorem serves_remote (hfd : connSockfd < 2 ^ 31) (h : requested w r name = some (d, bytes))
    (hplain : Plain d) {host : CStr} (hd : d.proxy.targetHost = some host) (binpath : CStr) :
    ServesRemote w connSockfd d host bytes (argvOf (execArgs params binpath connSockfd d)) := by
  obtain ⟨port, bitmap, control, hserved, hsize⟩ := served_remote hd h hplain params.cow
  have hargv := argvOf_execArgs params connSockfd d binpath
  refine ⟨serverOf params connSockfd d (.proxy host port d.diskFileName bitmap control), port,
    bitmap, control, ?_, rfl, rfl, ?_⟩
  · rw [serverMain_plain hfd hargv hplain, hserved, Option.map_some]
  · simpa only [serverOf, hd, Option.isSome_some, if_true] using hsize

/-- A client of the wrapper that asks for a registered name learns the size of the disk behind
it, and then talks to a server that was started for this disk on this connection. A client that
asks for anything else sees the connection closed. -/
theorem connection_served (w : World) (r : Exports) (params : ExecParams) (binpath : CStr)
    (stack : List UInt8) (pagesize : Nat) {connSockfd : Nat} (hfd : connSockfd < 2 ^ 31)
    {name : List UInt8} (hname : name.length < 2 ^ 32) (hnul : 0 ∉ name) :
    (exportNameMaxlen < name.length ∨ requested w r name = none → ∃ rest,
      ComesTo (start (child w r params binpath stack connSockfd) (nbdNegotiateV2ClientSide name))
        ⟨.ret none, awaitExport, rest, []⟩ ∧ awaitExport.hear [] = none) ∧
    ∀ d bytes, name.length ≤ exportNameMaxlen → requested w r name = some (d, bytes) → ∃ argv,
      ComesTo (start (child w r params binpath stack connSockfd) (nbdNegotiateV2ClientSide name))
        (ended (some argv) (some ⟨bytes, exportFlags false⟩)) ∧
      (Plain d → d.proxy.targetHost = none → 0 < bytes →
        ServesFile w params connSockfd pagesize d bytes argv) ∧
      ∀ host, Plain d → d.proxy.targetHost = some host →
        ServesRemote w connSockfd d host bytes argv := by
  refine ⟨fun h => ?_, fun d bytes hmax h => ?_⟩
  · obtain ⟨rest, hrest⟩ := child_refuses hname hnul h
    exact ⟨rest, comesTo_of_reaches (refused_stuck rest) hrest, awaitExport_closed⟩
  · refine ⟨argvOf (execArgs params binpath connSockfd d),
      comesTo_of_reaches (ended_stuck _ _) (child_reaches hmax hnul h), ?_, ?_⟩
    · exact fun hplain hd hpos => serves_file hfd h hplain hd hpos binpath pagesize
    · exact fun host hplain hd => serves_remote hfd h hplain hd binpath

/-- One file of one block. -/
def oneFile : World where
  file path := if path = lit "disk.img" then some ⟨4096, block_le_offMax, fun _ => 7⟩ else none
  remote := fun _ _ => none

def oneExport : Exports :=
  (addDiskimg ⟨Dict.empty, 0⟩ (createDiskData (.target (lit "disk") (lit "disk.img"))) true).1

def plainServers : ExecParams := ⟨false, false, false, none, none⟩

/-- A client that writes a byte and reads it back. -/
theorem connection_served_write_read :
    ∃ argv info, ComesTo (start (child oneFile oneExport plainServers (lit "xnbd-server") [] 7)
        (nbdNegotiateV2ClientSide (lit "disk")))
        (ended (some argv) (some ⟨4096, exportFlags false⟩)) ∧
      serverMain argv = some info ∧ info.connectedFd = 7 ∧
      ∃ disk : Replies.Disk 4096, openDisk oneFile info.disk = some ⟨4096, disk⟩ ∧
        ∃ disk', session 4096 disk writeRead = some (disk', flatOuts (fun _ => 7) writeRead) := by
  have hrequested : requested oneFile oneExport (lit "disk") =
      some (⟨lit "disk", lit "disk.img", 0, notProxied⟩, 4096) := by decide +kernel
  obtain ⟨argv, htalk, hserver⟩ := (connection_served oneFile oneExport plainServers
    (lit "xnbd-server") [] 4096 (show 7 < 2 ^ 31 by decide)
    (show (lit "disk").length < 2 ^ 32 by decide +kernel)
    (show 0 ∉ lit "disk" by decide +kernel)).2 _ _ (by decide +kernel) hrequested
  obtain ⟨f, info, hf, hmain, hfd, -, disk, hopen, hsession⟩ :=
    hserver.1 (by decide +kernel) rfl (by decide)
  have hcontents : f.contents = fun _ => 7 := by
    simp only [oneFile, if_true, Option.some.injEq] at hf
    rw [← hf]
  obtain ⟨disk', hreplies, -⟩ := hsession rfl writeRead writeRead_asked writeRead_answerable
  rw [hcontents] at hreplies
  exact ⟨argv, info, htalk, hmain, hfd, disk, hopen, disk', hreplies⟩

end Connection

end Xnbd.Connection
