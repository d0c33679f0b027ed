import Xnbd.CText
import Xnbd.Getopt
import Xnbd.Registry

/-!
# The server that the wrapper starts (`exec_xnbd_server`, `main` in `xnbd_server.c`)

A child of the wrapper puts an entry of the registry on a command line, which
`xnbd-server` scans twice: for the options that say where to log, and for all others.
The strings of the entry stand there as they are, and none of them is marked as an operand.
-/
namespace Xnbd.ExecServer

open CText Getopt Registry

section Wrapper

/-- `struct exec_params`. -/
structure ExecParams where
  /-- `target_mode` is `--cow-target`, and `--target` otherwise. -/
  cow : Bool
  readonly : Bool
  syslog : Bool
  proxyMaxQueSizeStr : Option CStr
  proxyMaxBufSizeStr : Option CStr

/-- The size of `args`. -/
def argsSize : Nat := 8 + 4 + 2 + 4

def modeOption (params : ExecParams) (d : DiskData) : CStr :=
  if d.proxy.targetHost.isSome then lit "--proxy"
  else if params.cow then lit "--cow-target"
  else lit "--target"

/-- An option with its value, if there is one. -/
def withValue (name : String) (value : Option CStr) : List CStr :=
  match value with
  | some v => [lit name, v]
  | none => []

/-- The options in `args`. -/
def options (params : ExecParams) (fd : Nat) (d : DiskData) : List CStr :=
  [modeOption params d] ++ (if params.readonly then [lit "--readonly"] else []) ++
    (if params.syslog then [lit "--syslog"] else []) ++ [lit "--connected-fd", lit (toString fd)] ++
    if d.proxy.targetHost.isSome then
      withValue "--max-queue-size" params.proxyMaxQueSizeStr ++
        withValue "--max-buf-size" params.proxyMaxBufSizeStr ++
        withValue "--target-exportname" d.proxy.targetExportname
    else []

/-- What stands in `args` behind the options; a NULL pointer is `none`. -/
def operands (d : DiskData) : List (Option CStr) :=
  match d.proxy.targetHost with
  | some host =>
    [some host, d.proxy.targetPort, some d.diskFileName, d.proxy.bitmapImage,
      d.proxy.controlSocketPath]
  | none => [some d.diskFileName]

/-- `args` of `exec_xnbd_server`. -/
def execArgs (params : ExecParams) (binpath : CStr) (fd : Nat) (d : DiskData) :
    List (Option CStr) :=
  some binpath :: ((options params fd d).map some ++ operands d ++ [none])

/-- What `execvp` hands over. -/
def argvOf (args : List (Option CStr)) : List CStr := (args.takeWhile Option.isSome).filterMap id

end Wrapper

section Server

def noArgument (name : String) (value : Char) : LongOption := ⟨lit name, false, value.toNat.toUInt8⟩

def requiredArgument (name : String) (value : Char) : LongOption :=
  ⟨lit name, true, value.toNat.toUInt8⟩

/-- `longopts`. -/
def longopts : List LongOption :=
  [noArgument "target" 't', noArgument "cow-target" 'c', noArgument "proxy" 'p',
    noArgument "help" 'h', noArgument "version" 'v',
    requiredArgument "lport" 'l', noArgument "daemonize" 'd', noArgument "readonly" 'r',
    requiredArgument "logpath" 'L', noArgument "syslog" 'S', requiredArgument "connected-fd" 'F',
    noArgument "inetd" 'i', requiredArgument "target-exportname" 'n',
    noArgument "clear-bitmap" 'z', requiredArgument "max-queue-size" 'Q',
    requiredArgument "max-buf-size" 'B']

/-- `opt_string`, where a colon says that the letter takes an argument. -/
def shorts : List UInt8 → List (UInt8 × Bool)
  | c :: 58 :: rest => (c, true) :: shorts rest
  | c :: rest => (c, false) :: shorts rest
  | [] => []

def serverOptions : Options := ⟨shorts (lit "tpchvl:G:drL:STF:inQ:B:"), longopts⟩

/-- The value of a digit. -/
def digit (b : UInt8) : Nat :=
  if 48 ≤ b ∧ b ≤ 57 then b.toNat - 48
  else if 97 ≤ b ∧ b ≤ 122 then b.toNat - 87
  else if 65 ≤ b ∧ b ≤ 90 then b.toNat - 55
  else 36

def inBase (base : Nat) (s : CStr) : Nat :=
  (s.takeWhile fun b => digit b < base).foldl (fun n b => base * n + digit b) 0

/-- `strtoul(s, NULL, 0)`: octal behind a zero, hexadecimal behind `0x`, and modulo 2^64
behind a minus. -/
def strtoul (s : CStr) : Nat :=
  let magnitude : CStr → Nat
    | 48 :: 120 :: b :: rest => if digit b < 16 then inBase 16 (b :: rest) else 0
    | 48 :: 88 :: b :: rest => if digit b < 16 then inBase 16 (b :: rest) else 0
    | 48 :: rest => inBase 8 rest
    | s => inBase 10 s
  let clamp (n : Nat) (negative : Bool) : Nat :=
    if 2 ^ 64 ≤ n then 2 ^ 64 - 1 else if negative then (2 ^ 64 - n) % 2 ^ 64 else n
  match s.dropWhile isspace with
  | 45 :: rest => clamp (magnitude rest) true
  | 43 :: rest => clamp (magnitude rest) false
  | rest => clamp (magnitude rest) false

/-- `enum xnbd_cmd_type`. -/
inductive Cmd where
  | unknown
  | target
  | cowTarget
  | proxy
  | help
  | version
  deriving DecidableEq

/-- What the first scan is for. -/
structure Logging where
  logpath : Option CStr
  useSyslog : Bool
  inetd : Bool
  daemonize : Bool
  deriving DecidableEq

def logOption (l : Logging) : Event → Logging
  | .option 76 optarg => { l with logpath := optarg }
  | .option 83 _ => { l with useSyslog := true }
  | .option 105 _ => { l with inetd := true }
  | .option 100 _ => { l with daemonize := true }
  | _ => l

/-- The variables of the second scan. -/
structure Settings where
  cmd : Cmd
  lport : Int
  maxQueSize : Nat
  maxBufSize : Nat
  readonly : Bool
  connectedFd : Int
  targetExportname : Option CStr
  clearBitmap : Bool
  deriving DecidableEq

/-- `deny_multiple_mode_changes`, which shows the help and exits. -/
def setCmd (s : Settings) (cmd : Cmd) : Option Settings :=
  if s.cmd = .unknown then some { s with cmd } else none

/-- One round of the second loop; `none` when the process exits. -/
def serverOption (inetd : Bool) (s : Settings) : Event → Option Settings
  | .option 116 _ => setCmd s .target
  | .option 112 _ => setCmd s .proxy
  | .option 99 _ => setCmd s .cowTarget
  | .option 104 _ => setCmd s .help
  | .option 118 _ => setCmd s .version
  | .option 108 (some optarg) => some { s with lport := atoi optarg }
  | .option 81 (some optarg) => some { s with maxQueSize := strtoul optarg }
  | .option 66 (some optarg) => some { s with maxBufSize := strtoul optarg }
  | .option 114 _ => some { s with readonly := true }
  | .option 70 (some optarg) => if inetd then none else some { s with connectedFd := atoi optarg }
  | .option 100 _ | .option 76 _ | .option 83 _ | .option 105 _ => some s
  | .option 110 optarg => some { s with targetExportname := optarg }
  | .option 122 _ => some { s with clearBitmap := true }
  | .error => some { s with cmd := .help }
  | .option _ _ => none

/-- The disk of a mode. -/
inductive Disk where
  | target (targetDiskpath : CStr)
  | cowTarget (cowDiskpath : CStr)
  | proxy (rhost rport diskpath bmpath unixpath : CStr)
  deriving DecidableEq

/-- `struct xnbd_info` as `xnbd_initialize` gets it, and what `main` keeps besides. -/
structure XnbdInfo where
  disk : Disk
  readonly : Bool
  connectedFd : Int
  lport : Int
  proxyMaxQueSize : Nat
  proxyMaxBufSize : Nat
  proxyTargetExportname : Option CStr
  proxyClearBitmap : Bool
  useSyslog : Bool
  logpath : Option CStr
  daemonize : Bool
  deriving DecidableEq

/-- The operands of a mode; with another number of them the help is shown. -/
def diskOf : Cmd → List CStr → Option Disk
  | .target, [path] => some (.target path)
  | .cowTarget, [path] => some (.cowTarget path)
  | .proxy, [rhost, rport, diskpath, bmpath, unixpath] =>
    some (.proxy rhost rport diskpath bmpath unixpath)
  | _, _ => none

/-- `XNBD_PORT`. -/
def xnbdPort : Int := 8520

/-- `main` of `xnbd-server` up to `master_server`; `none` when it exits before. -/
def serverMain (argv : List CStr) : Option XnbdInfo := do
  let first := scan serverOptions argv.tail
  let log := first.events.foldl logOption ⟨none, false, false, false⟩
  let second := scan serverOptions first.permuted
  let s ← second.events.foldlM (serverOption log.inetd)
    ⟨.unknown, xnbdPort, 0, 0, false, if log.inetd then 0 else -1, none, false⟩
  let disk ← diskOf s.cmd second.operands
  if (0 < s.maxQueSize ∨ 0 < s.maxBufSize) ∧ s.cmd ≠ .proxy then none
  else if log.daemonize ∧ log.inetd then none
  else some ⟨disk, s.readonly, s.connectedFd, s.lport, s.maxQueSize, s.maxBufSize,
    s.targetExportname, s.clearBitmap, log.useSyslog ∨ log.logpath = none ∧ (log.inetd ∨ log.daemonize),
    log.logpath, log.daemonize⟩

end Server

section CommandLine

variable (params : ExecParams) (fd : Nat) (d : DiskData)

theorem argvOf_some (words : List CStr) (rest : List (Option CStr)) :
    argvOf (words.map some ++ rest) = words ++ argvOf rest := by
  induction words with
  | nil => rfl
  | cons w words ih =>
    simp only [argvOf, List.map_cons, List.cons_append, List.takeWhile_cons, Option.isSome_some,
      if_true, List.filterMap_cons_some (f := id) rfl] at ih ⊢
    rw [ih]

theorem argvOf_null (args : List (Option CStr)) : argvOf (args ++ [none]) = argvOf args := by
  induction args with
  | nil => rfl
  | cons a args ih =>
    cases a with
    | none => rfl
    | some w =>
      simp only [argvOf, List.cons_append, List.takeWhile_cons, Option.isSome_some, if_true,
        List.filterMap_cons_some (f := id) rfl] at ih ⊢
      rw [ih]

theorem argvOf_length (args : List (Option CStr)) : (argvOf args).length ≤ args.length :=
  (List.length_filterMap_le _ _).trans (List.takeWhile_sublist _).length_le

/-- The command line of the server: complete options, and the operands up to a NULL. -/
theorem argvOf_execArgs (binpath : CStr) :
    (argvOf (execArgs params binpath fd d)).tail = options params fd d ++ argvOf (operands d) := by
  rw [execArgs, List.append_assoc]
  have hline := argvOf_some (binpath :: options params fd d) (operands d ++ [none])
  rw [argvOf_null] at hline
  rw [List.map_cons, List.cons_append] at hline
  rw [hline]
  rfl

theorem withValue_length (name : String) (value : Option CStr) :
    (withValue name value).length ≤ 2 := by
  cases value <;> simp [withValue]

/-- `args` is large enough, and a proxied entry with all options takes all of it. -/
theorem execArgs_length (binpath : CStr) : (execArgs params binpath fd d).length ≤ argsSize := by
  have hque := withValue_length "--max-queue-size" params.proxyMaxQueSizeStr
  have hbuf := withValue_length "--max-buf-size" params.proxyMaxBufSizeStr
  have hname := withValue_length "--target-exportname" d.proxy.targetExportname
  simp only [execArgs, options, operands, argsSize, List.length_cons, List.length_append,
    List.length_map, List.length_nil]
  cases d.proxy.targetHost <;> cases params.readonly <;> cases params.syslog <;>
    simp only [Option.isSome_none, Option.isSome_some, Bool.false_eq_true, if_false, if_true,
      List.length_append, List.length_cons, List.length_nil] <;>
    omega

/-- The events of an option that is given with its value. -/
def valueEvents (value : UInt8) (optarg : Option CStr) : List Event :=
  match optarg with
  | some v => [.option value (some v)]
  | none => []

def modeValue : UInt8 :=
  if d.proxy.targetHost.isSome then 112 else if params.cow then 99 else 116

def commonEvents : List Event :=
  [.option (modeValue params d) none] ++ (if params.readonly then [.option 114 none] else []) ++
    (if params.syslog then [.option 83 none] else []) ++ [.option 70 (some (lit (toString fd)))]

def proxyEvents : List Event :=
  valueEvents 81 params.proxyMaxQueSizeStr ++ valueEvents 66 params.proxyMaxBufSizeStr ++
    valueEvents 110 d.proxy.targetExportname

/-- What the scans meet in the options. -/
def optionEvents : List Event :=
  commonEvents params fd d ++ if d.proxy.targetHost.isSome then proxyEvents params d else []

theorem complete_flag {w : CStr} {value : UInt8} (hdashes : w ≠ [dash, dash])
    (hoption : isOption w = true) (hparse : parse serverOptions w = ⟨[.option value none], none⟩) :
    Complete serverOptions [w] [.option value none] :=
  .flag hdashes hoption hparse .nil

theorem complete_withValue {name : String} {value : UInt8} (hdashes : lit name ≠ [dash, dash])
    (hoption : isOption (lit name) = true)
    (hparse : parse serverOptions (lit name) = ⟨[], some value⟩) (optarg : Option CStr) :
    Complete serverOptions (withValue name optarg) (valueEvents value optarg) := by
  cases optarg with
  | none => exact .nil
  | some v => exact .withArg hdashes hoption hparse .nil

theorem complete_if {words : List CStr} {events : List Event} (c : Bool)
    (h : Complete serverOptions words events) :
    Complete serverOptions (if c then words else []) (if c then events else []) := by
  cases c with
  | false => exact .nil
  | true => exact h

theorem complete_mode :
    Complete serverOptions [modeOption params d] [.option (modeValue params d) none] := by
  unfold modeOption modeValue
  split
  · exact complete_flag (by decide) (by decide) (by decide)
  · split
    · exact complete_flag (by decide) (by decide) (by decide)
    · exact complete_flag (by decide) (by decide) (by decide)

/-- Every value is behind its option, whatever it looks like. -/
theorem complete_options :
    Complete serverOptions (options params fd d) (optionEvents params fd d) := by
  refine ((((complete_mode params d).append ?_).append ?_).append ?_).append ?_
  · exact complete_if _ (complete_flag (by decide) (by decide) (by decide))
  · exact complete_if _ (complete_flag (by decide) (by decide) (by decide))
  · exact @complete_withValue "--connected-fd" 70 (by decide) (by decide) (by decide) (some _)
  · refine complete_if _ (((complete_withValue ?_ ?_ ?_ _).append (complete_withValue ?_ ?_ ?_ _)).append
      (complete_withValue ?_ ?_ ?_ _)) <;> decide

end CommandLine

section Settings

variable {s s' : Settings} {inetd : Bool}

/-- The mode once it has been given, unless the help is asked for. -/
def Decided (cmd : Cmd) (s : Settings) : Prop := s.cmd = cmd ∨ s.cmd = .help

theorem setCmd_some {cmd : Cmd} (h : setCmd s cmd = some s') :
    s.cmd = .unknown ∧ s' = { s with cmd } := by
  simp only [setCmd, Option.ite_none_right_eq_some] at h
  obtain ⟨hunknown, ⟨⟩⟩ := h
  exact ⟨hunknown, rfl⟩

/-- No later option decides for another mode. -/
theorem serverOption_decided {cmd : Cmd} (hcmd : cmd ≠ .unknown) {e : Event} (hs : Decided cmd s)
    (h : serverOption inetd s e = some s') : Decided cmd s' := by
  have hknown : s.cmd ≠ .unknown := by
    rcases hs with hs | hs <;> rw [hs]
    · exact hcmd
    · simp
  unfold serverOption at h
  split at h
  case h_1 | h_2 | h_3 | h_4 | h_5 => exact absurd (setCmd_some h).1 hknown
  case h_10 =>
    simp only [Option.ite_none_left_eq_some] at h
    obtain ⟨-, ⟨⟩⟩ := h
    exact hs
  case h_17 =>
    cases h
    exact .inr rfl
  case h_18 => cases h
  all_goals
    cases h
    exact hs

theorem foldlM_decided {cmd : Cmd} (hcmd : cmd ≠ .unknown) {events : List Event}
    (hs : Decided cmd s) (h : events.foldlM (serverOption inetd) s = some s') : Decided cmd s' := by
  induction events generalizing s with
  | nil =>
    cases h
    exact hs
  | cons e rest ih =>
    rw [List.foldlM_cons, Option.bind_eq_bind, Option.bind_eq_some_iff] at h
    obtain ⟨mid, he, hrest⟩ := h
    exact ih (serverOption_decided hcmd hs he) hrest

/-- The mode that `modeOption` names. -/
def modeCmd (params : ExecParams) (d : DiskData) : Cmd :=
  if d.proxy.targetHost.isSome then .proxy else if params.cow then .cowTarget else .target

theorem serverOption_mode (params : ExecParams) (d : DiskData) (hs : s.cmd = .unknown) :
    serverOption inetd s (.option (modeValue params d) none) =
      some { s with cmd := modeCmd params d } := by
  unfold modeValue modeCmd
  split
  · exact if_pos hs
  · split
    · exact if_pos hs
    · exact if_pos hs

/-- What the second scan has after the options of the wrapper. -/
def settingsOf (params : ExecParams) (fd : Nat) (d : DiskData) : Settings where
  cmd := modeCmd params d
  lport := xnbdPort
  maxQueSize :=
    if d.proxy.targetHost.isSome then (params.proxyMaxQueSizeStr.map strtoul).getD 0 else 0
  maxBufSize :=
    if d.proxy.targetHost.isSome then (params.proxyMaxBufSizeStr.map strtoul).getD 0 else 0
  readonly := params.readonly
  connectedFd := atoi (lit (toString fd))
  targetExportname := if d.proxy.targetHost.isSome then d.proxy.targetExportname else none
  clearBitmap := false

/-- The variables before the second scan. -/
def settingsStart (inetd : Bool) : Settings :=
  ⟨.unknown, xnbdPort, 0, 0, false, if inetd then 0 else -1, none, false⟩

/-- The options that only a proxy is given. -/
theorem foldlM_proxy (params : ExecParams) (d : DiskData) (s : Settings) :
    (proxyEvents params d).foldlM (serverOption inetd) s =
      some { s with
        maxQueSize := (params.proxyMaxQueSizeStr.map strtoul).getD s.maxQueSize
        maxBufSize := (params.proxyMaxBufSizeStr.map strtoul).getD s.maxBufSize
        targetExportname := d.proxy.targetExportname.or s.targetExportname } := by
  have hque : ∀ s, (valueEvents 81 params.proxyMaxQueSizeStr).foldlM (serverOption inetd) s =
      some { s with maxQueSize := (params.proxyMaxQueSizeStr.map strtoul).getD s.maxQueSize } := by
    intro s
    cases params.proxyMaxQueSizeStr <;> rfl
  have hbuf : ∀ s, (valueEvents 66 params.proxyMaxBufSizeStr).foldlM (serverOption inetd) s =
      some { s with maxBufSize := (params.proxyMaxBufSizeStr.map strtoul).getD s.maxBufSize } := by
    intro s
    cases params.proxyMaxBufSizeStr <;> rfl
  have hname : ∀ s, (valueEvents 110 d.proxy.targetExportname).foldlM (serverOption inetd) s =
      some { s with targetExportname := d.proxy.targetExportname.or s.targetExportname } := by
    intro s
    cases d.proxy.targetExportname <;> rfl
  simp only [proxyEvents, List.foldlM_append, Option.bind_eq_bind, hque, hbuf, hname,
    Option.bind_some]

/-- The options in front of them. -/
theorem foldlM_common (params : ExecParams) (fd : Nat) (d : DiskData) :
    (commonEvents params fd d).foldlM (serverOption false) (settingsStart false) =
      some { settingsStart false with
        cmd := modeCmd params d
        readonly := params.readonly
        connectedFd := atoi (lit (toString fd)) } := by
  have hmode := @serverOption_mode (settingsStart false) false params d rfl
  have hreadonly : ∀ s, (if params.readonly then [Event.option 114 none] else []).foldlM
      (serverOption false) s = some { s with readonly := params.readonly || s.readonly } := by
    intro s
    cases params.readonly <;> rfl
  have hsyslog : ∀ s, (if params.syslog then [Event.option 83 none] else []).foldlM
      (serverOption false) s = some s := by
    intro s
    cases params.syslog <;> rfl
  have hfd : ∀ s, serverOption false s (.option 70 (some (lit (toString fd)))) =
      some { s with connectedFd := atoi (lit (toString fd)) } := fun _ => rfl
  simp only [commonEvents, List.foldlM_append, List.foldlM_cons, List.foldlM_nil,
    Option.bind_eq_bind, hmode, Option.bind_some, Option.pure_def, hreadonly, hsyslog, hfd]
  simp only [settingsStart, Bool.or_false]

theorem foldlM_options (params : ExecParams) (fd : Nat) (d : DiskData) :
    (optionEvents params fd d).foldlM (serverOption false) (settingsStart false) =
      some (settingsOf params fd d) := by
  rw [optionEvents, List.foldlM_append, foldlM_common, Option.bind_eq_bind, Option.bind_some]
  unfold settingsOf
  cases d.proxy.targetHost with
  | none => rfl
  | some host =>
    rw [if_pos (by rfl), foldlM_proxy]
    simp [settingsStart]

end Settings

section Main

variable {params : ExecParams} {fd : Nat} {d : DiskData} {argv : List CStr} {words : List CStr}

/-- Every string behind the options is there and is an operand. -/
def Plain (d : DiskData) : Prop := ∀ w ∈ operands d, w.map isOption = some false

instance (d : DiskData) : Decidable (Plain d) :=
  inferInstanceAs (Decidable (∀ w ∈ operands d, w.map isOption = some false))

/-- The disk of an entry. -/
def diskServed (cow : Bool) (d : DiskData) : Option Disk :=
  match d.proxy with
  | ⟨none, _, _, _, _⟩ =>
    some (if cow then .cowTarget d.diskFileName else .target d.diskFileName)
  | ⟨some host, some port, some bitmap, some control, _⟩ =>
    some (.proxy host port d.diskFileName bitmap control)
  | _ => none

/-- The server of an entry: its disk, the client of the wrapper, and the options of the
wrapper. -/
def serverOf (params : ExecParams) (fd : Nat) (d : DiskData) (disk : Disk) : XnbdInfo where
  disk := disk
  readonly := params.readonly
  connectedFd := fd
  lport := xnbdPort
  proxyMaxQueSize :=
    if d.proxy.targetHost.isSome then (params.proxyMaxQueSizeStr.map strtoul).getD 0 else 0
  proxyMaxBufSize :=
    if d.proxy.targetHost.isSome then (params.proxyMaxBufSizeStr.map strtoul).getD 0 else 0
  proxyTargetExportname := if d.proxy.targetHost.isSome then d.proxy.targetExportname else none
  proxyClearBitmap := false
  useSyslog := params.syslog
  logpath := none
  daemonize := false

theorem argvOf_plain {args : List (Option CStr)} (h : ∀ w ∈ args, w.map isOption = some false) :
    args = (argvOf args).map some ∧ ∀ v ∈ argvOf args, isOption v = false := by
  induction args with
  | nil => exact ⟨rfl, by simp [argvOf]⟩
  | cons w args ih =>
    simp only [List.mem_cons, forall_eq_or_imp] at h
    obtain ⟨v, rfl, hv⟩ := Option.map_eq_some_iff.mp h.1
    have hcons : argvOf (some v :: args) = v :: argvOf args := argvOf_some [v] args
    obtain ⟨hargs, hplain⟩ := ih h.2
    rw [hcons]
    exact ⟨congrArg (some v :: ·) hargs, by simpa using ⟨hv, hplain⟩⟩

/-- No operand is lost only if none is NULL. -/
theorem argvOf_whole {args : List (Option CStr)} (h : args.length ≤ (argvOf args).length) :
    args = (argvOf args).map some := by
  induction args with
  | nil => rfl
  | cons w args ih =>
    cases w with
    | none => simp [argvOf] at h
    | some v =>
      have hcons : argvOf (some v :: args) = v :: argvOf args := argvOf_some [v] args
      rw [hcons] at h ⊢
      exact congrArg (some v :: ·) (ih (Nat.le_of_succ_le_succ h))

theorem diskOf_length {disk : Disk} (h : diskOf (modeCmd params d) words = some disk) :
    words.length = (operands d).length := by
  cases hhost : d.proxy.targetHost with
  | none =>
    simp only [modeCmd, operands, hhost, Option.isSome_none, Bool.false_eq_true, if_false] at h ⊢
    cases hcow : params.cow <;> simp only [hcow, Bool.false_eq_true, if_false, if_true] at h
    all_goals
      unfold diskOf at h
      split at h <;> first | rfl | simp_all
  | some host =>
    simp only [modeCmd, operands, hhost, Option.isSome_some, if_true] at h ⊢
    unfold diskOf at h
    split at h <;> first | rfl | simp_all

/-- A server that starts has found an operand in every string of the entry. -/
theorem plain_of_started {info : XnbdInfo}
    (hargv : argv.tail = options params fd d ++ argvOf (operands d))
    (h : serverMain argv = some info) : Plain d := by
  obtain ⟨words, hperm, hsecond⟩ :=
    rescan_complete (complete_options params fd d) (argvOf (operands d))
  simp only [serverMain, Option.bind_eq_bind, Option.bind_eq_some_iff, hargv, hsecond] at h
  obtain ⟨s, hs, disk, hdisk, -⟩ := h
  have hmode : Decided (modeCmd params d) s := by
    have hne : modeCmd params d ≠ .unknown := by
      unfold modeCmd
      split
      · simp
      · split <;> simp
    simp only [Scan.push, optionEvents, commonEvents, List.append_assoc, List.cons_append,
      List.nil_append, List.foldlM_cons, Option.bind_eq_bind] at hs
    rw [serverOption_mode params d rfl, Option.bind_some] at hs
    exact foldlM_decided hne (.inl rfl) hs
  have hlength : (scan serverOptions words).operands.length = (operands d).length := by
    rcases hmode with hcmd | hcmd <;> rw [hcmd] at hdisk
    · exact diskOf_length hdisk
    · cases hdisk
  have hle := argvOf_length (operands d)
  have hwords := hperm.length_eq
  have hoperands := @operands_le serverOptions words
  have hwhole : operands d = (argvOf (operands d)).map some := argvOf_whole (by omega)
  intro w hw
  rw [hwhole] at hw
  obtain ⟨v, hv, rfl⟩ := List.mem_map.mp hw
  rw [Option.map_some, Option.some.injEq]
  by_contra hoption
  have hlt := @operands_lt serverOptions words
    ⟨v, hperm.symm.subset hv, by simpa using hoption⟩
  omega

theorem logging_options (params : ExecParams) (fd : Nat) (d : DiskData) :
    (optionEvents params fd d).foldl logOption ⟨none, false, false, false⟩ =
      ⟨none, params.syslog, false, false⟩ := by
  have hmode : ∀ l, logOption l (.option (modeValue params d) none) = l := by
    intro l
    unfold modeValue
    split
    · rfl
    · split <;> rfl
  have hreadonly : ∀ l, (if params.readonly then [Event.option 114 none] else []).foldl logOption l =
      l := by
    intro l
    cases params.readonly <;> rfl
  have hsyslog : ∀ l, (if params.syslog then [Event.option 83 none] else []).foldl logOption l =
      { l with useSyslog := params.syslog || l.useSyslog } := by
    intro l
    cases params.syslog <;> rfl
  have hproxy : ∀ l, (if d.proxy.targetHost.isSome then proxyEvents params d else []).foldl
      logOption l = l := by
    intro l
    cases d.proxy.targetHost with
    | none => rfl
    | some host =>
      simp only [Option.isSome_some, if_true, proxyEvents]
      cases params.proxyMaxQueSizeStr <;> cases params.proxyMaxBufSizeStr <;>
        cases d.proxy.targetExportname <;> rfl
  simp only [optionEvents, commonEvents, List.foldl_append, List.foldl_cons, List.foldl_nil, hmode,
    hreadonly, hsyslog, hproxy, Bool.or_false]
  rfl

theorem diskOf_plain (h : Plain d) :
    diskOf (modeCmd params d) (argvOf (operands d)) = diskServed params.cow d := by
  obtain ⟨name, file, index, ⟨host, port, bitmap, control, exportname⟩⟩ := d
  cases host with
  | none =>
    unfold modeCmd
    cases params.cow <;> rfl
  | some host =>
    simp only [Plain, operands, List.mem_cons, List.not_mem_nil, or_false, forall_eq_or_imp,
      forall_eq] at h
    obtain ⟨-, hport, -, hbitmap, hcontrol⟩ := h
    obtain ⟨port, rfl, -⟩ := Option.map_eq_some_iff.mp hport
    obtain ⟨bitmap, rfl, -⟩ := Option.map_eq_some_iff.mp hbitmap
    obtain ⟨control, rfl, -⟩ := Option.map_eq_some_iff.mp hcontrol
    rfl

/-- A plain entry is started as it is registered. -/
theorem serverMain_plain (hfd : fd < 2 ^ 31)
    (hargv : argv.tail = options params fd d ++ argvOf (operands d)) (h : Plain d) :
    serverMain argv = (diskServed params.cow d).map (serverOf params fd d) := by
  obtain ⟨-, hplain⟩ := argvOf_plain h
  have hscan : scan serverOptions (options params fd d ++ argvOf (operands d)) =
      ⟨optionEvents params fd d, options params fd d, false, argvOf (operands d)⟩ := by
    rw [scan_complete (complete_options params fd d), scan_operands hplain]
    simp only [Scan.push, List.append_nil]
  have hpermuted : (⟨optionEvents params fd d, options params fd d, false,
      argvOf (operands d)⟩ : Scan).permuted = options params fd d ++ argvOf (operands d) := rfl
  have hstart := foldlM_options params fd d
  unfold settingsStart at hstart
  simp only [serverMain, hargv, hscan, hpermuted, logging_options, hstart, Option.bind_eq_bind,
    Option.bind_some]
  have hcmd : (settingsOf params fd d).cmd = modeCmd params d := rfl
  -- the sizes are given to a proxy only
  have hsizes : ¬((0 < (settingsOf params fd d).maxQueSize ∨ 0 < (settingsOf params fd d).maxBufSize) ∧
      (settingsOf params fd d).cmd ≠ .proxy) := by
    unfold settingsOf modeCmd
    cases d.proxy.targetHost <;> simp
  rw [hcmd, diskOf_plain h, Option.map_eq_bind]
  refine congrArg _ (funext fun disk => ?_)
  rw [← hcmd, if_neg hsizes, if_neg (by simp)]
  simp only [settingsOf, atoi_toString hfd]
  simp [serverOf]

/-- The wrapper never writes past `args`, and its command line starts exactly the server that
the entry describes, on the client's socket. If a string of the entry is missing or would be
taken for an option, no server starts at all. -/
theorem exec_xnbd_server_exact (params : ExecParams) (binpath : CStr) {fd : Nat} (hfd : fd < 2 ^ 31)
    (d : DiskData) :
    (execArgs params binpath fd d).length ≤ argsSize ∧
    serverMain (argvOf (execArgs params binpath fd d)) =
      if Plain d then (diskServed params.cow d).map (serverOf params fd d) else none := by
  refine ⟨execArgs_length params fd d binpath, ?_⟩
  have hargv := argvOf_execArgs params fd d binpath
  split
  · rename_i h
    exact serverMain_plain hfd hargv h
  · rename_i h
    cases hstarted : serverMain (argvOf (execArgs params binpath fd d)) with
    | none => rfl
    | some info => exact absurd (plain_of_started hargv hstarted) h

/-- An image file whose name begins with a dash. -/
theorem exec_xnbd_server_exact_dash :
    (execArgs ⟨false, true, false, none, none⟩ (lit "xnbd-server") 7
      ⟨lit "disk", lit "-disk.img", 0, notProxied⟩).length ≤ argsSize ∧
    serverMain (argvOf (execArgs ⟨false, true, false, none, none⟩ (lit "xnbd-server") 7
      ⟨lit "disk", lit "-disk.img", 0, notProxied⟩)) = none :=
  exec_xnbd_server_exact ⟨false, true, false, none, none⟩ (lit "xnbd-server")
    (show 7 < 2 ^ 31 by decide) ⟨lit "disk", lit "-disk.img", 0, notProxied⟩

end Main

end Xnbd.ExecServer
