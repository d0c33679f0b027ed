import Xnbd.ControlLine
import Mathlib.Data.List.TakeWhile

/-!
# Commands composed by `xnbd-wrapper-ctl`

The client writes a command and its arguments, percent-encoded, on one line. The
wrapper finds the arguments again, whatever bytes they are made of.
-/
namespace Xnbd.Compose

open CText Registry Wrapper ControlLine

section Client

/-- The parsed command line of `xnbd-wrapper-ctl`, as far as a command is composed
from it. -/
structure Options where
  list : Bool
  orphan : Bool
  shutdown : Bool
  save : Bool
  bgctlQuery : Option CStr
  bgctlSwitch : Option CStr
  bgctlCacheAll : Option CStr
  remove : Option Int
  removeByFile : Option CStr
  removeByExportname : Option CStr
  addProxy : Option (List CStr)
  add : Option CStr
  addTarget : Option (List CStr)
  bgctlReconnect : Option (List CStr)
  targetExportname : Option CStr

/-- No option at all. -/
def noOptions : Options :=
  ⟨false, false, false, false, none, none, none, none, none, none, none, none, none, none, none⟩

/-- An option that is not `None` and not empty, as `if dest:` sees it. -/
def given {α : Type} [DecidableEq α] (o : Option (List α)) : Option (List α) :=
  o.filter fun l => l ≠ []

/-- `' '.join`. -/
def join : List CStr → CStr
  | [] => []
  | w :: words => w ++ words.flatMap fun v => space :: v

/-- `'%s %s' % (command, ' '.join(percent_encode(args)))`. -/
def composed (command : CStr) (args : List CStr) : CStr :=
  command ++ [space] ++ join (args.map quote)

/-- `compose_command`; `none` is the failed assertion at its end. -/
def composeCommand (o : Options) : Option CStr :=
  if o.list then some (lit "list")
  else if o.orphan then some (lit "orphan")
  else if o.shutdown then some (lit "shutdown")
  else if o.save then some (lit "save")
  else
    ((given o.bgctlQuery).map fun name => composed (lit "bgctl-query") [name]) <|>
    ((given o.bgctlSwitch).map fun name => composed (lit "bgctl-switch") [name]) <|>
    ((given o.bgctlCacheAll).map fun name => composed (lit "bgctl-cache-all") [name]) <|>
    ((o.remove.filter fun n => n ≠ 0).map fun n => composed (lit "del") [lit (toString n)]) <|>
    ((given o.removeByFile).map fun file => composed (lit "del-file") [file]) <|>
    ((given o.removeByExportname).map fun name => composed (lit "del-exportname") [name]) <|>
    ((given o.addProxy).map fun args =>
      composed (lit "add-proxy") (args ++ (given o.targetExportname).toList)) <|>
    ((given o.add).map fun file => composed (lit "add-target") [file, file]) <|>
    ((given o.addTarget).map fun args => composed (lit "add-target") args) <|>
    ((given o.bgctlReconnect).map fun args =>
      composed (lit "bgctl-reconnect") (args ++ (given o.targetExportname).toList))

end Client

section Decode

theorem hexdigCharToInt_hexDigit : ∀ n < 16, hexdigCharToInt (hexDigit n) = some n := by decide

theorem decodeLoop_plain {b : UInt8} (h : b ≠ percent) (rest : List UInt8) :
    decodeLoop (b :: rest) = b :: decodeLoop rest := by
  cases rest with
  | nil => rfl
  | cons c rest => simp only [decodeLoop, ne_eq, h, not_false_eq_true, if_true]

theorem decodeLoop_quoteByte (b : UInt8) (rest : List UInt8) :
    decodeLoop (quoteByte b ++ rest) = b :: decodeLoop rest := by
  have hb : b.toNat < 256 := b.toNat_lt
  simp only [quoteByte]
  split
  · rename_i hsafe
    exact decodeLoop_plain (quoteSafe_plain hsafe).2.2 rest
  · have hhigh := hexdigCharToInt_hexDigit (b.toNat / 16) (by omega)
    have hlow := hexdigCharToInt_hexDigit (b.toNat % 16) (by omega)
    have hvalue : 16 * (b.toNat / 16) + b.toNat % 16 = b.toNat := by omega
    simp [decodeLoop, hhigh, hlow, hvalue]

theorem decodeLoop_quote (s : List UInt8) : decodeLoop (quote s) = s := by
  induction s with
  | nil => rfl
  | cons b s ih =>
    rw [quote, List.flatMap_cons, decodeLoop_quoteByte]
    exact congrArg (b :: ·) ih

theorem cString_eq_self {s : List UInt8} (h : 0 ∉ s) : cString s = s := by
  rw [cString, List.takeWhile_eq_self_iff]
  intro b hb
  exact decide_eq_true fun hzero => h (hzero ▸ hb)

theorem decodePercentEncoding_quote {s : CStr} (h : 0 ∉ s) : decodePercentEncoding (quote s) = s := by
  rw [decodePercentEncoding, decodeLoop_quote, cString_eq_self h]

end Decode

section Line

variable {command : CStr} {args : List CStr}

theorem join_cons (w : CStr) (words : List CStr) :
    [space] ++ join (w :: words) = (w :: words).flatMap fun v => space :: v := by
  simp [join]

theorem composed_eq (h : args ≠ []) :
    composed command args = command ++ (args.map quote).flatMap fun w => space :: w := by
  cases args with
  | nil => exact absurd rfl h
  | cons a args => rw [composed, List.append_assoc, List.map_cons, join_cons]

/-- The line consists of the command, spaces and quoted arguments. -/
theorem mem_composed (h : args ≠ []) {b : UInt8} (hb : b ∈ composed command args) :
    b ∈ command ∨ b = space ∨ (isspace b = false ∧ b ≠ 0) := by
  rw [composed_eq h, List.mem_append] at hb
  cases hb with
  | inl hb => exact .inl hb
  | inr hb =>
    obtain ⟨w, hw, hbw⟩ := List.mem_flatMap.mp hb
    obtain ⟨a, _, rfl⟩ := List.mem_map.mp hw
    cases List.mem_cons.mp hbw with
    | inl hspace => exact .inr (.inl hspace)
    | inr hquote => exact .inr (.inr (quote_plain b hquote))

/-- A word of the client: not empty, and without white space and NUL. -/
def Plain (word : CStr) : Prop := word ≠ [] ∧ ∀ b ∈ word, isspace b = false ∧ b ≠ 0

instance (word : CStr) : Decidable (Plain word) := inferInstanceAs (Decidable (_ ∧ _))

theorem composed_no_newline (hcommand : Plain command) (h : args ≠ []) :
    newline ∉ composed command args := by
  intro hb
  obtain hb | hb | hb := mem_composed h hb
  · exact absurd (hcommand.2 _ hb).1 (by decide)
  · exact absurd hb (by decide)
  · exact absurd hb.1 (by decide)

theorem composed_no_nul (hcommand : Plain command) (h : args ≠ []) :
    0 ∉ composed command args ++ [newline] := by
  intro hb
  cases List.mem_append.mp hb with
  | inl hb =>
    obtain hb | hb | hb := mem_composed h hb
    · exact (hcommand.2 _ hb).2 rfl
    · exact absurd hb (by decide)
    · exact hb.2 rfl
  | inr hb => exact absurd (List.mem_singleton.mp hb) (by decide)

/-- `sscanf` finds the command and the first argument. -/
theorem scanTwo_composed (hcommand : Plain command) {a : CStr} (ha : a ≠ []) (args : List CStr) :
    scanTwo (composed command (a :: args) ++ [newline]) = some (command, some (quote a)) := by
  have hline : composed command (a :: args) ++ [newline] = command ++ (space :: (quote a ++
      ((args.map quote).flatMap (fun w => space :: w) ++ [newline]))) := by
    rw [composed_eq (List.cons_ne_nil a args)]
    simp
  have hfirst := scanWord_append (space :: (quote a ++
      ((args.map quote).flatMap (fun w => space :: w) ++ [newline]))) hcommand.1
    (fun b hb => (hcommand.2 b hb).1) (by simp; decide)
  have hsecond := scanWord_append
    ((args.map quote).flatMap (fun w => space :: w) ++ [newline]) (quote_ne_nil ha)
    (fun b hb => (quote_plain b hb).1) (by cases args <;> simp <;> decide)
  rw [hline, scanTwo, hfirst, Option.map_some, scanWord_space (by decide), hsecond]
  rfl

theorem commandsOf_composed (hcommand : Plain command) {a : CStr} (ha : a ≠ []) (args : List CStr)
    (hlength : (composed command (a :: args)).length < 1023) {reads : List (List UInt8)}
    (hreads : reads.flatten = composed command (a :: args) ++ [newline]) :
    commandsOf reads =
      [⟨command, some (quote a), composed command (a :: args) ++ [newline]⟩] := by
  have hnewline := composed_no_newline hcommand (List.cons_ne_nil a args)
  have hnul := cString_eq_self (composed_no_nul hcommand (List.cons_ne_nil a args))
  have hscan : scanPiece (composed command (a :: args) ++ [newline]) =
      some ⟨command, some (quote a), composed command (a :: args) ++ [newline]⟩ := by
    rw [scanPiece, hnul, scanTwo_composed hcommand ha args]
    rfl
  rw [commandsOf_line hnewline hlength hreads, hscan]
  rfl

/-- Split at the spaces and decoded, the line gives the arguments back. -/
theorem extract_composed (hcommand : Plain command) (h : args ≠ []) (hnul : ∀ a ∈ args, 0 ∉ a)
    {argcMin argcMax : Nat} (hmin : argcMin ≤ args.length + 1) (hmax : args.length + 1 ≤ argcMax) :
    extractDecodeCheckUsage (composed command args ++ [newline]) argcMin argcMax =
      some (command :: args) := by
  have hsplit : gStrsplit (composed command args) space (argcMax + 1) =
      command :: args.map quote := by
    have hspace : space ∉ command := fun hb => absurd (hcommand.2 _ hb).1 (by decide)
    have hquoted : ∀ w ∈ args.map quote, space ∉ w := by
      intro w hw hb
      obtain ⟨a, _, rfl⟩ := List.mem_map.mp hw
      exact absurd (quote_plain _ hb).1 (by decide)
    have hne : composed command args ≠ [] := by simp [composed, hcommand.1]
    rw [gStrsplit, if_neg hne, composed_eq h, splitTokens_plain hspace, List.nil_append,
      splitTokens_join hquoted _ (by rw [List.length_map]; omega)]
  have hdecoded : (args.map quote).map decodePercentEncoding = args := by
    rw [List.map_map]
    exact (List.map_congr_left fun a ha => decodePercentEncoding_quote (hnul a ha)).trans
      (List.map_id args)
  have hrange : ¬ ((command :: args.map quote).length < argcMin ∨
      argcMax < (command :: args.map quote).length) := by
    rw [List.length_cons, List.length_map]
    omega
  simp only [extractDecodeCheckUsage, List.getLast?_append, List.dropLast_concat]
  simp only [List.getLast?_singleton, Option.some_or, if_true, hsplit, if_neg hrange,
    List.take_succ_cons, List.take_zero, List.drop_succ_cons, List.drop_zero, hdecoded]
  rfl

end Line

section Survive

/-- An operation of the client with arguments of any bytes. -/
inductive Operation where
  | addTarget (name file : CStr)
  | addProxy (name host port cache bitmap control : CStr) (targetExportname : Option CStr)
  | bgctlQuery (name : CStr)
  | bgctlSwitch (name : CStr)
  | bgctlCacheAll (name : CStr)
  | bgctlReconnect (name host port : CStr) (targetExportname : Option CStr)
  | delFile (file : CStr)
  | delExportname (name : CStr)

namespace Operation

def options : Operation → Options
  | addTarget name file => { noOptions with addTarget := some [name, file] }
  | addProxy name host port cache bitmap control targetExportname =>
    { noOptions with addProxy := some [name, host, port, cache, bitmap, control], targetExportname }
  | bgctlQuery name => { noOptions with bgctlQuery := some name }
  | bgctlSwitch name => { noOptions with bgctlSwitch := some name }
  | bgctlCacheAll name => { noOptions with bgctlCacheAll := some name }
  | bgctlReconnect name host port targetExportname =>
    { noOptions with bgctlReconnect := some [name, host, port], targetExportname }
  | delFile file => { noOptions with removeByFile := some file }
  | delExportname name => { noOptions with removeByExportname := some name }

def args : Operation → List CStr
  | addTarget name file => [name, file]
  | addProxy name host port cache bitmap control targetExportname =>
    [name, host, port, cache, bitmap, control] ++ targetExportname.toList
  | bgctlQuery name | bgctlSwitch name | bgctlCacheAll name => [name]
  | bgctlReconnect name host port targetExportname =>
    [name, host, port] ++ targetExportname.toList
  | delFile file => [file]
  | delExportname name => [name]

/-- What the wrapper is meant to do. -/
def action : Operation → Action
  | addTarget name file => .add (.target name file)
  | addProxy name host port cache bitmap control targetExportname =>
    .add (.proxy name host port cache bitmap control targetExportname)
  | bgctlQuery name => .bgctlQuery name
  | bgctlSwitch name => .bgctlSwitch name
  | bgctlCacheAll name => .bgctlCacheAll name
  | bgctlReconnect name host port targetExportname =>
    .bgctlReconnect name host port targetExportname
  | delFile file => .del (.byFile file)
  | delExportname name => .del (.byExportname name)

def command : Operation → CStr
  | addTarget _ _ => lit "add-target"
  | addProxy _ _ _ _ _ _ _ => lit "add-proxy"
  | bgctlQuery _ => lit "bgctl-query"
  | bgctlSwitch _ => lit "bgctl-switch"
  | bgctlCacheAll _ => lit "bgctl-cache-all"
  | bgctlReconnect _ _ _ _ => lit "bgctl-reconnect"
  | delFile _ => lit "del-file"
  | delExportname _ => lit "del-exportname"

end Operation

theorem command_plain (op : Operation) : Plain op.command := by
  cases op <;> simp only [Operation.command] <;> decide +kernel

theorem given_some {α : Type} [DecidableEq α] {l : List α} (h : l ≠ []) :
    given (some l) = some l := by
  simp [given, Option.filter, h]

theorem given_toList {o : Option CStr} (h : ∀ s ∈ o.toList, s ≠ []) : (given o).toList = o.toList := by
  cases o with
  | none => rfl
  | some s => rw [given_some (h s (by simp))]

theorem composeCommand_operation (op : Operation) (h : ∀ a ∈ op.args, a ≠ []) :
    composeCommand op.options = some (composed op.command op.args) := by
  cases op with
  | addTarget name file => rfl
  | addProxy name host port cache bitmap control targetExportname =>
    have hname := given_toList (o := targetExportname) fun s hs => h s (List.mem_append_right _ hs)
    simp only [composeCommand, Operation.options, noOptions, hname]
    rfl
  | bgctlQuery name =>
    simp only [composeCommand, Operation.options, given_some (h name List.mem_cons_self)]
    rfl
  | bgctlSwitch name =>
    simp only [composeCommand, Operation.options, given_some (h name List.mem_cons_self)]
    rfl
  | bgctlCacheAll name =>
    simp only [composeCommand, Operation.options, given_some (h name List.mem_cons_self)]
    rfl
  | bgctlReconnect name host port targetExportname =>
    have hname := given_toList (o := targetExportname) fun s hs => h s (List.mem_append_right _ hs)
    simp only [composeCommand, Operation.options, noOptions, hname]
    rfl
  | delFile file =>
    simp only [composeCommand, Operation.options, given_some (h file List.mem_cons_self)]
    rfl
  | delExportname name =>
    simp only [composeCommand, Operation.options, given_some (h name List.mem_cons_self)]
    rfl

/-- The commands that `dispatch` tries first. -/
def firstCommands : List CStr :=
  [lit "list", lit "add", lit "add-target", lit "add-proxy", lit "del", lit "del-file",
    lit "del-exportname"]

theorem dispatch_other {cmd : CStr} (h : cmd ∉ firstCommands) (buf arg : CStr) :
    (dispatch cmd buf arg).1 = dispatchOther cmd buf := by
  simp only [firstCommands, List.mem_cons, List.not_mem_nil, or_false, not_or] at h
  obtain ⟨hlist, hadd, htarget, hproxy, hdel, hfile, hexport⟩ := h
  simp only [dispatch, if_neg hlist, hadd, htarget, or_self, if_false, if_neg hproxy, if_neg hdel,
    if_neg hfile, if_neg hexport]

/-- The line with its newline. -/
def lineOf (op : Operation) : CStr := composed op.command op.args ++ [newline]

/-- The dispatcher gets the arguments back, by the words of the line or by the second
word alone. -/
theorem dispatch_operation (op : Operation) (h : ∀ a ∈ op.args, 0 ∉ a) {first : CStr}
    {rest : List CStr} (hargs : op.args = first :: rest) :
    (dispatch op.command (lineOf op) (quote first)).1 = op.action := by
  have hne : op.args ≠ [] := by rw [hargs]; exact List.cons_ne_nil _ _
  have hextract : ∀ argcMin argcMax : Nat, argcMin ≤ op.args.length + 1 →
      op.args.length + 1 ≤ argcMax →
      extractDecodeCheckUsage (lineOf op) argcMin argcMax = some (op.command :: op.args) :=
    fun _ _ hmin hmax => extract_composed (command_plain op) hne h hmin hmax
  have hfirst : decodePercentEncoding (quote first) = first :=
    decodePercentEncoding_quote (h first (by rw [hargs]; exact List.mem_cons_self))
  cases op with
  | addTarget name file =>
    have hargv := hextract 2 3 (by simp [Operation.args]) (by simp [Operation.args])
    change (dispatch (lit "add-target") _ _).1 = _
    rw [dispatch, if_neg (by decide +kernel), if_pos (by decide +kernel)]
    simp only [addTargetLine, hargv]
    rfl
  | addProxy name host port cache bitmap control targetExportname =>
    change (dispatch (lit "add-proxy") _ _).1 = _
    rw [dispatch, if_neg (by decide +kernel), if_neg (by decide +kernel), if_pos rfl]
    cases targetExportname with
    | none =>
      have hargv := hextract 7 8 (by simp [Operation.args]) (by simp [Operation.args])
      simp only [addProxyLine, hargv]
      rfl
    | some target =>
      have hargv := hextract 7 8 (by simp [Operation.args]) (by simp [Operation.args])
      simp only [addProxyLine, hargv]
      rfl
  | bgctlQuery name =>
    have hargv := hextract 2 2 (by simp [Operation.args]) (by simp [Operation.args])
    change (dispatch (lit "bgctl-query") _ _).1 = _
    rw [dispatch_other (by decide +kernel), dispatchOther, if_neg (by decide +kernel),
      if_neg (by decide +kernel), if_pos rfl]
    simp only [bgctlLine, hargv]
    rfl
  | bgctlSwitch name =>
    have hargv := hextract 2 2 (by simp [Operation.args]) (by simp [Operation.args])
    change (dispatch (lit "bgctl-switch") _ _).1 = _
    rw [dispatch_other (by decide +kernel), dispatchOther, if_neg (by decide +kernel),
      if_neg (by decide +kernel), if_neg (by decide +kernel), if_pos rfl]
    simp only [bgctlLine, hargv]
    rfl
  | bgctlCacheAll name =>
    have hargv := hextract 2 2 (by simp [Operation.args]) (by simp [Operation.args])
    change (dispatch (lit "bgctl-cache-all") _ _).1 = _
    rw [dispatch_other (by decide +kernel), dispatchOther, if_neg (by decide +kernel),
      if_neg (by decide +kernel), if_neg (by decide +kernel), if_neg (by decide +kernel), if_pos rfl]
    simp only [bgctlLine, hargv]
    rfl
  | bgctlReconnect name host port targetExportname =>
    change (dispatch (lit "bgctl-reconnect") _ _).1 = _
    rw [dispatch_other (by decide +kernel), dispatchOther, if_neg (by decide +kernel),
      if_neg (by decide +kernel), if_neg (by decide +kernel), if_neg (by decide +kernel),
      if_neg (by decide +kernel), if_pos rfl]
    cases targetExportname with
    | none =>
      have hargv := hextract 4 5 (by simp [Operation.args]) (by simp [Operation.args])
      simp only [bgctlReconnectLine, hargv]
      rfl
    | some target =>
      have hargv := hextract 4 5 (by simp [Operation.args]) (by simp [Operation.args])
      simp only [bgctlReconnectLine, hargv]
      rfl
  | delFile file =>
    change (dispatch (lit "del-file") _ _).1 = _
    rw [dispatch, if_neg (by decide +kernel), if_neg (by decide +kernel),
      if_neg (by decide +kernel), if_neg (by decide +kernel), if_pos rfl, hfirst]
    cases hargs
    rfl
  | delExportname name =>
    change (dispatch (lit "del-exportname") _ _).1 = _
    rw [dispatch, if_neg (by decide +kernel), if_neg (by decide +kernel),
      if_neg (by decide +kernel), if_neg (by decide +kernel), if_neg (by decide +kernel),
      if_pos rfl, hfirst]
    cases hargs
    rfl

theorem command_survives (op : Operation) (h : ∀ a ∈ op.args, a ≠ [] ∧ 0 ∉ a) :
    ∃ line, composeCommand op.options = some line ∧
      (line.length < 1023 → ∀ ok c, c.AtPrompt → ∀ reads : List (List UInt8), [] ∉ reads →
        reads.flatten = line ++ [newline] →
        (serve ok c reads).actions = c.actions ++ [op.action]) := by
  have hline := composeCommand_operation op fun a ha => (h a ha).1
  constructor
  · constructor
    · exact hline
    · intro hlength ok c hc reads hreads hwhole
      obtain ⟨first, rest, hargs⟩ : ∃ first rest, op.args = first :: rest := by
        cases op <;> exact ⟨_, _, rfl⟩
      have hfirst : first ≠ [] := (h first (by rw [hargs]; exact List.mem_cons_self)).1
      have hdispatch := dispatch_operation op (fun a ha => (h a ha).2) hargs
      rw [hargs] at hlength hwhole
      have hcommands := commandsOf_composed (command_plain op) hfirst rest hlength hwhole
      rw [← hargs] at hcommands
      rw [(serve_commands ok hc hreads).2, hcommands, List.foldl_cons, List.foldl_nil]
      simp only [obey, hc.running, Bool.false_eq_true, if_false, Option.getD_some]
      exact congrArg (fun action => c.actions ++ [action]) hdispatch

/-- A name with a space, a newline, a percent sign and a byte above 127. -/
def oddName : CStr := [32, 10, 37, 52, 200]

def oddLine : CStr := lit "del-exportname %20%0A%254%C8"

/-- The line comes in two pieces. -/
theorem command_survives_odd_name :
    composeCommand (Operation.delExportname oddName).options = some oddLine ∧
    (serve (fun _ _ => true) (.new [] exportOne)
      [oddLine.take 18, oddLine.drop 18 ++ [newline]]).actions = [.del (.byExportname oddName)] := by
  obtain ⟨line, hline, hsurvives⟩ := command_survives (.delExportname oddName) (by decide)
  have hodd : composeCommand (Operation.delExportname oddName).options = some oddLine := by
    decide +kernel
  obtain rfl : oddLine = line := Option.some.inj (hodd.symm.trans hline)
  exact ⟨hodd, hsurvives (by decide +kernel) _ _ ⟨rfl, rfl⟩ _ (by decide +kernel) (by decide +kernel)⟩

end Survive

end Xnbd.Compose
