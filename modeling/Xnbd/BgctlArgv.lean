import Xnbd.ControlLine

/-!
# The arguments of `xnbd-bgctl` (`handle_bgctl_command`)

The four `bgctl` commands of a control connection run `xnbd-bgctl` with an array of
arguments whose length is computed before it is filled. The source says about it

    <input> = <command> <local_exportname> [<arg> .. [<target_exportname>]]
    <output> = <xnbd-bgctl> [<--exportname> <NAME>] <mode> <control_socket> <arg>* <NULL>
-/
namespace Xnbd.BgctlArgv

open CInt CText Registry ControlLine

section Model

/-- The calls of `handle_bgctl_command` in `start_filemgr_thread`. -/
inductive Call where
  | query
  | switch
  | cacheAll
  | reconnect
  deriving DecidableEq

def Call.usage : Call → CStr
  | .query => lit "bgctl-query EXPORTNAME"
  | .switch => lit "bgctl-switch EXPORTNAME"
  | .cacheAll => lit "bgctl-cache-all EXPORTNAME"
  | .reconnect => lit "bgctl-reconnect LOCAL_EXPORTNAME HOST PORT [TARGET_EXPORTNAME]"

def Call.mode : Call → CStr
  | .query => lit "--query"
  | .switch => lit "--switch"
  | .cacheAll => lit "--cache-all"
  | .reconnect => lit "--reconnect"

/-- `expected_argc_min`, which counts the command itself. -/
def Call.argcMin : Call → Nat
  | .query | .switch | .cacheAll => 2
  | .reconnect => 4

/-- `expected_argc_max`. -/
def Call.argcMax : Call → Nat
  | .query | .switch | .cacheAll => 2
  | .reconnect => 5

/-- `bgctl_argv`: the length in its declaration, and the entries in the order in which
they are stored from index 0 on. `none` is NULL. -/
structure ArgVector where
  declared : Int
  stored : List (Option CStr)
  deriving DecidableEq

def bgctlArgv (bgctlCommand mode controlSocketPath : CStr) (argcMax : Nat) (argv : List CStr) :
    ArgVector :=
  let present : Bool := argv.length = argcMax
  -- computed as a `guint` and stored into an `int`
  let positional : Int := toInt32 (argv.length - 1 - 1 - if present then 1 else 0)
  { declared := 1 + (if present then 2 else 0) + 1 + 1 + positional + 1
    stored :=
      [some bgctlCommand] ++
      (if present then [some (lit "--exportname"), argv[argcMax - 1]?] else []) ++
      [some mode, some controlSocketPath] ++
      (List.range positional.toNat).map (fun i => argv[1 + 1 + i]?) ++ [none] }

/-- What `handle_bgctl_command` does with a line: it prints something, or it executes
`xnbd-bgctl` for the words of the line and the control socket of the export. -/
inductive Handled where
  | prints (text : CStr)
  | invokes (argv : List CStr) (controlSocketPath : CStr) (v : ArgVector)
  deriving DecidableEq

/-- `handle_bgctl_command` up to `invoke_bgctl`; `readable` is what `access` says about
the control socket. -/
def handleBgctlCommand (bgctlCommand : CStr) (readable : CStr → Bool) (r : Exports) (c : Call)
    (buf : CStr) : Handled :=
  match extractDecodeCheckUsage buf c.argcMin c.argcMax with
  | none => .prints (lit "usage: " ++ c.usage ++ lit "\n")
  | some argv =>
    let localExportname := argv.getD 1 []
    match getDiskDataFor r localExportname with
    | none => .prints (lit "There is no export named \"" ++ localExportname ++ lit "\".\n")
    | some d =>
      if d.proxy.targetHost = none then
        .prints (lit "Export \"" ++ localExportname ++ lit "\" not configured for proxy mode.\n")
      else
        -- a path that is NULL is not readable
        match d.proxy.controlSocketPath.filter readable with
        | none =>
          .prints (lit "Export \"" ++ localExportname ++
            lit "\" not being served to any client at the moment.\n")
        | some path => .invokes argv path (bgctlArgv bgctlCommand c.mode path c.argcMax argv)

end Model

section Exact

/-- The words that a command must have are the command, the export name and the
positional arguments. A word after them is TARGET_EXPORTNAME. -/
def output (bgctlCommand mode controlSocketPath : CStr) (argcMin : Nat) (argv : List CStr) :
    List (Option CStr) :=
  [some bgctlCommand] ++
  (match argv[argcMin]? with
    | some name => [some (lit "--exportname"), some name]
    | none => []) ++
  [some mode, some controlSocketPath] ++ ((argv.take argcMin).drop 2).map some ++ [none]

/-- The array is filled to its end and not beyond, with what the words of the line ask for. -/
structure Exact (bgctlCommand controlSocketPath : CStr) (c : Call) (argv : List CStr)
    (v : ArgVector) : Prop where
  length : (v.stored.length : Int) = v.declared
  entries : v.stored = output bgctlCommand c.mode controlSocketPath c.argcMin argv

/-- The number of words is in the range of the command. -/
theorem extract_length {buf : CStr} {argcMin argcMax : Nat} {argv : List CStr}
    (h : extractDecodeCheckUsage buf argcMin argcMax = some argv) :
    argcMin ≤ argv.length ∧ argv.length ≤ argcMax := by
  unfold extractDecodeCheckUsage at h
  simp only at h
  generalize (if buf.getLast? = some newline then buf.dropLast else buf) = line at h
  split at h
  · cases h
  · cases h
    simp only [List.length_append, List.length_take, List.length_map, List.length_drop]
    omega

/-- A line that gets as far as `xnbd-bgctl`. -/
theorem handleBgctlCommand_invokes {bgctlCommand : CStr} {readable : CStr → Bool} {r : Exports}
    {c : Call} {buf : CStr} {argv : List CStr} {path : CStr} {v : ArgVector}
    (h : handleBgctlCommand bgctlCommand readable r c buf = .invokes argv path v) :
    extractDecodeCheckUsage buf c.argcMin c.argcMax = some argv ∧
      v = bgctlArgv bgctlCommand c.mode path c.argcMax argv := by
  simp only [handleBgctlCommand] at h
  split at h
  · cases h
  · rename_i argv' hextract
    split at h
    · cases h
    · split at h
      · cases h
      · split at h
        · cases h
        · cases h
          exact ⟨hextract, rfl⟩

/-- The entries for the positional arguments are the words from the third on. -/
theorem positional_entries {argv : List CStr} {n : Nat} (h : n + 2 ≤ argv.length) :
    (List.range n).map (fun i => argv[1 + 1 + i]?) = ((argv.take (n + 2)).drop 2).map some := by
  apply List.ext_getElem?
  intro i
  simp only [List.getElem?_map, List.getElem?_drop, List.getElem?_take]
  by_cases hi : i < n
  · have hget : argv[2 + i]? = some (argv.get ⟨2 + i, by omega⟩) := List.getElem?_eq_getElem _
    rw [List.getElem?_range hi, if_pos (by omega), Option.map_some, hget]
    rfl
  · rw [List.getElem?_eq_none (by simpa using hi), if_neg (by omega)]
    rfl

section Range

variable {bgctlCommand path : CStr} {argv : List CStr}

/-- All the words are there. The last one is passed with `--exportname`. -/
theorem bgctlArgv_full {mode : CStr} {argcMax : Nat} (h : argv.length = argcMax) (hmin : 2 ≤ argcMax)
    (hmax : argcMax < 2 ^ 31) :
    bgctlArgv bgctlCommand mode path argcMax argv =
      ⟨argcMax + 3, [some bgctlCommand, some (lit "--exportname"), argv[argcMax - 1]?, some mode,
        some path] ++ ((argv.take (argcMax - 1)).drop 2).map some ++ [none]⟩ := by
  have hpositional : toInt32 (argv.length - 1 - 1 - 1) = (argcMax : Int) - 3 := by
    rw [toInt32_of_range (by omega) (by omega)]
    omega
  have hdeclared : (1 : Int) + 2 + 1 + 1 + (argcMax - 3) + 1 = argcMax + 3 := by omega
  have hentries : (List.range ((argcMax : Int) - 3).toNat).map (fun i => argv[1 + 1 + i]?) =
      ((argv.take (argcMax - 1)).drop 2).map some := by
    by_cases htwo : argcMax = 2
    · subst htwo
      simp [h]
    · have hn : ((argcMax : Int) - 3).toNat + 2 = argcMax - 1 := by omega
      rw [positional_entries (by omega), hn]
  simp only [bgctlArgv, h, decide_true, if_true] at hpositional ⊢
  rw [hpositional, hentries, hdeclared]
  rfl

/-- The last word is missing, and there is no `--exportname`. -/
theorem bgctlArgv_short {mode : CStr} {argcMax : Nat} (h : argv.length + 1 = argcMax)
    (hmin : 2 ≤ argv.length) (hmax : argcMax < 2 ^ 31) :
    bgctlArgv bgctlCommand mode path argcMax argv =
      ⟨argv.length + 2, [some bgctlCommand, some mode, some path] ++ (argv.drop 2).map some ++
        [none]⟩ := by
  have hpositional : toInt32 (argv.length - 1 - 1 - 0) = (argv.length : Int) - 2 := by
    rw [toInt32_of_range (by omega) (by omega)]
    omega
  have hdeclared : (1 : Int) + 0 + 1 + 1 + (argv.length - 2) + 1 = argv.length + 2 := by omega
  have hentries : (List.range ((argv.length : Int) - 2).toNat).map (fun i => argv[1 + 1 + i]?) =
      (argv.drop 2).map some := by
    have hn : ((argv.length : Int) - 2).toNat + 2 = argv.length := by omega
    rw [positional_entries (by omega), hn, List.take_length]
  have habsent : (decide (argv.length = argcMax)) = false := decide_eq_false (by omega)
  simp only [bgctlArgv, habsent, Bool.false_eq_true, if_false]
  rw [hpositional, hentries, hdeclared]
  rfl

variable {c : Call}

theorem exact_of_optional (hmin : 2 ≤ c.argcMin) (hmax : c.argcMax = c.argcMin + 1)
    (hbound : c.argcMax < 2 ^ 31) (hlow : c.argcMin ≤ argv.length) (hhigh : argv.length ≤ c.argcMax) :
    Exact bgctlCommand path c argv (bgctlArgv bgctlCommand c.mode path c.argcMax argv) := by
  by_cases hfull : argv.length = c.argcMax
  · have hlast : argv[c.argcMin]? = some (argv.get ⟨c.argcMin, by omega⟩) :=
      List.getElem?_eq_getElem _
    have hprev : c.argcMax - 1 = c.argcMin := by omega
    rw [bgctlArgv_full hfull (by omega) hbound, hprev]
    constructor
    · simp only [List.length_append, List.length_cons, List.length_nil, List.length_map,
        List.length_drop, List.length_take]
      omega
    · simp only [output, hlast]
      rfl
  · have hnone : argv[c.argcMin]? = none := List.getElem?_eq_none (by omega)
    rw [bgctlArgv_short (by omega) (by omega) hbound]
    constructor
    · simp only [List.length_append, List.length_cons, List.length_nil, List.length_map,
        List.length_drop]
      omega
    · simp only [output, hnone]
      rw [List.take_of_length_le (by omega)]
      rfl

/-- Without an optional word the vector has two entries that nothing on the line asks for. -/
theorem not_exact_of_mandatory (hmin : 2 ≤ c.argcMin) (hmax : c.argcMax = c.argcMin)
    (hbound : c.argcMax < 2 ^ 31) (hlow : c.argcMin ≤ argv.length) (hhigh : argv.length ≤ c.argcMax) :
    ¬ Exact bgctlCommand path c argv (bgctlArgv bgctlCommand c.mode path c.argcMax argv) := by
  intro h
  have hnone : argv[c.argcMin]? = none := List.getElem?_eq_none (by omega)
  have hentries := congrArg List.length h.entries
  rw [bgctlArgv_full (by omega) (by omega) hbound] at hentries
  simp only [output, hnone, List.length_append, List.length_cons, List.length_nil, List.length_map,
    List.length_drop, List.length_take] at hentries
  omega

end Range

/-- The ranges of the four calls. -/
theorem Call.range (c : Call) :
    2 ≤ c.argcMin ∧ c.argcMax < 2 ^ 31 ∧ (c.argcMax = c.argcMin ∨ c.argcMax = c.argcMin + 1) := by
  cases c <;> decide

theorem bgctl_argv_exact_iff (bgctlCommand : CStr) (readable : CStr → Bool) (r : Exports) (c : Call)
    (buf : CStr) (argv : List CStr) (path : CStr) (v : ArgVector)
    (h : handleBgctlCommand bgctlCommand readable r c buf = .invokes argv path v) :
    Exact bgctlCommand path c argv v ↔ c.argcMin < c.argcMax := by
  obtain ⟨hextract, rfl⟩ := handleBgctlCommand_invokes h
  obtain ⟨hlow, hhigh⟩ := extract_length hextract
  obtain ⟨hmin, hbound, hrange⟩ := c.range
  constructor
  · intro hexact
    by_contra hle
    exact not_exact_of_mandatory hmin (by omega) hbound hlow hhigh hexact
  · intro hlt
    exact exact_of_optional hmin (by omega) hbound hlow hhigh

/-- An export `d` in proxy mode with the control socket `s`. -/
def exportD : Exports :=
  loadImages [.proxy (lit "d") (lit "h") (lit "1") (lit "c") (lit "b") (lit "s") none]

theorem bgctl_argv_exact_reconnect :
    handleBgctlCommand (lit "xnbd-bgctl") (fun _ => true) exportD .reconnect
        (lit "bgctl-reconnect d host 99 disk\n") =
      .invokes (["bgctl-reconnect", "d", "host", "99", "disk"].map lit) (lit "s")
        ⟨8, [some (lit "xnbd-bgctl"), some (lit "--exportname"), some (lit "disk"),
          some (lit "--reconnect"), some (lit "s"), some (lit "host"), some (lit "99"), none]⟩ ∧
    Exact (lit "xnbd-bgctl") (lit "s") .reconnect
      (["bgctl-reconnect", "d", "host", "99", "disk"].map lit)
      ⟨8, [some (lit "xnbd-bgctl"), some (lit "--exportname"), some (lit "disk"),
        some (lit "--reconnect"), some (lit "s"), some (lit "host"), some (lit "99"), none]⟩ := by
  have hline : handleBgctlCommand (lit "xnbd-bgctl") (fun _ => true) exportD .reconnect
      (lit "bgctl-reconnect d host 99 disk\n") =
      .invokes (["bgctl-reconnect", "d", "host", "99", "disk"].map lit) (lit "s")
        ⟨8, [some (lit "xnbd-bgctl"), some (lit "--exportname"), some (lit "disk"),
          some (lit "--reconnect"), some (lit "s"), some (lit "host"), some (lit "99"), none]⟩ := by
    decide +kernel
  exact ⟨hline, (bgctl_argv_exact_iff _ _ _ _ _ _ _ _ hline).mpr (by decide)⟩

/-- Six entries are stored into an array of five, and the name of the export is passed on
as the name at the target. -/
theorem bgctl_query_overflows :
    handleBgctlCommand (lit "xnbd-bgctl") (fun _ => true) exportD .query (lit "bgctl-query d\n") =
      .invokes [lit "bgctl-query", lit "d"] (lit "s")
        ⟨5, [some (lit "xnbd-bgctl"), some (lit "--exportname"), some (lit "d"),
          some (lit "--query"), some (lit "s"), none]⟩ ∧
    ¬ Exact (lit "xnbd-bgctl") (lit "s") .query [lit "bgctl-query", lit "d"]
        ⟨5, [some (lit "xnbd-bgctl"), some (lit "--exportname"), some (lit "d"),
          some (lit "--query"), some (lit "s"), none]⟩ := by
  constructor
  · decide +kernel
  · intro h
    exact absurd h.length (by decide)

end Exact

end Xnbd.BgctlArgv
