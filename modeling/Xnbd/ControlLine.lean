import Xnbd.CText
import Xnbd.Wrapper

/-!
# Control lines (`start_filemgr_thread`)

A control connection is read with `fgets` into a buffer of 1024 bytes, and each
piece is taken for a command: `sscanf` finds the command word, and the rest is
either split at single spaces (`extract_decode_check_usage`) or is the second word
that `sscanf` found. That word has a buffer of its own, which is not cleared between
the pieces. The prompt goes out through the stream that the lines are read from.
-/
namespace Xnbd.ControlLine

open CText Registry Wrapper

section Decode

/-- `hexdig_char_to_int`; `none` is -1. -/
def hexdigCharToInt (c : UInt8) : Option Nat :=
  if 48 ≤ c ∧ c ≤ 57 then some (c.toNat - 48)
  else if 97 ≤ c ∧ c ≤ 102 then some (c.toNat - 87)
  else if 65 ≤ c ∧ c ≤ 70 then some (c.toNat - 55)
  else none

/-- The loop of `decode_percent_encoding`: what it writes for what is still unread. -/
def decodeLoop : List UInt8 → List UInt8
  | [] => []
  | [c] => [c]
  | c :: c₁ :: rest =>
    if c ≠ percent then c :: decodeLoop (c₁ :: rest)
    else
      match hexdigCharToInt c₁ with
      | none => c :: decodeLoop (c₁ :: rest)
      | some higher =>
        match rest with
        | [] => [c, c₁]
        | c₂ :: rest' =>
          match hexdigCharToInt c₂ with
          | none => c :: c₁ :: decodeLoop (c₂ :: rest')
          | some lower => UInt8.ofNat (16 * higher + lower) :: decodeLoop rest'

/-- `decode_percent_encoding`. A decoded NUL ends the string. -/
def decodePercentEncoding (text : CStr) : CStr := cString (decodeLoop text)

/-- `extract_decode_check_usage`; `none` is `ARGV_ERROR_USAGE`. The command word is
not decoded. -/
def extractDecodeCheckUsage (buf : CStr) (argcMin argcMax : Nat) : Option (List CStr) :=
  let buf := if buf.getLast? = some newline then buf.dropLast else buf
  -- one token more than allowed, or the merging of `g_strsplit` would go unnoticed
  let argv := gStrsplit buf space (argcMax + 1)
  if argv.length < argcMin ∨ argcMax < argv.length then none
  else some (argv.take 1 ++ (argv.drop 1).map decodePercentEncoding)

end Decode

section Dispatch

/-- What the loop does with a piece. -/
inductive Action where
  | list
  | add (image : Image)
  | del (which : Deletion)
  | shutdown
  | orphan
  | bgctlQuery (name : CStr)
  | bgctlSwitch (name : CStr)
  | bgctlCacheAll (name : CStr)
  | bgctlReconnect (name host port : CStr) (targetExportname : Option CStr)
  | save
  | help
  | quit
  | usage (text : String)
  | unknown
  deriving DecidableEq

def addTargetLine (buf : CStr) : Action :=
  match extractDecodeCheckUsage buf 2 3 with
  | some [_, file] => .add (.target file file)
  | some [_, exportname, file] => .add (.target exportname file)
  | _ => .usage "add-target <LOCAL_EXPORTNAME> <FILE>"

def addProxyLine (buf : CStr) : Action :=
  match extractDecodeCheckUsage buf 7 8 with
  | some [_, name, host, port, cache, bitmap, control] =>
    .add (.proxy name host port cache bitmap control none)
  | some [_, name, host, port, cache, bitmap, control, targetExportname] =>
    .add (.proxy name host port cache bitmap control (some targetExportname))
  | _ => .usage "add-proxy <LOCAL_EXPORTNAME> <TARGET_HOST> <TARGET_PORT> <CACHE_IMAGE> <BITMAP_IMAGE> <CONTROL_SOCKET_PATH> [<TARGET_EXPORTNAME>]"

/-- The commands with an export name and nothing else. -/
def bgctlLine (action : CStr → Action) (usage : String) (buf : CStr) : Action :=
  match extractDecodeCheckUsage buf 2 2 with
  | some [_, name] => action name
  | _ => .usage usage

def bgctlReconnectLine (buf : CStr) : Action :=
  match extractDecodeCheckUsage buf 4 5 with
  | some [_, name, host, port] => .bgctlReconnect name host port none
  | some [_, name, host, port, targetExportname] =>
    .bgctlReconnect name host port (some targetExportname)
  | _ => .usage "bgctl-reconnect LOCAL_EXPORTNAME HOST PORT [TARGET_EXPORTNAME]"

/-- The commands after `del-exportname`. -/
def dispatchOther (cmd buf : CStr) : Action :=
  if cmd = lit "shutdown" then .shutdown
  else if cmd = lit "orphan" then .orphan
  else if cmd = lit "bgctl-query" then bgctlLine .bgctlQuery "bgctl-query EXPORTNAME" buf
  else if cmd = lit "bgctl-switch" then bgctlLine .bgctlSwitch "bgctl-switch EXPORTNAME" buf
  else if cmd = lit "bgctl-cache-all" then
    bgctlLine .bgctlCacheAll "bgctl-cache-all EXPORTNAME" buf
  else if cmd = lit "bgctl-reconnect" then bgctlReconnectLine buf
  else if cmd = lit "save" then .save
  else if cmd = lit "help" then .help
  else if cmd = lit "quit" then .quit
  else .unknown

/-- The command for a piece, and the buffer of the second word after it, which two
commands decode in place. -/
def dispatch (cmd buf arg : CStr) : Action × CStr :=
  if cmd = lit "list" then (.list, arg)
  else if cmd = lit "add" ∨ cmd = lit "add-target" then (addTargetLine buf, arg)
  else if cmd = lit "add-proxy" then (addProxyLine buf, arg)
  else if cmd = lit "del" then (.del (.byIndex (atoi arg)), arg)
  else if cmd = lit "del-file" then
    (.del (.byFile (decodePercentEncoding arg)), decodePercentEncoding arg)
  else if cmd = lit "del-exportname" then
    (.del (.byExportname (decodePercentEncoding arg)), decodePercentEncoding arg)
  else (dispatchOther cmd buf, arg)

/-- The command of the wrapper that an action is, if it concerns the registry. -/
def Action.command : Action → Option Command
  | .add image => some (.add image)
  | .del which => some (.del which)
  | .bgctlQuery name | .bgctlCacheAll name => some (.bgctl name .keep)
  | .bgctlSwitch name => some (.bgctl name .switch)
  | .bgctlReconnect name host port targetExportname =>
    some (.bgctl name (.reconnect host port targetExportname))
  | .save => some .save
  | _ => none

/-- What a command makes of the registry when no other connection comes between. -/
def perform (ok : Bool) (r : Exports) : Command → Exports
  | .add image => (addDiskimg r (createDiskData image) ok).1
  | .del which => (delete r which).1
  | .bgctl name update =>
    if ((getDiskDataFor r name).any fun d => d.proxy.targetHost.isSome) && ok then
      applyUpdate r name update
    else r
  | .save => r

/-- The thread at `k` comes to rest on its own, and leaves the registry `r'`. -/
def Settles (threads : List Thread) (k : Nat) (ok : Bool) (r : Exports) (thread : Thread)
    (r' : Exports) : Prop :=
  ∃ n, Run.run step ⟨r, threads.set k thread⟩ (List.replicate n (.go k ok)) =
    some ⟨r', threads.set k .idle⟩

theorem settles_idle (threads : List Thread) (k : Nat) (ok : Bool) (r : Exports) :
    Settles threads k ok r .idle r :=
  ⟨0, rfl⟩

theorem settles_step {threads : List Thread} {k : Nat} {ok : Bool} {r r₁ r' : Exports}
    {thread next : Thread} (hk : k < threads.length)
    (ha : advance r ok thread = some (r₁, next)) (h : Settles threads k ok r₁ next r') :
    Settles threads k ok r thread r' := by
  obtain ⟨n, hn⟩ := h
  have hstep : step ⟨r, threads.set k thread⟩ (.go k ok) = some ⟨r₁, threads.set k next⟩ := by
    simp [step, hk, ha]
  exact ⟨n + 1, by rw [List.replicate_succ, Run.run_step hstep, hn]⟩

theorem settles_autoSave {threads : List Thread} {k : Nat} (hk : k < threads.length) (ok : Bool)
    (r : Exports) : Settles threads k ok r .autoSave r :=
  settles_step hk rfl (settles_idle threads k ok r)

theorem settles_bgctl {threads : List Thread} {k : Nat} (hk : k < threads.length) (ok : Bool)
    (r : Exports) (name : CStr) (update : Update) :
    Settles threads k ok r (.lookup name update) (perform ok r (.bgctl name update)) := by
  cases hfound : getDiskDataFor r name with
  | none =>
    have ha : advance r ok (.lookup name update) = some (r, .idle) := by
      simp only [advance, hfound]
    have hr : perform ok r (.bgctl name update) = r := by simp [perform, hfound]
    rw [hr]
    exact settles_step hk ha (settles_idle threads k ok r)
  | some d =>
    cases hgoes : d.proxy.targetHost.isSome && ok with
    | false =>
      have ha : advance r ok (.lookup name update) = some (r, .idle) := by
        simp only [advance, hfound, hgoes]
        rfl
      have hr : perform ok r (.bgctl name update) = r := by
        simp only [perform, hfound, Option.any_some, hgoes]
        rfl
      rw [hr]
      exact settles_step hk ha (settles_idle threads k ok r)
    | true =>
      have hok : ok = true := (Bool.and_eq_true _ _ ▸ hgoes).2
      have ha : advance r ok (.lookup name update) = some (r, .child name update) := by
        simp only [advance, hfound, hgoes]
        rfl
      have hr : perform ok r (.bgctl name update) = applyUpdate r name update := by
        simp only [perform, hfound, Option.any_some, hgoes]
        rfl
      rw [hr]
      apply settles_step hk ha
      by_cases hkeep : update = .keep
      · have hchild : advance r ok (.child name update) = some (r, .idle) := by
          simp [advance, hok, hkeep]
        rw [hkeep] at hchild ⊢
        exact settles_step hk hchild (settles_idle threads k ok r)
      · have hchild : advance r ok (.child name update) = some (r, .update name update) := by
          simp [advance, hok, hkeep]
        exact settles_step hk hchild (settles_step hk rfl (settles_autoSave hk ok _))

/-- It is what the thread of the connection does alone. -/
theorem perform_run {s : State} {k : Nat} (hidle : s.threads[k]? = some .idle) (ok : Bool)
    (c : Command) :
    ∃ n, Run.run step s (.command k c :: List.replicate n (.go k ok)) =
      some ⟨perform ok s.exports c, s.threads⟩ := by
  have hk : k < s.threads.length := (List.getElem?_eq_some_iff.mp hidle).1
  have hset : s.threads.set k .idle = s.threads := by
    rw [← (List.getElem?_eq_some_iff.mp hidle).2, List.set_getElem_self]
  have hsettles : Settles s.threads k ok s.exports (begin c) (perform ok s.exports c) := by
    cases c with
    | add image =>
      by_cases hadded : (addDiskimg s.exports (createDiskData image) ok).2 = imageAdded
      · have ha : advance s.exports ok (.addDiskimg image) =
            some ((addDiskimg s.exports (createDiskData image) ok).1, .autoSave) := by
          simp [advance, hadded]
        exact settles_step hk ha (settles_autoSave hk ok _)
      · have ha : advance s.exports ok (.addDiskimg image) =
            some ((addDiskimg s.exports (createDiskData image) ok).1, .idle) := by
          simp [advance, hadded]
        exact settles_step hk ha (settles_idle _ k ok _)
    | del which =>
      by_cases hremoved : (delete s.exports which).2 = true
      · have ha : advance s.exports ok (.delDiskimg which) =
            some ((delete s.exports which).1, .autoSave) := by
          simp [advance, hremoved]
        exact settles_step hk ha (settles_autoSave hk ok _)
      · have ha : advance s.exports ok (.delDiskimg which) =
            some ((delete s.exports which).1, .idle) := by
          simp [advance, hremoved]
        exact settles_step hk ha (settles_idle _ k ok _)
    | bgctl name update => exact settles_bgctl hk ok s.exports name update
    | save => exact settles_autoSave hk ok s.exports
  obtain ⟨n, hn⟩ := hsettles
  have hstart : step s (.command k c) = some ⟨s.exports, s.threads.set k (begin c)⟩ := by
    simp [step, hidle]
  rw [hset] at hn
  exact ⟨n, by rw [Run.run_step hstart, hn]⟩

end Dispatch

section Connection

/-- A piece with a word in it: the two words and the C string that they are in. -/
structure Scanned where
  cmd : CStr
  arg : Option CStr
  buf : CStr
  deriving DecidableEq

def scanPiece (piece : List UInt8) : Option Scanned :=
  (scanTwo (cString piece)).map fun m => ⟨m.1, m.2, cString piece⟩

/-- A control connection: the buffer of the second word, the registry, whether the loop was
left, the commands so far, and what the running `fgets` has copied. -/
structure Conn where
  arg : CStr
  exports : Exports
  ended : Bool
  actions : List Action
  copied : List UInt8

/-- What the system answers to a command, as for `Wrapper.Act.go`. It may depend on
everything before. -/
abbrev Answers := List Action → Action → Bool

def obey (ok : Answers) (c : Conn) (p : Scanned) : Conn :=
  if c.ended then c
  else
    -- without a second word, what the buffer held before is still there
    let m := dispatch p.cmd p.buf (p.arg.getD c.arg)
    { c with
      arg := m.2
      exports := (m.1.command.map (perform (ok c.actions m.1) c.exports)).getD c.exports
      ended := m.1 = .quit
      actions := c.actions ++ [m.1] }

/-- One round of the loop after `fgets`. -/
def round (ok : Answers) (c : Conn) (piece : List UInt8) : Conn :=
  match scanPiece piece with
  | some p => obey ok c p
  | none => c

/-- The prompt and the call of `fgets` behind it. The stream reads and writes one socket, so
with bytes read ahead in its buffer it would have to seek back before it can write: the flush
of the prompt fails, `fgets` fails as well, and the loop is left. -/
def prompt (ahead : List UInt8) (c : Conn) : Conn := { c with ended := c.ended || ahead ≠ [] }

/-- `rbufsize`. -/
def rbufsize : Nat := 128 * 8

/-- What a `read` of the stream comes to. At the end of the stream it brings nothing, and
`fgets` gives what it has. -/
def receive (ok : Answers) (c : Conn) (read : List UInt8) : Conn :=
  if c.ended then c
  else if read = [] then { round ok { c with copied := [] } c.copied with ended := true }
  else
    match fgetsRead rbufsize c.copied read with
    | (copied, none) => { c with copied }
    | (piece, some ahead) => prompt ahead (round ok { c with copied := [] } piece)

/-- The loop of `start_filemgr_thread`. -/
def serve (ok : Answers) (c : Conn) (reads : List (List UInt8)) : Conn := reads.foldl (receive ok) c

/-- A connection begins with whatever the buffer holds. -/
def Conn.new (arg : CStr) (r : Exports) : Conn := ⟨arg, r, false, [], []⟩

/-- The pieces that `fgets` returns, up to the first one with which something was read
ahead. -/
def piecesOf : List UInt8 → List (List UInt8) → List (List UInt8)
  | _, [] => []
  | copied, read :: reads =>
    match fgetsRead rbufsize copied read with
    | (copied, none) => piecesOf copied reads
    | (piece, some ahead) => piece :: if ahead = [] then piecesOf [] reads else []

/-- The pieces that are taken for commands. -/
def commandsOf (reads : List (List UInt8)) : List Scanned := (piecesOf [] reads).filterMap scanPiece

@[simp] theorem Conn.new_exports (arg : CStr) (r : Exports) : (Conn.new arg r).exports = r := rfl

@[simp] theorem Conn.new_ended (arg : CStr) (r : Exports) : (Conn.new arg r).ended = false := rfl

@[simp] theorem Conn.new_copied (arg : CStr) (r : Exports) : (Conn.new arg r).copied = [] := rfl

@[simp] theorem prompt_nil (c : Conn) : prompt [] c = c := by simp [prompt]

theorem receive_ended {ok : Answers} {c : Conn} (h : c.ended = true) (read : List UInt8) :
    receive ok c read = c := by
  simp [receive, h]

theorem serve_ended {ok : Answers} {c : Conn} (h : c.ended = true) (reads : List (List UInt8)) :
    serve ok c reads = c := by
  induction reads with
  | nil => rfl
  | cons read reads ih => rw [serve, List.foldl_cons, receive_ended h]; exact ih

theorem prompt_ended {c : Conn} (h : c.ended = true) (ahead : List UInt8) : prompt ahead c = c := by
  cases c
  simp_all [prompt]

/-- What comes in one `read` behind the bytes that `fgets` needs makes the prompt fail. -/
theorem receive_ahead {ok : Answers} {c : Conn} {read : List UInt8}
    (h : ∃ piece, fgetsRead rbufsize c.copied read = (piece, some [])) (ahead : List UInt8) :
    receive ok c (read ++ ahead) = prompt ahead (receive ok c read) := by
  obtain ⟨piece, h⟩ := h
  cases hended : c.ended with
  | true => rw [receive_ended hended, receive_ended hended, prompt_ended hended]
  | false =>
    have hread : read ≠ [] := by
      rintro rfl
      cases h
    have hboth : read ++ ahead ≠ [] := List.append_ne_nil_of_left_ne_nil hread _
    simp [receive, hended, hread, hboth, h, fgetsRead_append h ahead]

theorem obey_ended {ok : Answers} {c : Conn} (h : c.ended = true) (p : Scanned) :
    obey ok c p = c := by
  simp [obey, h]

theorem obey_copied (ok : Answers) (c : Conn) (copied : List UInt8) (p : Scanned) :
    obey ok { c with copied } p = { obey ok c p with copied } := by
  simp only [obey]
  split <;> rfl

theorem foldl_obey_copied (ok : Answers) (ps : List Scanned) (c : Conn) (copied : List UInt8) :
    ps.foldl (obey ok) { c with copied } = { ps.foldl (obey ok) c with copied } := by
  induction ps generalizing c with
  | nil => rfl
  | cons p ps ih => rw [List.foldl_cons, obey_copied, ih, List.foldl_cons]

theorem foldl_obey_ended {ok : Answers} {c : Conn} (h : c.ended = true) (ps : List Scanned) :
    ps.foldl (obey ok) c = c := by
  induction ps with
  | nil => rfl
  | cons p ps ih => rw [List.foldl_cons, obey_ended h, ih]

theorem foldl_obey_grows (ok : Answers) (ps : List Scanned) (c : Conn) :
    c.actions.length ≤ (ps.foldl (obey ok) c).actions.length := by
  induction ps generalizing c with
  | nil => exact Nat.le_refl _
  | cons p ps ih =>
    have hstep : c.actions.length ≤ (obey ok c p).actions.length := by
      simp only [obey]
      split
      · exact Nat.le_refl _
      · simp
    exact Nat.le_trans hstep (ih _)

theorem round_eq (ok : Answers) (c : Conn) (piece : List UInt8) :
    round ok c piece = (scanPiece piece).toList.foldl (obey ok) c := by
  rw [round]
  cases scanPiece piece <;> rfl

theorem round_copied (ok : Answers) (c : Conn) (piece : List UInt8) :
    round ok { c with copied := [] } piece = { round ok c piece with copied := [] } := by
  rw [round_eq, round_eq, foldl_obey_copied]

theorem filterMap_scanPiece (piece : List UInt8) (pieces : List (List UInt8)) :
    (piece :: pieces).filterMap scanPiece =
      (scanPiece piece).toList ++ pieces.filterMap scanPiece := by
  cases h : scanPiece piece <;> simp [h]

/-- Serving a connection is to obey the commands. -/
theorem serve_eq (ok : Answers) {reads : List (List UInt8)} (hreads : [] ∉ reads) (c : Conn) :
    ∃ copied ended, serve ok c reads =
      { ((piecesOf c.copied reads).filterMap scanPiece).foldl (obey ok) c with copied, ended } := by
  induction reads generalizing c with
  | nil => exact ⟨c.copied, c.ended, rfl⟩
  | cons read reads ih =>
    have hread : read ≠ [] := fun h => hreads (h ▸ List.mem_cons_self)
    have hrest : [] ∉ reads := fun h => hreads (List.mem_cons_of_mem _ h)
    cases hended : c.ended with
    | true =>
      rw [serve_ended hended, foldl_obey_ended hended]
      exact ⟨c.copied, c.ended, rfl⟩
    | false =>
      rw [serve, List.foldl_cons, ← serve]
      match hget : fgetsRead rbufsize c.copied read with
      | (copied, none) =>
        have hreceive : receive ok c read = { c with copied } := by
          simp [receive, hended, hread, hget]
        obtain ⟨copied', ended, h⟩ := ih hrest { c with copied }
        rw [hreceive, h, foldl_obey_copied, piecesOf, hget]
        exact ⟨copied', ended, rfl⟩
      | (piece, some ahead) =>
        have hreceive : receive ok c read = prompt ahead (round ok { c with copied := [] } piece) := by
          simp [receive, hended, hread, hget]
        rw [hreceive, round_copied, piecesOf, hget]
        simp only [filterMap_scanPiece, List.foldl_append, ← round_eq]
        by_cases hahead : ahead = []
        · obtain ⟨copied, ended, h⟩ := ih hrest { round ok c piece with copied := [] }
          rw [hahead, prompt_nil, h, foldl_obey_copied]
          exact ⟨copied, ended, rfl⟩
        · -- the prompt fails, and nothing more is read
          rw [serve_ended (by simp [prompt, hahead]), if_neg hahead]
          exact ⟨[], _, rfl⟩

/-- The commands that use the second word. -/
def usesArg (cmd : CStr) : Prop :=
  cmd = lit "del" ∨ cmd = lit "del-file" ∨ cmd = lit "del-exportname"

instance (cmd : CStr) : Decidable (usesArg cmd) := inferInstanceAs (Decidable (_ ∨ _))

/-- No other command depends on the buffer of the second word. -/
theorem dispatch_arg {cmd : CStr} (h : ¬ usesArg cmd) (buf arg₁ arg₂ : CStr) :
    (dispatch cmd buf arg₁).1 = (dispatch cmd buf arg₂).1 := by
  simp only [usesArg, not_or] at h
  obtain ⟨hdel, hfile, hexport⟩ := h
  simp only [dispatch, if_neg hdel, if_neg hfile, if_neg hexport]
  split
  · rfl
  · split
    · rfl
    · split <;> rfl

theorem addTargetLine_ne_quit (buf : CStr) : addTargetLine buf ≠ .quit := by
  simp only [addTargetLine]
  split <;> exact nofun

theorem addProxyLine_ne_quit (buf : CStr) : addProxyLine buf ≠ .quit := by
  simp only [addProxyLine]
  split <;> exact nofun

theorem bgctlLine_ne_quit (action : CStr → Action) (h : ∀ name, action name ≠ .quit)
    (usage : String) (buf : CStr) : bgctlLine action usage buf ≠ .quit := by
  simp only [bgctlLine]
  split
  · exact h _
  · exact nofun

theorem bgctlReconnectLine_ne_quit (buf : CStr) : bgctlReconnectLine buf ≠ .quit := by
  simp only [bgctlReconnectLine]
  split <;> exact nofun

/-- A branch that gives another value was not taken. -/
theorem else_of_ne {α β : Type} {c : Prop} [Decidable c] {a b : α} {v : β} (f : α → β)
    (ha : f a ≠ v) (h : f (if c then a else b) = v) : f b = v := by
  by_cases hc : c
  · rw [if_pos hc] at h
    exact absurd h ha
  · rwa [if_neg hc] at h

theorem dispatchOther_quit {cmd buf : CStr} (h : dispatchOther cmd buf = .quit) :
    cmd = lit "quit" := by
  by_contra hquit
  unfold dispatchOther at h
  have h := else_of_ne id (by simp) h
  have h := else_of_ne id (by simp) h
  have h := else_of_ne id (bgctlLine_ne_quit .bgctlQuery (by simp) _ _) h
  have h := else_of_ne id (bgctlLine_ne_quit .bgctlSwitch (by simp) _ _) h
  have h := else_of_ne id (bgctlLine_ne_quit .bgctlCacheAll (by simp) _ _) h
  have h := else_of_ne id (bgctlReconnectLine_ne_quit _) h
  have h := else_of_ne id (by simp) h
  have h := else_of_ne id (by simp) h
  rw [id, if_neg hquit] at h
  cases h

/-- Only `quit` ends the loop. -/
theorem dispatch_quit {cmd buf arg : CStr} :
    (dispatch cmd buf arg).1 = .quit ↔ cmd = lit "quit" := by
  constructor
  · intro h
    unfold dispatch at h
    have h := else_of_ne Prod.fst (by simp) h
    have h := else_of_ne Prod.fst (addTargetLine_ne_quit _) h
    have h := else_of_ne Prod.fst (addProxyLine_ne_quit _) h
    have h := else_of_ne Prod.fst (by simp) h
    have h := else_of_ne Prod.fst (by simp) h
    have h := else_of_ne Prod.fst (by simp) h
    exact dispatchOther_quit h
  · rintro rfl
    rfl

/-- The pieces are those that `fgets` cuts the stream into, as far as it gets. -/
theorem piecesOf_starts (reads : List (List UInt8)) (copied : List UInt8) :
    piecesOf copied reads <+: fgetsAll rbufsize copied reads.flatten := by
  induction reads generalizing copied with
  | nil => exact List.nil_prefix
  | cons read reads ih =>
    rw [piecesOf, List.flatten_cons]
    match hget : fgetsRead rbufsize copied read with
    | (copied', none) =>
      rw [(fgetsRead_none hget).2]
      exact ih copied'
    | (piece, some ahead) =>
      rw [fgetsRead_some hget]
      apply List.prefix_cons_inj piece |>.mpr
      split
      · rename_i hahead
        rw [hahead]
        exact ih []
      · exact List.nil_prefix

/-- A newline ends a call. -/
theorem piecesOf_newline {reads : List (List UInt8)} (h : newline ∈ reads.flatten)
    (copied : List UInt8) : piecesOf copied reads ≠ [] := by
  induction reads generalizing copied with
  | nil => exact absurd h List.not_mem_nil
  | cons read reads ih =>
    rw [List.flatten_cons, List.mem_append] at h
    rw [piecesOf]
    match hget : fgetsRead rbufsize copied read with
    | (copied', none) => exact ih (h.resolve_left (fgetsRead_none hget).1) copied'
    | (piece, some ahead) => exact List.cons_ne_nil _ _

/-- A line that fits the buffer is one piece, whatever it is read in. -/
theorem commandsOf_line {line : List UInt8} {reads : List (List UInt8)} (hline : newline ∉ line)
    (hsize : line.length < 1023) (hreads : reads.flatten = line ++ [newline]) :
    commandsOf reads = (scanPiece (line ++ [newline])).toList := by
  have hall := fgetsAll_fits rbufsize hline [] (by simp only [List.length_nil, rbufsize]; omega)
  have hprefix := piecesOf_starts reads []
  rw [hreads, hall, List.nil_append] at hprefix
  have hmem : newline ∈ reads.flatten := by
    rw [hreads]
    simp
  have hne := piecesOf_newline hmem []
  have hpieces : piecesOf [] reads = [line ++ [newline]] :=
    hprefix.eq_of_length_le (List.length_pos_iff.mpr hne)
  rw [commandsOf, hpieces, filterMap_scanPiece]
  exact List.append_nil _

end Connection

section OneCommand

/-- How a line reaches the server: the bytes of it that were read behind the end of the line
before, and what every `read` brings after that. -/
structure Delivery (line : List UInt8) where
  ahead : List UInt8
  reads : List (List UInt8)
  nonempty : [] ∉ reads
  whole : ahead ++ reads.flatten = line ++ [newline]

/-- In front of a line. -/
structure Conn.AtPrompt (c : Conn) : Prop where
  running : c.ended = false
  copied : c.copied = []

/-- A `read` behind which the loop waits for a line has brought the end of a line, and nothing
behind it. -/
theorem receive_atPrompt {ok : Answers} {c : Conn} {read : List UInt8} (hread : read ≠ [])
    (h : (receive ok c read).AtPrompt) :
    ∃ piece, fgetsRead rbufsize c.copied read = (piece, some []) := by
  cases hended : c.ended with
  | true =>
    rw [receive_ended hended] at h
    rw [h.running] at hended
    cases hended
  | false =>
    match hget : fgetsRead rbufsize c.copied read with
    | (copied, none) =>
      have hcopied := h.copied
      simp only [receive, hended, Bool.false_eq_true, if_false, if_neg hread, hget,
        fgetsRead_copied hget] at hcopied
      exact absurd (List.append_eq_nil_iff.mp hcopied).2 hread
    | (piece, some ahead) =>
      have hrunning := h.running
      simp only [receive, hended, Bool.false_eq_true, if_false, if_neg hread, hget, prompt,
        Bool.or_eq_false_iff, decide_eq_false_iff_not, not_not] at hrunning
      rw [hrunning.2]
      exact ⟨piece, rfl⟩

variable {line : List UInt8}

/-- The line is carried out as one command, and what becomes of the registry does not
depend on what the connection has sent before: any two connections that have the
same registry now have the same one afterwards. -/
def OneCommand (d₁ d₂ : Delivery line) : Prop :=
  ∀ (ok₁ ok₂ : Answers) (ok : Action → Bool) (arg₁ arg₂ : CStr) (r₁ r₂ : Exports)
    (earlier₁ earlier₂ : List (List UInt8)),
    -- nothing is read ahead behind the end of no line
    (earlier₁ = [] → d₁.ahead = []) → (earlier₂ = [] → d₂.ahead = []) →
    let s₁ := serve ok₁ (.new arg₁ r₁) earlier₁
    let s₂ := serve ok₂ (.new arg₂ r₂) earlier₂
    s₁.AtPrompt → s₂.AtPrompt → s₁.exports = s₂.exports →
      let t₁ := serve (fun _ => ok) (prompt d₁.ahead s₁) d₁.reads
      let t₂ := serve (fun _ => ok) (prompt d₂.ahead s₂) d₂.reads
      t₁.exports = t₂.exports ∧ t₁.actions.length = s₁.actions.length + 1 ∧
        t₂.actions.length = s₂.actions.length + 1

/-- Nothing of the line was read with the line before. Of the pieces of it exactly one has a
word in it, or the first one that has is `quit`; and if the command needs a second word, it is
there. A blank line has no such piece. -/
def Single (d : Delivery line) : Prop :=
  d.ahead = [] ∧ ∃ p rest, commandsOf d.reads = p :: rest ∧ (rest = [] ∨ p.cmd = lit "quit") ∧
    (usesArg p.cmd → p.arg.isSome = true)

/-- A line of which a part comes in one `read` with the line before begins behind a prompt
that has failed. -/
theorem serve_delivery (ok : Answers) (c : Conn) (earlier : List (List UInt8)) {last : List UInt8}
    (hlast : last ≠ []) (d : Delivery line) (h : (serve ok c (earlier ++ [last])).AtPrompt) :
    serve ok c (earlier ++ (last ++ d.ahead) :: d.reads) =
      serve ok (prompt d.ahead (serve ok c (earlier ++ [last]))) d.reads := by
  simp only [serve, List.foldl_append, List.foldl_cons, List.foldl_nil] at h ⊢
  rw [receive_ahead (receive_atPrompt hlast h)]

theorem obey_actions {ok : Answers} {c : Conn} (h : c.ended = false) (p : Scanned) :
    (obey ok c p).actions.length = c.actions.length + 1 := by
  simp [obey, h]

theorem obey_ended_iff {ok : Answers} {c : Conn} (h : c.ended = false) (p : Scanned) :
    (obey ok c p).ended = true ↔ p.cmd = lit "quit" := by
  simp only [obey, h, Bool.false_eq_true, if_false, decide_eq_true_eq]
  exact dispatch_quit

/-- With its second word, if it needs one, a command has the same effect on the same
registry. -/
theorem obey_exports {ok : Action → Bool} {c₁ c₂ : Conn} (h₁ : c₁.ended = false)
    (h₂ : c₂.ended = false) (hr : c₁.exports = c₂.exports) {p : Scanned}
    (harg : usesArg p.cmd → p.arg.isSome = true) :
    (obey (fun _ => ok) c₁ p).exports = (obey (fun _ => ok) c₂ p).exports := by
  have haction : (dispatch p.cmd p.buf (p.arg.getD c₁.arg)).1 =
      (dispatch p.cmd p.buf (p.arg.getD c₂.arg)).1 := by
    by_cases huses : usesArg p.cmd
    · obtain ⟨arg, ha⟩ := Option.isSome_iff_exists.mp (harg huses)
      rw [ha]
      rfl
    · exact dispatch_arg huses _ _ _
  simp only [obey, h₁, h₂, Bool.false_eq_true, if_false, haction, hr]

/-- What comes after the one command of the line changes nothing. -/
theorem foldl_single {ok : Answers} {c : Conn} (h : c.ended = false) {p : Scanned}
    {rest : List Scanned} (hrest : rest = [] ∨ p.cmd = lit "quit") :
    (p :: rest).foldl (obey ok) c = obey ok c p := by
  rw [List.foldl_cons]
  cases hrest with
  | inl hnil => rw [hnil, List.foldl_nil]
  | inr hquit => exact foldl_obey_ended ((obey_ended_iff h p).mpr hquit) rest

/-- A line without bytes read ahead is carried out piece by piece. -/
theorem serve_commands (ok : Answers) {c : Conn} (hc : c.AtPrompt) {reads : List (List UInt8)}
    (hreads : [] ∉ reads) :
    (serve ok c reads).exports = ((commandsOf reads).foldl (obey ok) c).exports ∧
    (serve ok c reads).actions = ((commandsOf reads).foldl (obey ok) c).actions := by
  obtain ⟨copied, ended, h⟩ := serve_eq ok hreads c
  rw [hc.copied] at h
  rw [h, commandsOf]
  exact ⟨rfl, rfl⟩

theorem oneCommand_of_single {d₁ d₂ : Delivery line} (h₁ : Single d₁) (h₂ : Single d₂)
    (hsame : (commandsOf d₁.reads).head? = (commandsOf d₂.reads).head?) : OneCommand d₁ d₂ := by
  obtain ⟨hahead₁, p₁, rest₁, hline₁, hrest₁, harg⟩ := h₁
  obtain ⟨hahead₂, p₂, rest₂, hline₂, hrest₂, -⟩ := h₂
  rw [hline₁, hline₂] at hsame
  obtain rfl : p₁ = p₂ := Option.some.inj hsame
  intro ok₁ ok₂ ok arg₁ arg₂ r₁ r₂ earlier₁ earlier₂ _ _ s₁ s₂ hs₁ hs₂ hr
  have hserve₁ := serve_commands (fun _ => ok) hs₁ d₁.nonempty
  have hserve₂ := serve_commands (fun _ => ok) hs₂ d₂.nonempty
  rw [hline₁, foldl_single hs₁.running hrest₁] at hserve₁
  rw [hline₂, foldl_single hs₂.running hrest₂] at hserve₂
  simp only [hahead₁, hahead₂, prompt_nil, hserve₁, hserve₂]
  exact ⟨obey_exports hs₁.running hs₂.running hr harg, obey_actions hs₁.running p₁,
    obey_actions hs₂.running p₁⟩

/-- However a line is read, its first command is the same. -/
theorem commandsOf_head {d₁ d₂ : Delivery line} {p₁ p₂ : Scanned} {rest₁ rest₂ : List Scanned}
    (hahead₁ : d₁.ahead = []) (hahead₂ : d₂.ahead = []) (h₁ : commandsOf d₁.reads = p₁ :: rest₁)
    (h₂ : commandsOf d₂.reads = p₂ :: rest₂) : p₁ = p₂ := by
  have hwhole : d₁.reads.flatten = d₂.reads.flatten := by
    have hw₁ := d₁.whole
    have hw₂ := d₂.whole
    rw [hahead₁, List.nil_append] at hw₁
    rw [hahead₂, List.nil_append] at hw₂
    rw [hw₁, hw₂]
  have hp₁ := (piecesOf_starts d₁.reads []).filterMap scanPiece
  have hp₂ := (piecesOf_starts d₂.reads []).filterMap scanPiece
  rw [← hwhole, ← commandsOf, h₂] at hp₂
  rw [← commandsOf, h₁] at hp₁
  obtain ⟨tail₁, ht₁⟩ := hp₁
  obtain ⟨tail₂, ht₂⟩ := hp₂
  exact (List.cons.inj (ht₁.trans ht₂.symm)).1

/-- An export with the number, the file name and the name 1. -/
def exportOne : Exports := loadImages [.target (lit "1") (lit "1")]

theorem serve_blank (ok : Answers) (arg : CStr) (r : Exports) :
    serve ok (.new arg r) [[newline]] = .new arg r := rfl

/-- Without a second word a deletion takes what an earlier line has left. -/
theorem obey_leftover {p : Scanned} (huses : usesArg p.cmd) (harg : p.arg = none) (ok : Answers)
    (actions : List Action) :
    (obey ok ⟨lit "1", exportOne, false, actions, []⟩ p).exports.dict.disks.length = 0 ∧
    (obey ok ⟨lit "2", exportOne, false, actions, []⟩ p).exports.dict.disks.length = 1 := by
  obtain ⟨cmd, arg, buf⟩ := p
  cases harg
  obtain rfl | rfl | rfl := huses
  · exact ⟨rfl, rfl⟩
  · exact ⟨rfl, rfl⟩
  · exact ⟨rfl, rfl⟩

/-- A line that is carried out as one command has one, and was not read ahead. -/
theorem count_single {d : Delivery line} {ok : Answers} {c : Conn} (hc : c.AtPrompt)
    (h : (serve ok (prompt d.ahead c) d.reads).actions.length = c.actions.length + 1) :
    d.ahead = [] ∧ ∃ p rest, commandsOf d.reads = p :: rest ∧ (rest = [] ∨ p.cmd = lit "quit") := by
  have hahead : d.ahead = [] := by
    by_contra hne
    rw [serve_ended (by simp [prompt, hne])] at h
    simp [prompt] at h
  refine ⟨hahead, ?_⟩
  rw [hahead, prompt_nil, (serve_commands ok hc d.nonempty).2] at h
  cases hline : commandsOf d.reads with
  | nil =>
    rw [hline] at h
    simp at h
  | cons p rest =>
    rw [hline] at h
    refine ⟨p, rest, rfl, ?_⟩
    cases rest with
    | nil => exact .inl rfl
    | cons q rest =>
      right
      by_contra hquit
      -- the second piece is a second command
      have hgoes : (obey ok c p).ended = false := by
        rw [← Bool.not_eq_true, obey_ended_iff hc.running]
        exact hquit
      have hmore := foldl_obey_grows ok rest (obey ok (obey ok c p) q)
      rw [obey_actions hgoes, obey_actions hc.running] at hmore
      rw [List.foldl_cons, List.foldl_cons] at h
      omega

theorem single_of_oneCommand {d₁ d₂ : Delivery line} (h : OneCommand d₁ d₂) :
    Single d₁ ∧ Single d₂ := by
  have hfirst := h (fun _ _ => true) (fun _ _ => true) (fun _ => true) (lit "1") (lit "2")
    exportOne exportOne [[newline]] [[newline]] nofun nofun
  simp only [serve_blank] at hfirst
  obtain ⟨hsame, hone₁, hone₂⟩ := hfirst ⟨rfl, rfl⟩ ⟨rfl, rfl⟩ rfl
  obtain ⟨hahead₁, p, rest₁, hline₁, hrest₁⟩ := count_single ⟨rfl, rfl⟩ hone₁
  obtain ⟨hahead₂, p₂, rest₂, hline₂, hrest₂⟩ := count_single ⟨rfl, rfl⟩ hone₂
  obtain rfl := commandsOf_head hahead₁ hahead₂ hline₁ hline₂
  have harg : usesArg p.cmd → p.arg.isSome = true := by
    intro huses
    by_contra hmissing
    rw [hahead₁, hahead₂, prompt_nil, prompt_nil,
      (serve_commands _ ⟨rfl, rfl⟩ d₁.nonempty).1, (serve_commands _ ⟨rfl, rfl⟩ d₂.nonempty).1,
      hline₁, hline₂, foldl_single rfl hrest₁, foldl_single rfl hrest₂] at hsame
    obtain ⟨hnone, hleft⟩ := obey_leftover huses (Option.not_isSome_iff_eq_none.mp hmissing)
      (fun _ _ => true) []
    simp only [Conn.new] at hsame
    rw [hsame, hleft] at hnone
    cases hnone
  exact ⟨⟨hahead₁, p, rest₁, hline₁, hrest₁, harg⟩, hahead₂, p, rest₂, hline₂, hrest₂, harg⟩

theorem one_command_iff (d₁ d₂ : Delivery line) : OneCommand d₁ d₂ ↔ Single d₁ ∧ Single d₂ := by
  constructor
  · exact single_of_oneCommand
  · rintro ⟨h₁, h₂⟩
    apply oneCommand_of_single h₁ h₂
    obtain ⟨hahead₁, p₁, rest₁, hline₁, -⟩ := h₁
    obtain ⟨hahead₂, p₂, rest₂, hline₂, -⟩ := h₂
    rw [hline₁, hline₂, commandsOf_head hahead₁ hahead₂ hline₁ hline₂]
    rfl

/-- A line that fits is carried out, and then bytes that were read with it end the loop. -/
theorem serve_line (ok : Answers) {c : Conn} (hc : c.AtPrompt) {line : List UInt8}
    (hline : newline ∉ line) (hsize : line.length < 1023) (ahead : List UInt8) :
    serve ok c [line ++ newline :: ahead] = prompt ahead (round ok c (line ++ [newline])) := by
  have hget : fgetsRead rbufsize c.copied (line ++ newline :: ahead) =
      (line ++ [newline], some ahead) := by
    rw [hc.copied, fgetsRead_fits rbufsize hline ahead []
      (by simp only [List.length_nil, rbufsize]; omega), List.nil_append]
  have hsame : { c with copied := [] } = c := by
    rw [← hc.copied]
  have hne : line ++ newline :: ahead ≠ [] := List.append_ne_nil_of_right_ne_nil _ (List.cons_ne_nil _ _)
  rw [serve, List.foldl_cons, List.foldl_nil, receive, if_neg (by simp [hc.running]), if_neg hne, hget]
  simp only [hsame]

/-- A connection that has asked for help about a word. -/
def afterHelp (word : CStr) : Conn :=
  serve (fun _ _ => true) (.new [] exportOne) [lit "help " ++ word ++ [newline]]

theorem del_file_remembers :
    (afterHelp (lit "1")).AtPrompt ∧ (afterHelp (lit "2")).AtPrompt ∧
    (afterHelp (lit "1")).exports = (afterHelp (lit "2")).exports ∧
    (serve (fun _ _ => true) (afterHelp (lit "1")) [lit "del-file" ++ [newline]]).exports ≠
      (serve (fun _ _ => true) (afterHelp (lit "2")) [lit "del-file" ++ [newline]]).exports := by
  have hone : afterHelp (lit "1") = ⟨lit "1", exportOne, false, [.help], []⟩ := by
    rw [afterHelp, serve_line _ ⟨rfl, rfl⟩ (by decide) (by decide), prompt_nil]
    rfl
  have htwo : afterHelp (lit "2") = ⟨lit "2", exportOne, false, [.help], []⟩ := by
    rw [afterHelp, serve_line _ ⟨rfl, rfl⟩ (by decide) (by decide), prompt_nil]
    rfl
  have hscan : scanPiece (lit "del-file" ++ [newline]) = some ⟨lit "del-file", none, lit "del-file\n"⟩ := by
    decide +kernel
  rw [hone, htwo, serve_line _ ⟨rfl, rfl⟩ (by decide) (by decide),
    serve_line _ ⟨rfl, rfl⟩ (by decide) (by decide), prompt_nil, prompt_nil, round, round, hscan]
  obtain ⟨hnone, hleft⟩ := obey_leftover (p := ⟨lit "del-file", none, lit "del-file\n"⟩)
    (.inr (.inl rfl)) rfl (fun _ _ => true) [.help]
  refine ⟨⟨rfl, rfl⟩, ⟨rfl, rfl⟩, rfl, fun h => ?_⟩
  rw [h, hleft] at hnone
  cases hnone

/-- Two lines that come in one `read`: the second one is not carried out. -/
example : (serve (fun _ _ => true) (.new [] exportOne)
    [lit "del-file 1" ++ newline :: (lit "list" ++ [newline])]).actions =
      [.del (.byFile (lit "1"))] := by
  rw [serve_line _ ⟨rfl, rfl⟩ (by decide) (by decide)]
  rfl

end OneCommand

end Xnbd.ControlLine
