import Xnbd.Database
import Xnbd.Run

/-!
# The database file (`perform_save`, `load_database_file_or_abort`)

The file is opened, emptied and then written in place. `mkdir`, `open`, `fstat`,
`ftruncate` and every `write` can fail, and the text that has been written by then is
what the file holds.
-/
namespace Xnbd.Save

open CText Jansson Registry Database Wrapper Run

/-- The database file with its content, if there is one. -/
abbrev File := Option (List UInt8)

inductive Mkdir where
  | created
  /-- -1 with `EEXIST`. -/
  | exists
  | failed
  deriving DecidableEq

/-- What `fstat` says about the file. -/
structure Stat where
  regular : Bool
  nlink : Nat
  deriving DecidableEq

/-- What the system answers to one save; -1 is `false` or `none`. -/
structure Calls where
  strdup : Bool
  /-- What `dirname` gives for the file name. -/
  dir : CStr
  mkdir : Mkdir
  opened : Bool
  fstat : Option Stat
  ftruncate : Bool
  /-- The result of every `write`. -/
  writes : List (Option Nat)
  deriving DecidableEq

def ensureDirectoryOfFileExists (c : Calls) : Bool :=
  if c.strdup = false then false
  else if c.dir ≠ lit "" ∧ c.dir ≠ lit "." ∧ c.dir ≠ lit "/" then c.mkdir ≠ .failed
  else true

/-- `io_all` with `write`: the bytes that have been written and what is returned.
It has not returned when the answers end too early. -/
def ioAll (bytesTotal : Nat) : List (Option Nat) → Nat → Option (Nat × Int)
  | [], bytesDone => if bytesDone < bytesTotal then none else some (bytesDone, bytesDone)
  | res :: rest, bytesDone =>
    if bytesDone < bytesTotal then
      match res with
      | none => some (bytesDone, -1)
      -- no `write` takes more than it is given
      | some n => ioAll bytesTotal rest (bytesDone + min n (bytesTotal - bytesDone))
    else some (bytesDone, bytesDone)

/-- The part of `dump_registered_images_UNLOCKED` after `ftruncate`. -/
def writeText (c : Calls) (text : List UInt8) : Option (File × Bool) :=
  (ioAll text.length c.writes 0).map fun m => (some (text.take m.1), m.2 ≠ -1)

/-- `dump_registered_images_UNLOCKED` with the JSON text of the registry: the file
after it and what it returns. -/
def dumpText (c : Calls) (text : List UInt8) (file : File) : Option (File × Bool) :=
  if ensureDirectoryOfFileExists c = false then some (file, false)
  else if c.opened = false then some (file, false)
  else
    -- `O_CREAT`
    let file := some (file.getD [])
    match c.fstat with
    | none => some (file, false)
    | some props =>
      if props.regular = false then some (file, false)
      else if props.nlink > 1 then some (file, false)
      else if c.ftruncate = false then some (file, false)
      else writeText c text

/-- `dump_registered_images_UNLOCKED` and so `perform_save`, which calls it under the mutex. -/
def performSave (dumps : Json → List UInt8) (walk : Walk DiskData) (c : Calls) (r : Dict)
    (file : File) : Option (File × Bool) :=
  dumpText c (dumps (document walk r)) file

section Fail

/-- The file is opened, and created if need be. -/
def Opens (c : Calls) : Prop := ensureDirectoryOfFileExists c = true ∧ c.opened = true

instance (c : Calls) : Decidable (Opens c) := inferInstanceAs (Decidable (_ ∧ _))

/-- The file passes the checks and is emptied. -/
def Empties (c : Calls) : Prop :=
  (∃ props, c.fstat = some props ∧ props.regular = true ∧ props.nlink ≤ 1) ∧ c.ftruncate = true

/-- The writes before the first one that fails have written `n` bytes of the text, and
not all of it. -/
def FailsAfter (writes : List (Option Nat)) (total n : Nat) : Prop :=
  ∃ (counts : List Nat) (rest : List (Option Nat)),
    writes = counts.map some ++ none :: rest ∧ counts.sum = n ∧ n < total

theorem FailsAfter.lt {writes : List (Option Nat)} {total n : Nat} (h : FailsAfter writes total n) :
    n < total := by
  obtain ⟨_, _, _, _, hlt⟩ := h
  exact hlt

theorem failsAfter_none {rest : List (Option Nat)} {total n : Nat} :
    FailsAfter (none :: rest) total n ↔ n = 0 ∧ n < total := by
  constructor
  · rintro ⟨counts, rest', hwrites, hsum, hlt⟩
    cases counts with
    | nil => exact ⟨hsum.symm, hlt⟩
    | cons m counts => cases hwrites
  · rintro ⟨rfl, hlt⟩
    exact ⟨[], rest, rfl, rfl, hlt⟩

theorem failsAfter_some {m : Nat} {rest : List (Option Nat)} {total n : Nat} :
    FailsAfter (some m :: rest) total n ↔ m ≤ n ∧ n < total ∧ FailsAfter rest (total - m) (n - m) := by
  constructor
  · rintro ⟨counts, rest', hwrites, hsum, hlt⟩
    cases counts with
    | nil => cases hwrites
    | cons k counts =>
      cases hwrites
      rw [List.sum_cons] at hsum
      exact ⟨by omega, hlt, counts, rest', rfl, by omega, by omega⟩
  · rintro ⟨hm, hlt, counts, rest', rfl, hsum, _⟩
    exact ⟨m :: counts, rest', rfl, by rw [List.sum_cons, hsum]; omega, hlt⟩

/-- `io_all` returns -1 exactly when a `write` fails before the end of the text. -/
theorem ioAll_fails {total n : Nat} {writes : List (Option Nat)} :
    ∀ {done : Nat}, done ≤ total →
      (ioAll total writes done = some (n, -1) ↔
        done ≤ n ∧ FailsAfter writes (total - done) (n - done)) := by
  induction writes with
  | nil =>
    intro done hdone
    have hnot : ¬ FailsAfter [] (total - done) (n - done) := by
      rintro ⟨counts, rest, hwrites, _⟩
      cases counts <;> cases hwrites
    simp only [ioAll, hnot, and_false, iff_false]
    split
    · exact nofun
    · intro h
      cases h
  | cons res rest ih =>
    intro done hdone
    simp only [ioAll]
    split
    · rename_i hlt
      cases res with
      | none =>
        rw [failsAfter_none]
        simp only [Option.some.injEq, Prod.mk.injEq, and_true]
        omega
      | some m =>
        have hmin : done + min m (total - done) ≤ total := by omega
        simp only [ih hmin, failsAfter_some]
        by_cases hm : m ≤ total - done
        · rw [Nat.min_eq_left hm, Nat.sub_add_eq, Nat.sub_add_eq]
          constructor
          · rintro ⟨hn, hfails⟩
            have hlt := hfails.lt
            exact ⟨by omega, by omega, by omega, hfails⟩
          · rintro ⟨hn, hmn, _, hfails⟩
            exact ⟨by omega, hfails⟩
        · rw [Nat.min_eq_right (by omega)]
          constructor
          · rintro ⟨_, hfails⟩
            have hlt := hfails.lt
            omega
          · rintro ⟨_, _, _, hfails⟩
            have hlt := hfails.lt
            omega
    · rename_i hge
      constructor
      · intro h
        cases h
      · rintro ⟨_, hfails⟩
        have hlt := hfails.lt
        omega

/-- Otherwise, once it returns, everything has been written. -/
theorem ioAll_done {total n : Nat} {res : Int} {writes : List (Option Nat)} (hres : res ≠ -1) :
    ∀ {done : Nat}, done ≤ total → ioAll total writes done = some (n, res) → n = total := by
  induction writes with
  | nil =>
    intro done hdone h
    simp only [ioAll] at h
    split at h
    · cases h
    · cases h
      omega
  | cons r rest ih =>
    intro done hdone h
    simp only [ioAll] at h
    split at h
    · cases r with
      | none =>
        cases h
        exact absurd rfl hres
      | some m => exact ih (by omega) h
    · cases h
      omega

theorem writeText_false {c : Calls} {text : List UInt8} {file' : File} :
    writeText c text = some (file', false) ↔
      ∃ n, FailsAfter c.writes text.length n ∧ file' = some (text.take n) := by
  simp only [writeText, Option.map_eq_some_iff, Prod.mk.injEq]
  constructor
  · rintro ⟨⟨n, res⟩, hio, rfl, hres⟩
    have hminus : res = -1 := by simpa using hres
    subst hminus
    obtain ⟨_, hfails⟩ := (ioAll_fails (Nat.zero_le _)).mp hio
    exact ⟨n, hfails, rfl⟩
  · rintro ⟨n, hfails, rfl⟩
    have hio := (ioAll_fails (Nat.zero_le _)).mpr ⟨Nat.zero_le n, hfails⟩
    exact ⟨(n, -1), hio, rfl, by simp⟩

theorem writeText_true {c : Calls} {text : List UInt8} {file' : File}
    (h : writeText c text = some (file', true)) : file' = some text := by
  simp only [writeText, Option.map_eq_some_iff, Prod.mk.injEq] at h
  obtain ⟨⟨n, res⟩, hio, rfl, hres⟩ := h
  have hn : n = text.length := ioAll_done (by simpa using hres) (Nat.zero_le _) hio
  rw [hn, List.take_length]

/-- How a save gets to its end, by the system calls before the first `write`. -/
theorem dumpText_cases (c : Calls) (text : List UInt8) (file : File) :
    (¬ Opens c ∧ dumpText c text file = some (file, false)) ∨
    (Opens c ∧ ¬ Empties c ∧ dumpText c text file = some (some (file.getD []), false)) ∨
    (Opens c ∧ Empties c ∧ dumpText c text file = writeText c text) := by
  simp only [Opens, Empties, dumpText]
  cases hdir : ensureDirectoryOfFileExists c with
  | false => simp
  | true =>
    cases hopened : c.opened with
    | false => simp
    | true =>
      cases hstat : c.fstat with
      | none => simp
      | some props =>
        cases hregular : props.regular with
        | false => simp [hregular]
        | true =>
          by_cases hlink : props.nlink > 1
          · simp [hregular, hlink]
          · cases htruncate : c.ftruncate with
            | false => simp [hlink]
            | true => simp [hregular, hlink, Nat.not_lt.mp hlink]

/-- A save that fails leaves the file as it was: the file was there before unless the
save gets to the writes, and when a `write` fails, what has been written is what the
file held. -/
def KeepsFile (c : Calls) (text : List UInt8) (file : File) : Prop :=
  Opens c → (file.isSome = true ∨ Empties c) ∧
    (Empties c → ∀ n, FailsAfter c.writes text.length n → file = some (text.take n))

theorem failed_save_keeps_file (dumps : Json → List UInt8) (walk : Walk DiskData) (c : Calls)
    (r : Dict) (file : File) :
    (∀ file', performSave dumps walk c r file = some (file', false) → file' = file) ↔
      KeepsFile c (dumps (document walk r)) file := by
  simp only [performSave, KeepsFile]
  generalize dumps (document walk r) = text
  obtain ⟨hopens, hdump⟩ | ⟨hopens, hempties, hdump⟩ | ⟨hopens, hempties, hdump⟩ :=
    dumpText_cases c text file
  · rw [hdump]
    simp [hopens]
  · rw [hdump]
    cases file with
    | none => simp [hopens, hempties]
    | some content => simp [hopens, hempties]
  · rw [hdump]
    simp only [writeText_false, hopens, hempties, or_true, true_and, forall_const]
    constructor
    · intro h n hfails
      exact (h _ ⟨n, hfails, rfl⟩).symm
    · rintro h file' ⟨n, hfails, rfl⟩
      exact (h n hfails).symm

/-- What jansson writes for an empty registry. -/
def emptyDatabase : List UInt8 :=
  lit "\x7b\n    \"images\": \x7b\x7d,\n    \"version\": 2\n\x7d"

/-- The disk is full when the file has been emptied. -/
def fullDisk : Calls := ⟨true, lit "/var/lib/xnbd", .exists, true, some ⟨true, 1⟩, true, [none]⟩

theorem full_disk_empties_file :
    ∃ file', performSave (fun _ => emptyDatabase) (.straight _) fullDisk .empty
        (some emptyDatabase) = some (file', false) ∧ file' ≠ some emptyDatabase :=
  ⟨_, rfl, by decide⟩

end Fail

section Restart

variable {loadb : List UInt8 → Option Json} {opened : CStr → Bool} {iter : Walk (CStr × Json)}

/-- Why the wrapper does not start. -/
inductive Abort where
  | invalidJson
  | loadingFailed (complaint : Complaint)
  deriving DecidableEq

/-- `load_database_file_or_abort` for a file that can be read; without a file there is
no state to restore. -/
def loadDatabaseFileOrAbort (loadb : List UInt8 → Option Json) (opened : CStr → Bool)
    (iter : Walk (CStr × Json)) (file : File) (s : Loading) : Except Abort Loading :=
  match file with
  | none => .ok s
  | some bytes =>
    match loadb bytes with
    | none => .error .invalidJson
    | some root =>
      match loadDatabaseJson opened iter root s with
      | (t, none) => .ok t
      | (_, some complaint) => .error (.loadingFailed complaint)

/-- Every entry that gets into the document can be read back. -/
def Loadable (r : Dict) : Prop := ∀ d ∈ r.disks, utf8 d.localExportname = true → Storable d

instance (r : Dict) : Decidable (Loadable r) :=
  inferInstanceAs (Decidable (∀ d ∈ r.disks, utf8 d.localExportname = true → Storable d))

theorem performSave_true {dumps : Json → List UInt8} {walk : Walk DiskData} {c : Calls} {r : Dict}
    {file file' : File} (h : performSave dumps walk c r file = some (file', true)) :
    file' = some (dumps (document walk r)) := by
  simp only [performSave] at h
  obtain ⟨_, hdump⟩ | ⟨_, _, hdump⟩ | ⟨_, _, hdump⟩ :=
    dumpText_cases c (dumps (document walk r)) file
  · rw [hdump] at h
    cases h
  · rw [hdump] at h
    cases h
  · rw [hdump] at h
    exact writeText_true h

theorem load_saved_iff {dumps : Json → List UInt8} {walk : Walk DiskData} {r : Dict}
    (hjson : loadb (dumps (document walk r)) = some (document walk r)) {c : Calls}
    {file file' : File} (h : performSave dumps walk c r file = some (file', true)) (s : Loading) :
    (∃ t, loadDatabaseFileOrAbort loadb opened iter file' s = .ok t) ↔ Loadable r := by
  rw [performSave_true h]
  simp only [loadDatabaseFileOrAbort, hjson]
  have haccepts := loadDatabaseJson_accepts opened iter walk r s
  generalize loadDatabaseJson opened iter (document walk r) s = result at haccepts
  obtain ⟨t, complaint⟩ := result
  cases complaint with
  | none => exact ⟨fun _ => haccepts.mp rfl, fun _ => ⟨t, rfl⟩⟩
  | some complaint =>
    constructor
    · rintro ⟨t', ht⟩
      cases ht
    · intro hloadable
      cases haccepts.mpr hloadable

/-- An image that is left out of the document or read back from it. -/
def SafeImage (image : Image) : Prop :=
  utf8 (createDiskData image).localExportname = true → Storable (createDiskData image)

instance (image : Image) : Decidable (SafeImage image) := inferInstanceAs (Decidable (_ → _))

def SafeUpdate : Update → Prop
  | .reconnect host port _ => utf8 host = true ∧ utf8 port = true
  | _ => True

instance (update : Update) : Decidable (SafeUpdate update) :=
  match update with
  | .reconnect _ _ _ => inferInstanceAs (Decidable (_ ∧ _))
  | .keep | .switch => isTrue trivial

/-- The image is safe, or the update that the thread is about to make. -/
def SafeThread : Thread → Prop
  | .addDiskimg image => SafeImage image
  | .lookup _ update | .child _ update | .update _ update => SafeUpdate update
  | _ => True

instance (thread : Thread) : Decidable (SafeThread thread) :=
  match thread with
  | .addDiskimg image => inferInstanceAs (Decidable (SafeImage image))
  | .lookup _ update | .child _ update | .update _ update =>
    inferInstanceAs (Decidable (SafeUpdate update))
  | .idle | .delDiskimg _ | .autoSave => isTrue trivial

/-- The arguments of a command are UTF-8 where the reader needs them, and a reconnect
finds the export still in proxy mode. -/
def SafeStep (s : State) : Act → Prop
  | .command _ c => SafeThread (begin c)
  | .go k ok => StillProxied s (.go k ok)
  | .connect => True

instance (s : State) (a : Act) : Decidable (SafeStep s a) :=
  match a with
  | .command _ c => inferInstanceAs (Decidable (SafeThread (begin c)))
  | .go k ok => inferInstanceAs (Decidable (StillProxied s (.go k ok)))
  | .connect => isTrue trivial

structure Safe (s : State) : Prop where
  loadable : Loadable s.exports.dict
  threads : ∀ thread ∈ s.threads, SafeThread thread

theorem loadable_add {r : Exports} (h : Loadable r.dict) {image : Image} (himage : SafeImage image)
    (ok : Bool) : Loadable (addDiskimg r (createDiskData image) ok).1.dict :=
  addDiskimg_all (P := fun d => utf8 d.localExportname = true → Storable d) h ok fun _ => himage

theorem loadable_delete {r : Exports} (h : Loadable r.dict) (which : Deletion) :
    Loadable (delete r which).1.dict := by
  cases which with
  | byIndex num => exact delDiskimgByIndex_all h num
  | byFile filename => exact delDiskimg_all h _
  | byExportname name => exact delDiskimg_all h _

/-- An export that leaves proxy mode needs its image path only. -/
theorem loadable_switch {r : Exports} (h : Loadable r.dict) (name : CStr) :
    Loadable (markProxyModeEnded r name).dict := by
  apply updateProxy_all h
  intro d hd _ hname
  exact ⟨(h d hd hname).1, nofun⟩

theorem loadable_reconnect {r : Exports} (h : Loadable r.dict) {name host port : CStr}
    (hproxied : ∀ d ∈ r.dict.disks, d.localExportname = name → d.proxy.targetHost.isSome = true)
    (hhost : utf8 host = true) (hport : utf8 port = true) (targetExportname : Option CStr) :
    Loadable (updateProxySettings r name host port targetExportname).dict := by
  apply updateProxy_all h
  intro d hd hname hutf8
  obtain ⟨hfile, hproxy⟩ := h d hd hutf8
  obtain ⟨_, _, hbitmap, hcontrol⟩ := hproxy (hproxied d hd hname)
  exact ⟨hfile, fun _ => ⟨hhost, hport, hbitmap, hcontrol⟩⟩

theorem safeThread_end (p : Prop) [Decidable p] : SafeThread (if p then .autoSave else .idle) := by
  split <;> trivial

theorem advance_safe {s : State} {k : Nat} {ok : Bool} {thread next : Thread} {r : Exports}
    (h : Loadable s.exports.dict) (hthread : SafeThread thread) (hat : s.threads[k]? = some thread)
    (hstill : StillProxied s (.go k ok)) (ha : advance s.exports ok thread = some (r, next)) :
    Loadable r.dict ∧ SafeThread next := by
  cases thread with
  | idle => cases ha
  | addDiskimg image =>
    cases ha
    constructor
    · exact loadable_add h hthread ok
    · exact safeThread_end _
  | delDiskimg which =>
    cases ha
    constructor
    · exact loadable_delete h which
    · exact safeThread_end _
  | lookup name update =>
    simp only [advance] at ha
    split at ha
    · cases ha
      exact ⟨h, trivial⟩
    · cases ha
      constructor
      · exact h
      · split
        · exact hthread
        · trivial
  | child name update =>
    cases ha
    constructor
    · exact h
    · split
      · trivial
      · split
        · trivial
        · exact hthread
  | update name update =>
    cases ha
    constructor
    · cases update with
      | keep => exact h
      | switch => exact loadable_switch h name
      | reconnect host port targetExportname =>
        have hproxied := hstill name (by rw [hat]; rfl)
        exact loadable_reconnect h hproxied hthread.1 hthread.2 targetExportname
    · trivial
  | autoSave =>
    cases ha
    exact ⟨h, trivial⟩

/-- A step of one thread leaves the other ones where they are. -/
theorem safeThread_set {threads : List Thread} (h : ∀ thread ∈ threads, SafeThread thread) {k : Nat}
    {next : Thread} (hnext : SafeThread next) : ∀ thread ∈ threads.set k next, SafeThread thread := by
  intro thread hthread
  cases List.mem_or_eq_of_mem_set hthread with
  | inl hold => exact h thread hold
  | inr hnew => exact hnew ▸ hnext

theorem step_safe {s t : State} {a : Act} (h : Safe s) (hsafe : SafeStep s a)
    (hs : step s a = some t) : Safe t := by
  obtain ⟨hloadable, hthreads⟩ := h
  cases a with
  | connect =>
    cases hs
    constructor
    · exact hloadable
    · intro thread hthread
      cases List.mem_append.mp hthread with
      | inl hthread => exact hthreads thread hthread
      | inr hthread =>
        cases List.mem_singleton.mp hthread
        trivial
  | command k c =>
    simp only [step] at hs
    split at hs
    · cases hs
      constructor
      · exact hloadable
      · exact safeThread_set hthreads hsafe
    · cases hs
  | go k ok =>
    simp only [step, Option.bind_eq_some_iff, Option.map_eq_some_iff] at hs
    obtain ⟨thread, hat, m, hm, rfl⟩ := hs
    obtain ⟨hnext, hsafeNext⟩ :=
      advance_safe hloadable (hthreads thread (List.mem_of_getElem? hat)) hat hsafe hm
    constructor
    · exact hnext
    · exact safeThread_set hthreads hsafeNext

theorem start_safe {images : List Image} (h : ∀ image ∈ images, SafeImage image) :
    Safe (start images) := by
  constructor
  · exact loadImages_all (P := fun d => utf8 d.localExportname = true → Storable d)
      fun image himage _ => h image himage
  · exact nofun

theorem saved_database_loads (dumps : Json → List UInt8) (loadb : List UInt8 → Option Json)
    (opened : CStr → Bool) (iter : Walk (CStr × Json)) (walk : Walk DiskData) (images : List Image)
    (acts : List Act) (s : State) (h : run step (start images) acts = some s) :
    (loadb (dumps (document walk s.exports.dict)) = some (document walk s.exports.dict) →
      ∀ c file file', performSave dumps walk c s.exports.dict file = some (file', true) →
        ∀ l, (∃ t, loadDatabaseFileOrAbort loadb opened iter file' l = .ok t) ↔
          Loadable s.exports.dict) ∧
    ((∀ image ∈ images, SafeImage image) → Along step SafeStep (start images) acts →
      Loadable s.exports.dict) := by
  constructor
  · intro hjson c file file' hsave l
    exact load_saved_iff hjson hsave l
  · intro himages hsafe
    have hrun := run_invariant (I := Safe) (fun _ _ _ hi hp hs => step_safe hi hp hs)
      (start_safe himages) hsafe h
    exact hrun.loadable

/-- A save that succeeds with one `write`. -/
def saved : Calls := ⟨true, lit "/var/lib/xnbd", .exists, true, some ⟨true, 1⟩, true, [some 4096]⟩

def addDisk (file : CStr) : List Act :=
  [.connect, .command 0 (.add (.target (lit "d") file)), .go 0 true]

/-- What jansson writes for the disk `d` at `/d`. -/
def oneDisk : List UInt8 :=
  lit "\x7b\n    \"images\": \x7b\n        \"d\": \x7b\n            \"image_path\": \"/d\",\n" ++
  lit "            \"mode\": \"target\"\n        \x7d\n    \x7d,\n    \"version\": 2\n\x7d"

set_option maxRecDepth 8000 in
theorem saved_database_loads_disk :
    ∃ s file', run step (start []) (addDisk (lit "/d")) = some s ∧
      performSave (fun _ => oneDisk) (.straight _) saved s.exports.dict none =
        some (file', true) ∧
      ∃ t, loadDatabaseFileOrAbort (fun _ => some (document (.straight _) s.exports.dict))
        (fun _ => true) (.straight _) file' .empty = .ok t :=
  ⟨_, _, rfl, rfl,
    ((saved_database_loads (fun _ => oneDisk) _ (fun _ => true) (.straight _) (.straight _) []
      (addDisk (lit "/d")) _ rfl).1 rfl saved none _ rfl .empty).mpr
    ((saved_database_loads (fun _ => oneDisk) (fun _ => none) (fun _ => true) (.straight _)
      (.straight _) [] (addDisk (lit "/d")) _ rfl).2 (by decide) (by decide))⟩

/-- What jansson writes when the image path has been refused. -/
def oneDiskWithoutPath : List UInt8 :=
  lit "\x7b\n    \"images\": \x7b\n        \"d\": \x7b\n            \"mode\": \"target\"\n" ++
  lit "        \x7d\n    \x7d,\n    \"version\": 2\n\x7d"

set_option maxRecDepth 8000 in
theorem image_path_lost :
    ∃ s file', run step (start []) (addDisk [0xff]) = some s ∧
      performSave (fun _ => oneDiskWithoutPath) (.straight _) saved s.exports.dict none =
        some (file', true) ∧
      loadDatabaseFileOrAbort (fun _ => some (document (.straight _) s.exports.dict))
        (fun _ => true) (.straight _) file' .empty =
        .error (.loadingFailed (.attributeNotSet (lit "d") (lit "image_path"))) :=
  ⟨_, _, rfl, rfl, rfl⟩

end Restart

end Xnbd.Save
