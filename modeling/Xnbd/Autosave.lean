import Xnbd.Save

/-!
# The database file while commands are carried out (`auto_save`)

A command changes the registry in one critical section and saves it in another one,
so the saves of several connections can overtake each other. Every save writes the
registry as it is at that moment, but for the strings that jansson refuses, and still
returns true.
-/
namespace Xnbd.Autosave

open CText Jansson Registry Database Wrapper Save Run

/-- The wrapper with its database file. -/
structure Store where
  wrapper : State
  file : File
  /-- A command has changed the registry since start-up. -/
  mutated : Bool

/-- An action of the wrapper, and how a save that it makes goes. -/
structure Move where
  act : Act
  walk : Walk DiskData
  calls : Calls

/-- The thread that acts is at a save. -/
def Saves (s : State) : Act → Prop
  | .go k _ => s.threads[k]? = some .autoSave
  | _ => False

instance (s : State) (a : Act) : Decidable (Saves s a) :=
  match a with
  | .go k _ => inferInstanceAs (Decidable (s.threads[k]? = some .autoSave))
  | .connect | .command _ _ => isFalse id

/-- The change of the registry that a thread makes is one that its command reports
as a success. -/
def succeeds (r : Exports) (ok : Bool) : Thread → Bool
  | .addDiskimg image => (addDiskimg r (createDiskData image) ok).2 = imageAdded
  | .delDiskimg which => (delete r which).2
  | .update _ _ => true
  | _ => false

def mutates (s : State) : Act → Bool
  | .go k ok => (s.threads[k]?).any (succeeds s.exports ok)
  | _ => false

def step (dumps : Json → List UInt8) (s : Store) (m : Move) : Option Store :=
  (Wrapper.step s.wrapper m.act).bind fun w =>
    if Saves s.wrapper m.act then
      (performSave dumps m.walk m.calls s.wrapper.exports.dict s.file).map fun saved =>
        { s with wrapper := w, file := saved.1 }
    else some { s with wrapper := w, mutated := s.mutated || mutates s.wrapper m.act }

def start (images : List Image) (file : File) : Store := ⟨Wrapper.start images, file, false⟩

/-- The save, if it is one, returns true. -/
def SaveSucceeds (dumps : Json → List UInt8) (s : Store) (m : Move) : Prop :=
  Saves s.wrapper m.act →
    ((performSave dumps m.walk m.calls s.wrapper.exports.dict s.file).any fun saved => saved.2) = true

instance (dumps : Json → List UInt8) (s : Store) (m : Move) : Decidable (SaveSucceeds dumps s m) :=
  inferInstanceAs (Decidable (_ → _))

/-- No command is in progress. -/
def Quiet (s : Store) : Prop := ∀ thread ∈ s.wrapper.threads, thread = .idle

instance (s : Store) : Decidable (Quiet s) :=
  inferInstanceAs (Decidable (∀ thread ∈ s.wrapper.threads, thread = .idle))

/-- The file holds what a save makes of the registry. -/
def Current (dumps : Json → List UInt8) (s : Store) : Prop :=
  ∃ walk, s.file = some (dumps (document walk s.wrapper.exports.dict))

/-- The file is the serialization of the registry: every entry is in it, and nothing else. -/
def Recorded (dumps : Json → List UInt8) (s : Store) : Prop :=
  ∃ walk, s.file = some (dumps (wantedDocument walk s.wrapper.exports.dict))

/-- Once something has changed, the file is current or a save is still to come. -/
def Follows (dumps : Json → List UInt8) (s : Store) : Prop :=
  s.mutated = true → Current dumps s ∨ .autoSave ∈ s.wrapper.threads

theorem foreachRemove_none {r : Dict} {p : DiskData → Bool} (h : r.disks.any p = false) :
    r.foreachRemove p = r := by
  obtain ⟨disks, unique⟩ := r
  have hall : disks.filter (fun d => !p d) = disks := by
    rw [List.filter_eq_self]
    intro d hd
    rw [List.any_eq_false] at h
    simpa using h d hd
  simp only [Dict.foreachRemove, hall]

theorem delDiskimg_none {r : Exports} {p : DiskData → Bool} (h : (delDiskimg r p).2 = false) :
    (delDiskimg r p).1 = r := by
  have hdict : r.dict.foreachRemove p = r.dict := foreachRemove_none h
  simp only [delDiskimg, hdict]

theorem delete_none {r : Exports} {which : Deletion} (h : (delete r which).2 = false) :
    (delete r which).1 = r := by
  cases which with
  | byIndex num =>
    simp only [delete, delDiskimgByIndex] at h ⊢
    split
    · rename_i hnum
      rw [if_pos hnum] at h
      exact delDiskimg_none h
    · rfl
  | byFile filename => exact delDiskimg_none h
  | byExportname name => exact delDiskimg_none h

theorem addDiskimg_refused {r : Exports} {d : DiskData} {ok : Bool}
    (h : (addDiskimg r d ok).2 ≠ imageAdded) : (addDiskimg r d ok).1 = r := by
  simp only [addDiskimg] at h ⊢
  split
  · rfl
  · rename_i hok
    split
    · rfl
    · rename_i hlookup
      rw [if_neg hok, dif_neg hlookup] at h
      exact absurd rfl h

/-- A thread that changes the registry goes on to save it; any other step leaves the
registry as it is. -/
theorem advance_saves {r r' : Exports} {ok : Bool} {thread next : Thread}
    (h : advance r ok thread = some (r', next)) :
    (succeeds r ok thread = true ∧ next = .autoSave) ∨ (succeeds r ok thread = false ∧ r' = r) := by
  cases thread with
  | idle => cases h
  | addDiskimg image =>
    cases h
    by_cases hadded : (addDiskimg r (createDiskData image) ok).2 = imageAdded
    · exact .inl ⟨decide_eq_true hadded, if_pos hadded⟩
    · exact .inr ⟨decide_eq_false hadded, addDiskimg_refused hadded⟩
  | delDiskimg which =>
    cases h
    cases hremoved : (delete r which).2 with
    | true => exact .inl ⟨hremoved, if_pos hremoved⟩
    | false => exact .inr ⟨hremoved, delete_none hremoved⟩
  | lookup name update =>
    simp only [advance] at h
    split at h
    · cases h
      exact .inr ⟨rfl, rfl⟩
    · cases h
      exact .inr ⟨rfl, rfl⟩
  | child name update =>
    cases h
    exact .inr ⟨rfl, rfl⟩
  | update name update =>
    cases h
    exact .inl ⟨rfl, rfl⟩
  | autoSave =>
    cases h
    exact .inr ⟨rfl, rfl⟩

/-- A save that another thread has still to make is not forgotten. -/
theorem autoSave_mem_set {threads : List Thread} {k : Nat} {thread next : Thread}
    (hat : threads[k]? = some thread) (hne : thread ≠ .autoSave) (h : .autoSave ∈ threads) :
    .autoSave ∈ threads.set k next := by
  obtain ⟨j, hj⟩ := List.mem_iff_getElem?.mp h
  have hjk : k ≠ j := by
    intro hkj
    rw [hkj, hj] at hat
    cases hat
    exact hne rfl
  apply List.mem_of_getElem? (i := j)
  rw [List.getElem?_set_ne hjk]
  exact hj

variable {dumps : Json → List UInt8}

theorem save_current {s t : Store} {m : Move} (hsaves : Saves s.wrapper m.act)
    (hok : SaveSucceeds dumps s m) (hs : step dumps s m = some t) : Current dumps t := by
  obtain ⟨act, walk, calls⟩ := m
  have hsaved := hok hsaves
  simp only [step, if_pos hsaves, Option.bind_eq_some_iff, Option.map_eq_some_iff] at hs
  obtain ⟨w, hw, ⟨file', res⟩, hsave, rfl⟩ := hs
  rw [hsave] at hsaved
  simp only [Option.any_some] at hsaved
  subst hsaved
  -- the save itself does not touch the registry
  have hsame : w.exports = s.wrapper.exports := by
    cases act with
    | connect => exact hsaves.elim
    | command k c => exact hsaves.elim
    | go k ok =>
      have hat : s.wrapper.threads[k]? = some .autoSave := hsaves
      simp only [Wrapper.step, hat, Option.bind_some, advance, Option.map_some,
        Option.some.injEq] at hw
      rw [← hw]
  exact ⟨walk, by rw [hsame]; exact performSave_true hsave⟩

theorem step_follows {s t : Store} {m : Move} (h : Follows dumps s) (hok : SaveSucceeds dumps s m)
    (hs : step dumps s m = some t) : Follows dumps t := by
  by_cases hsaves : Saves s.wrapper m.act
  · exact fun _ => .inl (save_current hsaves hok hs)
  · simp only [step, if_neg hsaves, Option.bind_eq_some_iff, Option.some.injEq] at hs
    obtain ⟨w, hw, rfl⟩ := hs
    intro hmutated
    obtain ⟨act, walk, calls⟩ := m
    cases act with
    | connect =>
      cases hw
      cases h (by simpa [mutates] using hmutated) with
      | inl hcurrent => exact .inl hcurrent
      | inr hmem => exact .inr (List.mem_append_left _ hmem)
    | command k c =>
      simp only [Wrapper.step] at hw
      split at hw
      · rename_i hidle
        cases hw
        cases h (by simpa [mutates] using hmutated) with
        | inl hcurrent => exact .inl hcurrent
        | inr hmem => exact .inr (autoSave_mem_set hidle (by simp) hmem)
      · cases hw
    | go k ok =>
      simp only [Wrapper.step, Option.bind_eq_some_iff, Option.map_eq_some_iff] at hw
      obtain ⟨thread, hat, ⟨r, next⟩, ha, rfl⟩ := hw
      have hne : thread ≠ .autoSave := by
        intro he
        subst he
        exact hsaves hat
      cases advance_saves ha with
      | inl hsucceeds =>
        rw [hsucceeds.2]
        exact .inr (List.mem_set (List.getElem?_eq_some_iff.mp hat).1 _)
      | inr hkeeps =>
        obtain ⟨hfalse, rfl⟩ := hkeeps
        cases h (by simpa [mutates, hat, hfalse] using hmutated) with
        | inl hcurrent => exact .inl hcurrent
        | inr hmem => exact .inr (autoSave_mem_set hat hne hmem)

theorem run_current {images : List Image} {file : File} {moves : List Move} {s : Store}
    (h : run (step dumps) (start images file) moves = some s)
    (hsaves : Along (step dumps) (SaveSucceeds dumps) (start images file) moves) (hquiet : Quiet s)
    (hmutated : s.mutated = true) : Current dumps s := by
  have hfollows : Follows dumps s :=
    run_invariant (I := Follows dumps) (fun _ _ _ hi hp hs => step_follows hi hp hs)
      (fun hnot => absurd hnot Bool.false_ne_true) hsaves h
  cases hfollows hmutated with
  | inl hcurrent => exact hcurrent
  | inr hmem => cases hquiet _ hmem

section Strings

/-- The strings that a thread may still bring into the registry. -/
def pending : Thread → List CStr
  | .addDiskimg image => strings (createDiskData image)
  | .lookup _ (.reconnect host port targetExportname)
  | .child _ (.reconnect host port targetExportname)
  | .update _ (.reconnect host port targetExportname) => [host, port] ++ targetExportname.toList
  | _ => []

theorem pending_end (p : Prop) [Decidable p] :
    pending (if p then .autoSave else .idle) = [] := by
  split <;> rfl

theorem advance_pending {r r' : Exports} {ok : Bool} {thread next : Thread}
    (h : advance r ok thread = some (r', next)) : pending next ⊆ pending thread := by
  cases thread with
  | idle => cases h
  | addDiskimg image =>
    cases h
    rw [pending_end]
    exact List.nil_subset _
  | delDiskimg which =>
    cases h
    rw [pending_end]
    exact List.nil_subset _
  | lookup name update =>
    simp only [advance] at h
    split at h
    · cases h
      exact List.nil_subset _
    · cases h
      split
      · cases update <;> exact List.Subset.refl _
      · exact List.nil_subset _
  | child name update =>
    cases h
    split
    · exact List.nil_subset _
    · split
      · exact List.nil_subset _
      · cases update <;> exact List.Subset.refl _
  | update name update | autoSave =>
    cases h
    exact List.nil_subset _

/-- The registry holds no string that was not in it or brought by the thread. -/
theorem advance_strings {r r' : Exports} {ok : Bool} {thread next : Thread} {P : CStr → Prop}
    (hr : ∀ d ∈ r.dict.disks, ∀ x ∈ strings d, P x) (hthread : ∀ x ∈ pending thread, P x)
    (h : advance r ok thread = some (r', next)) : ∀ d ∈ r'.dict.disks, ∀ x ∈ strings d, P x := by
  obtain ⟨hsame, -⟩ | ⟨image, rfl, hadd⟩ | ⟨which, -, hdel⟩ | ⟨name, update, rfl, hupdate⟩ :=
    advance_exports h
  · rw [hsame]
    exact hr
  · rw [hadd]
    exact addDiskimg_all (P := fun d => ∀ x ∈ strings d, P x) hr ok fun _ => hthread
  · rw [hdel]
    cases which with
    | byIndex num => exact delDiskimgByIndex_all hr num
    | byFile filename => exact delDiskimg_all hr _
    | byExportname name => exact delDiskimg_all hr _
  · rw [hupdate]
    cases update with
    | keep => exact hr
    | switch =>
      apply updateProxy_all hr
      intro d hd _ x hx
      apply hr d hd x
      simp only [strings, notProxied, Option.toList_none, List.append_nil] at hx
      simp only [strings, List.append_assoc]
      exact List.mem_append_left _ hx
    | reconnect host port targetExportname =>
      apply updateProxy_all hr
      intro d hd _ x hx
      have hold := hr d hd x
      have hnew := hthread x
      simp only [strings, pending, List.mem_append, List.mem_cons, List.not_mem_nil, or_false,
        Option.mem_toList, Option.some.injEq] at hx hold hnew
      grind

/-- Every string of the registry is UTF-8, and so is what the commands bring. -/
structure Utf8 (s : State) : Prop where
  strings : ∀ d ∈ s.exports.dict.disks, ∀ x ∈ strings d, utf8 x = true
  pending : ∀ thread ∈ s.threads, ∀ x ∈ pending thread, utf8 x = true

/-- The strings of an image to add and of a reconnect are UTF-8. -/
def Utf8Act : Act → Prop
  | .command _ c => ∀ x ∈ pending (begin c), utf8 x = true
  | _ => True

instance (a : Act) : Decidable (Utf8Act a) := by
  cases a <;> unfold Utf8Act <;> infer_instance

theorem step_utf8 {s t : State} {a : Act} (h : Utf8 s) (ha : Utf8Act a)
    (hs : Wrapper.step s a = some t) : Utf8 t := by
  have hset : ∀ {k : Nat} {next : Thread}, (∀ x ∈ pending next, utf8 x = true) →
      ∀ thread ∈ s.threads.set k next, ∀ x ∈ pending thread, utf8 x = true := by
    intro k next hnext thread hthread
    cases List.mem_or_eq_of_mem_set hthread with
    | inl hold => exact h.pending thread hold
    | inr hnew => exact hnew ▸ hnext
  cases a with
  | connect =>
    cases hs
    constructor
    · exact h.strings
    · intro thread hthread
      cases List.mem_append.mp hthread with
      | inl hold => exact h.pending thread hold
      | inr hnew =>
        cases List.mem_singleton.mp hnew
        exact fun _ hx => (List.not_mem_nil hx).elim
  | command k c =>
    simp only [Wrapper.step] at hs
    split at hs
    · cases hs
      exact ⟨h.strings, hset ha⟩
    · cases hs
  | go k ok =>
    simp only [Wrapper.step, Option.bind_eq_some_iff, Option.map_eq_some_iff] at hs
    obtain ⟨thread, hat, m, hm, rfl⟩ := hs
    have hthread := h.pending thread (List.mem_of_getElem? hat)
    exact ⟨advance_strings h.strings hthread hm,
      hset fun x hx => hthread x (advance_pending hm hx)⟩

theorem store_step_wrapper {s t : Store} {m : Move} (hs : step dumps s m = some t) :
    Wrapper.step s.wrapper m.act = some t.wrapper := by
  simp only [step, Option.bind_eq_some_iff] at hs
  obtain ⟨w, hw, ht⟩ := hs
  split at ht
  · obtain ⟨saved, -, rfl⟩ := Option.map_eq_some_iff.mp ht
    exact hw
  · cases ht
    exact hw

theorem run_utf8 {images : List Image} {file : File} {moves : List Move} {s : Store}
    (h : run (step dumps) (start images file) moves = some s)
    (himages : ∀ image ∈ images, ∀ x ∈ strings (createDiskData image), utf8 x = true)
    (hmoves : ∀ m ∈ moves, Utf8Act m.act) : Utf8 s.wrapper := by
  refine run_invariant (P := fun _ m => Utf8Act m.act) (I := fun s => Utf8 s.wrapper)
    (fun _ _ _ hi hp hs => step_utf8 hi hp (store_step_wrapper hs)) ⟨?_, ?_⟩
    (along_forall hmoves) h
  · exact loadImages_all (P := fun d => ∀ x ∈ strings d, utf8 x = true)
      fun image himage _ => himages image himage
  · exact fun _ hthread => (List.not_mem_nil hthread).elim

theorem written_of_strings {d : DiskData} (h : ∀ x ∈ strings d, utf8 x = true) : Written d := by
  constructor
  · exact h _ (by simp [strings])
  · intro x hx
    apply h x
    simp only [written, List.mem_append, strings] at hx ⊢
    split at hx <;> grind

end Strings

/-- The file is what a save makes of the registry, and that is its serialization exactly if
all strings are UTF-8, as they are when no other ones were ever given. -/
theorem database_follows_registry (dumps : Json → List UInt8) (images : List Image) (file : File)
    (moves : List Move) (s : Store) (h : run (step dumps) (start images file) moves = some s)
    (hsaves : Along (step dumps) (SaveSucceeds dumps) (start images file) moves) (hquiet : Quiet s)
    (hmutated : s.mutated = true) :
    (∃ walk, s.file = some (dumps (document walk s.wrapper.exports.dict)) ∧
      (document walk s.wrapper.exports.dict = wantedDocument walk s.wrapper.exports.dict ↔
        ∀ d ∈ s.wrapper.exports.dict.disks, Written d)) ∧
    ((∀ image ∈ images, ∀ x ∈ strings (createDiskData image), utf8 x = true) →
      (∀ m ∈ moves, Utf8Act m.act) → Recorded dumps s) := by
  obtain ⟨walk, hfile⟩ := run_current h hsaves hquiet hmutated
  constructor
  · exact ⟨walk, hfile, document_eq_wanted walk _⟩
  · intro himages hmoves
    have hutf8 := run_utf8 h himages hmoves
    have hsame := (document_eq_wanted walk _).mpr fun d hd => written_of_strings (hutf8.strings d hd)
    exact ⟨walk, by rw [hfile, hsame]⟩

def move (a : Act) : Move := ⟨a, .straight _, saved⟩

/-- One connection deletes the second disk, and another one saves in between. -/
def overtakingSave : List Move :=
  [.connect, .connect, .command 0 (.del (.byExportname (lit "e"))), .command 1 .save, .go 0 true,
    .go 1 true, .go 0 true].map move

set_option maxRecDepth 8000 in
theorem database_follows_registry_overtaking :
    ∃ s, run (step fun _ => oneDisk)
        (start [.target (lit "d") (lit "/d"), .target (lit "e") (lit "/e")] none)
        overtakingSave = some s ∧
      s.wrapper.exports.dict.disks.map DiskData.localExportname = [lit "d"] ∧
      Recorded (fun _ => oneDisk) s :=
  ⟨_, rfl, rfl, (database_follows_registry (fun _ => oneDisk)
    [.target (lit "d") (lit "/d"), .target (lit "e") (lit "/e")] none overtakingSave _ rfl
    (by decide) (by decide) rfl).2 (by decide) (by decide)⟩

/-- `add-target %ff /d`. -/
def addOddName : List Move :=
  [.connect, .command 0 (.add (.target [0xff] (lit "/d"))), .go 0 true, .go 0 true].map move

/-- What jansson writes for a registry without images; no other one occurs here. -/
def dumpsEmpty : Json → List UInt8
  | .object [_, (_, .object [])] => emptyDatabase
  | _ => []

/-- The image is added, the save succeeds, and the file has no images. -/
theorem added_image_not_saved :
    ∃ s, run (step dumpsEmpty) (start [] none) addOddName = some s ∧
      Along (step dumpsEmpty) (SaveSucceeds dumpsEmpty) (start [] none) addOddName ∧ Quiet s ∧
      s.mutated = true ∧ s.wrapper.exports.dict.disks.map DiskData.localExportname = [[0xff]] ∧
      s.file = some emptyDatabase ∧ ¬ Recorded dumpsEmpty s := by
  refine ⟨_, rfl, by decide, by decide, rfl, rfl, rfl, ?_⟩
  rintro ⟨walk, hfile⟩
  have hone := List.perm_singleton.mp (walk.perm [⟨[0xff], lit "/d", 0, notProxied⟩])
  have htext : dumpsEmpty (wantedDocument walk
      ⟨[⟨[0xff], lit "/d", 0, notProxied⟩], List.nodup_singleton _⟩) = [] := by
    rw [wantedDocument, hone]
    rfl
  cases (Option.some.inj hfile).trans htext

end Xnbd.Autosave
