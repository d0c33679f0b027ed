import Xnbd.Selection
import Xnbd.Jansson
import Xnbd.ControlLine
import Mathlib.Data.List.Induction

/-!
# Image numbers (`list_diskimg`, `del_diskimg_by_index`)

An image gets the value of a counter when it is added, and is known to the user by
that value plus one. `list` prints the images in the order of their numbers without
sorting them, by walking the hash table again and again. `del` reads a number with `atoi`,
which cuts it to an `int`.
-/
namespace Xnbd.Listing

open CInt CText Registry Wrapper Jansson Run

section Model

/-- `(guint)-1`. -/
def guintMax : Nat := 2 ^ 32 - 1

/-- `t_listing_state`. The stream is the list of what has been printed. -/
structure ListingState where
  indexToPrint : Nat
  indexUpNext : Nat
  fp : List CStr

/-- `one_based_index`, a `guint` that is printed with `%d`. -/
def number (d : DiskData) : Int := toInt32 ((d.index + 1) % 2 ^ 32 : Nat)

/-- `%s` of a pointer that may be NULL. -/
def percentS (s : Option CStr) : CStr := s.getD (lit "(null)")

/-- The line that is printed for an image. -/
def line (d : DiskData) : CStr :=
  match d.proxy.targetHost with
  | some targetHost =>
    lit (toString (number d)) ++ lit " : " ++ d.localExportname ++ lit "  (" ++ targetHost ++
      lit ":" ++ percentS d.proxy.targetPort ++
      (match d.proxy.targetExportname with
        | some name => lit ":" ++ name
        | none => []) ++
      lit ", " ++ d.diskFileName ++ lit ", " ++ percentS d.proxy.bitmapImage ++ lit ", " ++
      percentS d.proxy.controlSocketPath ++ lit ")\n"
  | none =>
    lit (toString (number d)) ++ lit " : " ++ d.localExportname ++ lit "  (" ++ d.diskFileName ++
      lit ")\n"

def findSmallestIndexIterator (st : ListingState) (d : DiskData) : ListingState :=
  if d.index < st.indexToPrint then { st with indexToPrint := d.index } else st

def listImagesIterator (st : ListingState) (d : DiskData) : ListingState :=
  if d.index = st.indexToPrint then { st with fp := st.fp ++ [line d] }
  else if st.indexToPrint < d.index ∧ d.index < st.indexUpNext then
    { st with indexUpNext := d.index }
  else st

/-- The loop of `list_diskimg`. Each `g_hash_table_foreach` has an order of its own, and
the fuel bounds the number of rounds. -/
def listLoop (walks : Nat → List DiskData) : Nat → ListingState → Option (List CStr)
  | 0, _ => none
  | fuel + 1, st =>
    if st.indexToPrint < guintMax then
      let st := (walks fuel).foldl listImagesIterator { st with indexUpNext := guintMax }
      listLoop walks fuel { st with indexToPrint := st.indexUpNext }
    else some st.fp

def listDiskimg (first : Walk DiskData) (walks : Nat → Walk DiskData) (fuel : Nat) (r : Dict) :
    Option (List CStr) :=
  if 0 < r.disks.length then
    listLoop (fun n => (walks n).order r.disks) fuel
      ((first.order r.disks).foldl findSmallestIndexIterator ⟨guintMax, guintMax, []⟩)
  else some [lit "no item\n"]

end Model

section Passes

open Selection

theorem foldl_findSmallest (walk : List DiskData) (st : ListingState) :
    walk.foldl findSmallestIndexIterator st =
      { st with indexToPrint := smallest DiskData.index st.indexToPrint walk } := by
  induction walk generalizing st with
  | nil => rfl
  | cons d walk ih =>
    rw [List.foldl_cons, ih, smallest, smallest, List.foldl_cons, findSmallestIndexIterator]
    split <;> rfl

/-- What one walk of the loop does. -/
theorem foldl_listImages (walk : List DiskData) (st : ListingState) :
    walk.foldl listImagesIterator st =
      { st with
        indexUpNext := smallest DiskData.index st.indexUpNext
          (walk.filter fun d => st.indexToPrint < d.index)
        fp := st.fp ++ (walk.filter fun d => d.index = st.indexToPrint).map line } := by
  induction walk generalizing st with
  | nil => simp [smallest]
  | cons d walk ih =>
    rw [List.foldl_cons, ih, listImagesIterator]
    by_cases heq : d.index = st.indexToPrint
    · simp [heq, smallest]
    · by_cases hlt : st.indexToPrint < d.index
      · by_cases hnext : d.index < st.indexUpNext
        · simp [heq, hlt, hnext, smallest]
        · simp [heq, hlt, hnext, smallest]
      · simp [heq, hlt]

/-- The loop is the repeated selection. -/
theorem listLoop_eq (walks : Nat → List DiskData) (fuel : Nat) :
    ∀ (current upNext : Nat) (out : List DiskData),
      listLoop walks fuel ⟨current, upNext, out.map line⟩ =
        (select DiskData.index guintMax walks fuel current out).map fun l => l.map line := by
  induction fuel with
  | zero =>
    intro current upNext out
    rfl
  | succ fuel ih =>
    intro current upNext out
    simp only [listLoop, select]
    split
    · rw [foldl_listImages]
      simp only [← List.map_append]
      exact ih _ _ _
    · rfl

end Passes

section Numbers

/-- After `n` additions: the numbers given are below `n`, and ascend in the order in which
the images were added. -/
structure Numbered (r : Exports) (n : Nat) : Prop where
  counter : r.imagesAddedEver = n
  below : ∀ d ∈ r.dict.disks, d.index < n
  ascending : r.dict.disks.Pairwise fun d e => d.index < e.index

variable {r : Exports} {n : Nat}

/-- A failed addition changes nothing, and a successful one takes the next number. -/
theorem addDiskimg_numbered (h : Numbered r n) (d : DiskData) (opened : Bool) :
    ((addDiskimg r d opened).1 = r ∧ (addDiskimg r d opened).2 ≠ imageAdded) ∨
      ((addDiskimg r d opened).2 = imageAdded ∧
        (addDiskimg r d opened).1.dict.disks.length = r.dict.disks.length + 1 ∧
        (n + 1 < 2 ^ 32 → Numbered (addDiskimg r d opened).1 (n + 1))) := by
  simp only [addDiskimg]
  split
  · exact .inl ⟨rfl, by simp [imageAccessError, imageAdded]⟩
  · split
    · exact .inl ⟨rfl, by simp [notAddingTwice, imageAdded]⟩
    · right
      constructor
      · rfl
      · constructor
        · simp [Dict.insert]
        · intro hn
          constructor
          · rw [h.counter]
            exact Nat.mod_eq_of_lt hn
          · intro e he
            cases List.mem_append.mp he with
            | inl he => exact Nat.lt_succ_of_lt (h.below e he)
            | inr he =>
              cases List.mem_singleton.mp he
              rw [h.counter]
              exact Nat.lt_succ_self n
          · apply List.pairwise_append.mpr
            constructor
            · exact h.ascending
            · constructor
              · exact List.pairwise_singleton _ _
              · intro e he f hf
                cases List.mem_singleton.mp hf
                rw [h.counter]
                exact h.below e he

theorem delDiskimg_numbered (h : Numbered r n) (p : DiskData → Bool) :
    Numbered (delDiskimg r p).1 n where
  counter := h.counter
  below := delDiskimg_all h.below p
  ascending := h.ascending.filter _

theorem delete_numbered (h : Numbered r n) (which : Deletion) : Numbered (delete r which).1 n := by
  cases which with
  | byIndex num =>
    simp only [delete, delDiskimgByIndex]
    split
    · exact delDiskimg_numbered h _
    · exact h
  | byFile filename => exact delDiskimg_numbered h _
  | byExportname name => exact delDiskimg_numbered h _

theorem setProxy_index (name : CStr) (f : Registry.Proxy → Registry.Proxy) (d : DiskData) :
    (Dict.setProxy name f d).index = d.index := by
  simp only [Dict.setProxy]
  split <;> rfl

theorem updateProxy_numbered (h : Numbered r n) (name : CStr)
    (f : Registry.Proxy → Registry.Proxy) :
    Numbered { r with dict := r.dict.updateProxy name f } n where
  counter := h.counter
  below := updateProxy_all h.below fun d hd _ => h.below d hd
  ascending := by
    simp only [Dict.updateProxy, List.pairwise_map, setProxy_index]
    exact h.ascending

theorem applyUpdate_numbered (h : Numbered r n) (name : CStr) (update : Update) :
    Numbered (applyUpdate r name update) n := by
  cases update with
  | keep => exact h
  | switch => exact updateProxy_numbered h name _
  | reconnect host port targetExportname => exact updateProxy_numbered h name _

end Numbers

section Runs

/-- The step is an addition that succeeds. -/
def adds (s : State) : Act → Bool
  | .go k ok =>
    match s.threads[k]? with
    | some (.addDiskimg image) =>
      (addDiskimg s.exports (createDiskData image) ok).2 = imageAdded
    | _ => false
  | _ => false

/-- The number of successful additions in a run. -/
def additions : State → List Act → Nat
  | _, [] => 0
  | s, a :: rest =>
    (if adds s a then 1 else 0) +
      match step s a with
      | some t => additions t rest
      | none => 0

variable {s t : State} {n : Nat}

/-- A step that adds an image is the one of a thread with an image to add. -/
theorem adds_of_not_addDiskimg {k : Nat} {ok : Bool} {thread : Thread}
    (hat : s.threads[k]? = some thread) (hthread : ∀ image, thread ≠ .addDiskimg image) :
    adds s (.go k ok) = false := by
  simp only [adds, hat]
  split
  · rename_i image heq
    exact absurd (Option.some.inj heq) (hthread image)
  · rfl

theorem addDiskimg_step_numbered {k : Nat} {ok : Bool} {image : Image} (h : Numbered s.exports n)
    (hat : s.threads[k]? = some (.addDiskimg image))
    (hn : n + (if adds s (.go k ok) then 1 else 0) < 2 ^ 31) :
    Numbered (addDiskimg s.exports (createDiskData image) ok).1
      (n + if adds s (.go k ok) then 1 else 0) := by
  simp only [adds, hat, decide_eq_true_eq] at hn ⊢
  cases addDiskimg_numbered h (createDiskData image) ok with
  | inl hfail =>
    rw [if_neg hfail.2, hfail.1]
    exact h
  | inr hadded =>
    rw [if_pos hadded.1] at hn ⊢
    exact hadded.2.2 (by omega)

theorem step_numbered {a : Act} (h : Numbered s.exports n) (hs : step s a = some t)
    (hn : n + (if adds s a then 1 else 0) < 2 ^ 31) :
    Numbered t.exports (n + if adds s a then 1 else 0) := by
  obtain ⟨hsame, hgo⟩ | ⟨k, ok, thread, next, rfl, hat, ha⟩ := step_exports hs
  · have hnone : adds s a = false := by
      cases a with
      | connect => rfl
      | command k c => rfl
      | go k ok => exact absurd rfl (hgo k ok)
    rw [hsame, hnone]
    exact h
  · obtain ⟨hsame, hthread⟩ | ⟨image, rfl, hadd⟩ | ⟨which, rfl, hdel⟩ | ⟨name, update, rfl, hupdate⟩ :=
      advance_exports ha
    · rw [hsame, adds_of_not_addDiskimg hat hthread]
      exact h
    · rw [hadd]
      exact addDiskimg_step_numbered h hat hn
    · rw [hdel, adds_of_not_addDiskimg hat fun _ => nofun]
      exact delete_numbered h which
    · rw [hupdate, adds_of_not_addDiskimg hat fun _ => nofun]
      exact applyUpdate_numbered h name update

theorem run_numbered {acts : List Act} (h : Numbered s.exports n) (hrun : run step s acts = some t)
    (hn : n + additions s acts < 2 ^ 31) : Numbered t.exports (n + additions s acts) := by
  induction acts generalizing s n with
  | nil =>
    cases hrun
    exact h
  | cons a rest ih =>
    obtain ⟨m, hm, hrest⟩ := run_cons_some hrun
    simp only [additions, hm, ← Nat.add_assoc] at hn ⊢
    exact ih (step_numbered h hm (by omega)) hrest hn

theorem loadImages_append (images : List Image) (image : Image) :
    loadImages (images ++ [image]) = (addDiskimg (loadImages images) (createDiskData image) true).1 := by
  rw [loadImages, List.foldl_append]
  rfl

/-- At start-up nothing is deleted, so the images are as many as the additions. -/
theorem loadImages_numbered (images : List Image) :
    (loadImages images).dict.disks.length < 2 ^ 31 →
      Numbered (loadImages images) (loadImages images).dict.disks.length := by
  induction images using List.reverseRecOn with
  | nil => exact fun _ => ⟨rfl, fun d hd => (List.not_mem_nil hd).elim, List.Pairwise.nil⟩
  | append_singleton images image ih =>
    rw [loadImages_append]
    intro hlength
    have hgrows : (loadImages images).dict.disks.length ≤
        (addDiskimg (loadImages images) (createDiskData image) true).1.dict.disks.length := by
      simp only [addDiskimg]
      split
      · exact Nat.le_refl _
      · split
        · exact Nat.le_refl _
        · simp [Dict.insert]
    have h := ih (Nat.lt_of_le_of_lt hgrows hlength)
    cases addDiskimg_numbered h (createDiskData image) true with
    | inl hfail =>
      rw [hfail.1]
      exact h
    | inr hadded =>
      rw [hadded.2.1] at hlength ⊢
      exact hadded.2.2 (by omega)

end Runs

section Stable

/-- The number of the image with the name, if there is one. -/
def indexOf (r : Dict) (name : CStr) : Option Nat := (r.lookup name).map DiskData.index

/-- An entry that was there before under the same name has the same index. -/
def Kept (r r' : Dict) : Prop :=
  ∀ d ∈ r.disks, ∀ e ∈ r'.disks, e.localExportname = d.localExportname → e.index = d.index

theorem eq_of_name {r : Dict} {d e : DiskData} (hd : d ∈ r.disks) (he : e ∈ r.disks)
    (hname : e.localExportname = d.localExportname) : e = d :=
  List.inj_on_of_nodup_map r.unique he hd hname

/-- Whatever is left over was there before. -/
theorem kept_of_subset {r r' : Dict} (h : r'.disks ⊆ r.disks) : Kept r r' := by
  intro d hd e he hname
  rw [eq_of_name hd (h he) hname]

theorem addDiskimg_kept (r : Exports) (d : DiskData) (opened : Bool) :
    Kept r.dict (addDiskimg r d opened).1.dict := by
  simp only [addDiskimg]
  split
  · exact kept_of_subset fun _ h => h
  · split
    · exact kept_of_subset fun _ h => h
    · rename_i hfresh
      intro e he f hf hname
      cases List.mem_append.mp hf with
      | inl hf => rw [eq_of_name he hf hname]
      | inr hf =>
        -- the new entry has a name that no other one has
        cases List.mem_singleton.mp hf
        exact absurd (Dict.lookup_isSome.mpr (List.mem_map.mpr ⟨e, he, hname.symm⟩)) hfresh

theorem delete_kept (r : Exports) (which : Deletion) : Kept r.dict (delete r which).1.dict := by
  apply kept_of_subset
  cases which with
  | byIndex num =>
    simp only [delete, delDiskimgByIndex]
    split
    · exact List.filter_sublist.subset
    · exact fun _ h => h
  | byFile filename => exact List.filter_sublist.subset
  | byExportname name => exact List.filter_sublist.subset

theorem updateProxy_kept (r : Dict) (name : CStr) (f : Registry.Proxy → Registry.Proxy) :
    Kept r (r.updateProxy name f) := by
  intro d hd e he hname
  obtain ⟨d', hd', rfl⟩ := List.mem_map.mp he
  rw [Dict.setProxy_name] at hname
  rw [setProxy_index, eq_of_name hd hd' hname]

theorem step_kept {s t : State} {a : Act} (hs : step s a = some t) :
    Kept s.exports.dict t.exports.dict := by
  have hsame : Kept s.exports.dict s.exports.dict := kept_of_subset fun _ h => h
  obtain ⟨heq, -⟩ | ⟨k, ok, thread, next, -, -, ha⟩ := step_exports hs
  · rw [heq]
    exact hsame
  · obtain ⟨heq, -⟩ | ⟨image, -, hadd⟩ | ⟨which, -, hdel⟩ | ⟨name, update, -, hupdate⟩ :=
      advance_exports ha
    · rw [heq]
      exact hsame
    · rw [hadd]
      exact addDiskimg_kept s.exports (createDiskData image) ok
    · rw [hdel]
      exact delete_kept s.exports which
    · rw [hupdate]
      cases update with
      | keep => exact hsame
      | switch => exact updateProxy_kept _ name _
      | reconnect host port targetExportname => exact updateProxy_kept _ name _

theorem indexOf_of_kept {r r' : Dict} (h : Kept r r') {name : CStr}
    (hr : (indexOf r name).isSome = true) (hr' : (indexOf r' name).isSome = true) :
    indexOf r' name = indexOf r name := by
  simp only [indexOf, Option.isSome_map] at hr hr' ⊢
  obtain ⟨d, hd⟩ := Option.isSome_iff_exists.mp hr
  obtain ⟨e, he⟩ := Option.isSome_iff_exists.mp hr'
  have hdname : d.localExportname = name := by simpa using List.find?_some hd
  have hename : e.localExportname = name := by simpa using List.find?_some he
  rw [hd, he, Option.map_some, Option.map_some, h d (List.mem_of_find?_eq_some hd) e
    (List.mem_of_find?_eq_some he) (hename.trans hdname.symm)]

/-- While an image is registered, it keeps its index. -/
theorem run_indexOf {s t : State} {acts : List Act} {name : CStr} (hrun : run step s acts = some t)
    (hwhile : Along step (fun u _ => (indexOf u.exports.dict name).isSome = true) s acts)
    (hend : (indexOf t.exports.dict name).isSome = true) :
    indexOf t.exports.dict name = indexOf s.exports.dict name := by
  induction acts generalizing s with
  | nil =>
    cases hrun
    rfl
  | cons a rest ih =>
    obtain ⟨m, hm, hrest⟩ := run_cons_some hrun
    obtain ⟨hfirst, hafter⟩ := hwhile
    have hnext : (indexOf m.exports.dict name).isSome = true := by
      cases rest with
      | nil =>
        cases hrest
        exact hend
      | cons b rest => exact (hafter m hm).1
    rw [ih hrest (hafter m hm), indexOf_of_kept (step_kept hm) hfirst hnext]

end Stable

section Results

variable {r : Exports} {n : Nat}

theorem number_eq (h : Numbered r n) (hn : n < 2 ^ 31) {d : DiskData} (hd : d ∈ r.dict.disks) :
    number d = d.index + 1 := by
  have hbelow := h.below d hd
  rw [number, Nat.mod_eq_of_lt (by omega), toInt32_of_range (by omega) (by omega)]
  rfl

/-- The images in the order of their numbers, and nothing else. -/
theorem listDiskimg_numbered (h : Numbered r n) (hn : n < 2 ^ 31) (first : Walk DiskData)
    (walks : Nat → Walk DiskData) {fuel : Nat} (hfuel : r.dict.disks.length < fuel) :
    listDiskimg first walks fuel r.dict =
      some (if r.dict.disks = [] then [lit "no item\n"] else r.dict.disks.map line) := by
  have hpos : 0 < r.dict.disks.length ↔ ¬ r.dict.disks = [] := List.length_pos_iff
  rw [listDiskimg]
  by_cases hnil : r.dict.disks = []
  · rw [if_neg (by rw [hpos]; exact not_not.mpr hnil), if_pos hnil]
  · have htop : ∀ d ∈ r.dict.disks, d.index < guintMax := by
      intro d hd
      have hbelow := h.below d hd
      rw [guintMax]
      omega
    rw [if_pos (hpos.mpr hnil), if_neg hnil, foldl_findSmallest]
    have hloop := listLoop_eq (fun k => (walks k).order r.dict.disks) fuel
      (Selection.smallest DiskData.index guintMax (first.order r.dict.disks)) guintMax []
    rw [Selection.select_sorted DiskData.index h.ascending htop (first.perm _)
      (fun k => (walks k).perm _) hfuel] at hloop
    exact hloop

/-- What a deletion by number does: the image that is printed with the number is taken out,
or there is none and nothing happens. -/
def Deleted (num : Int) (r : Exports) (m : Exports × Bool) : Prop :=
  (∃ before d after, r.dict.disks = before ++ d :: after ∧ number d = num ∧
    m.1.dict.disks = before ++ after ∧ m.1.imagesAddedEver = r.imagesAddedEver ∧ m.2 = true) ∨
  ((∀ d ∈ r.dict.disks, number d ≠ num) ∧ m = (r, false))

theorem foreachRemove_none {r : Dict} {p : DiskData → Bool} (h : ∀ d ∈ r.disks, p d = false) :
    r.foreachRemove p = r := by
  have hkeep : r.disks.filter (fun d => !p d) = r.disks := by
    rw [List.filter_eq_self]
    intro d hd
    rw [h d hd]
    rfl
  cases r
  simp only [Dict.foreachRemove, Dict.mk.injEq]
  exact hkeep

/-- In a list with ascending numbers one number is taken out by its value. -/
theorem filter_ne_ascending {before after : List DiskData} {d : DiskData}
    (h : (before ++ d :: after).Pairwise fun d e => d.index < e.index) :
    (before ++ d :: after).filter (fun e => !findByIndex d.index e) = before ++ after := by
  obtain ⟨-, hafter, hacross⟩ := List.pairwise_append.mp h
  obtain ⟨hlater, -⟩ := List.pairwise_cons.mp hafter
  have hbefore : before.filter (fun e => !findByIndex d.index e) = before := by
    rw [List.filter_eq_self]
    intro e he
    have hlt := hacross e he d List.mem_cons_self
    simp only [findByIndex, Bool.not_eq_true', decide_eq_false_iff_not]
    omega
  have hrest : after.filter (fun e => !findByIndex d.index e) = after := by
    rw [List.filter_eq_self]
    intro e he
    have hlt := hlater e he
    simp only [findByIndex, Bool.not_eq_true', decide_eq_false_iff_not]
    omega
  rw [List.filter_append, List.filter_cons_of_neg (by simp [findByIndex]), hbefore, hrest]

theorem delDiskimgByIndex_deleted (h : Numbered r n) (hn : n < 2 ^ 31) (num : Int) :
    Deleted num r (delDiskimgByIndex r num) := by
  by_cases hfound : ∃ d ∈ r.dict.disks, number d = num
  · left
    obtain ⟨d, hd, rfl⟩ := hfound
    rw [number_eq h hn hd]
    have hindex : ((d.index : Int) + 1 - 1).toNat = d.index := by omega
    obtain ⟨before, after, hsplit⟩ := List.append_of_mem hd
    have hascending := h.ascending
    rw [hsplit] at hascending
    have hremoved := filter_ne_ascending hascending
    rw [← hsplit] at hremoved
    have hany : r.dict.disks.any (findByIndex d.index) = true :=
      List.any_eq_true.mpr ⟨d, hd, by simp [findByIndex]⟩
    rw [delDiskimgByIndex, if_pos (by omega), hindex]
    exact ⟨before, d, after, hsplit, number_eq h hn hd, hremoved, rfl, hany⟩
  · right
    have hnone : ∀ d ∈ r.dict.disks, number d ≠ num := fun d hd heq => hfound ⟨d, hd, heq⟩
    constructor
    · exact hnone
    · rw [delDiskimgByIndex]
      split
      · have hfalse : ∀ d ∈ r.dict.disks, findByIndex (num - 1).toNat d = false := by
          intro d hd
          have hne := hnone d hd
          rw [number_eq h hn hd] at hne
          simp only [findByIndex, decide_eq_false_iff_not]
          omega
        have hany : r.dict.disks.any (findByIndex (num - 1).toNat) = false := by
          rw [List.any_eq_false]
          intro d hd
          rw [hfalse d hd]
          decide
        rw [delDiskimg, foreachRemove_none hfalse, hany]
      · rfl

/-- The line `del N` does what it says. -/
def DelExact (N : Int) (r : Exports) : Prop :=
  ∀ buf, ∃ which, (ControlLine.dispatch (lit "del") buf (lit (toString N))).1 = .del which ∧
    Deleted N r (delete r which)

theorem dispatch_del (buf arg : CStr) :
    (ControlLine.dispatch (lit "del") buf arg).1 = .del (.byIndex (atoi arg)) := rfl

/-- Only a number beyond an `int` goes wrong, where `atoi` makes the number of an image of
it. -/
theorem delExact_iff (h : Numbered r n) (hn : n < 2 ^ 31) (N : Int) :
    DelExact N r ↔ (-2 ^ 31 ≤ N ∧ N < 2 ^ 31) ∨
      ∀ d ∈ r.dict.disks, number d ≠ atoi (lit (toString N)) := by
  have hexact : DelExact N r ↔ Deleted N r (delDiskimgByIndex r (atoi (lit (toString N)))) := by
    simp only [DelExact, dispatch_del, ControlLine.Action.del.injEq, exists_eq_left', delete,
      forall_const]
  have hdeleted := delDiskimgByIndex_deleted h hn (atoi (lit (toString N)))
  rw [hexact]
  by_cases hrange : -2 ^ 31 ≤ N ∧ N < 2 ^ 31
  · rw [atoi_int hrange.1 hrange.2] at hdeleted ⊢
    exact ⟨fun _ => .inl hrange, fun _ => hdeleted⟩
  · have hnone : ∀ d ∈ r.dict.disks, number d ≠ N := by
      intro d hd heq
      have hbelow := h.below d hd
      rw [number_eq h hn hd] at heq
      omega
    obtain ⟨before, d, after, hsplit, hnumber, -, -, hremoved⟩ | ⟨hno, hsame⟩ := hdeleted
    · have hd : d ∈ r.dict.disks := by
        rw [hsplit]
        exact List.mem_append_right _ List.mem_cons_self
      constructor
      · rintro (⟨_, e, _, hsplit', he, -⟩ | ⟨-, hsame⟩)
        · exact absurd he (hnone e (by rw [hsplit']; exact List.mem_append_right _ List.mem_cons_self))
        · rw [hsame] at hremoved
          cases hremoved
      · rintro (hin | hno)
        · exact absurd hin hrange
        · exact absurd hnumber (hno d hd)
    · exact ⟨fun _ => .inr hno, fun _ => .inr ⟨hnone, hsame⟩⟩

end Results

theorem images_numbered (images : List Image) (acts : List Act) (s : State)
    (hrun : run step (start images) acts = some s)
    (hfew : (loadImages images).dict.disks.length + additions (start images) acts < 2 ^ 31) :
    (s.exports.dict.disks.map DiskData.index).Nodup ∧
    (∀ more t name, run step s more = some t →
      Along step (fun u _ => (indexOf u.exports.dict name).isSome = true) s more →
      (indexOf t.exports.dict name).isSome = true →
      indexOf t.exports.dict name = indexOf s.exports.dict name) ∧
    (∃ order : List DiskData, order.Perm s.exports.dict.disks ∧
      order.Pairwise (fun d e => d.index < e.index) ∧
      ∀ first walks fuel, s.exports.dict.disks.length < fuel →
        listDiskimg first walks fuel s.exports.dict =
          some (if s.exports.dict.disks = [] then [lit "no item\n"] else order.map line)) ∧
    ∀ N, DelExact N s.exports ↔ (-2 ^ 31 ≤ N ∧ N < 2 ^ 31) ∨
      ∀ d ∈ s.exports.dict.disks, number d ≠ atoi (lit (toString N)) := by
  have hstart : Numbered (start images).exports (loadImages images).dict.disks.length :=
    loadImages_numbered images (by omega)
  have h := run_numbered hstart hrun hfew
  constructor
  · exact List.pairwise_map.mpr (h.ascending.imp fun hlt => Nat.ne_of_lt hlt)
  · constructor
    · intro more t name hmore hwhile hend
      exact run_indexOf hmore hwhile hend
    · constructor
      · exact ⟨s.exports.dict.disks, List.Perm.refl _, h.ascending,
          fun first walks fuel hfuel => listDiskimg_numbered h hfew first walks hfuel⟩
      · exact delExact_iff h hfew

/-- Two images at start-up; the first is deleted and a third is added. -/
def deleteAndAdd : List Act :=
  [.connect, .command 0 (.del (.byIndex 1)), .go 0 true, .go 0 true,
    .command 0 (.add (.target [99] [102])), .go 0 true]

theorem images_numbered_reuse :
    ∃ s, run step (start [.target [97] [102], .target [98] [102]]) deleteAndAdd = some s ∧
      s.exports.dict.disks.map DiskData.index = [1, 2] ∧
      (s.exports.dict.disks.map DiskData.index).Nodup ∧ DelExact 3 s.exports := by
  obtain ⟨hnodup, -, -, hdel⟩ := images_numbered [.target [97] [102], .target [98] [102]]
    deleteAndAdd _ rfl (by decide)
  exact ⟨_, rfl, by decide, hnodup, (hdel 3).mpr (by decide)⟩

/-- The only image has number 1, and `del 4294967297` deletes it. -/
theorem del_cut_to_int :
    ∃ s, run step (start [.target [97] [102]]) [] = some s ∧
      s.exports.dict.disks.map number = [1] ∧
      (ControlLine.serve (fun _ _ => true) (.new [] s.exports)
        [lit "del 4294967297\n"]).exports.dict.disks = [] ∧
      ¬ DelExact 4294967297 s.exports := by
  refine ⟨_, rfl, by decide, by decide +kernel, fun h => ?_⟩
  obtain ⟨which, hwhich, hdeleted⟩ := h []
  have hone : atoi (lit (toString (4294967297 : Int))) = 1 := by decide +kernel
  rw [dispatch_del, hone, ControlLine.Action.del.injEq] at hwhich
  subst hwhich
  rcases hdeleted with ⟨before, d, after, hsplit, hnumber, -⟩ | ⟨-, hsame⟩
  · have hd : d ∈ (start [.target [97] [102]]).exports.dict.disks := by
      rw [hsplit]
      exact List.mem_append_right _ List.mem_cons_self
    cases List.mem_singleton.mp hd
    exact absurd hnumber (by decide)
  · exact absurd (congrArg Prod.snd hsame) (by decide)

end Xnbd.Listing
