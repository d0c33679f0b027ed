import Xnbd.CText
import Xnbd.Jansson
import Xnbd.Wrapper
import Mathlib.Data.List.Find

/-!
# The database document of the wrapper

`add_disk_to_json_ghfunc` writes one entry of the registry as an object, and
`load_database_json` adds the images of a document to the registry. The writer looks
at no result of jansson, so a member can be missing; the reader gives up at the
first one that is.
-/
namespace Xnbd.Database

open CText Jansson Registry

section Writer

/-- The members that are set for an entry, in the order of the source. -/
def diskAttributes (d : DiskData) : List (CStr × Option Json) :=
  let mode := if d.proxy.targetHost.isSome then lit "proxy" else lit "target"
  [(lit "mode", jsonString (some mode)), (lit "image_path", jsonString (some d.diskFileName))] ++
  if d.proxy.targetHost.isSome then
    [(lit "remote_host", jsonString d.proxy.targetHost),
      (lit "remote_port", jsonString d.proxy.targetPort),
      (lit "bitmap_path", jsonString d.proxy.bitmapImage),
      (lit "control_socket_path", jsonString d.proxy.controlSocketPath),
      (lit "remote_export_name",
        if d.proxy.targetExportname.isSome then jsonString d.proxy.targetExportname
        else some .null)]
  else []

def diskPropertyDict (d : DiskData) : Json := .object (setAll [] (diskAttributes d))

/-- `add_disk_to_json_ghfunc`. -/
def addDiskToJson (root : Members) (d : DiskData) : Members :=
  objectSetNew root d.localExportname (some (diskPropertyDict d))

def imagesDict (walk : Walk DiskData) (r : Dict) : Members :=
  (walk.order r.disks).foldl addDiskToJson []

/-- The document that `dump_registered_images_UNLOCKED` aggregates. -/
def document (walk : Walk DiskData) (r : Dict) : Json :=
  .object (setAll [] [(lit "version", some (.integer 2)),
    (lit "images", some (.object (imagesDict walk r)))])

end Writer

section Reader

/-- What is logged before `load_database_json` returns false. -/
inductive Complaint where
  | rootNotObject
  | versionMissing
  | versionNotSupported (version : Int)
  | imagesNotObject
  | propertiesNotObject (image : CStr)
  | attributeNotSet (image key : CStr)
  | attributeNotString (image key : CStr)
  | attributeNotNullOrString (image key : CStr)
  | modeNotSupported (image mode : CStr)
  deriving DecidableEq

def stringAttribute (image : CStr) (properties : Json) (key : CStr) :
    Except Complaint CStr :=
  match objectGet properties key with
  | none => .error (.attributeNotSet image key)
  | some (.string s) => .ok s
  | some _ => .error (.attributeNotString image key)

/-- The one attribute that may be left out or be null. -/
def remoteExportName (image : CStr) (properties : Json) : Except Complaint (Option CStr) :=
  match objectGet properties (lit "remote_export_name") with
  | none => .ok none
  | some .null => .ok none
  | some (.string s) => .ok (some s)
  | some _ => .error (.attributeNotNullOrString image (lit "remote_export_name"))

def readTarget (image : CStr) (properties : Json) : Except Complaint Image := do
  let imagePath ← stringAttribute image properties (lit "image_path")
  return .target image imagePath

def readProxy (image : CStr) (properties : Json) : Except Complaint Image := do
  let imagePath ← stringAttribute image properties (lit "image_path")
  let bitmapPath ← stringAttribute image properties (lit "bitmap_path")
  let controlSocketPath ← stringAttribute image properties (lit "control_socket_path")
  let exportName ← remoteExportName image properties
  let remoteHost ← stringAttribute image properties (lit "remote_host")
  let remotePort ← stringAttribute image properties (lit "remote_port")
  return .proxy image remoteHost remotePort imagePath bitmapPath controlSocketPath exportName

/-- One round of the loop of `load_database_json`, up to `create_disk_data`. -/
def readImage (image : CStr) (properties : Json) : Except Complaint Image :=
  if isObject properties = false then .error (.propertiesNotObject image)
  else do
    let mode ← stringAttribute image properties (lit "mode")
    if mode = lit "target" then readTarget image properties
    else if mode = lit "proxy" then readProxy image properties
    else .error (.modeNotSupported image mode)

/-- The registry and the two counters that `load_database_json` counts in. -/
structure Loading where
  exports : Exports
  countAdded : Nat
  countSkipped : Nat

/-- The rest of the round; `opened` says which image files can be opened. -/
def addImage (opened : CStr → Bool) (s : Loading) (image : Image) : Loading :=
  let d := createDiskData image
  let (exports, ret) := addDiskimg s.exports d (opened d.diskFileName)
  if ret = imageAdded then { s with exports, countAdded := s.countAdded + 1 }
  else { s with exports, countSkipped := s.countSkipped + 1 }

/-- The loop. The images before the bad one have been added. -/
def loadMembers (opened : CStr → Bool) : Members → Loading → Loading × Option Complaint
  | [], s => (s, none)
  | (name, properties) :: rest, s =>
    match readImage name properties with
    | .error complaint => (s, some complaint)
    | .ok image => loadMembers opened rest (addImage opened s image)

/-- `load_database_json`, which returns true when there is no complaint. -/
def loadDatabaseJson (opened : CStr → Bool) (iter : Walk (CStr × Json)) (root : Json) (s : Loading) :
    Loading × Option Complaint :=
  if isObject root = false then (s, some .rootNotObject)
  else
    match objectGet root (lit "version") with
    | none => (s, some .versionMissing)
    | some version =>
      if integerValue version ≠ 2 then (s, some (.versionNotSupported (integerValue version)))
      else
        match objectGet root (lit "images") with
        | none => (s, none)
        | some (.object images) => loadMembers opened (iter.order images) s
        | some _ => (s, some .imagesNotObject)

end Reader

section Entry

/-- An entry that the reader takes back: every string it must find has been stored. -/
def Storable (d : DiskData) : Prop :=
  utf8 d.diskFileName = true ∧
  (d.proxy.targetHost.isSome = true →
    d.proxy.targetHost.any utf8 = true ∧ d.proxy.targetPort.any utf8 = true ∧
    d.proxy.bitmapImage.any utf8 = true ∧ d.proxy.controlSocketPath.any utf8 = true)

instance (d : DiskData) : Decidable (Storable d) := inferInstanceAs (Decidable (_ ∧ (_ → _)))

/-- The image that a stored entry describes. -/
def imageOf (d : DiskData) : Image :=
  match d.proxy.targetHost with
  | none => .target d.localExportname d.diskFileName
  | some host =>
    .proxy d.localExportname host (d.proxy.targetPort.getD []) d.diskFileName
      (d.proxy.bitmapImage.getD []) (d.proxy.controlSocketPath.getD [])
      (d.proxy.targetExportname.filter utf8)

theorem diskAttributes_nodup (d : DiskData) : ((diskAttributes d).map Prod.fst).Nodup := by
  cases h : d.proxy.targetHost.isSome with
  | true =>
    have hkeys : (diskAttributes d).map Prod.fst =
        [lit "mode", lit "image_path", lit "remote_host", lit "remote_port", lit "bitmap_path",
          lit "control_socket_path", lit "remote_export_name"] := by
      simp [diskAttributes, h]
    rw [hkeys]
    decide
  | false =>
    have hkeys : (diskAttributes d).map Prod.fst = [lit "mode", lit "image_path"] := by
      simp [diskAttributes, h]
    rw [hkeys]
    decide

theorem objectGet_diskPropertyDict (d : DiskData) {key : CStr} (hkey : utf8 key = true) :
    objectGet (diskPropertyDict d) key = ((diskAttributes d).lookup key).join :=
  objectGet_setAll (diskAttributes_nodup d) hkey

theorem stringAttribute_ok {image key s : CStr} {properties : Json} :
    stringAttribute image properties key = .ok s ↔ objectGet properties key = some (.string s) := by
  simp only [stringAttribute]
  split <;> simp_all

/-- A member that was set with `json_string` is read back when the string is UTF-8. -/
theorem stringAttribute_saved (image : CStr) {key : CStr} {properties : Json} {s : Option CStr}
    (hget : objectGet properties key = jsonString s) (hs : s.any utf8 = true) :
    stringAttribute image properties key = .ok (s.getD []) := by
  cases s with
  | none => cases hs
  | some s =>
    rw [stringAttribute_ok, hget]
    exact jsonString_some hs

theorem any_utf8_of_read {image key : CStr} {properties : Json} {s : Option CStr} {v : CStr}
    (hget : objectGet properties key = jsonString s)
    (hread : stringAttribute image properties key = .ok v) : s.any utf8 = true := by
  rw [stringAttribute_ok, hget] at hread
  by_contra hs
  rw [jsonString_eq_none.mpr hs] at hread
  cases hread

theorem member_eq {d : DiskData} {attributes : List (CStr × Option Json)}
    (h : diskAttributes d = attributes) {key : CStr} (hkey : utf8 key = true) :
    objectGet (diskPropertyDict d) key = (attributes.lookup key).join := by
  rw [objectGet_diskPropertyDict d hkey, h]

theorem readTarget_saved {d : DiskData} (hhost : d.proxy.targetHost = none) :
    readImage d.localExportname (diskPropertyDict d) =
      readTarget d.localExportname (diskPropertyDict d) ∧
    objectGet (diskPropertyDict d) (lit "image_path") = jsonString (some d.diskFileName) := by
  have hattributes : diskAttributes d = [(lit "mode", some (.string (lit "target"))),
      (lit "image_path", jsonString (some d.diskFileName))] := by
    rw [← jsonString_some (by decide : utf8 (lit "target") = true)]
    simp [diskAttributes, hhost]
  constructor
  · have hmode : stringAttribute d.localExportname (diskPropertyDict d) (lit "mode") =
        .ok (lit "target") :=
      stringAttribute_ok.mpr (member_eq hattributes (by decide))
    simp only [readImage, hmode]
    rfl
  · exact member_eq hattributes (by decide)

/-- What the reader finds of an entry in proxy mode. -/
theorem readProxy_saved {d : DiskData} (hhost : d.proxy.targetHost.isSome = true) :
    readImage d.localExportname (diskPropertyDict d) =
      readProxy d.localExportname (diskPropertyDict d) ∧
    objectGet (diskPropertyDict d) (lit "image_path") = jsonString (some d.diskFileName) ∧
    objectGet (diskPropertyDict d) (lit "remote_host") = jsonString d.proxy.targetHost ∧
    objectGet (diskPropertyDict d) (lit "remote_port") = jsonString d.proxy.targetPort ∧
    objectGet (diskPropertyDict d) (lit "bitmap_path") = jsonString d.proxy.bitmapImage ∧
    objectGet (diskPropertyDict d) (lit "control_socket_path") =
      jsonString d.proxy.controlSocketPath ∧
    remoteExportName d.localExportname (diskPropertyDict d) =
      .ok (d.proxy.targetExportname.filter utf8) := by
  have hattributes : diskAttributes d = [(lit "mode", some (.string (lit "proxy"))),
      (lit "image_path", jsonString (some d.diskFileName)),
      (lit "remote_host", jsonString d.proxy.targetHost),
      (lit "remote_port", jsonString d.proxy.targetPort),
      (lit "bitmap_path", jsonString d.proxy.bitmapImage),
      (lit "control_socket_path", jsonString d.proxy.controlSocketPath),
      (lit "remote_export_name",
        if d.proxy.targetExportname.isSome then jsonString d.proxy.targetExportname
        else some .null)] := by
    rw [← jsonString_some (by decide : utf8 (lit "proxy") = true)]
    simp [diskAttributes, hhost]
  have hmode : stringAttribute d.localExportname (diskPropertyDict d) (lit "mode") =
      .ok (lit "proxy") :=
    stringAttribute_ok.mpr (member_eq hattributes (by decide))
  have hname : objectGet (diskPropertyDict d) (lit "remote_export_name") =
      if d.proxy.targetExportname.isSome then jsonString d.proxy.targetExportname
      else some .null :=
    member_eq hattributes (by decide)
  have hread : readImage d.localExportname (diskPropertyDict d) =
      readProxy d.localExportname (diskPropertyDict d) := by
    simp only [readImage, hmode]
    rfl
  have hexport : remoteExportName d.localExportname (diskPropertyDict d) =
      .ok (d.proxy.targetExportname.filter utf8) := by
    simp only [remoteExportName, hname]
    cases d.proxy.targetExportname with
    | none => rfl
    | some name =>
      cases hutf8 : utf8 name with
      | true => simp [jsonString, Option.filter, hutf8]
      | false => simp [jsonString, Option.filter, hutf8]
  exact ⟨hread, member_eq hattributes (by decide), member_eq hattributes (by decide),
    member_eq hattributes (by decide), member_eq hattributes (by decide),
    member_eq hattributes (by decide), hexport⟩

theorem readImage_storable {d : DiskData} (h : Storable d) :
    readImage d.localExportname (diskPropertyDict d) = .ok (imageOf d) := by
  obtain ⟨hfile, hproxy⟩ := h
  cases hhost : d.proxy.targetHost with
  | none =>
    obtain ⟨hread, hpath⟩ := readTarget_saved hhost
    have himage := stringAttribute_saved d.localExportname hpath hfile
    simp only [hread, readTarget, himage, imageOf, hhost]
    rfl
  | some host =>
    have hsome : d.proxy.targetHost.isSome = true := by rw [hhost]; rfl
    obtain ⟨hread, hpath, hremote, hport, hbitmap, hcontrol, hname⟩ := readProxy_saved hsome
    obtain ⟨hhostOk, hportOk, hbitmapOk, hcontrolOk⟩ := hproxy hsome
    have himage := stringAttribute_saved d.localExportname hpath hfile
    have hremote := stringAttribute_saved d.localExportname hremote hhostOk
    have hport := stringAttribute_saved d.localExportname hport hportOk
    have hbitmap := stringAttribute_saved d.localExportname hbitmap hbitmapOk
    have hcontrol := stringAttribute_saved d.localExportname hcontrol hcontrolOk
    simp only [hread, readProxy, himage, hremote, hport, hbitmap, hcontrol, hname, imageOf, hhost]
    rfl

theorem bind_ok {ε α β : Type} {x : Except ε α} {f : α → Except ε β} {b : β}
    (h : (x >>= f) = .ok b) : ∃ a, x = .ok a ∧ f a = .ok b := by
  cases x with
  | error e => cases h
  | ok a => exact ⟨a, rfl, h⟩

theorem storable_of_readImage {d : DiskData} {image : Image}
    (h : readImage d.localExportname (diskPropertyDict d) = .ok image) : Storable d := by
  cases hhost : d.proxy.targetHost with
  | none =>
    obtain ⟨hread, hpath⟩ := readTarget_saved hhost
    rw [hread] at h
    obtain ⟨imagePath, himage, _⟩ := bind_ok h
    exact ⟨any_utf8_of_read hpath himage, fun hsome => by simp [hhost] at hsome⟩
  | some host =>
    have hsome : d.proxy.targetHost.isSome = true := by rw [hhost]; rfl
    obtain ⟨hread, hpath, hremote, hport, hbitmap, hcontrol, _⟩ := readProxy_saved hsome
    rw [hread] at h
    obtain ⟨_, himage, h⟩ := bind_ok h
    obtain ⟨_, hbitmap', h⟩ := bind_ok h
    obtain ⟨_, hcontrol', h⟩ := bind_ok h
    obtain ⟨_, _, h⟩ := bind_ok h
    obtain ⟨_, hremote', h⟩ := bind_ok h
    obtain ⟨_, hport', _⟩ := bind_ok h
    exact ⟨any_utf8_of_read hpath himage, fun _ => ⟨any_utf8_of_read hremote hremote',
      any_utf8_of_read hport hport', any_utf8_of_read hbitmap hbitmap',
      any_utf8_of_read hcontrol hcontrol'⟩⟩

end Entry

section Document

/-- The member of the document that an entry with a UTF-8 name becomes. -/
def entryMember (d : DiskData) : CStr × Json := (d.localExportname, diskPropertyDict d)

theorem walk_names_nodup (walk : Walk DiskData) (r : Dict) :
    ((walk.order r.disks).map DiskData.localExportname).Nodup :=
  ((walk.perm r.disks).map _).nodup_iff.mpr r.unique

/-- An entry whose name is not UTF-8 is left out of the document. -/
theorem imagesDict_eq (walk : Walk DiskData) (r : Dict) :
    imagesDict walk r =
      ((walk.order r.disks).filter fun d => utf8 d.localExportname).map entryMember := by
  have hset : imagesDict walk r = setAll []
      ((walk.order r.disks).map fun d => (d.localExportname, some (diskPropertyDict d))) := by
    rw [setAll, List.foldl_map]
    rfl
  have hnodup : (((walk.order r.disks).map
      fun d => (d.localExportname, some (diskPropertyDict d))).map Prod.fst).Nodup := by
    rw [List.map_map]
    exact walk_names_nodup walk r
  rw [hset, setAll_fresh hnodup fun _ _ => List.not_mem_nil, List.nil_append]
  induction walk.order r.disks with
  | nil => rfl
  | cons d disks ih =>
    cases hname : utf8 d.localExportname with
    | true => simp [stored, hname, entryMember, ih]
    | false => simp [stored, hname, ih]

theorem loadDatabaseJson_document (opened : CStr → Bool) (iter : Walk (CStr × Json))
    (walk : Walk DiskData) (r : Dict) (s : Loading) :
    loadDatabaseJson opened iter (document walk r) s =
      loadMembers opened (iter.order (imagesDict walk r)) s := by
  have hkeys : [lit "version", lit "images"].Nodup := by decide
  have hversion : objectGet (document walk r) (lit "version") = some (.integer 2) :=
    objectGet_setAll hkeys (by decide)
  have himages : objectGet (document walk r) (lit "images") =
      some (.object (imagesDict walk r)) :=
    objectGet_setAll hkeys (by decide)
  simp only [loadDatabaseJson, hversion, himages]
  rfl

theorem loadMembers_accepts (opened : CStr → Bool) (members : Members) (s : Loading) :
    (loadMembers opened members s).2 = none ↔
      ∀ m ∈ members, ∃ image, readImage m.1 m.2 = .ok image := by
  induction members generalizing s with
  | nil => simp [loadMembers]
  | cons m members ih =>
    obtain ⟨name, properties⟩ := m
    cases hread : readImage name properties with
    | error complaint => simp [loadMembers, hread]
    | ok image => simp [loadMembers, hread, ih]

/-- The saved document is accepted exactly when each entry in it can be read back. -/
theorem loadDatabaseJson_accepts (opened : CStr → Bool) (iter : Walk (CStr × Json))
    (walk : Walk DiskData) (r : Dict) (s : Loading) :
    (loadDatabaseJson opened iter (document walk r) s).2 = none ↔
      ∀ d ∈ r.disks, utf8 d.localExportname = true → Storable d := by
  rw [loadDatabaseJson_document, loadMembers_accepts, imagesDict_eq]
  constructor
  · intro h d hd hname
    have hmem : d ∈ (walk.order r.disks).filter fun d => utf8 d.localExportname :=
      List.mem_filter.mpr ⟨(walk.perm r.disks).mem_iff.mpr hd, hname⟩
    obtain ⟨image, himage⟩ := h (entryMember d)
      ((iter.perm _).mem_iff.mpr (List.mem_map_of_mem hmem))
    exact storable_of_readImage himage
  · intro h m hm
    obtain ⟨d, hd, rfl⟩ := List.mem_map.mp ((iter.perm _).mem_iff.mp hm)
    obtain ⟨hwalk, hname⟩ := List.mem_filter.mp hd
    exact ⟨imageOf d, readImage_storable (h d ((walk.perm r.disks).mem_iff.mp hwalk) hname)⟩

end Document

section Wanted

/-- The members of an entry if every string could be stored. A NULL pointer has none, but for
the export name. -/
def wantedAttributes (d : DiskData) : List (CStr × Option Json) :=
  let mode := if d.proxy.targetHost.isSome then lit "proxy" else lit "target"
  [(lit "mode", some (.string mode)), (lit "image_path", some (.string d.diskFileName))] ++
  if d.proxy.targetHost.isSome then
    [(lit "remote_host", d.proxy.targetHost.map .string),
      (lit "remote_port", d.proxy.targetPort.map .string),
      (lit "bitmap_path", d.proxy.bitmapImage.map .string),
      (lit "control_socket_path", d.proxy.controlSocketPath.map .string),
      (lit "remote_export_name", some ((d.proxy.targetExportname.map Json.string).getD .null))]
  else []

def wantedMember (d : DiskData) : CStr × Json :=
  (d.localExportname, .object (setAll [] (wantedAttributes d)))

/-- The serialization of the registry: every entry with all that it has. -/
def wantedDocument (walk : Walk DiskData) (r : Dict) : Json :=
  .object [(lit "version", .integer 2),
    (lit "images", .object ((walk.order r.disks).map wantedMember))]

/-- The strings that are written for an entry beside its name. -/
def written (d : DiskData) : List CStr :=
  [d.diskFileName] ++
  if d.proxy.targetHost.isSome then
    d.proxy.targetHost.toList ++ d.proxy.targetPort.toList ++ d.proxy.bitmapImage.toList ++
      d.proxy.controlSocketPath.toList ++ d.proxy.targetExportname.toList
  else []

/-- Nothing of the entry is refused by jansson. -/
def Written (d : DiskData) : Prop :=
  utf8 d.localExportname = true ∧ ∀ s ∈ written d, utf8 s = true

instance (d : DiskData) : Decidable (Written d) := inferInstanceAs (Decidable (_ ∧ _))

theorem document_eq (walk : Walk DiskData) (r : Dict) :
    document walk r =
      .object [(lit "version", .integer 2), (lit "images", .object (imagesDict walk r))] := by
  have hversion : utf8 (lit "version") = true := by decide
  have himages : utf8 (lit "images") = true := by decide
  have hkeys : lit "version" ≠ lit "images" := by decide
  simp [document, setAll, objectSetNew, hversion, himages, hkeys]

theorem jsonString_eq_map {o : Option CStr} :
    jsonString o = o.map .string ↔ ∀ s ∈ o.toList, utf8 s = true := by
  cases o with
  | none => simp [jsonString]
  | some s =>
    cases h : utf8 s with
    | true => simp [jsonString, Option.filter, h]
    | false => simp [jsonString, Option.filter, h]

/-- The export name is written as null when there is none. -/
theorem jsonString_eq_null {o : Option CStr} :
    (if o.isSome then jsonString o else some .null) = some ((o.map Json.string).getD .null) ↔
      ∀ s ∈ o.toList, utf8 s = true := by
  rw [← jsonString_eq_map]
  cases o with
  | none => simp [jsonString]
  | some s => simp

theorem attributes_eq_wanted {d : DiskData} :
    diskAttributes d = wantedAttributes d ↔ ∀ s ∈ written d, utf8 s = true := by
  have hfile : jsonString (some d.diskFileName) = some (.string d.diskFileName) ↔
      utf8 d.diskFileName = true := by
    simpa using jsonString_eq_map (o := some d.diskFileName)
  cases hhost : d.proxy.targetHost.isSome with
  | true =>
    have hmode : jsonString (some (lit "proxy")) = some (.string (lit "proxy")) :=
      jsonString_some (by decide)
    simp only [diskAttributes, wantedAttributes, written, hhost, if_true, hmode, List.cons_append,
      List.nil_append, List.cons.injEq, Prod.mk.injEq, true_and, and_true, hfile, jsonString_eq_map,
      jsonString_eq_null, List.forall_mem_cons, List.forall_mem_append, and_assoc]
  | false =>
    have hmode : jsonString (some (lit "target")) = some (.string (lit "target")) :=
      jsonString_some (by decide)
    simp [diskAttributes, wantedAttributes, written, hhost, hmode, hfile]

theorem wantedAttributes_keys (d : DiskData) :
    (wantedAttributes d).map Prod.fst = (diskAttributes d).map Prod.fst := by
  cases hhost : d.proxy.targetHost.isSome <;> simp [wantedAttributes, diskAttributes, hhost]

theorem diskAttributes_utf8 (d : DiskData) : ∀ a ∈ diskAttributes d, utf8 a.1 = true := by
  have hkeys : ∀ key ∈ (diskAttributes d).map Prod.fst, utf8 key = true := by
    cases hhost : d.proxy.targetHost.isSome with
    | true =>
      simp only [diskAttributes, hhost, if_true, List.cons_append, List.nil_append, List.map_cons,
        List.map_nil]
      decide
    | false =>
      simp only [diskAttributes, hhost, Bool.false_eq_true, if_false, List.append_nil, List.map_cons,
        List.map_nil]
      decide
  exact fun a ha => hkeys a.1 (List.mem_map_of_mem ha)

theorem entryMember_eq {d : DiskData} :
    entryMember d = wantedMember d ↔ ∀ s ∈ written d, utf8 s = true := by
  rw [← attributes_eq_wanted, entryMember, wantedMember, Prod.mk.injEq]
  constructor
  · intro h
    exact setAll_inj (wantedAttributes_keys d).symm (diskAttributes_nodup d) (diskAttributes_utf8 d)
      (Json.object.inj h.2)
  · intro h
    exact ⟨rfl, by rw [diskPropertyDict, h]⟩

theorem document_eq_wanted (walk : Walk DiskData) (r : Dict) :
    document walk r = wantedDocument walk r ↔ ∀ d ∈ r.disks, Written d := by
  have hdisks : (∀ d ∈ r.disks, Written d) ↔ ∀ d ∈ walk.order r.disks, Written d :=
    forall_congr' fun d => by rw [(walk.perm r.disks).mem_iff]
  have himages : document walk r = wantedDocument walk r ↔
      imagesDict walk r = (walk.order r.disks).map wantedMember := by
    rw [document_eq, wantedDocument]
    simp
  rw [himages, hdisks, imagesDict_eq]
  generalize walk.order r.disks = disks
  constructor
  · intro h
    have hlength := congrArg List.length h
    rw [List.length_map, List.length_map] at hlength
    have hnames := List.length_filter_eq_length_iff.mp hlength
    rw [List.filter_eq_self.mpr hnames] at h
    intro d hd
    exact ⟨hnames d hd, entryMember_eq.mp (List.map_inj_left.mp h d hd)⟩
  · intro h
    rw [List.filter_eq_self.mpr fun d hd => (h d hd).1]
    exact List.map_congr_left fun d hd => entryMember_eq.mpr (h d hd).2

end Wanted

section RoundTrip

/-- An entry without its index, which is given anew at every start. -/
def settings (d : DiskData) : DiskData := { d with index := 0 }

/-- The strings of an entry that are not NULL. -/
def strings (d : DiskData) : List CStr :=
  [d.localExportname, d.diskFileName] ++ d.proxy.targetHost.toList ++ d.proxy.targetPort.toList ++
    d.proxy.bitmapImage.toList ++ d.proxy.controlSocketPath.toList ++
    d.proxy.targetExportname.toList

/-- A target entry or a complete proxy entry, in UTF-8. -/
def Regular (d : DiskData) : Prop := (∀ s ∈ strings d, utf8 s = true) ∧ Wrapper.Whole d.proxy

instance (d : DiskData) : Decidable (Regular d) := inferInstanceAs (Decidable (_ ∧ _))

theorem createDiskData_imageOf {d : DiskData} (h : Regular d) :
    createDiskData (imageOf d) = settings d := by
  obtain ⟨name, file, index, ⟨host, port, bitmap, control, exportname⟩⟩ := d
  obtain ⟨hutf8, hwhole | hnone⟩ := h
  · obtain ⟨hhost, hport, hbitmap, hcontrol⟩ := hwhole
    obtain ⟨host, rfl⟩ := Option.isSome_iff_exists.mp hhost
    obtain ⟨port, rfl⟩ := Option.isSome_iff_exists.mp hport
    obtain ⟨bitmap, rfl⟩ := Option.isSome_iff_exists.mp hbitmap
    obtain ⟨control, rfl⟩ := Option.isSome_iff_exists.mp hcontrol
    have hname : exportname.filter utf8 = exportname := by
      cases exportname with
      | none => rfl
      | some s =>
        have hs : utf8 s = true := hutf8 s (by simp [strings])
        simp [Option.filter, hs]
    simp [createDiskData, imageOf, settings, hname]
  · cases hnone
    rfl

theorem Regular.storable {d : DiskData} (h : Regular d) : Storable d := by
  obtain ⟨hutf8, hwhole⟩ := h
  constructor
  · exact hutf8 d.diskFileName (by simp [strings])
  · intro hhost
    have hany : ∀ s : Option CStr, s.isSome = true → (∀ x ∈ s.toList, x ∈ strings d) →
        s.any utf8 = true := by
      intro s hs hmem
      obtain ⟨x, rfl⟩ := Option.isSome_iff_exists.mp hs
      exact hutf8 x (hmem x (by simp))
    cases hwhole with
    | inl hall =>
      obtain ⟨_, hport, hbitmap, hcontrol⟩ := hall
      exact ⟨hany _ hhost (by simp +contextual [strings]), hany _ hport (by simp +contextual [strings]),
        hany _ hbitmap (by simp +contextual [strings]),
        hany _ hcontrol (by simp +contextual [strings])⟩
    | inr hnone =>
      rw [hnone] at hhost
      cases hhost

theorem loadMembers_regular (opened : CStr → Bool) {disks : List DiskData}
    (h : ∀ d ∈ disks, Regular d) (s : Loading) :
    loadMembers opened (disks.map entryMember) s =
      ((disks.map imageOf).foldl (addImage opened) s, none) := by
  induction disks generalizing s with
  | nil => rfl
  | cons d disks ih =>
    have hread := readImage_storable (h d List.mem_cons_self).storable
    have hrest := ih (fun e he => h e (List.mem_cons_of_mem _ he))
    simp only [List.map_cons, entryMember, loadMembers, hread, List.foldl_cons]
    exact hrest _

/-- An image whose file opens and whose name is new is added. -/
theorem addImage_new {opened : CStr → Bool} {s : Loading} {image : Image}
    (hopened : opened (createDiskData image).diskFileName = true)
    (hnew : (createDiskData image).localExportname ∉
      s.exports.dict.disks.map DiskData.localExportname) :
    (addImage opened s image).exports.dict.disks = s.exports.dict.disks ++
      [{ createDiskData image with index := s.exports.imagesAddedEver }] ∧
    (addImage opened s image).countAdded = s.countAdded + 1 ∧
    (addImage opened s image).countSkipped = s.countSkipped := by
  have hlookup : ¬ (s.exports.dict.lookup (createDiskData image).localExportname).isSome = true :=
    fun h => hnew (Dict.lookup_isSome.mp h)
  simp only [addImage, addDiskimg, hopened, hlookup]
  exact ⟨rfl, rfl, rfl⟩

/-- Images with new, distinct names are all added. -/
theorem addImages_new {opened : CStr → Bool} {disks : List DiskData}
    (hregular : ∀ d ∈ disks, Regular d) (hopened : ∀ d ∈ disks, opened d.diskFileName = true)
    (hnodup : (disks.map DiskData.localExportname).Nodup) :
    ∀ s : Loading,
      (∀ d ∈ disks, d.localExportname ∉ s.exports.dict.disks.map DiskData.localExportname) →
      let t := (disks.map imageOf).foldl (addImage opened) s
      t.exports.dict.disks.map settings = (s.exports.dict.disks ++ disks).map settings ∧
      t.countAdded = s.countAdded + disks.length ∧ t.countSkipped = s.countSkipped := by
  induction disks with
  | nil =>
    intro s _
    simp
  | cons d disks ih =>
    intro s hnew
    obtain ⟨hd, hrest⟩ := List.nodup_cons.mp hnodup
    have hdata : createDiskData (imageOf d) = settings d :=
      createDiskData_imageOf (hregular d List.mem_cons_self)
    have hfile : opened (createDiskData (imageOf d)).diskFileName = true := by
      rw [hdata]
      exact hopened d List.mem_cons_self
    have hfresh : (createDiskData (imageOf d)).localExportname ∉
        s.exports.dict.disks.map DiskData.localExportname := by
      rw [hdata]
      exact hnew d List.mem_cons_self
    obtain ⟨hdisks, hadded, hskipped⟩ := addImage_new hfile hfresh
    have hlater : ∀ e ∈ disks, e.localExportname ∉
        (addImage opened s (imageOf d)).exports.dict.disks.map DiskData.localExportname := by
      intro e he hmem
      rw [hdisks, List.map_append, List.mem_append, hdata] at hmem
      cases hmem with
      | inl hmem => exact hnew e (List.mem_cons_of_mem _ he) hmem
      | inr hmem =>
        have hname : e.localExportname = d.localExportname := List.mem_singleton.mp hmem
        exact hd (hname ▸ List.mem_map_of_mem he)
    obtain ⟨hdisks', hadded', hskipped'⟩ :=
      ih (fun e he => hregular e (List.mem_cons_of_mem _ he))
        (fun e he => hopened e (List.mem_cons_of_mem _ he)) hrest
        (addImage opened s (imageOf d)) hlater
    simp only [List.map_cons, List.foldl_cons]
    constructor
    · rw [hdisks', hdisks, hdata]
      simp [settings]
    · rw [hadded', hskipped', hadded, hskipped, List.length_cons]
      exact ⟨by omega, rfl⟩

theorem lookup_settings (r : Dict) (name : CStr) :
    (r.lookup name).map settings =
      (r.disks.map settings).find? fun d => d.localExportname = name := by
  rw [List.find?_map]
  rfl

/-- A lookup does not depend on the order of the entries. -/
theorem lookup_settings_perm {r t : Dict}
    (h : (r.disks.map settings).Perm (t.disks.map settings)) (name : CStr) :
    (r.lookup name).map settings = (t.lookup name).map settings := by
  rw [lookup_settings, lookup_settings]
  apply List.find?_eq_find?_of_perm h
  have hnodup : ((r.disks.map settings).map DiskData.localExportname).Nodup := by
    rw [List.map_map]
    exact r.unique
  rintro d ⟨hd, hdname⟩ e ⟨he, hename⟩
  exact List.inj_on_of_nodup_map hnodup hd he
    ((of_decide_eq_true hdname).trans (of_decide_eq_true hename).symm)

/-- Nothing is loaded yet. -/
def Loading.empty : Loading := ⟨⟨.empty, 0⟩, 0, 0⟩

theorem database_round_trip (opened : CStr → Bool) (iter : Walk (CStr × Json))
    (walk : Walk DiskData) (r : Dict) (hregular : ∀ d ∈ r.disks, Regular d)
    (hopened : ∀ d ∈ r.disks, opened d.diskFileName = true) :
    ∃ s, loadDatabaseJson opened iter (document walk r) .empty = (s, none) ∧
      (∀ name, (s.exports.dict.lookup name).map settings = (r.lookup name).map settings) ∧
      s.countAdded = r.disks.length ∧ s.countSkipped = 0 := by
  have hall : (walk.order r.disks).filter (fun d => utf8 d.localExportname) =
      walk.order r.disks := by
    rw [List.filter_eq_self]
    intro d hd
    exact (hregular d ((walk.perm _).mem_iff.mp hd)).1 _ (by simp [strings])
  -- the two walks together give the entries in some order
  have hperm := iter.perm (imagesDict walk r)
  rw [imagesDict_eq, hall] at hperm
  obtain ⟨disks, hdisks, hwalk⟩ :
      ∃ disks : List DiskData,
        iter.order ((walk.order r.disks).map entryMember) = disks.map entryMember ∧
        disks.Perm (walk.order r.disks) :=
    (congrFun₂ (List.eq_map_comp_perm entryMember) _ _).mpr hperm
  have hr : disks.Perm r.disks := hwalk.trans (walk.perm r.disks)
  have hload := loadMembers_regular opened (fun d hd => hregular d (hr.mem_iff.mp hd)) .empty
  obtain ⟨hsettings, hadded, hskipped⟩ :=
    addImages_new (fun d hd => hregular d (hr.mem_iff.mp hd))
      (fun d hd => hopened d (hr.mem_iff.mp hd)) ((hr.map _).nodup_iff.mpr r.unique)
      .empty (fun _ _ => List.not_mem_nil)
  have hresult := loadDatabaseJson_document opened iter walk r .empty
  rw [imagesDict_eq, hall, hdisks, hload] at hresult
  constructor
  · constructor
    · exact hresult
    · constructor
      · apply lookup_settings_perm
        rw [hsettings]
        exact hr.map settings
      · rw [hadded, hskipped, hr.length_eq]
        exact ⟨Nat.zero_add _, rfl⟩

/-- A plain disk, a proxied one, and one with the name that its server gives it. -/
def exampleImages : List Image :=
  [.target (lit "disk") (lit "/srv/disk"),
    .proxy (lit "cache") (lit "host") (lit "8520") (lit "/srv/cache") (lit "/srv/bitmap")
      (lit "/run/cache") none,
    .proxy (lit "copy") (lit "host") (lit "8521") (lit "/srv/copy") (lit "/srv/bits")
      (lit "/run/copy") (some (lit "volume"))]

theorem database_round_trip_examples :
    ∃ s, loadDatabaseJson (fun _ => true) (.straight _)
        (document (.straight _) (loadImages exampleImages).dict) .empty = (s, none) ∧
      (∀ name, (s.exports.dict.lookup name).map settings =
        ((loadImages exampleImages).dict.lookup name).map settings) ∧
      s.countAdded = (loadImages exampleImages).dict.disks.length ∧ s.countSkipped = 0 :=
  database_round_trip _ _ _ _ (by decide) (by decide)

end RoundTrip

end Xnbd.Database
