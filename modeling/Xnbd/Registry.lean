import Mathlib.Algebra.Ring.Nat
import Mathlib.Data.List.Nodup

/-!
# The registry of the wrapper (`p_disk_dict` in `xnbd_wrapper.c`)

The exports of the wrapper, by name. A hash table has at most one entry for a
key, and every key is the `local_exportname` of its entry. Each function here is
one critical section of the mutex.
-/
namespace Xnbd.Registry

/-- A C string, without its NUL. -/
abbrev CStr := List UInt8

/-- The `proxy` part of `t_disk_data`; `none` is a NULL pointer. -/
structure Proxy where
  targetHost : Option CStr
  targetPort : Option CStr
  bitmapImage : Option CStr
  controlSocketPath : Option CStr
  targetExportname : Option CStr
  deriving DecidableEq

/-- `NOT_PROXIED` in every member. -/
def notProxied : Proxy := ⟨none, none, none, none, none⟩

structure DiskData where
  localExportname : CStr
  diskFileName : CStr
  index : Nat
  proxy : Proxy
  deriving DecidableEq

/-- What an image is described with, on the command line, in the database file and
in the commands `add-target` and `add-proxy`. -/
inductive Image where
  | target (exportname file : CStr)
  | proxy (localExportname targetHost targetPort cacheImage bitmapImage controlSocketPath : CStr)
      (targetExportname : Option CStr)
  deriving DecidableEq

/-- `create_disk_data`; the index is set later. -/
def createDiskData : Image → DiskData
  | .target exportname file => ⟨exportname, file, 0, notProxied⟩
  | .proxy localExportname targetHost targetPort cacheImage bitmapImage controlSocketPath
      targetExportname =>
    ⟨localExportname, cacheImage, 0,
      ⟨some targetHost, some targetPort, some bitmapImage, some controlSocketPath, targetExportname⟩⟩

/-- `p_disk_dict`. -/
structure Dict where
  disks : List DiskData
  unique : (disks.map DiskData.localExportname).Nodup

namespace Dict

def empty : Dict := ⟨[], List.nodup_nil⟩

/-- `g_hash_table_lookup`. -/
def lookup (r : Dict) (name : CStr) : Option DiskData :=
  r.disks.find? fun d => d.localExportname = name

theorem lookup_isSome {r : Dict} {name : CStr} :
    (r.lookup name).isSome = true ↔ name ∈ r.disks.map DiskData.localExportname := by
  simp [lookup]

/-- `g_hash_table_insert` of a key that is not there. -/
def insert (r : Dict) (d : DiskData) (h : ¬(r.lookup d.localExportname).isSome = true) : Dict where
  disks := r.disks ++ [d]
  unique := by
    rw [List.map_append, List.map_singleton, List.nodup_append_comm]
    exact List.nodup_cons.mpr ⟨fun hm => h (lookup_isSome.mpr hm), r.unique⟩

/-- `g_hash_table_foreach_remove`. -/
def foreachRemove (r : Dict) (p : DiskData → Bool) : Dict where
  disks := r.disks.filter fun d => !p d
  unique := r.unique.sublist (List.filter_sublist.map _)

/-- The `proxy` part of the entry with the name, if there is one, is written anew. -/
def setProxy (name : CStr) (f : Proxy → Proxy) (d : DiskData) : DiskData :=
  if d.localExportname = name then { d with proxy := f d.proxy } else d

theorem setProxy_name (name : CStr) (f : Proxy → Proxy) (d : DiskData) :
    (setProxy name f d).localExportname = d.localExportname := by
  simp only [setProxy]
  split <;> rfl

def updateProxy (r : Dict) (name : CStr) (f : Proxy → Proxy) : Dict where
  disks := r.disks.map (setProxy name f)
  unique := by
    rw [List.map_map]
    have hnames : r.disks.map (DiskData.localExportname ∘ setProxy name f) =
        r.disks.map DiskData.localExportname :=
      List.map_congr_left fun d _ => setProxy_name name f d
    rw [hnames]
    exact r.unique

end Dict

/-- The registry with the counter of additions, a `guint`. -/
structure Exports where
  dict : Dict
  imagesAddedEver : Nat

def imageAdded : Int := 0
def imageAccessError : Int := -1
def notAddingTwice : Int := -4

/-- `add_diskimg`; `opened` says that the image file could be opened. -/
def addDiskimg (r : Exports) (d : DiskData) (opened : Bool) : Exports × Int :=
  if opened = false then (r, imageAccessError)
  else if h : (r.dict.lookup d.localExportname).isSome = true then (r, notAddingTwice)
  else
    (⟨r.dict.insert { d with index := r.imagesAddedEver } h, (r.imagesAddedEver + 1) % 2 ^ 32⟩,
      imageAdded)

def findByIndex (index : Nat) (d : DiskData) : Bool := d.index = index

def findByFile (filename : CStr) (d : DiskData) : Bool := d.diskFileName = filename

def findByExportname (name : CStr) (d : DiskData) : Bool := d.localExportname = name

/-- The common part of the deletions, with whether an entry was removed. -/
def delDiskimg (r : Exports) (p : DiskData → Bool) : Exports × Bool :=
  ({ r with dict := r.dict.foreachRemove p }, r.dict.disks.any p)

/-- Image numbers count from 1. -/
def delDiskimgByIndex (r : Exports) (num : Int) : Exports × Bool :=
  if 0 ≤ num - 1 then delDiskimg r (findByIndex (num - 1).toNat) else (r, false)

def delDiskimgByFile (r : Exports) (filename : CStr) : Exports × Bool :=
  delDiskimg r (findByFile filename)

def delDiskimgByExportname (r : Exports) (name : CStr) : Exports × Bool :=
  delDiskimg r (findByExportname name)

/-- `get_disk_data_for`. The deep copy is the value itself. -/
def getDiskDataFor (r : Exports) (name : CStr) : Option DiskData := r.dict.lookup name

def markProxyModeEnded (r : Exports) (name : CStr) : Exports :=
  { r with dict := r.dict.updateProxy name fun _ => notProxied }

/-- The bitmap and the control socket are left as they are. -/
def updateProxySettings (r : Exports) (name host port : CStr) (targetExportname : Option CStr) :
    Exports :=
  { r with
    dict := r.dict.updateProxy name fun p =>
      { p with targetHost := some host, targetPort := some port, targetExportname } }

/-- The registry at start-up: the images of the command line and of the database
file that could be opened, in order. -/
def loadImages (images : List Image) : Exports :=
  images.foldl (fun r image => (addDiskimg r (createDiskData image) true).1) ⟨.empty, 0⟩

section Entries

variable {P : DiskData → Prop}

/-- What holds of every entry and of the new one still holds after an addition. -/
theorem addDiskimg_all {r : Exports} (h : ∀ d ∈ r.dict.disks, P d) {d : DiskData} (opened : Bool)
    (hd : ∀ index, P { d with index }) : ∀ e ∈ (addDiskimg r d opened).1.dict.disks, P e := by
  intro e he
  simp only [addDiskimg] at he
  split at he
  · exact h e he
  · split at he
    · exact h e he
    · cases List.mem_append.mp he with
      | inl he => exact h e he
      | inr he =>
        cases List.mem_singleton.mp he
        exact hd _

theorem delDiskimg_all {r : Exports} (h : ∀ d ∈ r.dict.disks, P d) (p : DiskData → Bool) :
    ∀ e ∈ (delDiskimg r p).1.dict.disks, P e :=
  fun e he => h e (List.mem_of_mem_filter he)

theorem delDiskimgByIndex_all {r : Exports} (h : ∀ d ∈ r.dict.disks, P d) (num : Int) :
    ∀ e ∈ (delDiskimgByIndex r num).1.dict.disks, P e := by
  simp only [delDiskimgByIndex]
  split
  · exact delDiskimg_all h _
  · exact h

theorem updateProxy_all {r : Dict} (h : ∀ d ∈ r.disks, P d) {name : CStr} {f : Proxy → Proxy}
    (hf : ∀ d ∈ r.disks, d.localExportname = name → P { d with proxy := f d.proxy }) :
    ∀ e ∈ (r.updateProxy name f).disks, P e := by
  intro e he
  obtain ⟨d, hd, rfl⟩ := List.mem_map.mp he
  simp only [Dict.setProxy]
  split
  · rename_i hname
    exact hf d hd hname
  · exact h d hd

theorem loadImages_all {images : List Image}
    (h : ∀ image ∈ images, ∀ index, P { createDiskData image with index }) :
    ∀ d ∈ (loadImages images).dict.disks, P d := by
  have hfold : ∀ (images : List Image) (r : Exports), (∀ d ∈ r.dict.disks, P d) →
      (∀ image ∈ images, ∀ index, P { createDiskData image with index }) →
      ∀ d ∈ (images.foldl (fun r image => (addDiskimg r (createDiskData image) true).1)
        r).dict.disks, P d := by
    intro images
    induction images with
    | nil =>
      intro r hr _
      exact hr
    | cons image images ih =>
      intro r hr hall
      exact ih _ (addDiskimg_all hr true (hall image List.mem_cons_self))
        fun i hi => hall i (List.mem_cons_of_mem _ hi)
  exact hfold images _ (fun d hd => nomatch hd) h

end Entries

end Xnbd.Registry
