import Xnbd.Registry
import Xnbd.Run

/-!
# The control connections of the wrapper (`start_filemgr_thread`)

Each control connection has a thread that carries out one command after the
other. The threads share the registry, and a step is one critical section of the
mutex. `bgctl-switch` and `bgctl-reconnect` look the export up, release the mutex
while `xnbd-bgctl` runs, and then change whatever entry has the name.
-/
namespace Xnbd.Wrapper

open Registry Run

/-- What a `bgctl` command does to the entry once `xnbd-bgctl` has succeeded. -/
inductive Update where
  /-- `bgctl-query` and `bgctl-cache-all`. -/
  | keep
  | switch
  | reconnect (host port : CStr) (targetExportname : Option CStr)
  deriving DecidableEq

inductive Deletion where
  | byIndex (num : Int)
  | byFile (filename : CStr)
  | byExportname (name : CStr)
  deriving DecidableEq

/-- A command line with its arguments decoded. The commands that do not touch the
registry are left out. -/
inductive Command where
  | add (image : Image)
  | del (which : Deletion)
  | bgctl (name : CStr) (update : Update)
  | save
  deriving DecidableEq

/-- Where the thread of a control connection is. -/
inductive Thread where
  | idle
  | addDiskimg (image : Image)
  | delDiskimg (which : Deletion)
  | lookup (name : CStr) (update : Update)
  /-- `xnbd-bgctl` runs. -/
  | child (name : CStr) (update : Update)
  | update (name : CStr) (update : Update)
  | autoSave
  deriving DecidableEq

structure State where
  exports : Exports
  threads : List Thread

inductive Act where
  | connect
  | command (thread : Nat) (c : Command)
  /-- The thread goes on; `ok` is what the system answers it: that the image file
  opens, that the control socket is there, that `xnbd-bgctl` exits with 0. -/
  | go (thread : Nat) (ok : Bool)
  deriving DecidableEq

def begin : Command → Thread
  | .add image => .addDiskimg image
  | .del which => .delDiskimg which
  | .bgctl name update => .lookup name update
  | .save => .autoSave

def delete (r : Exports) : Deletion → Exports × Bool
  | .byIndex num => delDiskimgByIndex r num
  | .byFile filename => delDiskimgByFile r filename
  | .byExportname name => delDiskimgByExportname r name

def applyUpdate (r : Exports) (name : CStr) : Update → Exports
  | .keep => r
  | .switch => markProxyModeEnded r name
  | .reconnect host port targetExportname => updateProxySettings r name host port targetExportname

/-- A step of one thread: the registry after it, and where the thread goes. -/
def advance (r : Exports) (ok : Bool) : Thread → Option (Exports × Thread)
  | .idle => none
  | .addDiskimg image =>
    let (r', res) := addDiskimg r (createDiskData image) ok
    some (r', if res = imageAdded then .autoSave else .idle)
  | .delDiskimg which =>
    let (r', removed) := delete r which
    some (r', if removed then .autoSave else .idle)
  | .lookup name update =>
    match getDiskDataFor r name with
    | none => some (r, .idle)
    | some d =>
      -- only an export in proxy mode that is being served has a process to talk to
      some (r, if d.proxy.targetHost.isSome && ok then .child name update else .idle)
  | .child name update =>
    some (r, if ok = false then .idle else if update = .keep then .idle else .update name update)
  | .update name update => some (applyUpdate r name update, .autoSave)
  | .autoSave => some (r, .idle)

def step (s : State) : Act → Option State
  | .connect => some { s with threads := s.threads ++ [.idle] }
  | .command k c =>
    if s.threads[k]? = some .idle then some { s with threads := s.threads.set k (begin c) } else none
  | .go k ok =>
    (s.threads[k]?).bind fun thread =>
      (advance s.exports ok thread).map fun m => ⟨m.1, s.threads.set k m.2⟩

/-- The wrapper after start-up, without control connections. -/
def start (images : List Image) : State := ⟨loadImages images, []⟩

section Whole

/-- Either everything that a proxy needs is set, or nothing at all. -/
def Whole (p : Registry.Proxy) : Prop :=
  (p.targetHost.isSome = true ∧ p.targetPort.isSome = true ∧ p.bitmapImage.isSome = true ∧
    p.controlSocketPath.isSome = true) ∨ p = notProxied

instance (p : Registry.Proxy) : Decidable (Whole p) := inferInstanceAs (Decidable (_ ∨ _))

def AllWhole (r : Exports) : Prop := ∀ d ∈ r.dict.disks, Whole d.proxy

instance (r : Exports) : Decidable (AllWhole r) :=
  inferInstanceAs (Decidable (∀ d ∈ r.dict.disks, Whole d.proxy))

/-- The name that the thread is about to pass to `update_proxy_settings`. -/
def reconnecting : Thread → Option CStr
  | .update name (.reconnect _ _ _) => some name
  | _ => none

/-- When `update_proxy_settings` finds an entry, that entry is in proxy mode. -/
def StillProxied (s : State) : Act → Prop
  | .go k _ =>
    ∀ name ∈ (s.threads[k]?).bind reconnecting, ∀ d ∈ s.exports.dict.disks,
      d.localExportname = name → d.proxy.targetHost.isSome = true
  | _ => True

instance (s : State) (a : Act) : Decidable (StillProxied s a) :=
  match a with
  | .go k _ =>
    inferInstanceAs (Decidable (∀ name ∈ (s.threads[k]?).bind reconnecting,
      ∀ d ∈ s.exports.dict.disks, d.localExportname = name → d.proxy.targetHost.isSome = true))
  | .connect | .command _ _ => isTrue trivial

theorem reconnecting_eq {thread : Thread} {name : CStr} (h : reconnecting thread = some name) :
    ∃ host port targetExportname,
      thread = .update name (.reconnect host port targetExportname) := by
  simp only [reconnecting] at h
  split at h
  · cases h
    exact ⟨_, _, _, rfl⟩
  · cases h

theorem createDiskData_whole (image : Image) : Whole (createDiskData image).proxy := by
  cases image with
  | target exportname file => exact .inr rfl
  | proxy localExportname targetHost targetPort cacheImage bitmapImage controlSocketPath name =>
    exact .inl ⟨rfl, rfl, rfl, rfl⟩

theorem loadImages_whole (images : List Image) : AllWhole (loadImages images) :=
  loadImages_all (P := fun d => Whole d.proxy) fun image _ _ => createDiskData_whole image

theorem delete_whole {r : Exports} (h : AllWhole r) (which : Deletion) :
    AllWhole (delete r which).1 := by
  cases which with
  | byIndex num => exact delDiskimgByIndex_all h num
  | byFile filename => exact delDiskimg_all h _
  | byExportname name => exact delDiskimg_all h _

theorem markProxyModeEnded_whole {r : Exports} (h : AllWhole r) (name : CStr) :
    AllWhole (markProxyModeEnded r name) :=
  updateProxy_all h fun _ _ _ => .inr rfl

/-- Host and port can be replaced in an entry that has them. -/
theorem updateProxySettings_whole {r : Exports} (h : AllWhole r) {name : CStr}
    (hproxied : ∀ d ∈ r.dict.disks, d.localExportname = name → d.proxy.targetHost.isSome = true)
    (host port : CStr) (targetExportname : Option CStr) :
    AllWhole (updateProxySettings r name host port targetExportname) := by
  refine updateProxy_all h fun d hd hname => ?_
  cases h d hd with
  | inl hall => exact .inl ⟨rfl, rfl, hall.2.2.1, hall.2.2.2⟩
  | inr hnone =>
    have hsome := hproxied d hd hname
    rw [hnone] at hsome
    cases hsome

/-- An entry in target mode becomes half proxied. -/
theorem updateProxySettings_half {r : Exports} (h : AllWhole r) {d : DiskData}
    (hd : d ∈ r.dict.disks) (hhost : ¬d.proxy.targetHost.isSome = true) (host port : CStr)
    (targetExportname : Option CStr) :
    ¬ AllWhole (updateProxySettings r d.localExportname host port targetExportname) := by
  intro hall
  have hnone : d.proxy = notProxied := (h d hd).resolve_left fun hp => hhost hp.1
  have hmem := hall _ (List.mem_map_of_mem hd)
  simp [Dict.setProxy, hnone, notProxied, Whole] at hmem

end Whole

section Steps

variable {s t : State}

/-- Only the two commands on images and an update of a proxy write the registry. -/
theorem advance_exports {r r' : Exports} {ok : Bool} {thread next : Thread}
    (h : advance r ok thread = some (r', next)) :
    (r' = r ∧ ∀ image, thread ≠ .addDiskimg image) ∨
    (∃ image, thread = .addDiskimg image ∧ r' = (addDiskimg r (createDiskData image) ok).1) ∨
    (∃ which, thread = .delDiskimg which ∧ r' = (delete r which).1) ∨
    ∃ name update, thread = .update name update ∧ r' = applyUpdate r name update := by
  cases thread with
  | idle => cases h
  | addDiskimg image =>
    cases h
    exact .inr (.inl ⟨image, rfl, rfl⟩)
  | delDiskimg which =>
    cases h
    exact .inr (.inr (.inl ⟨which, rfl, rfl⟩))
  | lookup name update =>
    simp only [advance] at h
    split at h
    · cases h
      exact .inl ⟨rfl, fun _ => nofun⟩
    · cases h
      exact .inl ⟨rfl, fun _ => nofun⟩
  | child name update =>
    cases h
    exact .inl ⟨rfl, fun _ => nofun⟩
  | update name update =>
    cases h
    exact .inr (.inr (.inr ⟨name, update, rfl, rfl⟩))
  | autoSave =>
    cases h
    exact .inl ⟨rfl, fun _ => nofun⟩

/-- The registry changes only where a thread goes on. -/
theorem step_exports {a : Act} (hs : step s a = some t) :
    (t.exports = s.exports ∧ ∀ k ok, a ≠ .go k ok) ∨
    ∃ k ok thread next, a = .go k ok ∧ s.threads[k]? = some thread ∧
      advance s.exports ok thread = some (t.exports, next) := by
  cases a with
  | connect =>
    cases hs
    exact .inl ⟨rfl, fun _ _ => nofun⟩
  | command k c =>
    simp only [step] at hs
    split at hs
    · cases hs
      exact .inl ⟨rfl, fun _ _ => nofun⟩
    · cases hs
  | go k ok =>
    simp only [step, Option.bind_eq_some_iff, Option.map_eq_some_iff] at hs
    obtain ⟨thread, hat, m, hm, rfl⟩ := hs
    exact .inr ⟨k, ok, thread, m.2, rfl, hat, hm⟩

theorem advance_whole {k : Nat} {ok : Bool} {thread next : Thread} {r : Exports}
    (h : AllWhole s.exports) (hat : s.threads[k]? = some thread)
    (hstill : StillProxied s (.go k ok)) (ha : advance s.exports ok thread = some (r, next)) :
    AllWhole r := by
  obtain ⟨hsame, -⟩ | ⟨image, -, hadd⟩ | ⟨which, -, hdel⟩ | ⟨name, update, hthread, hupdate⟩ :=
    advance_exports ha
  · rw [hsame]
    exact h
  · rw [hadd]
    exact addDiskimg_all (P := fun d => Whole d.proxy) h ok fun _ => createDiskData_whole image
  · rw [hdel]
    exact delete_whole h which
  · rw [hupdate]
    cases update with
    | keep => exact h
    | switch => exact markProxyModeEnded_whole h name
    | reconnect host port targetExportname =>
      have hproxied := hstill name (by rw [hat, hthread]; rfl)
      exact updateProxySettings_whole h hproxied host port targetExportname

theorem step_whole {a : Act} (h : AllWhole s.exports) (hstill : StillProxied s a)
    (hs : step s a = some t) : AllWhole t.exports := by
  obtain ⟨hsame, -⟩ | ⟨k, ok, thread, next, rfl, hat, ha⟩ := step_exports hs
  · rw [hsame]
    exact h
  · exact advance_whole h hat hstill ha

/-- A reconnect that finds an entry in target mode leaves it half proxied. -/
theorem step_half {a : Act} (h : AllWhole s.exports) (hnot : ¬ StillProxied s a)
    (hs : step s a = some t) : ¬ AllWhole t.exports := by
  cases a with
  | connect => exact absurd trivial hnot
  | command k c => exact absurd trivial hnot
  | go k ok =>
    simp only [StillProxied, not_forall, exists_prop, Option.mem_def,
      Option.bind_eq_some_iff] at hnot
    obtain ⟨name, ⟨thread, hat, hname⟩, d, hd, hkey, hhost⟩ := hnot
    obtain ⟨host, port, targetExportname, rfl⟩ := reconnecting_eq hname
    subst hkey
    simp only [step, hat, Option.bind_some, advance, applyUpdate, Option.map_some,
      Option.some.injEq] at hs
    subst hs
    exact updateProxySettings_half h hd hhost host port targetExportname

end Steps

theorem registry_whole (images : List Image) :
    (∀ acts s, run step (start images) acts = some s →
      Along step StillProxied (start images) acts → AllWhole s.exports) ∧
    ∀ s a t, AllWhole s.exports → ¬ StillProxied s a → step s a = some t → ¬ AllWhole t.exports := by
  constructor
  · intro acts s h hstill
    exact run_invariant (I := fun s => AllWhole s.exports)
      (fun _ _ _ hi hp hs => step_whole hi hp hs) (loadImages_whole images) hstill h
  · intro s a t h hnot hs
    exact step_half h hnot hs

/-- One export in proxy mode, named `d`. -/
def proxied : List Image := [.proxy [100] [104] [49] [99] [98] [115] none]

def reconnectD : Command := .bgctl [100] (.reconnect [105] [50] none)

/-- While `xnbd-bgctl --reconnect` runs for one connection, another one adds an image. -/
def addBetween : List Act :=
  [.connect, .connect, .command 0 reconnectD, .go 0 true, .command 1 (.add (.target [116] [116])),
    .go 1 true, .go 0 true, .go 1 true, .go 0 true, .go 0 true]

theorem registry_whole_reconnect :
    (run step (start proxied) addBetween).isSome = true ∧
    ∀ s, run step (start proxied) addBetween = some s → AllWhole s.exports :=
  ⟨by decide, fun s h => (registry_whole proxied).1 _ s h (by decide)⟩

/-- While `xnbd-bgctl --reconnect` runs for one connection, another one switches the
export to target mode. -/
def switchBetween : List Act :=
  [.connect, .connect, .command 0 reconnectD, .go 0 true, .command 1 (.bgctl [100] .switch),
    .go 1 true, .go 1 true, .go 1 true, .go 1 true, .go 0 true, .go 0 true]

theorem reconnect_after_switch :
    ∃ s, run step (start proxied) switchBetween = some s ∧ ¬ AllWhole s.exports :=
  ⟨_, rfl, by decide⟩

end Xnbd.Wrapper
