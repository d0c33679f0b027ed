import Mathlib.Data.List.Nodup
import Mathlib.Data.List.Perm.Basic

/-!
# JSON values as jansson builds them

An object is the list of its members. A string that is not UTF-8 has no value, and
a member with no value or with a key that is not UTF-8 is refused.
-/
namespace Xnbd.Jansson

def utf8 (s : List UInt8) : Bool := (ByteArray.mk s.toArray).validateUTF8

/-- `json_t`. The value of a real is never read. -/
inductive Json where
  | null
  | boolean (b : Bool)
  | integer (n : Int)
  | real
  | string (s : List UInt8)
  | array (elements : List Json)
  | object (members : List (List UInt8 × Json))

abbrev Members := List (List UInt8 × Json)

/-- `json_string`; the argument may be NULL. -/
def jsonString (s : Option (List UInt8)) : Option Json := (s.filter utf8).map .string

theorem jsonString_eq_none {s : Option (List UInt8)} : jsonString s = none ↔ ¬ s.any utf8 = true := by
  cases s with
  | none => simp [jsonString]
  | some s => simp [jsonString, Option.filter]

theorem jsonString_some {s : List UInt8} (h : utf8 s = true) : jsonString (some s) = some (.string s) := by
  simp [jsonString, Option.filter, h]

/-- `json_is_object`. -/
def isObject : Json → Bool
  | .object _ => true
  | _ => false

/-- `json_integer_value`, 0 for anything but an integer. -/
def integerValue : Json → Int
  | .integer n => n
  | _ => 0

/-- `json_object_get`, NULL for anything but an object. -/
def objectGet : Json → List UInt8 → Option Json
  | .object members, key => members.lookup key
  | _, _ => none

/-- `json_object_set_new`; its result is not looked at anywhere. -/
def objectSetNew (o : Members) (key : List UInt8) : Option Json → Members
  | none => o
  | some value => if utf8 key then o.filter (fun m => m.1 ≠ key) ++ [(key, value)] else o

/-- One member after the other. -/
def setAll (o : Members) (attributes : List (List UInt8 × Option Json)) : Members :=
  attributes.foldl (fun o a => objectSetNew o a.1 a.2) o

/-- What of an attribute gets into the object. -/
def stored (a : List UInt8 × Option Json) : Option (List UInt8 × Json) :=
  if utf8 a.1 then a.2.map fun value => (a.1, value) else none

theorem stored_key {a : List UInt8 × Option Json} {m : List UInt8 × Json} (h : stored a = some m) :
    m.1 = a.1 := by
  simp only [stored] at h
  split at h
  · obtain ⟨value, _, rfl⟩ := Option.map_eq_some_iff.mp h
    rfl
  · cases h

theorem objectSetNew_fresh {o : Members} {a : List UInt8 × Option Json}
    (h : a.1 ∉ o.map Prod.fst) : objectSetNew o a.1 a.2 = o ++ (stored a).toList := by
  obtain ⟨key, value⟩ := a
  cases value with
  | none => simp [objectSetNew, stored]
  | some value =>
    have hkeep : o.filter (fun m => m.1 ≠ key) = o := by
      rw [List.filter_eq_self]
      intro m hm
      exact decide_eq_true fun hkey => h (hkey ▸ List.mem_map_of_mem hm)
    simp only [objectSetNew, stored, hkeep]
    split
    · rfl
    · simp

/-- Distinct keys do not replace each other. -/
theorem setAll_fresh {attributes : List (List UInt8 × Option Json)} :
    ∀ {o : Members}, (attributes.map Prod.fst).Nodup →
      (∀ a ∈ attributes, a.1 ∉ o.map Prod.fst) →
      setAll o attributes = o ++ attributes.filterMap stored := by
  induction attributes with
  | nil =>
    intro o _ _
    simp [setAll]
  | cons a attributes ih =>
    intro o hnodup hfresh
    obtain ⟨ha, hrest⟩ := List.nodup_cons.mp hnodup
    have hkeys : ∀ b ∈ attributes, b.1 ∉ (o ++ (stored a).toList).map Prod.fst := by
      intro b hb hmem
      obtain ⟨m, hm, hkey⟩ := List.mem_map.mp hmem
      cases List.mem_append.mp hm with
      | inl hm => exact hfresh b (List.mem_cons_of_mem _ hb) (hkey ▸ List.mem_map_of_mem hm)
      | inr hm =>
        have hma := stored_key (Option.mem_toList.mp hm)
        exact ha (hma ▸ hkey ▸ List.mem_map_of_mem hb)
    have hstep : setAll o (a :: attributes) = setAll (o ++ (stored a).toList) attributes := by
      rw [← objectSetNew_fresh (hfresh a List.mem_cons_self)]
      rfl
    rw [hstep, ih hrest hkeys, List.append_assoc]
    cases hs : stored a with
    | none => simp [hs]
    | some m => simp [hs]

theorem lookup_filterMap_stored {attributes : List (List UInt8 × Option Json)} {key : List UInt8}
    (hnodup : (attributes.map Prod.fst).Nodup) (hkey : utf8 key = true) :
    (attributes.filterMap stored).lookup key = (attributes.lookup key).join := by
  induction attributes with
  | nil => rfl
  | cons a attributes ih =>
    obtain ⟨k, value⟩ := a
    obtain ⟨ha, hrest⟩ := List.nodup_cons.mp hnodup
    have hih := ih hrest
    by_cases hk : key = k
    · subst hk
      have hnone : attributes.lookup key = none := by
        rw [List.lookup_eq_none_iff]
        intro p hp
        have hne : key ≠ p.1 := fun he => ha (List.mem_map.mpr ⟨p, hp, he.symm⟩)
        exact bne_iff_ne.mpr hne
      cases value with
      | none =>
        rw [hnone] at hih
        simpa [stored, hkey] using hih
      | some value => simp [stored, hkey]
    · cases hs : stored (k, value) with
      | none => simpa [hs, List.lookup_cons, beq_false_of_ne hk] using hih
      | some m =>
        have hm : ¬ key = m.1 := by
          rw [stored_key hs]
          exact hk
        obtain ⟨mk, mv⟩ := m
        simpa [hs, List.lookup_cons, beq_false_of_ne hk, beq_false_of_ne hm] using hih

/-- A member reads back what it was set to. -/
theorem objectGet_setAll {attributes : List (List UInt8 × Option Json)} {key : List UInt8}
    (hnodup : (attributes.map Prod.fst).Nodup) (hkey : utf8 key = true) :
    objectGet (.object (setAll [] attributes)) key = (attributes.lookup key).join := by
  rw [setAll_fresh hnodup fun _ _ => List.not_mem_nil]
  exact lookup_filterMap_stored hnodup hkey

theorem not_mem_stored {attributes : List (List UInt8 × Option Json)} {m : List UInt8 × Json}
    (h : m.1 ∉ attributes.map Prod.fst) : m ∉ attributes.filterMap stored := by
  intro hm
  obtain ⟨a, ha, hstored⟩ := List.mem_filterMap.mp hm
  exact h (stored_key hstored ▸ List.mem_map_of_mem ha)

theorem filterMap_stored_inj {as bs : List (List UInt8 × Option Json)}
    (hkeys : as.map Prod.fst = bs.map Prod.fst) (hnodup : (as.map Prod.fst).Nodup)
    (hutf8 : ∀ a ∈ as, utf8 a.1 = true) (h : as.filterMap stored = bs.filterMap stored) : as = bs := by
  induction as generalizing bs with
  | nil =>
    cases bs with
    | nil => rfl
    | cons b bs => cases hkeys
  | cons a as ih =>
    cases bs with
    | nil => cases hkeys
    | cons b bs =>
      obtain ⟨key, value⟩ := a
      obtain ⟨key', value'⟩ := b
      obtain ⟨rfl, hothers⟩ := List.cons.inj hkeys
      have hkey : utf8 key = true := hutf8 _ List.mem_cons_self
      obtain ⟨ha, hrest⟩ := List.nodup_cons.mp hnodup
      have hb : key ∉ bs.map Prod.fst := hothers ▸ ha
      have hih := fun h => ih hothers hrest (fun a ha => hutf8 a (List.mem_cons_of_mem _ ha)) h
      cases value with
      | none =>
        cases value' with
        | none => rw [hih (by simpa [stored] using h)]
        | some w =>
          have hmem : (key, w) ∈ as.filterMap stored := by
            have hrhs : as.filterMap stored = (key, w) :: bs.filterMap stored := by
              simpa [stored, hkey] using h
            rw [hrhs]
            exact List.mem_cons_self
          exact absurd hmem (not_mem_stored ha)
      | some v =>
        cases value' with
        | none =>
          have hmem : (key, v) ∈ bs.filterMap stored := by
            have hlhs : (key, v) :: as.filterMap stored = bs.filterMap stored := by
              simpa [stored, hkey] using h
            rw [← hlhs]
            exact List.mem_cons_self
          exact absurd hmem (not_mem_stored hb)
        | some w =>
          have hboth : (key, v) :: as.filterMap stored = (key, w) :: bs.filterMap stored := by
            simpa [stored, hkey] using h
          obtain ⟨hvalue, hsame⟩ := List.cons.inj hboth
          cases hvalue
          rw [hih hsame]

/-- An object tells what its members were set to, and which values were refused. -/
theorem setAll_inj {as bs : List (List UInt8 × Option Json)}
    (hkeys : as.map Prod.fst = bs.map Prod.fst) (hnodup : (as.map Prod.fst).Nodup)
    (hutf8 : ∀ a ∈ as, utf8 a.1 = true) (h : setAll [] as = setAll [] bs) : as = bs := by
  rw [setAll_fresh hnodup fun _ _ => List.not_mem_nil,
    setAll_fresh (hkeys ▸ hnodup) fun _ _ => List.not_mem_nil] at h
  exact filterMap_stored_inj hkeys hnodup hutf8 (by simpa using h)

/-- The order in which a hash table is walked: every entry once. -/
structure Walk (α : Type) where
  order : List α → List α
  perm : ∀ l, (order l).Perm l

def Walk.straight (α : Type) : Walk α := ⟨id, fun l => List.Perm.refl l⟩

end Xnbd.Jansson
