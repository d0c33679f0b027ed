import Xnbd.Requests

/-!
# The flat reference disk

What a disk is for its clients: a READ returns the bytes of its range, a WRITE
replaces them, a TRIM zeroes them, and nothing else moves.
-/
namespace Xnbd.FlatDisk

open Block Bytes Requests

variable {disksize : Nat}

/-- A flat disk after one request. -/
def flatStep (disk : File) (r : Request disksize) : File :=
  match r.iotype with
  | .write => store disk r.start r.data
  | .trim => zero disk r.start r.iolen
  | _ => disk

/-- The data a flat disk sends for one request. -/
def flatReply (disk : File) (r : Request disksize) : List UInt8 :=
  match r.iotype with
  | .read => slice disk r.start r.iolen
  | _ => []

def flatRun (disk : File) (reqs : List (Request disksize)) : File := reqs.foldl flatStep disk

def flatReplies : File → List (Request disksize) → List (List UInt8)
  | _, [] => []
  | disk, r :: rest => flatReply disk r :: flatReplies (flatStep disk r) rest

theorem flatStep_outside {f : File} {r : Request disksize} {x : Nat} (h : ¬r.Covers x) :
    flatStep f r x = f x := by
  unfold Request.Covers at h
  cases hio : r.iotype with
  | write =>
    have hdata := r.payload hio
    simp only [flatStep, hio]
    exact store_outside (by omega)
  | trim =>
    simp only [flatStep, hio]
    exact zero_outside (by omega)
  | _ => simp only [flatStep, hio]

/-- A WRITE or a TRIM decides the bytes of its range. -/
theorem flatStep_inside (f g : File) {r : Request disksize} {x : Nat} (h : r.Covers x)
    (hr : r.iotype = .write ∨ r.iotype = .trim) : flatStep f r x = flatStep g r x := by
  rcases hr with hio | hio
  · simp only [flatStep, hio]
    exact store_congr_inside f g h.1 (by rw [r.payload hio]; exact h.2)
  · simp only [flatStep, hio]
    rw [zero_inside h.1 h.2, zero_inside h.1 h.2]

/-- A flat disk looks at a byte only through the same byte of the old content. -/
theorem flatStep_congr {f g : File} (r : Request disksize) {x : Nat} (h : f x = g x) :
    flatStep f r x = flatStep g r x := by
  by_cases hc : r.Covers x
  · by_cases hr : r.iotype = .write ∨ r.iotype = .trim
    · exact flatStep_inside f g hc hr
    · rw [not_or] at hr
      cases hio : r.iotype with
      | write => exact absurd hio hr.1
      | trim => exact absurd hio hr.2
      | _ => simpa only [flatStep, hio] using h
  · rw [flatStep_outside hc, flatStep_outside hc, h]

theorem flatRun_congr {f g : File} (reqs : List (Request disksize)) {x : Nat} (h : f x = g x) :
    flatRun f reqs x = flatRun g reqs x := by
  induction reqs generalizing f g with
  | nil => exact h
  | cons r rest ih => exact ih (flatStep_congr r h)

theorem flatReply_congr {f g : File} {r : Request disksize} (hd : disksize ≤ offMax)
    (h0 : 0 ≤ r.iofrom) (h : ∀ x < disksize, f x = g x) : flatReply f r = flatReply g r := by
  have hle := start_add_le hd h0
  unfold flatReply
  split
  · exact slice_congr fun x _ hx => h x (by omega)
  · rfl

theorem flatReplies_congr {f g : File} {reqs : List (Request disksize)} (hd : disksize ≤ offMax)
    (hreq : ∀ r ∈ reqs, 0 ≤ r.iofrom) (h : ∀ x < disksize, f x = g x) :
    flatReplies f reqs = flatReplies g reqs := by
  induction reqs generalizing f g with
  | nil => rfl
  | cons r rest ih =>
    simp only [List.mem_cons, forall_eq_or_imp] at hreq
    simp only [flatReplies]
    rw [flatReply_congr hd hreq.1 h, ih hreq.2 fun x hx => flatStep_congr r (h x hx)]

end Xnbd.FlatDisk
