import Xnbd.Deferred
import Xnbd.FlatDisk
import Xnbd.Forwarder

/-!
# The reference disk of the proxy

The proxy's disk is a flat disk together with the set of blocks it holds
itself. A TRIM only reaches blocks of that set. The first half says what
`forwarder_tx` must have put into `req[]` for a request at a given reference
disk; the second half that carrying out such a request on the cache file is a
step of the reference disk.
-/
namespace Xnbd.Reference

open CInt Block Bitmap Bytes Nbd Requests FlatDisk Forwarder Deferred

structure RefDisk where
  bytes : File
  marked : Nat → Bool

variable {disksize : Nat}

/-- The requests that mark their blocks. -/
def Marks (r : Request disksize) : Prop :=
  r.iotype = .read ∨ r.iotype = .cache ∨ r.iotype = .write

instance (r : Request disksize) : Decidable (Marks r) := inferInstanceAs (Decidable (_ ∨ _))

/-- One request on the reference disk: a WRITE overlays its bytes, a TRIM zeroes
those of its bytes that lie in marked blocks, READ, CACHE and WRITE mark. -/
def refStep (R : RefDisk) (r : Request disksize) : RefDisk where
  bytes := fun x =>
    if r.iotype = .trim ∧ R.marked (x / cblocksize) = false then R.bytes x
    else flatStep R.bytes r x
  marked := fun b => R.marked b || decide (Marks r ∧ r.InBlocks b)

/-- The reference disk after a sequence of requests. -/
def refRun (R : RefDisk) (calls : List (Call disksize)) : RefDisk :=
  calls.foldl (fun R c => refStep R c.request) R

/-- The disk shown by a bitmap, a cache file and a remote disk. -/
def refOf (cbitmap : Words) (cache remote : File) : RefDisk where
  bytes := fun x => if bitmapTest cbitmap (x / cblocksize) then cache x else remote x
  marked := bitmapTest cbitmap

@[simp] theorem refRun_nil (R : RefDisk) : refRun R ([] : List (Call disksize)) = R := rfl
@[simp] theorem refRun_cons (R : RefDisk) (c : Call disksize) (calls : List (Call disksize)) :
    refRun R (c :: calls) = refRun (refStep R c.request) calls := rfl
theorem refRun_append (R : RefDisk) (a b : List (Call disksize)) :
    refRun R (a ++ b) = refRun (refRun R a) b := List.foldl_append

theorem refStep_marked {R : RefDisk} {r : Request disksize} {b : Nat} :
    (refStep R r).marked b = (R.marked b || decide (Marks r ∧ r.InBlocks b)) := rfl

/-- Marks are never taken back. -/
theorem marked_mono {R : RefDisk} (calls : List (Call disksize)) {b : Nat}
    (h : R.marked b = true) : (refRun R calls).marked b = true := by
  induction calls generalizing R with
  | nil => exact h
  | cons c rest ih => exact ih (by simp [refStep_marked, h])

section Fetches

/-- Block `b` is one of the blocks that the remote reads fetch. -/
def Fetches (req : List ReadReq) (b : Nat) : Prop :=
  ∃ rr ∈ req, rr.bindexIofrom ≤ b ∧ b < rr.bindexIofrom + rr.bindexIolen

variable {req : List ReadReq} {i b : Nat}

@[simp] theorem fetches_nil : ¬Fetches [] b := by simp [Fetches]

theorem fetches_append {req' : List ReadReq} :
    Fetches (req ++ req') b ↔ Fetches req b ∨ Fetches req' b := by
  simp only [Fetches, List.mem_append, or_and_right, exists_or]

@[simp] theorem fetches_one {rr : ReadReq} :
    Fetches [rr] b ↔ rr.bindexIofrom ≤ b ∧ b < rr.bindexIofrom + rr.bindexIolen := by
  simp [Fetches]

/-- A new block extends the last read, or it starts one behind a table that has room. -/
theorem addReadBlockToTail_cases {req' : List ReadReq} (h : addReadBlockToTail req i = some req') :
    (∃ init last, req = init ++ [last] ∧ i = last.bindexIofrom + last.bindexIolen ∧
      req' = init ++ [⟨last.bindexIofrom, last.bindexIolen + 1⟩]) ∨
    ((∀ last, req.getLast? = some last → i ≠ last.bindexIofrom + last.bindexIolen) ∧
      req.length + 1 ≠ maxnblock ∧ req' = req ++ [⟨i, 1⟩]) := by
  simp only [addReadBlockToTail] at h
  cases hl : req.getLast? with
  | none =>
    simp only [hl] at h
    split at h
    · cases h
    · rename_i hroom
      cases h
      exact .inr ⟨fun last hlast => by simp at hlast, hroom, rfl⟩
  | some last =>
    obtain ⟨init, rfl⟩ := List.getLast?_eq_some_iff.mp hl
    simp only [hl] at h
    split at h
    · rename_i hi
      cases h
      exact .inl ⟨init, last, rfl, hi, by rw [List.dropLast_concat]⟩
    · rename_i hi
      split at h
      · cases h
      · rename_i hroom
        cases h
        refine .inr ⟨fun last' hlast => ?_, hroom, rfl⟩
        cases hlast
        exact hi

/-- One more block, whether it extends the last read or starts a new one. -/
theorem addReadBlockToTail_fetches {req' : List ReadReq}
    (h : addReadBlockToTail req i = some req') : Fetches req' b ↔ Fetches req b ∨ b = i := by
  obtain ⟨init, last, rfl, hi, rfl⟩ | ⟨-, -, rfl⟩ := addReadBlockToTail_cases h
  · rw [fetches_append, fetches_append, fetches_one, fetches_one, or_assoc]
    dsimp only
    exact or_congr_right ⟨fun h => by omega, fun h => by omega⟩
  · rw [fetches_append, fetches_one]
    dsimp only
    exact or_congr_right ⟨fun h => by omega, fun h => by omega⟩

theorem remoteRange_eq {rr : ReadReq} (hd : disksize ≤ offMax)
    (h : rr.bindexIofrom * cblocksize ≤ disksize) :
    remoteRange disksize rr = (rr.bindexIofrom * cblocksize,
      min (disksize - rr.bindexIofrom * cblocksize) (rr.bindexIolen * cblocksize)) := by
  rw [remoteRange, ← Int.natCast_mul, confineIolenWithinDisk_natCast hd h]

/-- The bytes of a remote read are those of its blocks, up to the disk's end. -/
theorem remoteRange_bytes {rr : ReadReq} {x : Nat} (hd : disksize ≤ offMax) (hx : x < disksize) :
    ((remoteRange disksize rr).1 ≤ x ∧
        x < (remoteRange disksize rr).1 + (remoteRange disksize rr).2) ↔
      rr.bindexIofrom ≤ x / cblocksize ∧
        x / cblocksize < rr.bindexIofrom + rr.bindexIolen := by
  by_cases hle : rr.bindexIofrom * cblocksize ≤ x
  · rw [remoteRange_eq hd (by omega)]
    unfold cblocksize at *
    dsimp only
    omega
  · unfold remoteRange
    unfold cblocksize at *
    dsimp only
    omega

end Fetches

/-- What `forwarder_tx` put into `req[]` of a request for the given disk. -/
structure PreparedAt (R : RefDisk) (r : Request disksize) (req : List ReadReq) : Prop where
  reads : r.iotype = .read ∨ r.iotype = .cache →
    ∀ b, Fetches req b ↔ r.InBlocks b ∧ R.marked b = false
  writes : r.iotype = .write → ∀ b, Fetches req b ↔
    r.getStartBlock R.marked = true ∧ b = r.blockIndexStart ∨
      r.getEndBlock R.marked = true ∧ b = r.blockIndexEnd
  others : ¬Marks r → req = []
  bounded : Marks r → r.blockIndexStart ≤ r.blockIndexEnd → r.blockIndexEnd < 2 ^ 64 - 1

/-- Only blocks that are not yet marked are fetched. -/
theorem PreparedAt.unmarked {R : RefDisk} {r : Request disksize} {req : List ReadReq} {b : Nat}
    (h : PreparedAt R r req) (hb : Fetches req b) : R.marked b = false := by
  by_cases hm : Marks r
  · rcases hm with hr | hr | hr
    · exact ((h.reads (.inl hr) b).mp hb).2
    · exact ((h.reads (.inr hr) b).mp hb).2
    · rcases (h.writes hr b).mp hb with ⟨hs, rfl⟩ | ⟨he, rfl⟩
      · simp only [Request.getStartBlock, Bool.and_eq_true, Bool.not_eq_true'] at hs
        exact hs.2
      · simp only [Request.getEndBlock, Bool.and_eq_true, Bool.not_eq_true'] at he
        exact he.2
  · rw [h.others hm] at hb
    exact absurd hb fetches_nil

/-- The cache file holds the marked blocks of the reference disk, the remote disk
the others. -/
def Settled (disksize : Nat) (R : RefDisk) (cache remote : File) : Prop :=
  ∀ x < disksize, R.bytes x = if R.marked (x / cblocksize) then cache x else remote x

theorem refOf_settled (cbitmap : Words) (cache remote : File) :
    Settled disksize (refOf cbitmap cache remote) cache remote := fun _ _ => rfl

/-- Stores into blocks that are not marked go unnoticed. -/
theorem Settled.store {R : RefDisk} {cache remote : File} {off : Nat} {bytes : List UInt8}
    (h : Settled disksize R cache remote)
    (hfree : ∀ x < disksize, off ≤ x → x < off + bytes.length → R.marked (x / cblocksize) = false) :
    Settled disksize R (store cache off bytes) remote := by
  intro x hx
  rw [h x hx]
  by_cases hin : off ≤ x ∧ x < off + bytes.length
  · rw [hfree x hx hin.1 hin.2]
    rfl
  · rw [store_outside (by omega)]

section Execute

variable {R : RefDisk} {r : Request disksize} {req : List ReadReq} {cache remote : File}

/-- The range of a request that marked its blocks is not the empty one at zero,
whose last block would be the largest index. -/
theorem PreparedAt.nonempty (h : PreparedAt R r req) (hd : disksize ≤ offMax) (hm : Marks r)
    (h0 : 0 ≤ r.iofrom) : 0 < r.start + r.iolen := by
  by_contra hz
  have hend : r.blockIndexEnd = 2 ^ 64 - 1 := by
    rw [blockIndexEnd_eq hd h0, show r.start + r.iolen = 0 by omega]
    exact getBindexEnd_zero
  have hsta : r.blockIndexStart ≤ r.blockIndexEnd := by
    rw [hend, blockIndexStart_eq h0, show r.start = 0 by omega]
    decide
  exact absurd (h.bounded hm hsta) (by omega)

/-- Every byte of a request's blocks is covered by a WRITE, held by the cache, or
fetched. -/
theorem PreparedAt.available (h : PreparedAt R r req) (hd : disksize ≤ offMax) (hm : Marks r)
    (h0 : 0 ≤ r.iofrom) {x : Nat} (hb : r.InBlocks (x / cblocksize))
    (hcov : ¬(r.iotype = .write ∧ r.Covers x)) (hmk : R.marked (x / cblocksize) = false) :
    Fetches req (x / cblocksize) := by
  rcases hm with hr | hr | hr
  · exact (h.reads (.inl hr) _).mpr ⟨hb, hmk⟩
  · exact (h.reads (.inr hr) _).mpr ⟨hb, hmk⟩
  · have hx : ¬r.Covers x := fun hc => hcov ⟨hr, hc⟩
    exact (h.writes hr _).mpr
      (edge_fetched hd h0 (h.nonempty hd (.inr (.inr hr)) h0) hb hx hmk)

/-- Carrying out a prepared request on a settled cache, with its blocks fetched,
is one step of the reference disk. -/
theorem settled_execute (hd : disksize ≤ offMax) (hset : Settled disksize R cache remote)
    (hp : PreparedAt R r req) (h0 : 0 ≤ r.iofrom)
    (hfetch : ∀ x < disksize, Fetches req (x / cblocksize) → cache x = remote x) :
    Settled disksize (refStep R r) (flatStep cache r) remote := by
  intro x hx
  have hold := hset x hx
  rw [refStep_marked]
  by_cases hmk : R.marked (x / cblocksize) = true
  · rw [if_pos hmk] at hold
    simp only [refStep, hmk, Bool.true_or, if_true, Bool.true_eq_false, and_false, if_false]
    exact flatStep_congr r hold
  · have hmk : R.marked (x / cblocksize) = false := by simpa using hmk
    rw [hmk] at hold
    simp only [Bool.false_eq_true, if_false] at hold
    by_cases hin : Marks r ∧ r.InBlocks (x / cblocksize)
    · obtain ⟨hm, hb⟩ := hin
      have htrim : r.iotype ≠ .trim := by
        rcases hm with h | h | h <;> simp [h]
      simp only [refStep, hmk, htrim, hm, hb, and_self, decide_true, Bool.or_true, if_true,
        false_and, if_false]
      by_cases hcov : r.iotype = .write ∧ r.Covers x
      · exact flatStep_inside _ _ hcov.2 (.inl hcov.1)
      · have hf := hp.available hd hm h0 hb hcov hmk
        exact flatStep_congr r (hold.trans (hfetch x hx hf).symm)
    · simp only [refStep, hmk, hin, decide_false, Bool.or_false, Bool.false_eq_true, if_false]
      by_cases htrim : r.iotype = .trim
      · simp only [htrim, and_self, if_true]
        exact hold
      · simp only [htrim, false_and, if_false]
        rw [← hold]
        by_cases hw : r.iotype = .write
        · have hcov : ¬r.Covers x := fun hc =>
            hin ⟨.inr (.inr hw), inBlocks_of_covers hd h0 hc⟩
          exact flatStep_outside hcov
        · cases hio : r.iotype with
          | write => exact absurd hio hw
          | trim => exact absurd hio htrim
          | _ => simp only [flatStep, hio]

/-- A READ carried out at its place returns the reference disk's bytes. -/
theorem settled_read (hd : disksize ≤ offMax) (hset : Settled disksize R cache remote)
    (hp : PreparedAt R r req) (h0 : 0 ≤ r.iofrom) (hr : r.iotype = .read)
    (hfetch : ∀ x < disksize, Fetches req (x / cblocksize) → cache x = remote x) :
    slice cache r.start r.iolen = slice R.bytes r.start r.iolen := by
  have hle := start_add_le hd h0
  apply slice_congr
  intro x hx0 hx1
  have hx : x < disksize := by omega
  rw [hset x hx]
  split
  · rfl
  · rename_i hmk
    apply hfetch x hx
    have hb := inBlocks_of_covers hd h0 ⟨hx0, hx1⟩
    exact hp.available hd (.inl hr) h0 hb (by simp [hr]) (by simpa using hmk)

end Execute

end Xnbd.Reference
