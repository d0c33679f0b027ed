import Mathlib.Algebra.BigOperators.Group.List.Basic
import Mathlib.Algebra.Order.Group.Nat
import Xnbd.CInt

/-!
# Whole transfers over vectored calls (`lib/net.c`)

`net_iov_all` repeats `readv` or `writev` until everything is moved, an end of
file is seen, or a call fails. Lengths are accumulated in an `int`. A call's
result is its return value: a positive count, 0, or -1.
-/
namespace Xnbd.NetIov

open CInt

/-- `struct iovec`; the base is an address. -/
structure Iovec where
  base : Int
  len : Nat
  deriving DecidableEq, Repr

/-- Bytes a call on the list may move. -/
def size (iov : List Iovec) : Nat := (iov.map Iovec.len).sum

/-- The addresses of one entry. -/
def entryCells (v : Iovec) : List Int := (List.range v.len).map fun k : Nat => v.base + k

/-- The addresses of the list, in the order in which a call fills them. -/
def cells (iov : List Iovec) : List Int := iov.flatMap entryCells

@[simp] theorem size_nil : size [] = 0 := rfl
@[simp] theorem size_cons (v : Iovec) (rest : List Iovec) : size (v :: rest) = v.len + size rest := by
  simp [size]
@[simp] theorem entryCells_length (v : Iovec) : (entryCells v).length = v.len := by
  simp [entryCells]
@[simp] theorem cells_nil : cells [] = [] := rfl
@[simp] theorem cells_cons (v : Iovec) (rest : List Iovec) :
    cells (v :: rest) = entryCells v ++ cells rest := by simp [cells]

theorem cells_length (iov : List Iovec) : (cells iov).length = size iov := by
  induction iov with
  | nil => rfl
  | cons v rest ih => simp [ih]

/-- Cutting `k` bytes off an entry drops its first `k` addresses. -/
theorem entryCells_cut (base : Int) (len k : Nat) :
    entryCells ⟨base + k, len - k⟩ = (entryCells ⟨base, len⟩).drop k := by
  apply List.ext_getElem
  · simp
  · intro i h₁ h₂
    simp only [entryCells, List.getElem_map, List.getElem_range, List.getElem_drop]
    omega

/-- The loop over the entries after a positive count. `none` means that no
entry is left over; otherwise the first unfinished entry is cut in place. -/
def advance (sent : Int) : Int → List Iovec → Option (List Iovec)
  | _, [] => none
  | expected, v :: rest =>
    let expected := toInt32 (expected + v.len)
    if sent < expected then
      let restInBlock := toInt32 (expected - sent)
      let sentInBlock := toInt32 (v.len - restInBlock)
      some (⟨v.base + sentInBlock, toUint64 restInBlock⟩ :: rest)
    else advance sent expected rest

inductive IovStep where
  | done (ret : Int)
  | next (iov : List Iovec) (total : Int)
  deriving DecidableEq, Repr

/-- One round of `net_iov_all`. -/
def netIovStep (iov : List Iovec) (total sent : Int) : IovStep :=
  if sent = 0 then .done (toInt32 total)
  else if sent = -1 then .done (-1)
  else match advance sent 0 iov with
    | some rest => .next rest (total + sent)
    | none => .done (toInt32 (total + sent))

/-- `net_iov_all` on a list of call results, with the bytes moved. `none` means
that the results ran out before the function returned. -/
def netIovAll (iov : List Iovec) (total : Int) : List Int → Option (Int × Int)
  | [] => none
  | sent :: results =>
    match netIovStep iov total sent with
    | .done ret => some (ret, total + max sent 0)
    | .next rest total' => netIovAll rest total' results

/-- `net_recv_all_or_error` and its siblings: a short or failed transfer is -1. -/
def allOrError (bufflen : Nat) (ret : Int) : Int :=
  if ret ≠ toInt32 bufflen then -1 else ret

/-- `check_fin(..)` returned 0; every other way out of it ends the process. -/
def CheckFin (bufflen : Nat) (ret : Int) : Prop :=
  0 < ret ∧ ret = toInt32 bufflen

instance (bufflen : Nat) (ret : Int) : Decidable (CheckFin bufflen ret) :=
  inferInstanceAs (Decidable (_ ∧ _))

/-- `check_done(..)` returned; a negative value ends the process. -/
def CheckDone (ret : Int) : Prop := 0 ≤ ret

instance (ret : Int) : Decidable (CheckDone ret) := inferInstanceAs (Decidable (_ ≤ _))

/-- The results are ones the kernel may give: never more than was asked for. -/
def Offered (iov : List Iovec) (total : Int) : List Int → Prop
  | [] => True
  | sent :: results => -1 ≤ sent ∧ sent ≤ size iov ∧
    match netIovStep iov total sent with
    | .done _ => True
    | .next rest total' => Offered rest total' results

instance decidableOffered : ∀ iov total results, Decidable (Offered iov total results)
  | _, _, [] => isTrue trivial
  | iov, total, sent :: results =>
    match h : netIovStep iov total sent with
    | .done _ => decidable_of_iff (-1 ≤ sent ∧ sent ≤ size iov) (by simp [Offered, h])
    | .next rest total' =>
      have : Decidable (Offered rest total' results) := decidableOffered rest total' results
      decidable_of_iff (-1 ≤ sent ∧ sent ≤ size iov ∧ Offered rest total' results)
        (by simp [Offered, h])

section Advance

variable {sent expected : Int} {iov rest : List Iovec}

/-- What the loop makes of a count, also when it ends at or beyond an entry's end: either
all entries are done, or the rest of the addresses is exactly left over. -/
theorem advance_spec (h0 : 0 ≤ expected) (hmax : expected + size iov < 2 ^ 31)
    (hle : expected ≤ sent) :
    (advance sent expected iov = none ∧ expected + size iov ≤ sent) ∨
    ∃ rest, advance sent expected iov = some rest ∧
      cells rest = (cells iov).drop (sent - expected).toNat ∧
      sent + size rest = expected + size iov := by
  induction iov generalizing expected with
  | nil => exact .inl ⟨rfl, by simpa using hle⟩
  | cons v tail ih =>
    simp only [size_cons] at hmax ⊢
    have hint : toInt32 (expected + v.len) = expected + v.len :=
      toInt32_of_range (by omega) (by omega)
    simp only [advance, hint]
    split
    · rename_i hlt
      have hrest : toInt32 (expected + v.len - sent) = expected + v.len - sent :=
        toInt32_of_range (by omega) (by omega)
      have hsent : toInt32 (v.len - (expected + v.len - sent)) = sent - expected := by
        rw [toInt32_of_range (by omega) (by omega)]
        omega
      have hlen : toUint64 (expected + v.len - sent) = v.len - (sent - expected).toNat := by
        rw [toUint64_of_range (by omega) (by omega)]
        omega
      simp only [hrest, hsent, hlen]
      refine .inr ⟨_, rfl, ?_⟩
      obtain ⟨k, hk⟩ : ∃ k : Nat, sent - expected = k := ⟨(sent - expected).toNat, by omega⟩
      have hkl : k ≤ (entryCells v).length := by simp only [entryCells_length]; omega
      simp only [hk, Int.toNat_natCast, cells_cons, size_cons]
      rw [entryCells_cut, List.drop_append_of_le_length hkl]
      exact ⟨rfl, by omega⟩
    · obtain ⟨hnone, hsize⟩ | ⟨rest, hrest, hcells, hsize⟩ :=
        @ih (expected + v.len) (by omega) (by omega) (by omega)
      · exact .inl ⟨hnone, by omega⟩
      · have hdrop : (sent - expected).toNat = v.len + (sent - (expected + v.len)).toNat := by omega
        refine .inr ⟨rest, hrest, ?_, by omega⟩
        rw [hcells, cells_cons, hdrop, List.drop_append]
        simp

theorem advance_none (h0 : 0 ≤ expected) (hmax : expected + size iov < 2 ^ 31)
    (h : advance sent expected iov = none) (hle : expected ≤ sent) :
    expected + size iov ≤ sent := by
  obtain ⟨-, hsize⟩ | ⟨rest, hrest, -⟩ := advance_spec h0 hmax hle
  · exact hsize
  · rw [h] at hrest
    cases hrest

theorem advance_cells (h0 : 0 ≤ expected) (hmax : expected + size iov < 2 ^ 31)
    (h : advance sent expected iov = some rest) (hle : expected ≤ sent) :
    cells rest = (cells iov).drop (sent - expected).toNat ∧
      sent + size rest = expected + size iov := by
  obtain ⟨hnone, -⟩ | ⟨rest', hrest, hspec⟩ := advance_spec h0 hmax hle
  · rw [h] at hnone
    cases hnone
  · rw [h] at hrest
    cases hrest
    exact hspec

/-- The length of an entry that is cut: nothing is lost, as the count ends before the sum. -/
theorem restInBlock_eq {sum : Int} (h0 : 0 < sent) (hlt : sent < toInt32 sum) :
    toUint64 (toInt32 (toInt32 sum - sent)) = (toInt32 sum - sent).toNat := by
  have hmax : toInt32 sum < 2 ^ 31 := by
    unfold toInt32
    omega
  rw [toInt32_of_range (by omega) (by omega), toUint64_of_range (by omega) (by omega)]

/-- The cut list asks for no more than what is missing, also when the `int`
that adds up the entries overflows. -/
theorem advance_size {room : Int} (hlow : -2 ^ 31 ≤ expected) (hle : expected ≤ room)
    (h0 : 0 < sent) (h : advance sent expected iov = some rest) :
    size rest + sent ≤ room + size iov := by
  induction iov generalizing expected room with
  | nil => cases h
  | cons v tail ih =>
    have hwrap : -2 ^ 31 ≤ toInt32 (expected + v.len) ∧
        toInt32 (expected + v.len) ≤ room + v.len := by
      unfold toInt32
      omega
    simp only [size_cons]
    simp only [advance] at h
    split at h
    · rename_i hlt
      cases h
      rw [size_cons, restInBlock_eq h0 hlt]
      simp only
      omega
    · have := ih hwrap.1 hwrap.2 h
      omega

/-- Something is left over in a cut list. -/
theorem advance_pos (h0 : 0 < sent) (h : advance sent expected iov = some rest) : 0 < size rest := by
  induction iov generalizing expected with
  | nil => cases h
  | cons v tail ih =>
    simp only [advance] at h
    split at h
    · rename_i hlt
      cases h
      rw [size_cons, restInBlock_eq h0 hlt]
      simp only
      omega
    · exact ih h

/-- One buffer is cut behind the delivered bytes, or finished. -/
theorem advance_single {base : Int} {len : Nat} (h : len < 2 ^ 31) (h0 : 0 ≤ sent) :
    advance sent 0 [⟨base, len⟩] =
      if sent < len then some [⟨base + sent, len - sent.toNat⟩] else none := by
  have hexp : toInt32 (0 + (len : Int)) = len := by
    rw [Int.zero_add, toInt32_of_range (by omega) (by omega)]
  simp only [advance, hexp]
  split
  · have hrest : toInt32 ((len : Int) - sent) = len - sent :=
      toInt32_of_range (by omega) (by omega)
    have hin : toInt32 ((len : Int) - ((len : Int) - sent)) = sent := by
      rw [toInt32_of_range (by omega) (by omega)]
      omega
    have hlen : toUint64 ((len : Int) - sent) = len - sent.toNat := by
      rw [toUint64_of_range (by omega) (by omega)]
      omega
    rw [hrest, hin, hlen]
  · rfl

/-- After a positive count the one buffer is cut behind it, or the loop is left: at its
end, and at once when the length does not fit in an `int`. -/
theorem advance_buffer {n len : Nat} (hlen : len < 2 ^ 32) (h0 : 0 < sent) :
    advance sent 0 [⟨n, len⟩] =
      if len < 2 ^ 31 ∧ sent < len then some [⟨((n + sent.toNat : Nat) : Int), len - sent.toNat⟩]
      else none := by
  by_cases hsmall : len < 2 ^ 31
  · have hbase : (n : Int) + sent = ((n + sent.toNat : Nat) : Int) := by omega
    rw [advance_single hsmall (by omega), hbase]
    simp only [hsmall, true_and]
  · have hwrap : toInt32 (0 + (len : Int)) = len - 2 ^ 32 := by
      unfold toInt32
      omega
    have hover : ¬ sent < (len : Int) - 2 ^ 32 := by omega
    simp only [advance, hwrap, if_neg hover, hsmall, false_and, if_false]

theorem netIovStep_next {total total' : Int} (h : netIovStep iov total sent = .next rest total') :
    sent ≠ 0 ∧ sent ≠ -1 ∧ advance sent 0 iov = some rest ∧ total' = total + sent := by
  simp only [netIovStep] at h
  split at h
  · cases h
  rename_i h0
  split at h
  · cases h
  rename_i h1
  split at h
  · rename_i rest' hadv
    cases h
    exact ⟨h0, h1, hadv, rfl⟩
  · cases h

/-- A round of reading into one buffer goes on behind what it delivered, or
returns the whole count. -/
theorem netIovStep_single {n len : Nat} (h : n + len < 2 ^ 31) (h0 : 0 < sent) :
    netIovStep [⟨n, len⟩] n sent =
      if sent < len then .next [⟨n + sent, len - sent.toNat⟩] (n + sent)
      else .done (toInt32 (n + sent)) := by
  have hne0 : sent ≠ 0 := by omega
  have hne1 : sent ≠ -1 := by omega
  unfold netIovStep
  rw [if_neg hne0, if_neg hne1, advance_single (by omega) (by omega)]
  by_cases hlt : sent < (len : Int)
  · rw [if_pos hlt, if_pos hlt]
  · rw [if_neg hlt, if_neg hlt]

end Advance

section Transfer

variable {iov : List Iovec} {total sent ret moved : Int} {results : List Int} {bufflen : Nat}

/-- A finished transfer returns what it moved, unless a call failed. -/
theorem netIovAll_moved (h0 : 0 ≤ total) (hmax : total + size iov < 2 ^ 31)
    (hoff : Offered iov total results) (h : netIovAll iov total results = some (ret, moved)) :
    total ≤ moved ∧ moved ≤ total + size iov ∧ (ret = -1 ∨ ret = moved) := by
  induction results generalizing iov total with
  | nil => cases h
  | cons sent results ih =>
    obtain ⟨hlow, hhigh, hnext⟩ := hoff
    simp only [netIovAll] at h
    by_cases hz : sent = 0
    · simp only [netIovStep, hz, ↓reduceIte] at h
      cases h
      rw [toInt32_of_range (by omega) (by omega)]
      omega
    by_cases hneg : sent = -1
    · simp only [netIovStep, hneg] at h
      cases h
      omega
    cases hadv : advance sent 0 iov with
    | none =>
      simp only [netIovStep, hz, hneg, hadv, ↓reduceIte] at h
      cases h
      rw [toInt32_of_range (by omega) (by omega)]
      omega
    | some rest =>
      simp only [netIovStep, hz, hneg, hadv, ↓reduceIte] at h hnext
      have hs := (advance_cells (by omega) (by omega) hadv (by omega)).2
      have := ih (by omega) (by omega) hnext h
      omega

/-- One receive buffer, as in `net_recv_all`. -/
def netRecvAll (bufflen : Nat) (results : List Int) : Option (Int × Int) :=
  netIovAll [⟨0, bufflen⟩] 0 results

/-- A complete transfer is taken for one if its length fits in an `int`. -/
theorem allOrError_self (h : bufflen < 2 ^ 31) : allOrError bufflen bufflen = bufflen := by
  unfold allOrError
  rw [toInt32_of_range (by omega) (by omega), if_neg (not_not.mpr rfl)]

/-- No result counts as complete for a length beyond `int`: the truncated length
it is compared with is negative. -/
theorem large_never_complete (hlo : 2 ^ 31 ≤ bufflen) (hhi : bufflen < 2 ^ 32) (ret : Int) :
    allOrError bufflen ret < 0 ∧ ¬CheckFin bufflen ret := by
  have htrunc : toInt32 bufflen = bufflen - 2 ^ 32 := by
    unfold toInt32
    omega
  refine ⟨?_, fun hfin => ?_⟩
  · unfold allOrError
    split <;> omega
  · have h1 := hfin.1
    have h2 := hfin.2
    omega

/-- A receive that its caller takes as complete moved exactly the length asked
for, which then fits in an `int`. -/
theorem netRecvAll_complete (hhi : bufflen < 2 ^ 32) (hoff : Offered [⟨0, bufflen⟩] 0 results)
    (h : netRecvAll bufflen results = some (ret, moved))
    (hok : 0 ≤ allOrError bufflen ret ∨ CheckFin bufflen ret) :
    bufflen < 2 ^ 31 ∧ moved = bufflen := by
  have hsmall : bufflen < 2 ^ 31 := by
    by_contra hge
    have hbad := large_never_complete (by omega) hhi ret
    rcases hok with hok | hok
    · omega
    · exact hbad.2 hok
  refine ⟨hsmall, ?_⟩
  have hm := netIovAll_moved (le_refl 0) (by simp; omega) hoff h
  have hint : toInt32 bufflen = bufflen := toInt32_of_range (by omega) (by omega)
  have hret : ret = bufflen := by
    rcases hok with hok | hok
    · unfold allOrError at hok
      split at hok <;> omega
    · rw [hok.2, hint]
  simp at hm
  omega

end Transfer

end Xnbd.NetIov
