import Xnbd.TargetRead

/-!
# Chunks of one value (`is_unicolor` in `xnbd_target_cow_lzo.c`)

A chunk of a compressed READ that repeats one value is sent as that value. Whether
it does is decided by words of eight bytes, and four bytes are sent. Values are
written as their bytes in memory, lowest byte first.
-/
namespace Xnbd.Unicolor

open TargetRead

section Model

/-- `array[i]`, an `unsigned long`. -/
def word (buf : List UInt8) (i : Nat) : List UInt8 := (buf.drop (8 * i)).take 8

/-- The loop of `is_unicolor` over `i`, which is an `unsigned int`, with fuel. -/
def unicolorLoop (buf : List UInt8) : Nat → Nat → Option Bool
  | 0, _ => none
  | fuel + 1, i =>
    if i < buf.length / 8 then
      if word buf 0 ≠ word buf i then some false else unicolorLoop buf fuel ((i + 1) % 2 ^ 32)
    else some true

/-- `is_unicolor`; `none` while it has not returned. -/
def isUnicolor (fuel : Nat) (buf : List UInt8) : Option Bool :=
  if buf.length % 8 ≠ 0 then some false else unicolorLoop buf fuel 1

/-- `htonl` turns the bytes of an `uint32_t` round. -/
def htonl (value : List UInt8) : List UInt8 := value.reverse

/-- The record for one chunk: `cmplen`, `rawlen`, and what follows them. `none` while
`is_unicolor` has not returned and when the compression fails. -/
def sendChunk (lzoEnabled : Bool) (lzo : List UInt8 → Option (List UInt8)) (fuel : Nat)
    (rawbuf : List UInt8) : Option (List UInt8) :=
  (isUnicolor fuel rawbuf).bind fun unicolor =>
    if unicolor then
      some (encodeBE 4 0 ++ encodeBE 4 rawbuf.length ++ htonl (rawbuf.take 4))
    else if lzoEnabled then
      (lzo rawbuf).bind fun cmpbuf =>
        if cmpbuf.length ≤ 2 ^ 32 - 1 ∧ rawbuf.length ≤ 2 ^ 32 - 1 then
          some (encodeBE 4 cmpbuf.length ++ encodeBE 4 rawbuf.length ++ cmpbuf)
        else none
    else some (encodeBE 4 (2 ^ 32 - 1) ++ encodeBE 4 rawbuf.length ++ rawbuf)

/-- A value in memory, again and again, up to a length. -/
def repeated (value : List UInt8) (rawlen : Nat) : List UInt8 :=
  (List.range rawlen).map fun k => value.getD (k % value.length) 0

/-- What the record with `cmplen` 0 stands for: `the buffer will be filled with a uint32_t
value`, which is sent in network order. -/
def filled (record : List UInt8) (rawlen : Nat) : List UInt8 :=
  repeated (htonl (record.drop 8)) rawlen

end Model

section Words

variable {buf : List UInt8}

/-- When the function says so, all words are the same. -/
theorem unicolorLoop_true {fuel i : Nat} (h : unicolorLoop buf fuel i = some true) :
    ∀ k, i ≤ k → k < buf.length / 8 → word buf k = word buf 0 := by
  induction fuel generalizing i with
  | zero => cases h
  | succ fuel ih =>
    intro k hik hk
    have hi : i < buf.length / 8 := by omega
    rw [unicolorLoop, if_pos hi] at h
    split at h
    · cases h
    · rename_i hsame
      by_cases heq : i = k
      · rw [← heq]
        exact (not_not.mp hsame).symm
      · apply ih h k _ hk
        have hle := Nat.mod_le (i + 1) (2 ^ 32)
        omega

theorem isUnicolor_true {fuel : Nat} (h : isUnicolor fuel buf = some true) :
    buf.length % 8 = 0 ∧ ∀ k, k < buf.length / 8 → word buf k = word buf 0 := by
  rw [isUnicolor] at h
  split at h
  · cases h
  · rename_i hlength
    constructor
    · exact not_not.mp hlength
    · intro k hk
      by_cases hzero : k = 0
      · rw [hzero]
      · exact unicolorLoop_true h k (by omega) hk

/-- Then every byte is the byte at its place in the first word. -/
theorem getElem_periodic (hlength : buf.length % 8 = 0)
    (hwords : ∀ k, k < buf.length / 8 → word buf k = word buf 0) {k : Nat} (hk : k < buf.length) :
    buf[k]? = buf[k % 8]? := by
  have hword : ∀ i j, j < 8 → (word buf i)[j]? = buf[8 * i + j]? := by
    intro i j hj
    rw [word, List.getElem?_take_of_lt hj, List.getElem?_drop]
  have hmod := Nat.mod_lt k (show 8 > 0 by decide)
  have hsame := congrArg (fun w : List UInt8 => w[k % 8]?) (hwords (k / 8) (by omega))
  simp only [hword _ _ hmod] at hsame
  have hsplit : 8 * (k / 8) + k % 8 = k := Nat.div_add_mod k 8
  rwa [hsplit, Nat.mul_zero, Nat.zero_add] at hsame

theorem repeated_getElem {value : List UInt8} {rawlen k : Nat} (hvalue : value ≠ [])
    (hk : k < rawlen) : (repeated value rawlen)[k]? = value[k % value.length]? := by
  have hmod : k % value.length < value.length := Nat.mod_lt k (List.length_pos_iff.mpr hvalue)
  rw [repeated, List.getElem?_map, List.getElem?_range hk, Option.map_some,
    List.getD_eq_getElem?_getD, List.getElem?_eq_getElem hmod, Option.getD_some]

/-- The two halves of the first word are the same. -/
def HalvesEqual (buf : List UInt8) : Prop := buf.take 4 = (buf.drop 4).take 4

instance (buf : List UInt8) : Decidable (HalvesEqual buf) := inferInstanceAs (Decidable (_ = _))

theorem halves_getElem (h : HalvesEqual buf) {k : Nat} (hk : k < 4) : buf[4 + k]? = buf[k]? := by
  have hsame := congrArg (fun l : List UInt8 => l[k]?) h
  simp only [List.getElem?_take_of_lt hk, List.getElem?_drop] at hsame
  exact hsame.symm

/-- A buffer of equal words is its first half word over and over if the halves of that
word are equal. -/
theorem repeated_half_iff (hlength : buf.length % 8 = 0) (hpos : 0 < buf.length)
    (hwords : ∀ k, k < buf.length / 8 → word buf k = word buf 0) :
    repeated (buf.take 4) buf.length = buf ↔ HalvesEqual buf := by
  have hfour : (buf.take 4).length = 4 := by
    rw [List.length_take]
    omega
  have hvalue : buf.take 4 ≠ [] := List.ne_nil_of_length_pos (by omega)
  have hget : ∀ k, k < buf.length → (repeated (buf.take 4) buf.length)[k]? = buf[k % 4]? := by
    intro k hk
    rw [repeated_getElem hvalue hk, hfour, List.getElem?_take_of_lt (Nat.mod_lt k (by decide))]
  constructor
  · intro h
    apply List.ext_getElem?
    intro k
    rw [List.getElem?_take, List.getElem?_take]
    split
    · rename_i hk
      have hsecond := hget (4 + k) (by omega)
      have hmod : (4 + k) % 4 = k := by omega
      rw [h, hmod] at hsecond
      rw [List.getElem?_drop, hsecond]
    · rfl
  · intro h
    apply List.ext_getElem?
    intro k
    by_cases hk : k < buf.length
    · rw [hget k hk, getElem_periodic hlength hwords hk]
      by_cases hfirst : k % 8 < 4
      · have hmod : k % 4 = k % 8 := by omega
        rw [hmod]
      · have hmod : k % 8 = 4 + k % 4 := by omega
        rw [hmod, halves_getElem h (Nat.mod_lt k (by decide))]
    · have hsame : (repeated (buf.take 4) buf.length).length = buf.length := by simp [repeated]
      rw [List.getElem?_eq_none (by omega), List.getElem?_eq_none (by omega)]

end Words

theorem unicolor_lossless_iff (lzoEnabled : Bool) (lzo : List UInt8 → Option (List UInt8))
    (fuel : Nat) (buf record : List UInt8) (hpos : 0 < buf.length)
    (hunicolor : isUnicolor fuel buf = some true)
    (hrecord : sendChunk lzoEnabled lzo fuel buf = some record) :
    record.take 4 = encodeBE 4 0 ∧ (filled record buf.length = buf ↔ HalvesEqual buf) := by
  obtain ⟨hlength, hwords⟩ := isUnicolor_true hunicolor
  have hsent : record = encodeBE 4 0 ++ encodeBE 4 buf.length ++ htonl (buf.take 4) := by
    simp only [sendChunk, hunicolor, Option.bind_some, if_true, Option.some.injEq] at hrecord
    exact hrecord.symm
  have hfour : ∀ n, (encodeBE 4 n).length = 4 := fun _ => rfl
  have hvalue : htonl (record.drop 8) = buf.take 4 := by
    rw [hsent, List.drop_left' (by rw [List.length_append, hfour, hfour]), htonl, htonl,
      List.reverse_reverse]
  constructor
  · rw [hsent, List.append_assoc, List.take_left' (hfour 0)]
  · rw [filled, hvalue]
    exact repeated_half_iff hlength hpos hwords

/-- A chunk of the byte 7. -/
theorem unicolor_lossless_seven :
    ∃ record, isUnicolor 3 (List.replicate 16 7) = some true ∧
      sendChunk false (fun _ => none) 3 (List.replicate 16 7) = some record ∧
      filled record 16 = List.replicate 16 7 :=
  ⟨_, by decide, rfl, ((unicolor_lossless_iff false (fun _ => none) 3 (List.replicate 16 7) _
    (by decide) (by decide) rfl).2).mpr (by decide)⟩

/-- Two words of value 1. What is sent stands for four half words of value 1. -/
theorem unicolor_record_loses :
    isUnicolor 3 [1, 0, 0, 0, 0, 0, 0, 0, 1, 0, 0, 0, 0, 0, 0, 0] = some true ∧
    ∃ record, sendChunk true some 3 [1, 0, 0, 0, 0, 0, 0, 0, 1, 0, 0, 0, 0, 0, 0, 0] = some record ∧
      filled record 16 = [1, 0, 0, 0, 1, 0, 0, 0, 1, 0, 0, 0, 1, 0, 0, 0] ∧
      filled record 16 ≠ [1, 0, 0, 0, 0, 0, 0, 0, 1, 0, 0, 0, 0, 0, 0, 0] :=
  ⟨by decide, _, rfl, by decide, by decide⟩

end Xnbd.Unicolor
