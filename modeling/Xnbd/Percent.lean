import Xnbd.ControlLine

/-!
# Percent decoding in place (`decode_percent_encoding`)

The function works on one buffer with two heads. What it leaves there is compared
with the rule of `urllib.unquote`, which knows nothing of heads and buffers.
-/
namespace Xnbd.Percent

open CText ControlLine Run

section Heads

/-- The buffer of the text, and the indices of `read_head` and `write_head` in it. -/
structure Heads where
  buffer : List UInt8
  readHead : Nat
  writeHead : Nat
  deriving DecidableEq

/-- `read_head[k]`. -/
def Heads.peek (s : Heads) (k : Nat) : UInt8 := s.buffer.getD (s.readHead + k) 0

/-- `ADVANCE_COPY_ONE_CHAR`. -/
def advanceCopyOneChar (s : Heads) : Heads where
  buffer := if s.writeHead < s.readHead then s.buffer.set s.writeHead (s.peek 0) else s.buffer
  readHead := s.readHead + 1
  writeHead := s.writeHead + 1

/-- `ADVANCE_COPY_TWO_CHARS`. The second byte is read after the first is written. -/
def advanceCopyTwoChars (s : Heads) : Heads where
  buffer :=
    if s.writeHead < s.readHead then
      let s₁ : Heads := { s with buffer := s.buffer.set s.writeHead (s.peek 0) }
      s₁.buffer.set (s.writeHead + 1) (s₁.peek 1)
    else s.buffer
  readHead := s.readHead + 2
  writeHead := s.writeHead + 2

/-- The body of the loop. -/
def body (s : Heads) : Heads :=
  if s.peek 0 ≠ percent ∨ s.peek 1 = 0 then advanceCopyOneChar s
  else
    match hexdigCharToInt (s.peek 1) with
    -- could still be a new `%`, so it is looked at again
    | none => advanceCopyOneChar s
    | some higher =>
      if s.peek 2 = 0 then advanceCopyTwoChars s
      else
        match hexdigCharToInt (s.peek 2) with
        | none => advanceCopyTwoChars s
        | some lower =>
          { buffer := s.buffer.set s.writeHead (UInt8.ofNat (16 * higher + lower))
            readHead := s.readHead + 3
            writeHead := s.writeHead + 1 }

/-- One round of `while (read_head[0])`; `none` leaves the loop. -/
def step (s : Heads) (_ : Unit) : Option Heads := if s.peek 0 = 0 then none else some (body s)

def enter (buffer : List UInt8) : Heads := ⟨buffer, 0, 0⟩

/-- The buffer after the last statement of the function. -/
def leave (s : Heads) : List UInt8 :=
  if s.writeHead < s.readHead then s.buffer.set s.writeHead 0 else s.buffer

end Heads

section Rule

/-- The digits of base 16 in order, in lower case. -/
def hexDigits : List UInt8 := lit "0123456789abcdef"

def toLower (c : UInt8) : UInt8 := if 65 ≤ c ∧ c ≤ 90 then c + 32 else c

/-- The value of a hexadecimal digit of either case. -/
def hexValue (c : UInt8) : Option Nat :=
  if toLower c ∈ hexDigits then some (hexDigits.idxOf (toLower c)) else none

/-- `urllib.unquote`: from left to right, a `%` and two digits are the byte that they
denote, and any other byte is itself. -/
def unquote : List UInt8 → List UInt8
  | [] => []
  | [c] => [c]
  | [c, d] => [c, d]
  | c :: high :: low :: rest =>
    if c = percent then
      match hexValue high, hexValue low with
      | some h, some l => UInt8.ofNat (16 * h + l) :: unquote rest
      | _, _ => c :: unquote (high :: low :: rest)
    else c :: unquote (high :: low :: rest)

/-- The two tables of digits agree on every byte. -/
theorem hexdigCharToInt_eq (c : UInt8) : hexdigCharToInt c = hexValue c := by
  have hall : ∀ n : Fin 256, hexdigCharToInt (UInt8.ofNat n) = hexValue (UInt8.ofNat n) := by
    decide +kernel
  have h := hall ⟨c.toNat, c.toNat_lt⟩
  rwa [UInt8.ofNat_toNat] at h

/-- A digit is not a `%`. -/
theorem ne_percent_of_hexValue {c : UInt8} {n : Nat} (h : hexValue c = some n) : c ≠ percent := by
  rintro rfl
  have hnone : hexValue percent = none := by decide +kernel
  rw [hnone] at h
  cases h

theorem unquote_plain {c : UInt8} (h : c ≠ percent) (rest : List UInt8) :
    unquote (c :: rest) = c :: unquote rest := by
  cases rest with
  | nil => rfl
  | cons d rest =>
    cases rest with
    | nil => rfl
    | cons e rest => rw [unquote, if_neg h]

/-- The byte after the `%` is no digit, and may itself be a `%`. -/
theorem unquote_high {d : UInt8} (h : hexValue d = none) (rest : List UInt8) :
    unquote (percent :: d :: rest) = percent :: unquote (d :: rest) := by
  cases rest with
  | nil => rfl
  | cons e rest => simp only [unquote, if_true, h]

theorem unquote_low {d e : UInt8} {n : Nat} (hd : hexValue d = some n) (he : hexValue e = none)
    (rest : List UInt8) :
    unquote (percent :: d :: e :: rest) = percent :: d :: unquote (e :: rest) := by
  rw [← unquote_plain (ne_percent_of_hexValue hd)]
  simp only [unquote, if_true, hd, he]

theorem unquote_escape {d e : UInt8} {h l : Nat} (hd : hexValue d = some h)
    (he : hexValue e = some l) (rest : List UInt8) :
    unquote (percent :: d :: e :: rest) = UInt8.ofNat (16 * h + l) :: unquote rest := by
  simp only [unquote, if_true, hd, he]

/-- What `decode_percent_encoding` writes is what the rule gives. -/
theorem decodeLoop_eq (text : List UInt8) : decodeLoop text = unquote text := by
  induction text using decodeLoop.induct with
  | case1 => rfl
  | case2 c => rfl
  | case3 c d rest hc ih => rw [decodeLoop, if_pos hc, ih, unquote_plain hc]
  | case4 c d rest hc hd ih =>
    have hd' := hexdigCharToInt_eq d ▸ hd
    cases not_not.mp hc
    simp only [decodeLoop, hd, ih, unquote_high hd']
    rfl
  | case5 c d hc h hd =>
    simp only [decodeLoop, if_neg hc, hd]
    rfl
  | case6 c d hc h hd e rest he ih =>
    have hd' := hexdigCharToInt_eq d ▸ hd
    have he' := hexdigCharToInt_eq e ▸ he
    cases not_not.mp hc
    simp only [decodeLoop, hd, he, ih, unquote_low hd' he']
    rfl
  | case7 c d hc h hd e rest l he ih =>
    have hd' := hexdigCharToInt_eq d ▸ hd
    have he' := hexdigCharToInt_eq e ▸ he
    cases not_not.mp hc
    simp only [decodeLoop, hd, he, ih, unquote_escape hd' he']
    rfl

end Rule

section Scan

variable {text beyond : List UInt8} {s t : Heads}

/-- The loop in the middle of its work on `text`: the bytes that are written, those that
are read and not yet written over, and those to come. -/
structure At (text beyond : List UInt8) (s : Heads) (written gap rest : List UInt8) : Prop where
  buffer : s.buffer = written ++ gap ++ rest ++ 0 :: beyond
  write : s.writeHead = written.length
  read : s.readHead = written.length + gap.length
  unread : ∃ past, past.length = s.readHead ∧ text = past ++ rest
  result : written ++ unquote rest = unquote text

theorem at_enter (text beyond : List UInt8) :
    At text beyond (enter (text ++ 0 :: beyond)) [] [] text where
  buffer := rfl
  write := rfl
  read := rfl
  unread := ⟨[], rfl, rfl⟩
  result := rfl

variable {written gap rest : List UInt8}

/-- The read head sees what is to come, and after it the NUL. -/
theorem At.peek (h : At text beyond s written gap rest) (k : Nat) :
    s.peek k = (rest ++ 0 :: beyond).getD k 0 := by
  rw [Heads.peek, h.buffer, h.read, List.append_assoc, ← List.length_append,
    List.getD_eq_getElem?_getD, List.getElem?_append_right (Nat.le_add_right _ _),
    Nat.add_sub_cancel_left, List.getD_eq_getElem?_getD]

/-- Some bytes are read, and one byte is written that stands for them. -/
theorem At.emit {rest : List UInt8} (eaten : List UInt8) {b : UInt8} {n : Nat}
    (h : At text beyond s written gap (eaten ++ rest)) (hn : eaten.length = n + 1)
    (hb : b :: unquote rest = unquote (eaten ++ rest)) :
    At text beyond ⟨s.buffer.set s.writeHead b, s.readHead + (n + 1), s.writeHead + 1⟩
      (written ++ [b]) (gap ++ eaten).tail rest where
  buffer := by
    obtain ⟨x, more, hmore⟩ : ∃ x more, gap ++ eaten = x :: more :=
      List.exists_cons_of_ne_nil (by simp [← List.length_pos_iff, hn])
    have hbuffer : s.buffer = written ++ x :: (more ++ (rest ++ 0 :: beyond)) := by
      rw [h.buffer, ← List.cons_append, ← hmore]
      simp
    rw [hmore, h.write, hbuffer, List.set_append_right _ _ (Nat.le_refl _), Nat.sub_self]
    simp
  write := by simp [h.write]
  read := by simp [h.read, hn]; omega
  unread := by
    obtain ⟨past, hlength, htext⟩ := h.unread
    exact ⟨past ++ eaten, by simp [hlength, hn], by simp [htext]⟩
  result := by rw [← h.result, ← hb, List.append_assoc, List.singleton_append]

/-- Copying a byte is writing it, also where both heads are at the same place. -/
theorem advanceCopyOneChar_eq {c : UInt8} (h : At text beyond s written gap (c :: rest)) :
    advanceCopyOneChar s = ⟨s.buffer.set s.writeHead c, s.readHead + 1, s.writeHead + 1⟩ := by
  have hpeek : s.peek 0 = c := by simp [h.peek]
  have hbuffer : (if s.writeHead < s.readHead then s.buffer.set s.writeHead c else s.buffer) =
      s.buffer.set s.writeHead c := by
    split
    · rfl
    · rename_i hsame
      have hgap : gap = [] := by
        rw [h.write, h.read] at hsame
        exact List.length_eq_zero_iff.mp (by omega)
      rw [h.write, h.buffer, hgap]
      simp [List.set_append_right]
  simp only [advanceCopyOneChar, hpeek, hbuffer]

theorem At.copy {c : UInt8} (h : At text beyond s written gap (c :: rest))
    (hc : unquote (c :: rest) = c :: unquote rest) :
    At text beyond (advanceCopyOneChar s) (written ++ [c]) (gap ++ [c]).tail rest := by
  rw [advanceCopyOneChar_eq h]
  exact At.emit (n := 0) [c] h rfl hc.symm

/-- The second byte is not one that the first has been written over. -/
theorem advanceCopyTwoChars_eq (s : Heads) :
    advanceCopyTwoChars s = advanceCopyOneChar (advanceCopyOneChar s) := by
  simp only [advanceCopyTwoChars, advanceCopyOneChar, Nat.add_lt_add_iff_right]
  split <;> rfl

/-- One round, with a byte still to come. -/
theorem At.round {c : UInt8} (h : At text beyond s written gap (c :: rest)) (hnul : 0 ∉ c :: rest) :
    ∃ written' gap' rest', At text beyond (body s) written' gap' rest' ∧ rest' <:+ rest := by
  have hc : s.peek 0 = c := by simp [h.peek]
  by_cases hp : c = percent
  · subst hp
    cases rest with
    | nil =>
      have hend : s.peek 1 = 0 := by simp [h.peek]
      simp only [body, hc, hend, or_true, if_true]
      exact ⟨_, _, _, h.copy rfl, List.suffix_rfl⟩
    | cons d rest =>
      have hd : s.peek 1 = d := by simp [h.peek]
      have hd0 : d ≠ 0 := fun h0 => hnul (by simp [h0])
      have hgo : ¬ (s.peek 0 ≠ percent ∨ s.peek 1 = 0) := by simp [hc, hd, hd0]
      rw [body, if_neg hgo, hd, hexdigCharToInt_eq]
      cases hv : hexValue d with
      | none => exact ⟨_, _, _, h.copy (unquote_high hv rest), List.suffix_rfl⟩
      | some n =>
        have hdp := ne_percent_of_hexValue hv
        cases rest with
        | nil =>
          have hend : s.peek 2 = 0 := by simp [h.peek]
          simp only [hend, if_true]
          rw [advanceCopyTwoChars_eq]
          exact ⟨_, _, _, (h.copy rfl).copy rfl, List.nil_suffix⟩
        | cons e rest =>
          have he : s.peek 2 = e := by simp [h.peek]
          have he0 : e ≠ 0 := fun h0 => hnul (by simp [h0])
          simp only [he, if_neg he0, hexdigCharToInt_eq]
          cases hw : hexValue e with
          | none =>
            have hfirst : unquote (percent :: d :: e :: rest) =
                percent :: unquote (d :: e :: rest) := by
              rw [unquote_low hv hw, unquote_plain hdp]
            simp only [advanceCopyTwoChars_eq]
            exact ⟨_, _, _, (h.copy hfirst).copy (unquote_plain hdp _), List.suffix_cons d _⟩
          | some l =>
            exact ⟨_, _, _, At.emit (n := 2) [percent, d, e] h rfl
              (unquote_escape hv hw rest).symm, (List.suffix_cons e _).trans (List.suffix_cons d _)⟩
  · simp only [body, hc, ne_eq, hp, not_false_eq_true, true_or, if_true]
    exact ⟨_, _, _, h.copy (unquote_plain hp rest), List.suffix_rfl⟩

/-- What holds before every round. -/
def Scanning (text beyond : List UInt8) (s : Heads) : Prop :=
  ∃ written gap rest, At text beyond s written gap rest

theorem At.behind (h : At text beyond s written gap rest) :
    s.writeHead ≤ s.readHead ∧
      s.buffer.drop s.readHead = (text ++ 0 :: beyond).drop s.readHead := by
  obtain ⟨past, hlength, htext⟩ := h.unread
  constructor
  · rw [h.write, h.read]
    exact Nat.le_add_right _ _
  · rw [htext, List.append_assoc, List.drop_left' hlength, h.buffer, List.append_assoc,
      List.drop_left' (by rw [h.read, List.length_append])]

theorem At.length (h : At text beyond s written gap rest) :
    s.readHead + rest.length = text.length := by
  obtain ⟨past, hlength, htext⟩ := h.unread
  rw [htext, List.length_append, hlength]

theorem At.nul (h : At text beyond s written gap rest) (htext : 0 ∉ text) : 0 ∉ rest := by
  obtain ⟨past, -, rfl⟩ := h.unread
  exact fun hmem => htext (List.mem_append_right _ hmem)

/-- The loop stops at the NUL, and a round before it makes the unread part shorter. -/
theorem At.step (h : At text beyond s written gap rest) (htext : 0 ∉ text) :
    (rest = [] ∧ step s () = none) ∨
      ∃ t written' gap' rest', step s () = some t ∧ At text beyond t written' gap' rest' ∧
        rest'.length < rest.length := by
  cases rest with
  | nil =>
    left
    have hend : s.peek 0 = 0 := by simp [h.peek]
    exact ⟨rfl, by rw [Percent.step, if_pos hend]⟩
  | cons c rest =>
    right
    have hnul := h.nul htext
    have hc : s.peek 0 ≠ 0 := by
      have hpeek : s.peek 0 = c := by simp [h.peek]
      rw [hpeek]
      rintro rfl
      exact hnul List.mem_cons_self
    obtain ⟨written', gap', rest', hat, hsuffix⟩ := h.round hnul
    exact ⟨body s, written', gap', rest', by rw [Percent.step, if_neg hc], hat,
      Nat.lt_succ_of_le hsuffix.length_le⟩

theorem step_scanning (htext : 0 ∉ text) (h : Scanning text beyond s) (hs : step s () = some t) :
    Scanning text beyond t ∧ text.length - t.readHead < text.length - s.readHead := by
  obtain ⟨written, gap, rest, hat⟩ := h
  cases hat.step htext with
  | inl hend =>
    rw [hend.2] at hs
    cases hs
  | inr hgo =>
    obtain ⟨t', written', gap', rest', hs', hat', hshort⟩ := hgo
    rw [hs'] at hs
    cases hs
    have hlength := hat.length
    have hlength' := hat'.length
    exact ⟨⟨written', gap', rest', hat'⟩, by omega⟩

theorem cString_cut (before after : List UInt8) : cString (before ++ 0 :: after) = cString before := by
  induction before with
  | nil => simp [cString]
  | cons b before ih =>
    simp only [cString, List.cons_append, List.takeWhile_cons] at ih ⊢
    rw [ih]

/-- When nothing is left to read, the buffer holds what the rule gives. -/
theorem At.leave (h : At text beyond s written gap []) :
    cString (leave s) = cString (unquote text) := by
  have hresult : written = unquote text := by
    have := h.result
    rwa [unquote, List.append_nil] at this
  have hbuffer := h.buffer
  rw [List.append_nil] at hbuffer
  rw [Percent.leave, hbuffer, h.write, h.read, ← hresult]
  cases gap with
  | nil =>
    rw [if_neg (by simp), List.append_nil]
    exact cString_cut written beyond
  | cons x gap =>
    rw [if_pos (by simp), List.append_assoc, List.set_append_right _ _ (Nat.le_refl _), Nat.sub_self]
    exact cString_cut written _

/-- From any place the loop comes to its end. -/
theorem At.run (htext : 0 ∉ text) (h : At text beyond s written gap rest) :
    ∃ rounds t, run Percent.step s rounds = some t ∧ Percent.step t () = none ∧
      cString (Percent.leave t) = cString (unquote text) := by
  induction hn : rest.length using Nat.strong_induction_on generalizing s written gap rest with
  | _ n ih =>
    cases h.step htext with
    | inl hend =>
      obtain ⟨hnil, hstop⟩ := hend
      subst hnil
      exact ⟨[], s, rfl, hstop, h.leave⟩
    | inr hgo =>
      obtain ⟨t, written', gap', rest', hs, hat, hshort⟩ := hgo
      obtain ⟨rounds, u, hrun, hstop, hresult⟩ := ih rest'.length (hn ▸ hshort) hat rfl
      exact ⟨() :: rounds, u, by rw [run_step hs, hrun], hstop, hresult⟩

end Scan

/-- The value that the other modules take for the result is what stands in the buffer. -/
theorem decodePercentEncoding_eq (text : List UInt8) :
    decodePercentEncoding text = cString (unquote text) := by
  rw [decodePercentEncoding, decodeLoop_eq]

/-- The buffer holds a text with its NUL, and whatever comes after it. -/
theorem decode_in_place (text beyond : List UInt8) (htext : 0 ∉ text) :
    (∀ rounds s, run step (enter (text ++ 0 :: beyond)) rounds = some s →
      s.writeHead ≤ s.readHead ∧
      s.buffer.drop s.readHead = (text ++ 0 :: beyond).drop s.readHead ∧
      rounds.length ≤ text.length) ∧
    ∃ rounds s, run step (enter (text ++ 0 :: beyond)) rounds = some s ∧ step s () = none ∧
      cString (leave s) = cString (unquote text) := by
  constructor
  · intro rounds s h
    have hall := along_true step (enter (text ++ 0 :: beyond)) rounds
    have henter : Scanning text beyond (enter (text ++ 0 :: beyond)) :=
      ⟨_, _, _, at_enter text beyond⟩
    obtain ⟨written, gap, rest, hat⟩ := run_invariant
      (fun _ _ _ hi _ hs => (step_scanning htext hi hs).1) henter hall h
    obtain ⟨hle, hunread⟩ := hat.behind
    have hrounds := @run_bounded _ _ step _ (Scanning text beyond)
      (fun s => text.length - s.readHead) (fun _ _ _ hi _ hs => step_scanning htext hi hs) _ _ _
      henter hall h
    have hstart : (enter (text ++ 0 :: beyond)).readHead = 0 := rfl
    simp only [hstart] at hrounds
    exact ⟨hle, hunread, by omega⟩
  · exact (at_enter text beyond).run htext

/-- A half escape before a whole one. -/
theorem decode_in_place_half :
    0 ∉ lit "%3%5A" ∧ cString (unquote (lit "%3%5A")) = lit "%3Z" ∧
    ∃ rounds s, run step (enter (lit "%3%5A" ++ [0])) rounds = some s ∧ step s () = none ∧
      cString (leave s) = lit "%3Z" := by
  have htext : 0 ∉ lit "%3%5A" := by decide +kernel
  have hrule : cString (unquote (lit "%3%5A")) = lit "%3Z" := by decide +kernel
  obtain ⟨rounds, s, hrun, hstop, hresult⟩ := (decode_in_place (lit "%3%5A") [] htext).2
  exact ⟨htext, hrule, rounds, s, hrun, hstop, by rw [hresult, hrule]⟩

end Xnbd.Percent
