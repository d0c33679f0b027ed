import Xnbd.CInt
import Mathlib.Data.List.Basic
import Mathlib.Data.List.TakeWhile

/-!
# Lines and words as the C library reads them

`fgets`, the `%s` of `sscanf`, `atoi`, `g_strsplit`, and `urllib.quote` of Python,
on lists of bytes.
-/
namespace Xnbd.CText

open CInt

/-- The bytes of a string literal of the source, which are all ASCII. -/
def lit (s : String) : List UInt8 := s.toList.map fun c => c.toNat.toUInt8

/-- The C string in a buffer. -/
def cString (buffer : List UInt8) : List UInt8 := buffer.takeWhile (· ≠ 0)

def newline : UInt8 := 10

def space : UInt8 := 32

def isspace (b : UInt8) : Bool := b = 32 ∨ (9 ≤ b ∧ b ≤ 13)

section Fgets

/-- What `fgets` with a buffer of `size` bytes gives, call after call, until the end
of the stream; `buf` is what the running call has read. -/
def fgetsAll (size : Nat) : List UInt8 → List UInt8 → List (List UInt8)
  | buf, [] => if buf = [] then [] else [buf]
  | buf, b :: rest =>
    if b = newline ∨ buf.length + 2 = size then (buf ++ [b]) :: fgetsAll size [] rest
    else fgetsAll size (buf ++ [b]) rest

/-- A line that fits is read by one call. -/
theorem fgetsAll_fits (size : Nat) {line : List UInt8} (hline : newline ∉ line) :
    ∀ buf, buf.length + line.length + 1 < size →
      fgetsAll size buf (line ++ [newline]) = [buf ++ line ++ [newline]] := by
  induction line with
  | nil =>
    intro buf _
    simp [fgetsAll]
  | cons b line ih =>
    intro buf hsize
    have hb : newline ≠ b := fun h => hline (h ▸ List.mem_cons_self)
    have hrest : newline ∉ line := fun h => hline (List.mem_cons_of_mem _ h)
    rw [List.length_cons] at hsize
    have hgo : ¬ (b = newline ∨ buf.length + 2 = size) := by
      rintro (h | h)
      · exact hb h.symm
      · omega
    simp only [List.cons_append, fgetsAll, if_neg hgo]
    rw [ih hrest _ (by simp; omega)]
    simp

/-- What one `read` does for a running call that has copied `copied`: what has been copied
then and, if the call returns, what the stream has read ahead. -/
def fgetsRead (size : Nat) : List UInt8 → List UInt8 → List UInt8 × Option (List UInt8)
  | copied, [] => (copied, none)
  | copied, b :: rest =>
    if b = newline ∨ copied.length + 2 = size then (copied ++ [b], some rest)
    else fgetsRead size (copied ++ [b]) rest

theorem fgetsRead_none {size : Nat} {read copied copied' : List UInt8}
    (h : fgetsRead size copied read = (copied', none)) :
    newline ∉ read ∧ ∀ rest, fgetsAll size copied (read ++ rest) = fgetsAll size copied' rest := by
  induction read generalizing copied with
  | nil =>
    cases h
    exact ⟨List.not_mem_nil, fun _ => rfl⟩
  | cons b read ih =>
    simp only [fgetsRead] at h
    split at h
    · cases h
    · rename_i hgo
      obtain ⟨hread, hrest⟩ := ih h
      constructor
      · intro hmem
        cases List.mem_cons.mp hmem with
        | inl hb => exact hgo (.inl hb.symm)
        | inr hmem => exact hread hmem
      · intro rest
        rw [List.cons_append, fgetsAll, if_neg hgo, hrest]

/-- A call that goes on has copied all that was read. -/
theorem fgetsRead_copied {size : Nat} {read copied copied' : List UInt8}
    (h : fgetsRead size copied read = (copied', none)) : copied' = copied ++ read := by
  induction read generalizing copied with
  | nil =>
    cases h
    simp
  | cons b read ih =>
    simp only [fgetsRead] at h
    split at h
    · cases h
    · rw [ih h, List.append_assoc, List.singleton_append]

theorem fgetsRead_some {size : Nat} {read copied piece ahead : List UInt8}
    (h : fgetsRead size copied read = (piece, some ahead)) (rest : List UInt8) :
    fgetsAll size copied (read ++ rest) = piece :: fgetsAll size [] (ahead ++ rest) := by
  induction read generalizing copied with
  | nil => cases h
  | cons b read ih =>
    simp only [fgetsRead] at h
    split at h
    · rename_i hends
      cases h
      rw [List.cons_append, fgetsAll, if_pos hends]
    · rename_i hgo
      rw [List.cons_append, fgetsAll, if_neg hgo, ih h]

/-- Bytes behind those that a call needs are read ahead. -/
theorem fgetsRead_append {size : Nat} {read copied piece ahead : List UInt8}
    (h : fgetsRead size copied read = (piece, some ahead)) (more : List UInt8) :
    fgetsRead size copied (read ++ more) = (piece, some (ahead ++ more)) := by
  induction read generalizing copied with
  | nil => cases h
  | cons b read ih =>
    simp only [fgetsRead] at h
    rw [List.cons_append, fgetsRead]
    split at h
    · rename_i hends
      cases h
      rw [if_pos hends]
    · rename_i hgo
      rw [if_neg hgo]
      exact ih h

/-- A line that fits ends a call, and what is behind it is read ahead. -/
theorem fgetsRead_fits (size : Nat) {line : List UInt8} (hline : newline ∉ line)
    (rest : List UInt8) : ∀ copied, copied.length + line.length + 1 < size →
      fgetsRead size copied (line ++ newline :: rest) = (copied ++ line ++ [newline], some rest) := by
  induction line with
  | nil =>
    intro copied _
    simp [fgetsRead]
  | cons b line ih =>
    intro copied hsize
    have hb : newline ≠ b := fun h => hline (h ▸ List.mem_cons_self)
    have hrest : newline ∉ line := fun h => hline (List.mem_cons_of_mem _ h)
    rw [List.length_cons] at hsize
    have hgo : ¬ (b = newline ∨ copied.length + 2 = size) := by
      rintro (h | h)
      · exact hb h.symm
      · omega
    simp only [List.cons_append, fgetsRead, if_neg hgo]
    rw [ih hrest _ (by simp; omega)]
    simp

end Fgets

section Words

/-- One `%s` of `sscanf`, with what comes after it. -/
def scanWord (s : List UInt8) : Option (List UInt8 × List UInt8) :=
  match s.dropWhile isspace with
  | [] => none
  | b :: rest =>
    some ((b :: rest).takeWhile fun b => !isspace b, (b :: rest).dropWhile fun b => !isspace b)

/-- `sscanf(s, "%s%s", cmd, arg)`; the second word may be missing. -/
def scanTwo (s : List UInt8) : Option (List UInt8 × Option (List UInt8)) :=
  (scanWord s).map fun m => (m.1, (scanWord m.2).map Prod.fst)

theorem scanWord_append {word : List UInt8} (rest : List UInt8) (hne : word ≠ [])
    (hword : ∀ b ∈ word, isspace b = false) (hrest : ∀ b ∈ rest.head?, isspace b = true) :
    scanWord (word ++ rest) = some (word, rest) := by
  cases word with
  | nil => exact absurd rfl hne
  | cons b word =>
    have hb : isspace b = false := hword b List.mem_cons_self
    have htake : ((b :: word) ++ rest).takeWhile (fun b => !isspace b) = b :: word := by
      rw [List.takeWhile_append_of_pos (by simpa using hword)]
      cases rest with
      | nil => simp
      | cons c rest => simp [hrest c rfl]
    have hdrop : ((b :: word) ++ rest).dropWhile (fun b => !isspace b) = rest := by
      rw [List.dropWhile_append_of_pos (by simpa using hword)]
      cases rest with
      | nil => rfl
      | cons c rest => simp [hrest c rfl]
    rw [List.cons_append] at htake hdrop ⊢
    simp only [scanWord, List.dropWhile_cons, hb, Bool.false_eq_true, if_false, htake, hdrop]

theorem scanWord_space {s : List UInt8} {b : UInt8} (hb : isspace b = true) :
    scanWord (b :: s) = scanWord s := by
  simp only [scanWord, List.dropWhile_cons, hb, if_true]

/-- `atoi` of the GNU C library: `strtol` stops at the limits of a `long`, and the
result is cut to an `int`. -/
def atoi (s : List UInt8) : Int :=
  let digits : List UInt8 → Nat := fun s =>
    (s.takeWhile fun b => 48 ≤ b ∧ b ≤ 57).foldl (fun n b => 10 * n + (b.toNat - 48)) 0
  match s.dropWhile isspace with
  | 45 :: rest => toInt32 (max (-2 ^ 63) (-(digits rest : Int)))
  | 43 :: rest => toInt32 (min (2 ^ 63 - 1) (digits rest))
  | rest => toInt32 (min (2 ^ 63 - 1) (digits rest))

theorem isDigit_byte {c : Char} (h : c.isDigit = true) :
    48 ≤ c.toNat ∧ c.toNat ≤ 57 := by
  simp only [Char.isDigit, Bool.and_eq_true, decide_eq_true_eq, ge_iff_le] at h
  exact ⟨h.1, h.2⟩

/-- The bytes of a numeral. -/
theorem lit_toString (n : Nat) :
    lit (toString n) = (Nat.toDigits 10 n).map fun c => c.toNat.toUInt8 := by
  rw [lit, show toString n = n.repr from rfl, Nat.toList_repr]

theorem digit_toNat {c : Char} (h : c.isDigit = true) : (c.toNat.toUInt8).toNat = c.toNat := by
  obtain ⟨h0, h1⟩ := isDigit_byte h
  simp only [Nat.toUInt8, UInt8.toNat_ofNat']
  omega

theorem foldl_digits {chars : List Char} (h : ∀ c ∈ chars, c.isDigit = true) (init : Nat) :
    (chars.map fun c => c.toNat.toUInt8).foldl (fun n b => 10 * n + (b.toNat - 48)) init =
      Nat.ofDigitChars 10 chars init := by
  induction chars generalizing init with
  | nil => rfl
  | cons c chars ih =>
    rw [List.map_cons, List.foldl_cons, Nat.ofDigitChars_cons, digit_toNat (h c List.mem_cons_self)]
    exact ih (fun d hd => h d (List.mem_cons_of_mem _ hd)) _

theorem digit_bytes (n : Nat) : ∀ b ∈ lit (toString n), 48 ≤ b.toNat ∧ b.toNat ≤ 57 := by
  have hdigits : ∀ c ∈ Nat.toDigits 10 n, c.isDigit = true :=
    fun c hc => Nat.isDigit_of_mem_toDigits (by omega) (by omega) hc
  intro b hb
  rw [lit_toString] at hb
  obtain ⟨c, hc, rfl⟩ := List.mem_map.mp hb
  rw [digit_toNat (hdigits c hc)]
  exact isDigit_byte (hdigits c hc)

/-- The digits of a numeral are read back. -/
theorem digits_toString (n : Nat) :
    ((lit (toString n)).takeWhile fun b => 48 ≤ b ∧ b ≤ 57).foldl
      (fun n b => 10 * n + (b.toNat - 48)) 0 = n := by
  have hdigits : ∀ c ∈ Nat.toDigits 10 n, c.isDigit = true :=
    fun c hc => Nat.isDigit_of_mem_toDigits (by omega) (by omega) hc
  have htake : (lit (toString n)).takeWhile (fun b => 48 ≤ b ∧ b ≤ 57) = lit (toString n) := by
    rw [List.takeWhile_eq_self_iff]
    intro b hb
    simp only [UInt8.le_iff_toNat_le, UInt8.reduceToNat, decide_eq_true_eq]
    exact digit_bytes n b hb
  rw [htake, lit_toString, foldl_digits hdigits, Nat.ofDigitChars_ten_toDigits]

theorem atoi_natural (n : Nat) : atoi (lit (toString n)) = toInt32 (min (2 ^ 63 - 1) n) := by
  have hall := digit_bytes n
  have hvalue := digits_toString n
  generalize lit (toString n) = s at hall hvalue
  cases s with
  | nil =>
    have hn : n = 0 := hvalue.symm
    subst hn
    rfl
  | cons b rest =>
    have hb := hall b List.mem_cons_self
    have hspace : isspace b = false := by
      simp only [isspace, UInt8.le_iff_toNat_le, ← UInt8.toNat_inj, UInt8.reduceToNat,
        decide_eq_false_iff_not]
      omega
    simp only [atoi, List.dropWhile_cons, hspace, Bool.false_eq_true, if_false]
    split
    · rename_i heq
      cases heq
      exact absurd hb (by decide)
    · rename_i heq
      cases heq
      exact absurd hb (by decide)
    · rw [hvalue]

theorem atoi_negative (n : Nat) :
    atoi (lit (toString (Int.negSucc n))) = toInt32 (max (-2 ^ 63) (Int.negSucc n)) := by
  have htext : lit (toString (Int.negSucc n)) = 45 :: lit (toString (n + 1)) := by
    rw [lit, show toString (Int.negSucc n) = "-" ++ toString (n + 1) from rfl, String.toList_append,
      List.map_append]
    rfl
  have hspace : isspace 45 = false := by decide
  rw [htext]
  simp only [atoi, List.dropWhile_cons, hspace, Bool.false_eq_true, if_false]
  rw [digits_toString]
  rfl

/-- `atoi` reads a numeral back that is in the range of an `int`. -/
theorem atoi_int {n : Int} (h0 : -2 ^ 31 ≤ n) (h1 : n < 2 ^ 31) : atoi (lit (toString n)) = n := by
  cases n with
  | ofNat n =>
    have hlt : (n : Int) < 2 ^ 31 := h1
    have hmin : min (2 ^ 63 - 1) (n : Int) = n := by omega
    rw [show toString (Int.ofNat n) = toString n from rfl, atoi_natural, hmin]
    exact toInt32_of_range h0 h1
  | negSucc n =>
    have hmax : max (-2 ^ 63) (Int.negSucc n) = Int.negSucc n := by omega
    rw [atoi_negative, hmax]
    exact toInt32_of_range h0 h1

theorem atoi_toString {n : Nat} (h : n < 2 ^ 31) : atoi (lit (toString n)) = n :=
  atoi_int (n := n) (by omega) (by omega)

/-- `g_strsplit` after its first `n` tokens but one; `token` is what has been read of
the current one. -/
def splitTokens (sep : UInt8) : Nat → List UInt8 → List UInt8 → List (List UInt8)
  | _, token, [] => [token]
  | n, token, b :: rest =>
    if b = sep ∧ 1 < n then token :: splitTokens sep (n - 1) [] rest
    else splitTokens sep n (token ++ [b]) rest

/-- `g_strsplit` with at least one token allowed. -/
def gStrsplit (s : List UInt8) (sep : UInt8) (maxTokens : Nat) : List (List UInt8) :=
  if s = [] then [] else splitTokens sep maxTokens [] s

theorem splitTokens_plain {sep : UInt8} {word : List UInt8} (hword : sep ∉ word) (rest : List UInt8)
    (n : Nat) : ∀ token, splitTokens sep n token (word ++ rest) =
      splitTokens sep n (token ++ word) rest := by
  induction word with
  | nil =>
    intro token
    simp
  | cons b word ih =>
    intro token
    have hb : sep ≠ b := fun h => hword (h ▸ List.mem_cons_self)
    have hrest : sep ∉ word := fun h => hword (List.mem_cons_of_mem _ h)
    have hgo : ¬ (b = sep ∧ 1 < n) := fun h => hb h.1.symm
    simp only [List.cons_append, splitTokens, if_neg hgo]
    rw [ih hrest]
    simp

/-- Words joined by single separators are split as they were joined. -/
theorem splitTokens_join {sep : UInt8} {words : List (List UInt8)} (hwords : ∀ w ∈ words, sep ∉ w) :
    ∀ {n : Nat} (token : List UInt8), words.length < n →
      splitTokens sep n token (words.flatMap fun w => sep :: w) = token :: words := by
  induction words with
  | nil =>
    intro n token _
    rfl
  | cons w words ih =>
    intro n token hn
    rw [List.length_cons] at hn
    have hgo : 1 < n := by omega
    have hplain := splitTokens_plain (hwords w List.mem_cons_self)
      (words.flatMap fun w => sep :: w) (n - 1) []
    simp only [List.flatMap_cons, List.cons_append, splitTokens, hgo, and_self, if_true, hplain]
    rw [List.nil_append, ih (fun v hv => hwords v (List.mem_cons_of_mem _ hv)) w (by omega)]

end Words

section Quote

/-- What `urllib.quote` leaves as it is: letters, digits and `_`, `.`, `-`, `/`. -/
def quoteSafe (b : UInt8) : Bool :=
  (48 ≤ b ∧ b ≤ 57) ∨ (65 ≤ b ∧ b ≤ 90) ∨ (97 ≤ b ∧ b ≤ 122) ∨ b = 95 ∨ b = 46 ∨ b = 45 ∨ b = 47

/-- An upper case hexadecimal digit. -/
def hexDigit (n : Nat) : UInt8 := if n < 10 then (48 + n).toUInt8 else (55 + n).toUInt8

def percent : UInt8 := 37

def quoteByte (b : UInt8) : List UInt8 :=
  if quoteSafe b then [b] else [percent, hexDigit (b.toNat / 16), hexDigit (b.toNat % 16)]

/-- `urllib.quote`. -/
def quote (s : List UInt8) : List UInt8 := s.flatMap quoteByte

theorem quoteSafe_plain {b : UInt8} (h : quoteSafe b = true) :
    isspace b = false ∧ b ≠ 0 ∧ b ≠ percent := by
  simp only [quoteSafe, isspace, percent, UInt8.le_iff_toNat_le, ← UInt8.toNat_inj, ne_eq,
    decide_eq_true_eq, decide_eq_false_iff_not, UInt8.reduceToNat] at h ⊢
  omega

theorem hexDigit_plain : ∀ n < 16, isspace (hexDigit n) = false ∧ hexDigit n ≠ 0 := by decide

theorem quoteByte_plain {c b : UInt8} (h : b ∈ quoteByte c) : isspace b = false ∧ b ≠ 0 := by
  have hc : c.toNat < 256 := c.toNat_lt
  simp only [quoteByte] at h
  split at h
  · rename_i hsafe
    cases List.mem_singleton.mp h
    obtain ⟨hspace, hnul, _⟩ := quoteSafe_plain hsafe
    exact ⟨hspace, hnul⟩
  · simp only [List.mem_cons, List.not_mem_nil, or_false] at h
    obtain rfl | rfl | rfl := h
    · decide
    · exact hexDigit_plain _ (by omega)
    · exact hexDigit_plain _ (by omega)

/-- A quoted text has no white space and no NUL. -/
theorem quote_plain {s : List UInt8} : ∀ b ∈ quote s, isspace b = false ∧ b ≠ 0 := by
  intro b hb
  obtain ⟨c, _, hbc⟩ := List.mem_flatMap.mp hb
  exact quoteByte_plain hbc

theorem quote_ne_nil {s : List UInt8} (h : s ≠ []) : quote s ≠ [] := by
  cases s with
  | nil => exact absurd rfl h
  | cons b s =>
    simp only [quote, List.flatMap_cons, quoteByte]
    split <;> simp

end Quote

end Xnbd.CText
