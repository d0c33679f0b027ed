import Mathlib.Data.List.Perm.Basic

/-!
# `getopt_long` of the GNU C library

Options may stand behind operands. A call moves the operands behind the options, and
after the last one the words of the command line have been permuted. A program that sets
`optind` back scans what it has been left.
-/
namespace Xnbd.Getopt

/-- A command line argument, a string of bytes. -/
abbrev Word := List UInt8

def dash : UInt8 := 45

def equals : UInt8 := 61

/-- `struct option`. -/
structure LongOption where
  name : Word
  takesArg : Bool
  value : UInt8
  deriving DecidableEq

/-- The string of the short options, of which some take an argument, and the long ones. -/
structure Options where
  short : List (UInt8 × Bool)
  long : List LongOption

/-- What a call returns. -/
inductive Event where
  | option (value : UInt8) (optarg : Option Word)
  /-- `?` -/
  | error
  deriving DecidableEq

/-- The options in one word, and the one that takes the next word as its argument. -/
structure Parsed where
  events : List Event
  waiting : Option UInt8
  deriving DecidableEq

section Scan

variable (o : Options)

/-- A full name, or an abbreviation that is not ambiguous. -/
def findLong (name : Word) : Option LongOption :=
  match o.long.find? fun l => l.name = name with
  | some l => some l
  | none =>
    match o.long.filter fun l => name.isPrefixOf l.name with
    | [] => none
    | l :: rest =>
      if rest.all fun m => m.takesArg = l.takesArg ∧ m.value = l.value then some l else none

/-- What stands behind two dashes. -/
def parseLong (body : Word) : Parsed :=
  let name := body.takeWhile (· ≠ equals)
  match findLong o name, body.drop name.length with
  | none, _ => ⟨[.error], none⟩
  | some l, [] => if l.takesArg then ⟨[], some l.value⟩ else ⟨[.option l.value none], none⟩
  | some l, _ :: value => ⟨[if l.takesArg then .option l.value (some value) else .error], none⟩

/-- What stands behind one dash. -/
def parseShort : Word → Parsed
  | [] => ⟨[], none⟩
  | c :: rest =>
    match o.short.find? fun s => s.1 = c with
    | none => ⟨.error :: (parseShort rest).events, (parseShort rest).waiting⟩
    | some (_, false) => ⟨.option c none :: (parseShort rest).events, (parseShort rest).waiting⟩
    | some (_, true) => if rest = [] then ⟨[], some c⟩ else ⟨[.option c (some rest)], none⟩

def parse : Word → Parsed
  | _ :: 45 :: body => parseLong o body
  | _ :: body => parseShort o body
  | [] => ⟨[], none⟩

/-- The word is not taken for an operand. -/
def isOption : Word → Bool
  | 45 :: _ :: _ => true
  | _ => false

/-- What a whole scan returns, and how it leaves the words: first those it has consumed, then
`--` if it has met it, then the operands. -/
structure Scan where
  events : List Event
  consumed : List Word
  dashes : Bool
  operands : List Word
  deriving DecidableEq

def Scan.push (events : List Event) (consumed : List Word) (s : Scan) : Scan :=
  { s with events := events ++ s.events, consumed := consumed ++ s.consumed }

def Scan.operand (w : Word) (s : Scan) : Scan := { s with operands := w :: s.operands }

/-- The words after the scan. -/
def Scan.permuted (s : Scan) : List Word :=
  s.consumed ++ ((if s.dashes then [[dash, dash]] else []) ++ s.operands)

def scan : List Word → Scan
  | [] => ⟨[], [], false, []⟩
  | w :: rest =>
    if w = [dash, dash] then ⟨[], [], true, rest⟩
    else if isOption w then
      match (parse o w).waiting, rest with
      | none, rest => (scan rest).push (parse o w).events [w]
      | some c, v :: rest => (scan rest).push ((parse o w).events ++ [.option c (some v)]) [w, v]
      -- the argument is missing
      | some _, [] => ⟨(parse o w).events ++ [.error], [w], false, []⟩
    else (scan rest).operand w

end Scan

section Facts

variable {o : Options} {w v : Word} {rest : List Word}

/-- A word of options that needs no other word. -/
theorem scan_flag (hdashes : w ≠ [dash, dash]) (hoption : isOption w = true)
    (hwaiting : (parse o w).waiting = none) :
    scan o (w :: rest) = (scan o rest).push (parse o w).events [w] := by
  rw [scan.eq_def]
  simp only [if_neg hdashes, hoption, if_true, hwaiting]

/-- A word of options that takes the next word. -/
theorem scan_withArg (hdashes : w ≠ [dash, dash]) (hoption : isOption w = true) {c : UInt8}
    (hwaiting : (parse o w).waiting = some c) :
    scan o (w :: v :: rest) =
      (scan o rest).push ((parse o w).events ++ [.option c (some v)]) [w, v] := by
  rw [scan.eq_def]
  simp only [if_neg hdashes, hoption, if_true, hwaiting]

theorem scan_operand (hoption : isOption w = false) :
    scan o (w :: rest) = (scan o rest).operand w := by
  have hdashes : w ≠ [dash, dash] := by
    rintro rfl
    cases hoption
  rw [scan.eq_def]
  simp only [if_neg hdashes, hoption, Bool.false_eq_true, if_false]

/-- The words are reordered and none is lost. -/
theorem permuted_perm (args : List Word) : (scan o args).permuted.Perm args := by
  fun_induction scan o args with
  | case1 => exact .refl _
  | case2 rest => exact .refl _
  | case3 w rest hdashes hoption hwaiting ih => exact ih.cons w
  | case4 w hdashes hoption c v rest hwaiting ih => exact (ih.cons v).cons w
  | case5 w hdashes hoption c hwaiting => exact .refl _
  | case6 w rest hdashes hoption ih =>
    simp only [Scan.permuted, Scan.operand, ← List.append_assoc] at ih ⊢
    exact List.perm_middle.trans (ih.cons w)

theorem operands_le (args : List Word) : (scan o args).operands.length ≤ args.length := by
  have hlength := (@permuted_perm o args).length_eq
  simp only [Scan.permuted, List.length_append] at hlength
  omega

/-- An option is not counted among the operands. -/
theorem operands_lt {args : List Word} (h : ∃ w ∈ args, isOption w = true) :
    (scan o args).operands.length < args.length := by
  fun_induction scan o args with
  | case1 => simp at h
  | case2 rest => exact Nat.lt_succ_self _
  | case3 w rest hdashes hoption hwaiting ih => exact Nat.lt_succ_of_le (operands_le _)
  | case4 w hdashes hoption c v rest hwaiting ih =>
    have hle := @operands_le o rest
    simp only [Scan.push, List.length_cons]
    omega
  | case5 w hdashes hoption c hwaiting => simp
  | case6 w rest hdashes hoption ih =>
    obtain ⟨v, hv, hv'⟩ := h
    rcases List.mem_cons.mp hv with rfl | hv
    · exact absurd hv' hoption
    · exact Nat.succ_lt_succ (ih ⟨v, hv, hv'⟩)

/-- Words that are no options are left as they stand. -/
theorem scan_operands {args : List Word} (h : ∀ w ∈ args, isOption w = false) :
    scan o args = ⟨[], [], false, args⟩ := by
  induction args with
  | nil => rfl
  | cons w rest ih =>
    simp only [List.mem_cons, forall_eq_or_imp] at h
    rw [scan_operand h.1, ih h.2]
    rfl

/-- The words are options together with their arguments, and the events are theirs. -/
inductive Complete (o : Options) : List Word → List Event → Prop where
  | nil : Complete o [] []
  | flag {w : Word} {events : List Event} {words : List Word} {more : List Event}
    (hdashes : w ≠ [dash, dash]) (hoption : isOption w = true)
    (hparse : parse o w = ⟨events, none⟩) (h : Complete o words more) :
    Complete o (w :: words) (events ++ more)
  | withArg {w v : Word} {events : List Event} {c : UInt8} {words : List Word} {more : List Event}
    (hdashes : w ≠ [dash, dash]) (hoption : isOption w = true)
    (hparse : parse o w = ⟨events, some c⟩) (h : Complete o words more) :
    Complete o (w :: v :: words) (events ++ [.option c (some v)] ++ more)

theorem Complete.append {words words' : List Word} {events events' : List Event}
    (h : Complete o words events) (h' : Complete o words' events') :
    Complete o (words ++ words') (events ++ events') := by
  induction h with
  | nil => exact h'
  | flag hdashes hoption hparse _ ih =>
    rw [List.append_assoc]
    exact .flag hdashes hoption hparse ih
  | withArg hdashes hoption hparse _ ih =>
    rw [List.append_assoc]
    exact .withArg hdashes hoption hparse ih

/-- What is behind complete options is scanned as if it were alone. -/
theorem scan_complete {words : List Word} {events : List Event} (h : Complete o words events)
    (rest : List Word) : scan o (words ++ rest) = (scan o rest).push events words := by
  induction h with
  | nil => rfl
  | flag hdashes hoption hparse _ ih =>
    rw [List.cons_append, scan_flag hdashes hoption (by rw [hparse]), ih, hparse]
    simp only [Scan.push, List.append_assoc, List.cons_append, List.nil_append]
  | withArg hdashes hoption hparse _ ih =>
    rw [List.cons_append, List.cons_append, scan_withArg hdashes hoption (by rw [hparse]), ih, hparse]
    simp only [Scan.push, List.append_assoc, List.cons_append, List.nil_append]

theorem permuted_push (events : List Event) (words : List Word) (s : Scan) :
    (s.push events words).permuted = words ++ s.permuted :=
  List.append_assoc ..

/-- A second scan behind complete options meets the words of the first one in another order. -/
theorem rescan_complete {words : List Word} {events : List Event} (h : Complete o words events)
    (rest : List Word) :
    ∃ rest', rest'.Perm rest ∧
      scan o (scan o (words ++ rest)).permuted = (scan o rest').push events words := by
  refine ⟨(scan o rest).permuted, permuted_perm rest, ?_⟩
  rw [scan_complete h, permuted_push, scan_complete h]

end Facts

end Xnbd.Getopt
