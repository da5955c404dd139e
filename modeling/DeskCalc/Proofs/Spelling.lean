import Mathlib.Data.List.DropRight
import DeskCalc.Proofs.Unreading

/-!
# How lexemes are written

Which lexeme a text spells is told by the characters of the text alone, and so is whether a
character behind it continues it. A text that starts with no white space either starts with a lexeme that
nothing continues or is stuck: no lexeme can be read from it, for one of a few reasons.

Main statement: `exists_spells_or_stuck`.
-/

namespace DeskCalc

open Lexeme (Kind)

/-- The place behind the characters `read` of a source: one line for each line feed and one column
for each character of the last line, both counted from one. -/
def Location.reached (read : List Char) : Location :=
  ⟨read.count '\n' + 1, (read.rtakeWhile fun c => c ≠ '\n').length + 1⟩

theorem Location.reached_concat (read : List Char) (c : Char) :
    reached (read ++ [c]) = (reached read).after c := by
  unfold reached after
  rw [List.rtakeWhile_concat, List.count_append]
  -- a line feed begins another line, and any other character is one more column
  by_cases hc : c = '\n'
  · simp [hc]
  · simp [hc]

/-! ## Texts of lexemes -/

/-- A run of one or more characters of a class, as long as a lexeme may be. -/
structure IsRun (accept : Char → Bool) (text : List Char) : Prop where
  ne_nil : text ≠ []
  accepted : ∀ c ∈ text, accept c
  length_le : text.length ≤ 1024

/-- The texts of the lexemes of each kind. -/
inductive Spells : List Char → Kind → Prop where
  | floatKeyword : Spells ['f'] .floatKeyword
  | intKeyword : Spells ['i'] .intKeyword
  | printKeyword : Spells ['p'] .printKeyword
  | name {text : List Char} (hrun : IsRun Char.isLower text)
      (hfree : text ∉ [['f'], ['i'], ['p']]) : Spells text .identifier
  | int {text : List Char} {value : Int32} (hrun : IsRun Char.isDigit text)
      (hrange : Nat.ofDigitChars 10 text 0 ≤ 2147483647)
      (hvalue : value.toInt = Nat.ofDigitChars 10 text 0) : Spells text (.number (.int value))
  | float {whole fraction : List Char} (hwhole : IsRun Char.isDigit whole)
      (hfraction : IsRun Char.isDigit fraction)
      (hlength : (whole ++ '.' :: fraction).length ≤ 1024) :
      Spells (whole ++ '.' :: fraction) (.number (.float (Lexeme.floatValue whole fraction)))
  | assign : Spells ['='] .assign
  | add : Spells ['+'] (.operator .add)
  | sub : Spells ['-'] (.operator .sub)
  | mul : Spells ['*'] (.operator .mul)
  | div : Spells ['/'] (.operator .div)

/-- Whether a lexeme of this kind goes on with the character behind it: words with letters, numbers
with digits, and integers with a point too. -/
def Lexeme.Kind.isContinuedBy (next : Option Char) : Kind → Bool
  | number (.int _) => next.any Char.isDigit || next = some '.'
  | number (.float _) => next.any Char.isDigit
  | floatKeyword | intKeyword | printKeyword | identifier => next.any Char.isLower
  | assign | operator _ | endOfFile => false

/-- Why no lexeme can be read from `rest`, which stands behind the characters `read`. -/
inductive Stuck (read rest : List Char) : LexicalError → Prop where
  | invalidCharacter {c : Char} {more : List Char} (hrest : rest = c :: more)
      (hblank : isBlank c = false) (hlower : c.isLower = false) (hdigit : c.isDigit = false)
      (hsymbol : c ∉ ['=', '+', '-', '*', '/']) :
      Stuck read rest (.invalidCharacter c (.reached read))
  | longWord {run more : List Char} (hrest : rest = run ++ more) (hrun : ∀ c ∈ run, c.isLower)
      (hlong : 1024 < run.length) : Stuck read rest (.tooLong (.reached read))
  | longInt {run more : List Char} (hrest : rest = run ++ more) (hrun : ∀ c ∈ run, c.isDigit)
      (hlong : 1024 < run.length) : Stuck read rest (.tooLong (.reached read))
  | longFloat {whole fraction more : List Char} (hrest : rest = whole ++ '.' :: (fraction ++ more))
      (hwhole : IsRun Char.isDigit whole) (hne : fraction ≠ [])
      (hfraction : ∀ c ∈ fraction, c.isDigit) (hlong : 1024 < (whole ++ '.' :: fraction).length) :
      Stuck read rest (.tooLong (.reached read))
  /-- The error stands behind the point, where a digit is missing. -/
  | malformedFloat {whole more : List Char} (hrest : rest = whole ++ '.' :: more)
      (hwhole : IsRun Char.isDigit whole) (hmissing : more.head?.any Char.isDigit = false) :
      Stuck read rest (.malformedFloat more.head? (.reached (read ++ whole ++ ['.'])))
  | intOutOfRange {digits more : List Char} (hrest : rest = digits ++ more)
      (hdigits : IsRun Char.isDigit digits) (hend : more.head?.any Char.isDigit = false)
      (hpoint : more.head? ≠ some '.') (hrange : 2147483647 < Nat.ofDigitChars 10 digits 0) :
      Stuck read rest (.intOutOfRange (String.ofList digits) (.reached read))

/-! ## Runs -/

/-- A list starts with as many characters of a class as there are. -/
theorem exists_longest (accept : Char → Bool) (cs : List Char) :
    ∃ run more, cs = run ++ more ∧ (∀ c ∈ run, accept c) ∧ more.head?.any accept = false := by
  refine ⟨cs.takeWhile accept, cs.dropWhile accept, List.takeWhile_append_dropWhile.symm,
    fun c hc => List.mem_takeWhile_imp hc, ?_⟩
  have hstop := List.head?_dropWhile_not accept cs
  -- the rest is empty or begins with a character that is not of the class
  cases hhead : (cs.dropWhile accept).head? with
  | none => rfl
  | some c =>
    rw [hhead] at hstop
    exact hstop

/-- If the first character is of the class, there is one at least. -/
private theorem exists_longest_of_head {accept : Char → Bool} {c : Char} (hc : accept c)
    (cs : List Char) : ∃ run more, c :: cs = run ++ more ∧ run ≠ [] ∧ (∀ c ∈ run, accept c) ∧
      more.head?.any accept = false := by
  obtain ⟨run, more, rfl, hrun, hstop⟩ := exists_longest accept cs
  refine ⟨c :: run, more, rfl, List.cons_ne_nil c run, ?_, hstop⟩
  intro d hd
  rcases List.mem_cons.1 hd with rfl | hd
  · exact hc
  · exact hrun d hd

theorem isRun_singleton {accept : Char → Bool} {c : Char} (hc : accept c) : IsRun accept [c] where
  ne_nil := List.cons_ne_nil c []
  accepted := by simpa using hc
  length_le := by simp

/-! ## First characters -/

private theorem IsRun.head? {accept : Char → Bool} {text : List Char} (h : IsRun accept text) :
    ∃ c, text.head? = some c ∧ accept c := by
  cases text with
  | nil => exact absurd rfl h.ne_nil
  | cons c cs => exact ⟨c, rfl, h.accepted c List.mem_cons_self⟩

/-- The first character of a text tells words from numbers from symbols. -/
theorem Spells.head? {text : List Char} {k : Kind} (h : Spells text k) :
    ∃ c, text.head? = some c ∧ isBlank c = false ∧ c.isLower = k.isWord ∧ c.isDigit = k.isNumber ∧
      c ≠ '.' := by
  -- both kinds of numbers begin with a run of digits
  have hdigits {run : List Char} (hrun : IsRun Char.isDigit run) :
      ∃ c, run.head? = some c ∧ isBlank c = false ∧ c.isLower = false ∧ c.isDigit = true ∧
        c ≠ '.' := by
    obtain ⟨c, hc, hdigit⟩ := hrun.head?
    exact ⟨c, hc, isBlank_eq_false (.inr hdigit), isLower_of_isDigit hdigit, hdigit,
      ne_point_of_class (.inr hdigit)⟩
  cases h with
  | name hrun =>
    obtain ⟨c, hc, hlower⟩ := hrun.head?
    exact ⟨c, hc, isBlank_eq_false (.inl hlower), hlower, isDigit_of_isLower hlower,
      ne_point_of_class (.inl hlower)⟩
  | int hrun => exact hdigits hrun
  | @float whole fraction hwhole =>
    obtain ⟨c, hc, hclasses⟩ := hdigits hwhole
    exact ⟨c, by rw [List.head?_append, hc, Option.some_or], hclasses⟩
  | _ => exact ⟨_, rfl, by decide, by decide, by decide, by decide⟩

/-- A text goes on with another one exactly if both are words or both are numbers. -/
theorem Spells.isContinuedBy_iff {text : List Char} {k : Kind} (h : Spells text k) (before : Kind) :
    before.isContinuedBy text.head? = false ↔
      ¬ (before.isWord ∧ k.isWord) ∧ ¬ (before.isNumber ∧ k.isNumber) := by
  obtain ⟨c, hc, -, hlower, hdigit, hpoint⟩ := h.head?
  rw [hc]
  cases before with
  | number v =>
    cases v with
    | int a => simp [Kind.isContinuedBy, Kind.isWord, Kind.isNumber, hdigit, hpoint]
    | float b => simp [Kind.isContinuedBy, Kind.isWord, Kind.isNumber, hdigit]
  | assign => simp [Kind.isContinuedBy, Kind.isWord, Kind.isNumber]
  | operator op => simp [Kind.isContinuedBy, Kind.isWord, Kind.isNumber]
  | endOfFile => simp [Kind.isContinuedBy, Kind.isWord, Kind.isNumber]
  | _ => simp [Kind.isContinuedBy, Kind.isWord, Kind.isNumber, hlower]

/-- White space continues nothing. -/
theorem isContinuedBy_of_isBlank {c : Char} (hc : isBlank c) (k : Kind) :
    k.isContinuedBy (some c) = false := by
  have hlower : c.isLower = false := by
    by_contra h
    rw [isBlank_eq_false (.inl (by simpa using h))] at hc
    cases hc
  have hdigit : c.isDigit = false := by
    by_contra h
    rw [isBlank_eq_false (.inr (by simpa using h))] at hc
    cases hc
  have hpoint : c ≠ '.' := by
    rintro rfl
    exact absurd hc (by decide)
  -- a lexeme goes on with letters, digits or a point only
  cases k with
  | number v => cases v <;> simp [Kind.isContinuedBy, hdigit, hpoint]
  | assign | operator op | endOfFile => rfl
  | _ => simp [Kind.isContinuedBy, hlower]

/-! ## A lexeme or an error -/

private theorem spells_ofWord {text : List Char} (h : IsRun Char.isLower text) :
    Spells text (Kind.ofWord text) := by
  -- a word of one letter may be a keyword, and any other word is a name
  by_cases hfree : text ∈ [['f'], ['i'], ['p']]
  · simp only [List.mem_cons, List.not_mem_nil, or_false] at hfree
    rcases hfree with rfl | rfl | rfl
    · exact .floatKeyword
    · exact .intKeyword
    · exact .printKeyword
  · have hkind : Kind.ofWord text = .identifier := by
      rw [Kind.ofWord_eq_identifier_iff]
      simpa using hfree
    rw [hkind]
    exact .name h hfree

/-- Digits that nothing continues are an integer or out of range. -/
private theorem spells_int_or_stuck (read : List Char) {digits more : List Char}
    (hdigits : IsRun Char.isDigit digits)
    (hend : more.head?.any Char.isDigit = false) (hpoint : more.head? ≠ some '.') :
    (∃ k, Spells digits k ∧ k.isContinuedBy more.head? = false) ∨
      ∃ e, Stuck read (digits ++ more) e := by
  by_cases hrange : Nat.ofDigitChars 10 digits 0 ≤ 2147483647
  · have hvalue : (Int32.ofNat (Nat.ofDigitChars 10 digits 0)).toInt =
        Nat.ofDigitChars 10 digits 0 := Int32.toInt_ofNat_of_lt (by omega)
    refine .inl ⟨_, .int hdigits hrange hvalue, ?_⟩
    simp [Kind.isContinuedBy, hend, hpoint]
  · exact .inr ⟨_, .intOutOfRange rfl hdigits hend hpoint (by omega)⟩

/-- Digits and a point are a number with a point or no number. -/
private theorem spells_float_or_stuck (read : List Char) {whole : List Char}
    (hwhole : IsRun Char.isDigit whole) (rest : List Char) :
    (∃ fraction more k, rest = fraction ++ more ∧ Spells (whole ++ '.' :: fraction) k ∧
        k.isContinuedBy more.head? = false) ∨
      ∃ e, Stuck read (whole ++ '.' :: rest) e := by
  obtain ⟨fraction, more, rfl, hfraction, hstop⟩ := exists_longest Char.isDigit rest
  -- a digit has to follow the point, and not too many of them
  by_cases hne : fraction = []
  · subst hne
    exact .inr ⟨_, .malformedFloat rfl hwhole hstop⟩
  by_cases hlength : (whole ++ '.' :: fraction).length ≤ 1024
  · have hroom : fraction.length ≤ 1024 := by
      simp only [List.length_append, List.length_cons] at hlength
      omega
    exact .inl ⟨fraction, more, _, rfl, .float hwhole ⟨hne, hfraction, hroom⟩ hlength, hstop⟩
  · exact .inr ⟨_, .longFloat rfl hwhole hne hfraction (by omega)⟩

/-- A text that does not start with white space starts with a lexeme that nothing continues, or is
stuck. -/
theorem exists_spells_or_stuck (read : List Char) {c : Char} (hc : isBlank c = false)
    (cs : List Char) :
    (∃ text more k, c :: cs = text ++ more ∧ Spells text k ∧ k.isContinuedBy more.head? = false) ∨
      ∃ e, Stuck read (c :: cs) e := by
  by_cases hdigit : c.isDigit
  · -- the digits end at a point or at what is no part of a number
    obtain ⟨digits, more, hall, hne, hdigits, hstop⟩ := exists_longest_of_head hdigit cs
    rw [hall]
    by_cases hlength : digits.length ≤ 1024
    · have hrun : IsRun Char.isDigit digits := ⟨hne, hdigits, hlength⟩
      by_cases hpoint : more.head? = some '.'
      · obtain ⟨rest, rfl⟩ := List.head?_eq_some_iff.1 hpoint
        rcases spells_float_or_stuck read hrun rest with hspells | hstuck
        · obtain ⟨fraction, more, k, rfl, hspells, hend⟩ := hspells
          exact .inl ⟨_, more, k, by simp, hspells, hend⟩
        · exact .inr hstuck
      · rcases spells_int_or_stuck read hrun hstop hpoint with hspells | hstuck
        · obtain ⟨k, hspells, hend⟩ := hspells
          exact .inl ⟨digits, more, k, rfl, hspells, hend⟩
        · exact .inr hstuck
    · exact .inr ⟨_, .longInt rfl hdigits (by omega)⟩
  by_cases hlower : c.isLower
  · -- the word ends at what is no letter
    obtain ⟨word, more, hall, hne, hword, hstop⟩ := exists_longest_of_head hlower cs
    rw [hall]
    by_cases hlength : word.length ≤ 1024
    · refine .inl ⟨word, more, _, rfl, spells_ofWord ⟨hne, hword, hlength⟩, ?_⟩
      unfold Kind.ofWord
      split <;> exact hstop
    · exact .inr ⟨_, .longWord rfl hword (by omega)⟩
  by_cases hsymbol : c ∈ ['=', '+', '-', '*', '/']
  · simp only [List.mem_cons, List.not_mem_nil, or_false] at hsymbol
    -- nothing continues a character that is a lexeme by itself
    rcases hsymbol with rfl | rfl | rfl | rfl | rfl
    · exact .inl ⟨_, cs, _, rfl, .assign, rfl⟩
    · exact .inl ⟨_, cs, _, rfl, .add, rfl⟩
    · exact .inl ⟨_, cs, _, rfl, .sub, rfl⟩
    · exact .inl ⟨_, cs, _, rfl, .mul, rfl⟩
    · exact .inl ⟨_, cs, _, rfl, .div, rfl⟩
  · exact .inr ⟨_, .invalidCharacter rfl hc (by simpa using hlower) (by simpa using hdigit) hsymbol⟩

end DeskCalc
