import DeskCalc.Proofs.Commands

/-!
# Lines of generated code

The text of a code has one line for each instruction. A line tells its instruction: names stand
behind `l` and `s`, numbers are written with characters of their own, and what is left is fixed.
Only different numbers can be written alike, and only those with a fraction are, since one place is
written of it. So two instructions have the same line exactly if they are the same but for such
numbers.

Registers are named by words of the source, which have no line feed in them. So the lines of the text
are the texts of the instructions.

Main statements: `Instruction.text_eq_text_iff` and `linesOf_output`.
-/

namespace DeskCalc

/-! ## Lines of a text -/

/-- The lines of characters. A line feed ends a line, and behind the last one no line begins unless
there are characters. -/
def lines : List Char → List (List Char)
  | [] => []
  | c :: cs =>
    if c = '\n' then [] :: lines cs
    else
      match lines cs with
      | [] => [[c]]
      | l :: ls => (c :: l) :: ls

/-- The lines of a text. -/
def linesOf (text : String) : List String := (lines text.toList).map String.ofList

/-- The text that has the lines `ls`. -/
def unlines (ls : List String) : String := String.join (ls.map (· ++ "\n"))

/-- A line without a line feed is the first one, if a line feed follows it. -/
private theorem lines_append {l : List Char} (hl : '\n' ∉ l) (cs : List Char) :
    lines (l ++ '\n' :: cs) = l :: lines cs := by
  induction l with
  | nil => rfl
  | cons c l ih =>
    rw [List.mem_cons, not_or] at hl
    obtain ⟨hc, hl⟩ := hl
    rw [List.cons_append, lines, if_neg (Ne.symm hc), ih hl]

/-- Lines without line feeds are found again in their text. -/
theorem linesOf_unlines {ls : List String} (hls : ∀ l ∈ ls, '\n' ∉ l.toList) :
    linesOf (unlines ls) = ls := by
  induction ls with
  | nil => rfl
  | cons l ls ih =>
    obtain ⟨hl, hls⟩ := List.forall_mem_cons.1 hls
    have htext : (unlines (l :: ls)).toList = l.toList ++ '\n' :: (unlines ls).toList := by
      simp [unlines]
    rw [linesOf, htext, lines_append hl, List.map_cons, String.ofList_toList]
    exact congrArg _ (ih hls)

example : linesOf "1\n5k\nsb\n0 k\n" = ["1", "5k", "sb", "0 k"] := by decide

/-- Each instruction has a line of its own. -/
theorem render_eq_unlines (code : List Instruction) :
    render code = unlines (code.map Instruction.text) := by
  rw [render, unlines, List.map_map]
  rfl

/-! ## Numbers in a line -/

/-- A character in a number without a sign. -/
def IsNumeral (c : Char) : Prop := c.isDigit ∨ c ∈ ['.', 'N', 'a', 'i', 'n', 'f']

/-- The characters that tell other lines from a number. -/
def commandCharacters : List Char := ['l', 's', 'p', 'k', '+', '*', '/', '\n']

private theorem not_isNumeral {c : Char} (hc : c ∈ '-' :: commandCharacters) : ¬ IsNumeral c := by
  simp only [commandCharacters, List.mem_cons, List.not_mem_nil, or_false] at hc
  rcases hc with rfl | rfl | rfl | rfl | rfl | rfl | rfl | rfl | rfl <;>
    exact not_or.2 ⟨by decide, by decide⟩

/-- The characters write a number: some numerals, and perhaps a minus in front. -/
structure WritesNumber (cs : List Char) (negative : Bool) (numerals : List Char) : Prop where
  eq_append : cs = (if negative then ['-'] else []) ++ numerals
  ne_nil : numerals ≠ []
  isNumeral : ∀ c ∈ numerals, IsNumeral c

namespace WritesNumber

variable {cs numerals : List Char} {negative : Bool}

private theorem not_mem {c : Char} (h : WritesNumber cs negative numerals)
    (hc : c ∈ commandCharacters) : c ∉ cs := by
  rw [h.eq_append, List.mem_append]
  rintro (hsign | hnumeral)
  · cases negative with
    | false => cases hsign
    | true =>
      cases List.mem_singleton.1 hsign
      exact absurd hc (by decide)
  · exact not_isNumeral (List.mem_cons_of_mem _ hc) (h.isNumeral c hnumeral)

/-- A minus in front is the sign. -/
private theorem of_minus {more : List Char} (h : WritesNumber ('-' :: more) negative numerals) :
    negative = true ∧ numerals = more := by
  cases negative with
  | true => exact ⟨rfl, (List.cons.inj h.eq_append).2.symm⟩
  | false =>
    have hcs : '-' :: more = numerals := h.eq_append
    have hminus : IsNumeral '-' := h.isNumeral _ (hcs ▸ List.mem_cons_self)
    exact absurd hminus (not_isNumeral List.mem_cons_self)

/-- The characters tell the sign and the numerals. -/
private theorem unique {numerals' : List Char} {negative' : Bool}
    (h : WritesNumber cs negative numerals) (h' : WritesNumber cs negative' numerals') :
    negative = negative' ∧ numerals = numerals' := by
  -- a minus in front cannot be a numeral, so it decides the sign
  cases negative with
  | true =>
    obtain rfl : cs = '-' :: numerals := h.eq_append
    obtain ⟨hnegative, hnumerals⟩ := h'.of_minus
    exact ⟨hnegative.symm, hnumerals.symm⟩
  | false =>
    cases negative' with
    | true =>
      obtain rfl : cs = '-' :: numerals' := h'.eq_append
      exact h.of_minus
    | false => exact ⟨rfl, h.eq_append.symm.trans h'.eq_append⟩

end WritesNumber

private theorem writesNumber_signed {negative : Bool} {s : String} (hne : s.toList ≠ [])
    (hs : ∀ c ∈ s.toList, IsNumeral c) :
    WritesNumber (Single.text.signed negative s).toList negative s.toList := by
  refine ⟨?_, hne, hs⟩
  cases negative with
  | false => rfl
  | true => exact String.toList_append

/-- An integer is written with the digits of its magnitude. -/
private theorem Instruction.writesNumber_pushInt (v : Int32) :
    WritesNumber (pushInt v).text.toList (v < 0) (Nat.toDigits 10 v.toInt.natAbs) := by
  rw [text_pushInt, ← Nat.toList_repr]
  apply writesNumber_signed
  · rw [Nat.toList_repr]
    exact Nat.toDigits_ne_nil
  · intro c hc
    rw [Nat.toList_repr] at hc
    exact .inl (Nat.isDigit_of_mem_toDigits (by decide) (by decide) hc)

/-- What is no integer is written with a character that is no digit. -/
private theorem Instruction.writesNumber_pushFloat (x : Float32) :
    ∃ negative numerals, WritesNumber (pushFloat x).text.toList negative numerals ∧
      ∃ c ∈ numerals, c.isDigit = false := by
  rw [text]
  cases Single.ofFloat32 x with
  | notANumber =>
    refine ⟨false, "NaN".toList, ⟨rfl, by decide, ?_⟩, 'N', by decide, rfl⟩
    intro c hc
    exact .inr ((by decide : "NaN".toList ⊆ ['.', 'N', 'a', 'i', 'n', 'f']) hc)
  | infinite negative =>
    refine ⟨negative, "inf".toList, writesNumber_signed (by decide) ?_, 'i', by decide, rfl⟩
    intro c hc
    exact .inr ((by decide : "inf".toList ⊆ ['.', 'N', 'a', 'i', 'n', 'f']) hc)
  | finite negative m =>
    obtain ⟨whole, fraction, htext, -, hwhole, hfraction, -⟩ :=
      Magnitude.exists_digits_of_fixed (by decide : 0 < floatPlaces) m
    -- a finite number has a point, since one place is written
    refine ⟨negative, _, writesNumber_signed ?_ ?_, '.', ?_, rfl⟩
    · simp [htext]
    · intro c hc
      rw [htext, List.mem_append, List.mem_cons] at hc
      rcases hc with hc | rfl | hc
      · exact .inl (hwhole c hc)
      · exact .inr (by decide)
      · exact .inl (hfraction c hc)
    · simp [htext]

/-! ## Instructions and their lines -/

namespace Instruction

/-- The number that an instruction pushes. -/
def number? : Instruction → Option Literal
  | pushInt v => some (.int v)
  | pushFloat x => some (.float x)
  | _ => none

private theorem number?_eq_some_iff {i : Instruction} {v : Literal} :
    i.number? = some v ↔ i = push v := by
  cases i <;> cases v <;> simp [number?, push]

theorem number?_push (v : Literal) : (push v).number? = some v := number?_eq_some_iff.2 rfl

theorem push_inj {v w : Literal} (h : push v = push w) : v = w := by
  apply Option.some.inj
  rw [← number?_push v, h, number?_push]

private theorem exists_writesNumber {i : Instruction} {v : Literal} (h : i.number? = some v) :
    ∃ negative numerals, WritesNumber i.text.toList negative numerals := by
  cases number?_eq_some_iff.1 h
  cases v with
  | int v => exact ⟨_, _, writesNumber_pushInt v⟩
  | float x =>
    obtain ⟨negative, numerals, hwrites, -⟩ := writesNumber_pushFloat x
    exact ⟨negative, numerals, hwrites⟩

/-- The instructions that come with nothing, neither a name nor a number. -/
def bare : List Instruction :=
  [print, operation .add, operation .sub, operation .mul, operation .div, directive .wholeScale,
    directive .fractionScale]

/-- The instruction that a line is, unless it pushes a number. -/
def ofLine (cs : List Char) : Option Instruction :=
  if cs.head? = some 'l' then some (load (String.ofList cs.tail))
  else if cs.head? = some 's' then some (store (String.ofList cs.tail))
  else bare.find? fun i => i.text.toList = cs

/-- A bare instruction is not written as a number; only a minus could begin one. -/
private theorem not_writesNumber_of_mem_bare {i : Instruction} (hi : i ∈ bare) {negative : Bool}
    {numerals : List Char} : ¬ WritesNumber i.text.toList negative numerals := by
  intro h
  simp only [bare, List.mem_cons, List.not_mem_nil, or_false] at hi
  -- each but the minus has a character that no number has
  rcases hi with rfl | rfl | rfl | rfl | rfl | rfl | rfl
  · exact h.not_mem (show 'p' ∈ commandCharacters by decide) (by decide)
  · exact h.not_mem (show '+' ∈ commandCharacters by decide) (by decide)
  · -- the minus would be the sign of a number without numerals
    exact h.ne_nil (WritesNumber.of_minus h).2
  · exact h.not_mem (show '*' ∈ commandCharacters by decide) (by decide)
  · exact h.not_mem (show '/' ∈ commandCharacters by decide) (by decide)
  · exact h.not_mem (show 'k' ∈ commandCharacters by decide) (by decide)
  · exact h.not_mem (show 'k' ∈ commandCharacters by decide) (by decide)

/-- A line that is a number is no other instruction. -/
private theorem ofLine_of_writesNumber {cs numerals : List Char} {negative : Bool}
    (h : WritesNumber cs negative numerals) : ofLine cs = none := by
  -- the letters that begin loads and stores begin no number
  have hhead {c : Char} (hc : c ∈ commandCharacters) : cs.head? ≠ some c := by
    intro hhead
    exact h.not_mem hc (List.mem_of_mem_head? hhead)
  unfold ofLine
  rw [if_neg (hhead (by decide)), if_neg (hhead (by decide)), List.find?_eq_none]
  intro i hi htext
  apply not_writesNumber_of_mem_bare hi
  rw [of_decide_eq_true htext]
  exact h

/-- A line tells its instruction, but for the number that is pushed. -/
private theorem ofLine_text (i : Instruction) :
    ofLine i.text.toList = if i.number?.isSome then none else some i := by
  cases hi : i.number? with
  | some v =>
    obtain ⟨negative, numerals, hwrites⟩ := exists_writesNumber hi
    exact ofLine_of_writesNumber hwrites
  | none =>
    cases i with
    | load name =>
      have htext : (load name).text.toList = 'l' :: name.toList := String.toList_append
      rw [htext]
      show some (load (String.ofList name.toList)) = some (load name)
      rw [String.ofList_toList]
    | store name =>
      have htext : (store name).text.toList = 's' :: name.toList := String.toList_append
      rw [htext]
      show some (store (String.ofList name.toList)) = some (store name)
      rw [String.ofList_toList]
    | print => rfl
    | pushInt v => cases hi
    | pushFloat x => cases hi
    | operation op => cases op <;> rfl
    | directive d => cases d <;> rfl

/-- The instructions are the same, or both push numbers, which may differ as `same` allows. -/
def AlikeBy (same : Literal → Literal → Prop) (i j : Instruction) : Prop :=
  match i.number?, j.number? with
  | some v, some w => same v w
  | none, none => i = j
  | _, _ => False

end Instruction

/-- The numbers are the same, or both are no integers and are written alike. -/
def Literal.WrittenAlike : Literal → Literal → Prop
  | .int a, .int b => a = b
  | .float x, .float y => (Instruction.pushFloat x).text = (Instruction.pushFloat y).text
  | _, _ => False

namespace Instruction

section AlikeBy

variable {same : Literal → Literal → Prop} {i j : Instruction}

/-- What pushes no number is alike to itself only. -/
theorem alikeBy_iff_eq (hi : i.number? = none) : i.AlikeBy same j ↔ i = j := by
  unfold AlikeBy
  rw [hi]
  cases hj : j.number? with
  | none => exact Iff.rfl
  | some w =>
    refine ⟨False.elim, ?_⟩
    -- an instruction cannot push a number and push none
    rintro rfl
    cases hi.symm.trans hj

/-- What pushes a number is alike to what pushes another one that is the same. -/
theorem alikeBy_iff_exists {v : Literal} (hi : i.number? = some v) :
    i.AlikeBy same j ↔ ∃ w, j = push w ∧ same v w := by
  unfold AlikeBy
  rw [hi]
  cases hj : j.number? with
  | none =>
    refine ⟨False.elim, ?_⟩
    rintro ⟨w, rfl, -⟩
    cases (number?_push w).symm.trans hj
  | some w =>
    constructor
    · intro h
      exact ⟨w, number?_eq_some_iff.1 hj, h⟩
    · rintro ⟨w', rfl, h⟩
      cases (number?_push w').symm.trans hj
      exact h

end AlikeBy

/-- With equal numbers nothing but the instruction itself is alike to it. -/
theorem alikeBy_eq : AlikeBy Eq = Eq := by
  funext i j
  apply propext
  cases hi : i.number? with
  | none => exact alikeBy_iff_eq hi
  | some v =>
    rw [alikeBy_iff_exists hi, number?_eq_some_iff.1 hi]
    constructor
    · rintro ⟨w, rfl, rfl⟩
      rfl
    · intro h
      exact ⟨v, h.symm, rfl⟩

private theorem text_pushInt_inj {a b : Int32} : (pushInt a).text = (pushInt b).text ↔ a = b := by
  constructor
  · intro h
    -- both integers are written in one text, which has one sign and one row of digits
    have hb := writesNumber_pushInt b
    rw [← h] at hb
    obtain ⟨hsign, hdigits⟩ := (writesNumber_pushInt a).unique hb
    have habs : a.toInt.natAbs = b.toInt.natAbs := by
      rw [← Lexeme.digitsValue_toDigits a.toInt.natAbs, hdigits, Lexeme.digitsValue_toDigits]
    rw [decide_eq_decide, Int32.lt_iff_toInt_lt, Int32.lt_iff_toInt_lt] at hsign
    have hzero : (0 : Int32).toInt = 0 := rfl
    rw [hzero] at hsign
    -- an integer is its magnitude and its sign
    apply Int32.toInt_inj.1
    omega
  · rintro rfl
    rfl

private theorem text_pushInt_ne_pushFloat (a : Int32) (x : Float32) :
    (pushInt a).text ≠ (pushFloat x).text := by
  intro h
  obtain ⟨negative, numerals, hfloat, c, hc, hother⟩ := writesNumber_pushFloat x
  rw [← h] at hfloat
  -- the character that is no digit would be one of the digits
  obtain ⟨-, rfl⟩ := (writesNumber_pushInt a).unique hfloat
  rw [Nat.isDigit_of_mem_toDigits (by decide) (by decide) hc] at hother
  cases hother

/-- Only numbers that are no integers can differ and be written alike. -/
private theorem text_push_eq_iff {v w : Literal} :
    (push v).text = (push w).text ↔ v.WrittenAlike w := by
  cases v with
  | int a =>
    cases w with
    | int b => exact text_pushInt_inj
    | float y => exact iff_of_false (text_pushInt_ne_pushFloat a y) id
  | float x =>
    cases w with
    | int b => exact iff_of_false (text_pushInt_ne_pushFloat b x).symm id
    | float y => exact Iff.rfl

/-- Two instructions have the same line exactly if they are the same but for numbers that are written
alike. -/
theorem text_eq_text_iff {i j : Instruction} :
    i.text = j.text ↔ i.AlikeBy Literal.WrittenAlike j := by
  constructor
  · intro h
    -- the line tells whether there is a number, and all but the number
    have hline : ofLine i.text.toList = ofLine j.text.toList := by rw [h]
    rw [ofLine_text, ofLine_text] at hline
    cases hi : i.number? with
    | none =>
      rw [hi] at hline
      change some i = _ at hline
      apply (alikeBy_iff_eq hi).2
      split at hline
      · cases hline
      · exact Option.some.inj hline
    | some v =>
      cases hj : j.number? with
      | none =>
        rw [hi, hj] at hline
        cases hline
      | some w =>
        cases number?_eq_some_iff.1 hi
        cases number?_eq_some_iff.1 hj
        -- two numbers with one line are written alike by definition
        exact (alikeBy_iff_exists hi).2 ⟨w, rfl, text_push_eq_iff.1 h⟩
  · intro h
    cases hi : i.number? with
    | none => rw [(alikeBy_iff_eq hi).1 h]
    | some v =>
      obtain ⟨w, rfl, halike⟩ := (alikeBy_iff_exists hi).1 h
      rw [number?_eq_some_iff.1 hi]
      exact text_push_eq_iff.2 halike

/-- No other instruction has the line of the directive for five places. -/
theorem text_eq_fractionScale_iff {i : Instruction} :
    i.text = "5k" ↔ i = directive .fractionScale := by
  rw [eq_comm, eq_comm (a := i)]
  show (directive .fractionScale).text = i.text ↔ _
  rw [text_eq_text_iff]
  exact alikeBy_iff_eq rfl

end Instruction

/-! ## Names and line feeds -/

/-- The name of a register is a word. -/
private theorem Lexeme.EndsAt.isLower_of_identifier {l : Lexeme} {r : Reader} (h : l.EndsAt r)
    (hl : l.kind = .identifier) : ∀ c ∈ l.text.toList, c.isLower := by
  cases h with
  | word hfirst hmore =>
    rw [String.toList_ofList, List.forall_mem_cons]
    exact ⟨hfirst, hmore⟩
  | int => cases hl
  | float => cases hl
  | symbol hc =>
    cases hl
    unfold Kind.ofSymbol? at hc
    split at hc
    · cases hc
    · obtain ⟨op, -, hop⟩ := Option.map_eq_some_iff.1 hc
      cases hop
  | endOfFile => cases hl

/-- Every lexeme up to the end was read from some reader. -/
private theorem Reader.exists_endsAt_of_tokenize {r final : Reader} {ls : List Lexeme}
    (h : r.tokenize = .ok ls final) {l : Lexeme} (hl : l ∈ ls) : ∃ behind, l.EndsAt behind := by
  fun_induction tokenize r generalizing ls with
  | case1 => cases h
  | case2 r l' behind hnext =>
    cases h
    cases List.mem_singleton.1 hl
    exact ⟨_, endsAt_of_next hnext⟩
  | case3 r l' behind hnext _ _ ls' after hrest ih =>
    cases h
    rcases List.mem_cons.1 hl with rfl | hl
    · exact ⟨_, endsAt_of_next hnext⟩
    · exact ih hrest hl
  | case4 => cases h

/-- The names that lexemes spell are words. -/
theorem isLower_of_mem_spelled {r final : Reader} {ls : List Lexeme}
    (h : r.tokenize = .ok ls final) {name : String} (hname : name ∈ spelled ls) :
    ∀ c ∈ name.toList, c.isLower := by
  obtain ⟨l, hl, htext⟩ := List.mem_filterMap.1 hname
  split at htext
  · next hkind =>
    cases htext
    obtain ⟨behind, hends⟩ := Reader.exists_endsAt_of_tokenize h hl
    exact hends.isLower_of_identifier hkind
  · cases htext

/-- The registers that the code of a source accesses are named by words. -/
private theorem isLower_of_register {settings : Settings} {source : String}
    {compilation : Compilation} (hcompile : (compile settings source).1 = .ok compilation)
    {i : Instruction} {name : String} (hi : i ∈ compilation.code)
    (hname : i.register? = some name) : ∀ c ∈ name.toList, c.isLower := by
  obtain ⟨p, c, hparse, -⟩ := compile_eq_ok_iff.1 hcompile
  obtain ⟨ls, last, final, htokens, -⟩ := Parse.program_derives hparse
  exact isLower_of_mem_spelled htokens (mem_spelled_of_register hcompile htokens hi hname)

/-- A line has no line feed, unless the name of a register has one. -/
private theorem Instruction.not_mem_text {i : Instruction}
    (hname : ∀ name, i.register? = some name → '\n' ∉ name.toList) : '\n' ∉ i.text.toList := by
  -- numbers are written without line feeds, and so are the fixed words
  cases hi : i.number? with
  | some v =>
    obtain ⟨negative, numerals, hwrites⟩ := exists_writesNumber hi
    exact hwrites.not_mem (by decide)
  | none =>
    cases i with
    | load name => simpa [text] using hname name rfl
    | store name => simpa [text] using hname name rfl
    | print => decide
    | pushInt v => cases hi
    | pushFloat x => cases hi
    | operation op => cases op <;> decide
    | directive d => cases d <;> decide

/-- The lines of an output are the texts of the instructions. -/
theorem linesOf_output {settings : Settings} {source : String} {compilation : Compilation}
    (hcompile : (compile settings source).1 = .ok compilation) :
    linesOf compilation.output = compilation.code.map Instruction.text := by
  rw [Compilation.output, render_eq_unlines]
  apply linesOf_unlines
  rw [List.forall_mem_map]
  intro i hi
  apply Instruction.not_mem_text
  -- a line feed is no letter of a word
  intro name hname hmem
  exact absurd (isLower_of_register hcompile hi hname '\n' hmem) (by decide)

end DeskCalc
