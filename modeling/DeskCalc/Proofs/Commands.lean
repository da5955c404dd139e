import Mathlib.Algebra.Order.BigOperators.Group.List
import Mathlib.Algebra.Order.Group.Nat
import DeskCalc.Proofs.Names
import DeskCalc.Proofs.Numerals

/-!
# How the calculator reads a code

The calculator reads characters: digits with at most one point are a number, and an underscore in
front is its sign; a letter that names a register follows `l` or `s`; each of the four operators is
always a command, and so are `p` and `k`; white space separates. A minus in front of digits is thus
no sign: it subtracts.

So the text of a code is read as the code if its numbers are finite and have no sign. Folding makes
numbers that have one, and a negative number is read as a subtraction and a positive number.

Main statements: `readCommands_output` and `minus_read_as_subtraction`.
-/

namespace DeskCalc

/-! ## Commands -/

/-- A command of the calculator. -/
inductive Command where
  /-- Push the number that the digits write, of which `places` stand behind the point. -/
  | number (negative : Bool) (digits places : Nat)
  | load (register : Char)
  | store (register : Char)
  | operation (op : Operator)
  | print
  /-- Pop a number and make it the scale. -/
  | setScale
  /-- A character that is no command. -/
  | other (c : Char)
deriving DecidableEq

/-- The number at the front, behind its sign, and the characters behind it. -/
def readNumber (negative : Bool) (cs : List Char) : Command × List Char :=
  let whole := cs.takeWhile Char.isDigit
  match cs.dropWhile Char.isDigit with
  | '.' :: behind =>
    -- a second point ends the number
    let fraction := behind.takeWhile Char.isDigit
    (.number negative (Lexeme.digitsValue (whole ++ fraction)) fraction.length,
      behind.dropWhile Char.isDigit)
  | rest => (.number negative (Lexeme.digitsValue whole) 0, rest)

/-- The command that a character is by itself. -/
def Command.ofChar : Char → Command
  | 'p' => .print
  | 'k' => .setScale
  | c =>
    match Operator.ofSymbol? c with
    | some op => .operation op
    | none => .other c

private theorem length_dropWhile_le (cs : List Char) :
    (cs.dropWhile Char.isDigit).length ≤ cs.length :=
  (List.dropWhile_sublist _).length_le

/-- At least the digits in front belong to a number. -/
private theorem length_readNumber_le (negative : Bool) (cs : List Char) :
    (readNumber negative cs).2.length ≤ (cs.dropWhile Char.isDigit).length := by
  unfold readNumber
  dsimp only
  split
  · next behind h =>
    rw [h, List.length_cons]
    exact Nat.le_succ_of_le (length_dropWhile_le behind)
  · exact le_rfl

/-- A number that begins with a digit or a point takes a character at least. -/
private theorem length_readNumber_lt {c : Char} (hc : c.isDigit ∨ c = '.') (cs : List Char) :
    (readNumber false (c :: cs)).2.length < (c :: cs).length := by
  -- a digit is taken in front of the point, and a point is taken itself
  rcases hc with hc | rfl
  · have hle := length_readNumber_le false (c :: cs)
    rw [List.dropWhile_cons_of_pos hc] at hle
    exact Nat.lt_succ_of_le (hle.trans (length_dropWhile_le cs))
  · exact Nat.lt_succ_of_le (length_dropWhile_le cs)

/-- The command that begins with the character `c`, and the characters behind it. -/
def readCommand (c : Char) (cs : List Char) : Command × List Char :=
  if c = '_' then readNumber true cs
  else if c.isDigit ∨ c = '.' then readNumber false (c :: cs)
  else
    -- whatever stands behind `l` or `s` is the register, white space as well
    match c, cs with
    | 'l', register :: behind => (.load register, behind)
    | 's', register :: behind => (.store register, behind)
    | _, _ => (.ofChar c, cs)

private theorem length_readCommand_le (c : Char) (cs : List Char) :
    (readCommand c cs).2.length ≤ cs.length := by
  unfold readCommand
  split
  · exact (length_readNumber_le true cs).trans (length_dropWhile_le cs)
  · split
    · next hc => exact Nat.le_of_lt_succ (length_readNumber_lt hc cs)
    · split <;> simp

/-- The commands that characters are read as. -/
def readCommands : List Char → List Command
  | [] => []
  | c :: cs =>
    if isBlank c then readCommands cs
    else (readCommand c cs).1 :: readCommands (readCommand c cs).2
termination_by cs => cs.length
decreasing_by
  · exact Nat.lt_succ_self _
  · exact Nat.lt_succ_of_le (length_readCommand_le c cs)

private theorem readCommands_of_blank {c : Char} (hc : isBlank c) (cs : List Char) :
    readCommands (c :: cs) = readCommands cs := by
  rw [readCommands, if_pos hc]

private theorem readCommands_of_not_blank {c : Char} (hc : isBlank c = false) (cs : List Char) :
    readCommands (c :: cs) = (readCommand c cs).1 :: readCommands (readCommand c cs).2 := by
  rw [readCommands, if_neg (by simp [hc])]

/-! ## Reading numbers -/

section Numbers

variable {digits more : List Char} {c : Char}

private theorem readNumber_whole (negative : Bool) (hdigits : ∀ d ∈ digits, d.isDigit)
    (hc : c.isDigit = false) (hpoint : c ≠ '.') (rest : List Char) :
    readNumber negative (digits ++ c :: rest) =
      (.number negative (Lexeme.digitsValue digits) 0, c :: rest) := by
  have hstop : ¬ c.isDigit := by simp [hc]
  unfold readNumber
  dsimp only
  rw [List.takeWhile_append_of_pos hdigits, List.takeWhile_cons_of_neg hstop, List.append_nil,
    List.dropWhile_append_of_pos hdigits, List.dropWhile_cons_of_neg hstop]
  -- the character behind the digits is no point, so there are no places
  split
  · next h => cases h; exact absurd rfl hpoint
  · rfl

private theorem readNumber_fraction (negative : Bool) (hdigits : ∀ d ∈ digits, d.isDigit)
    (hmore : ∀ d ∈ more, d.isDigit) (hc : c.isDigit = false) (rest : List Char) :
    readNumber negative (digits ++ '.' :: (more ++ c :: rest)) =
      (.number negative (Lexeme.digitsValue (digits ++ more)) more.length, c :: rest) := by
  have hstop : ¬ c.isDigit := by simp [hc]
  have hpoint : ¬ '.'.isDigit := by decide
  -- both runs of digits end where the next character is no digit
  unfold readNumber
  dsimp only
  rw [List.takeWhile_append_of_pos hdigits, List.takeWhile_cons_of_neg hpoint, List.append_nil,
    List.dropWhile_append_of_pos hdigits, List.dropWhile_cons_of_neg hpoint]
  split
  · next behind h =>
    cases h
    rw [List.takeWhile_append_of_pos hmore, List.takeWhile_cons_of_neg hstop, List.append_nil,
      List.dropWhile_append_of_pos hmore, List.dropWhile_cons_of_neg hstop]
  · next h => exact absurd rfl (h _)

private theorem readCommand_of_isDigit (hc : c.isDigit) (cs : List Char) :
    readCommand c cs = readNumber false (c :: cs) := by
  have hsign : c ≠ '_' := by
    rintro rfl
    exact absurd hc (by decide)
  unfold readCommand
  rw [if_neg hsign, if_pos (.inl hc)]

/-- Digits in front are read as a number without a sign. -/
private theorem readCommands_digits (hne : digits ≠ []) (hdigits : ∀ d ∈ digits, d.isDigit)
    (rest : List Char) :
    readCommands (digits ++ rest) = (readNumber false (digits ++ rest)).1 ::
      readCommands (readNumber false (digits ++ rest)).2 := by
  -- the first digit is no white space, so a command begins with it
  obtain ⟨d, ds, rfl⟩ := List.exists_cons_of_ne_nil hne
  have hd : d.isDigit := hdigits d List.mem_cons_self
  rw [List.cons_append, readCommands_of_not_blank (isBlank_eq_false (.inr hd)),
    readCommand_of_isDigit hd]

end Numbers

/-! ## Instructions as they are meant and as they are read -/

/-- What is read for a number: the sign of a negative one is a subtraction. -/
def readSigned (negative : Bool) (unsigned : List Command) : List Command :=
  if negative then .operation .sub :: unsigned else unsigned

private theorem length_readSigned (negative : Bool) (unsigned : List Command) :
    (readSigned negative unsigned).length = unsigned.length + negative.toNat := by
  cases negative <;> rfl

namespace Single

/-- The command that pushes a number with a number of places. What is not finite has none. -/
def commands (places : Nat) : Single → List Command
  | finite negative m => [.number negative (m.inPlaces places) places]
  | notANumber | infinite _ => []

/-- The commands that the text of a number with a number of places is read as. -/
def readAs (places : Nat) : Single → List Command
  | notANumber => "NaN".toList.map .other
  | infinite negative => readSigned negative ("inf".toList.map .other)
  | finite negative m => readSigned negative [.number false (m.inPlaces places) places]

/-- The number is finite and has no sign. -/
def IsUnsigned (x : Single) : Prop := ∃ m, x = finite false m

private theorem readAs_of_isUnsigned {places : Nat} {x : Single} (h : x.IsUnsigned) :
    x.readAs places = x.commands places := by
  obtain ⟨m, rfl⟩ := h
  rfl

private theorem length_commands_lt {places : Nat} {x : Single} (h : ¬ x.IsUnsigned) :
    (x.commands places).length < (x.readAs places).length := by
  cases x with
  | notANumber => simp [commands, readAs]
  | infinite negative =>
    rw [readAs, length_readSigned]
    exact Nat.add_pos_left (by decide) _
  | finite negative m =>
    cases negative with
    | false => exact absurd ⟨m, rfl⟩ h
    | true => simp [commands, readAs, length_readSigned]

end Single

namespace Instruction

/-- The commands that an instruction stands for, if its register is a single letter. -/
def commands : Instruction → List Command
  | load name => name.toList.map .load
  | store name => name.toList.map .store
  | print => [.print]
  | pushInt v => [.number (v < 0) v.toInt.natAbs 0]
  | pushFloat x => (Single.ofFloat32 x).commands floatPlaces
  | operation op => [.operation op]
  | directive d => [.number false d.places 0, .setScale]

/-- The commands that the text of an instruction is read as, if its register is a single letter. -/
def readAs : Instruction → List Command
  | pushInt v => readSigned (v < 0) [.number false v.toInt.natAbs 0]
  | pushFloat x => (Single.ofFloat32 x).readAs floatPlaces
  | i => i.commands

/-- A number that the instruction pushes is finite and has no sign. -/
def IsUnsigned : Instruction → Prop
  | pushInt v => 0 ≤ v
  | pushFloat x => (Single.ofFloat32 x).IsUnsigned
  | _ => True

private theorem readAs_of_isUnsigned {i : Instruction} (h : i.IsUnsigned) :
    i.readAs = i.commands := by
  cases i with
  | pushInt v =>
    have hv : ¬ v < 0 := Int32.not_lt.2 h
    simp [commands, readAs, readSigned, hv]
  | pushFloat x => exact Single.readAs_of_isUnsigned h
  | _ => rfl

/-- A sign, or what is not finite, is read as more commands. -/
private theorem length_commands_lt {i : Instruction} (h : ¬ i.IsUnsigned) :
    i.commands.length < i.readAs.length := by
  cases i with
  | pushInt v =>
    have hv : v < 0 := Int32.not_le.1 h
    simp [commands, readAs, length_readSigned, hv]
  | pushFloat x => exact Single.length_commands_lt h
  | _ => exact absurd trivial h

/-- Reading leaves out no command. -/
private theorem length_commands_le (i : Instruction) : i.commands.length ≤ i.readAs.length := by
  by_cases h : i.IsUnsigned
  · rw [readAs_of_isUnsigned h]
  · exact (length_commands_lt h).le

/-- The commands read are those meant exactly if all numbers are finite and have no sign. -/
private theorem flatMap_readAs_eq_iff (code : List Instruction) :
    code.flatMap readAs = code.flatMap commands ↔ ∀ i ∈ code, i.IsUnsigned := by
  -- equal lists need not have equal parts, so the lengths are compared as well
  have htotal (is : List Instruction) :
      (is.flatMap commands).length ≤ (is.flatMap readAs).length := by
    rw [List.length_flatMap, List.length_flatMap]
    exact List.sum_le_sum fun i _ => i.length_commands_le
  induction code with
  | nil => simp
  | cons i is ih =>
    rw [List.forall_mem_cons, List.flatMap_cons, List.flatMap_cons]
    constructor
    · intro h
      have hi : i.IsUnsigned := by
        -- a longer reading of one instruction is not made up for by the others
        by_contra hi
        have hlength := congrArg List.length h
        rw [List.length_append, List.length_append] at hlength
        have := length_commands_lt hi
        have := htotal is
        omega
      rw [readAs_of_isUnsigned hi, List.append_cancel_left_eq] at h
      exact ⟨hi, ih.1 h⟩
    · rintro ⟨hi, his⟩
      rw [readAs_of_isUnsigned hi, ih.2 his]

end Instruction

/-! ## Reading a code -/

private theorem readCommands_newline (cs : List Char) :
    readCommands ('\n' :: cs) = readCommands cs :=
  readCommands_of_blank rfl cs

private theorem readCommands_operator (op : Operator) (cs : List Char) :
    readCommands (op.symbol :: cs) = .operation op :: readCommands cs := by
  cases op <;> exact readCommands_of_not_blank rfl cs

/-- A sign is read as a subtraction. -/
private theorem readCommands_signed {negative : Bool} {text : String} {cs : List Char}
    {unsigned more : List Command} (h : readCommands (text.toList ++ cs) = unsigned ++ more) :
    readCommands ((Single.text.signed negative text).toList ++ cs) =
      readSigned negative unsigned ++ more := by
  cases negative with
  | false => exact h
  -- the minus is an operator, and behind it the number is read as without it
  | true =>
    calc readCommands (("-" ++ text).toList ++ cs)
        = readCommands (Operator.sub.symbol :: (text.toList ++ cs)) := by simp [Operator.symbol]
      _ = .operation .sub :: (unsigned ++ more) := by rw [readCommands_operator, h]

private theorem readCommands_natural (n : Nat) (cs : List Char) :
    readCommands (n.repr.toList ++ '\n' :: cs) = [.number false n 0] ++ readCommands cs := by
  have hdigits : ∀ d ∈ Nat.toDigits 10 n, d.isDigit := fun d hd =>
    Nat.isDigit_of_mem_toDigits (by decide) (by decide) hd
  rw [Nat.toList_repr, readCommands_digits Nat.toDigits_ne_nil hdigits,
    readNumber_whole false hdigits (by decide) (by decide), Lexeme.digitsValue_toDigits,
    readCommands_newline]
  rfl

/-- The letters that stand for what is not finite are no commands. -/
private theorem readCommands_letters {letters : List Char}
    (h : ∀ c ∈ letters, c ∈ ['i', 'n', 'f', 'N', 'a']) (cs : List Char) :
    readCommands (letters ++ cs) = letters.map .other ++ readCommands cs := by
  induction letters with
  | nil => rfl
  | cons c letters ih =>
    obtain ⟨hc, hletters⟩ := List.forall_mem_cons.1 h
    have hletter :
        readCommands (c :: (letters ++ cs)) = .other c :: readCommands (letters ++ cs) := by
      simp only [List.mem_cons, List.not_mem_nil, or_false] at hc
      rcases hc with rfl | rfl | rfl | rfl | rfl <;> exact readCommands_of_not_blank rfl _
    rw [List.cons_append, hletter, ih hletters]
    rfl

/-- The text of a number with places is read as its commands with a subtraction for a sign. -/
private theorem Single.readCommands_text {places : Nat} (hplaces : 0 < places) (x : Single)
    (cs : List Char) :
    readCommands ((x.text (Magnitude.fixed places)).toList ++ '\n' :: cs) =
      x.readAs places ++ readCommands cs := by
  cases x with
  | notANumber =>
    -- none of the letters takes the character behind it
    calc readCommands ("NaN".toList ++ '\n' :: cs)
        = "NaN".toList.map .other ++ readCommands ('\n' :: cs) :=
          readCommands_letters (by simp) _
      _ = "NaN".toList.map .other ++ readCommands cs := by rw [readCommands_newline]
  | infinite negative =>
    refine readCommands_signed ?_
    rw [readCommands_letters (by simp), readCommands_newline]
  -- the digits on both sides of the point are read as one number with places
  | finite negative m =>
    refine readCommands_signed ?_
    obtain ⟨whole, fraction, htext, hne, hwhole, hfraction, hlength, hvalue⟩ :=
      m.exists_digits_of_fixed hplaces
    rw [htext, List.append_assoc, List.cons_append, readCommands_digits hne hwhole,
      readNumber_fraction false hwhole hfraction (by decide), hvalue, hlength,
      readCommands_newline]
    rfl

private theorem Directive.readCommands_text (d : Directive) (cs : List Char) :
    readCommands (d.text.toList ++ '\n' :: cs) =
      .number false d.places 0 :: .setScale :: readCommands cs := by
  -- the letter sets the scale, and the line ends behind it
  have hk : readCommands ('k' :: '\n' :: cs) = .setScale :: readCommands cs := by
    rw [← readCommands_newline cs]
    exact readCommands_of_not_blank rfl _
  cases d with
  | wholeScale =>
    calc readCommands (['0'] ++ ' ' :: 'k' :: '\n' :: cs)
        = .number false 0 0 :: readCommands (' ' :: 'k' :: '\n' :: cs) := by
          rw [readCommands_digits (by simp) (by simp),
            readNumber_whole false (by simp) (by decide) (by decide)]
          rfl
      _ = .number false 0 0 :: .setScale :: readCommands cs := by
          rw [readCommands_of_blank rfl, hk]
  | fractionScale =>
    calc readCommands (['5'] ++ 'k' :: '\n' :: cs)
        = .number false 5 0 :: readCommands ('k' :: '\n' :: cs) := by
          rw [readCommands_digits (by simp) (by simp),
            readNumber_whole false (by simp) (by decide) (by decide)]
          rfl
      _ = .number false 5 0 :: .setScale :: readCommands cs := by
          rw [hk]

/-- An integer is written as its magnitude behind a sign. -/
theorem Instruction.text_pushInt (v : Int32) :
    (pushInt v).text = Single.text.signed (v < 0) v.toInt.natAbs.repr := by
  have hsign : v < 0 ↔ v.toInt < 0 := Int32.lt_iff_toInt_lt
  -- the text is chosen by the constructor of the integer, the sign by its order
  simp only [text, Single.text.signed, hsign, decide_eq_true_eq]
  cases v.toInt with
  | ofNat n => rfl
  | negSucc n => exact (if_pos (Int.negSucc_lt_zero n)).symm

/-- The text of an instruction is read as its commands with a subtraction for a sign. -/
private theorem Instruction.readCommands_text {i : Instruction}
    (hletter : ∀ name, i.register? = some name → name.length = 1) (cs : List Char) :
    readCommands (i.text.toList ++ '\n' :: cs) = i.readAs ++ readCommands cs := by
  have hregister {name : String} (hname : i.register? = some name) : ∃ c, name.toList = [c] :=
    List.length_eq_one_iff.1 (String.length_toList.trans (hletter name hname))
  -- only the name of a register could be read past its end
  cases i with
  | load name =>
    obtain ⟨c, hc⟩ := hregister rfl
    calc readCommands (("l" ++ name).toList ++ '\n' :: cs)
        = readCommands ('l' :: c :: '\n' :: cs) := by simp [hc]
      _ = .load c :: readCommands ('\n' :: cs) := readCommands_of_not_blank rfl _
      _ = .load c :: readCommands cs := by rw [readCommands_newline]
      _ = (load name).commands ++ readCommands cs := by simp [commands, hc]
  | store name =>
    obtain ⟨c, hc⟩ := hregister rfl
    calc readCommands (("s" ++ name).toList ++ '\n' :: cs)
        = readCommands ('s' :: c :: '\n' :: cs) := by simp [hc]
      _ = .store c :: readCommands ('\n' :: cs) := readCommands_of_not_blank rfl _
      _ = .store c :: readCommands cs := by rw [readCommands_newline]
      _ = (store name).commands ++ readCommands cs := by simp [commands, hc]
  | print =>
    calc readCommands ('p' :: '\n' :: cs)
        = .print :: readCommands ('\n' :: cs) := readCommands_of_not_blank rfl _
      _ = .print :: readCommands cs := by rw [readCommands_newline]
  | pushInt v =>
    rw [text_pushInt]
    exact readCommands_signed (readCommands_natural _ cs)
  | pushFloat x => exact Single.readCommands_text (by decide) _ cs
  | operation op =>
    calc readCommands (op.symbol.toString.toList ++ '\n' :: cs)
        = readCommands (op.symbol :: '\n' :: cs) := by simp
      _ = .operation op :: readCommands cs := by rw [readCommands_operator, readCommands_newline]
  | directive d => exact d.readCommands_text cs

/-- The text of a code is read as that of each of its instructions. -/
private theorem readCommands_render {code : List Instruction}
    (hletter : ∀ i ∈ code, ∀ name, i.register? = some name → name.length = 1) :
    readCommands (render code).toList = code.flatMap Instruction.readAs := by
  induction code with
  | nil => simp [readCommands]
  | cons i is ih =>
    rw [List.forall_mem_cons] at hletter
    calc readCommands (render (i :: is)).toList
        = readCommands (i.text.toList ++ '\n' :: (render is).toList) := by simp
      _ = i.readAs ++ readCommands (render is).toList := Instruction.readCommands_text hletter.1 _
      _ = (i :: is).flatMap Instruction.readAs := by rw [ih hletter.2, List.flatMap_cons]

/-- The output for a source whose names are single letters is read as the code, with a subtraction
for the sign of a number. It is read as the code itself exactly if each number in it is finite and
has no sign. -/
theorem readCommands_output {settings : Settings} {source : String} {compilation : Compilation}
    (hcompile : (compile settings source).1 = .ok compilation) {ls : List Lexeme} {final : Reader}
    (htokens : (Reader.ofString source).tokenize = .ok ls final)
    (hletters : ∀ l ∈ ls, l.kind = .identifier → l.text.length = 1) :
    readCommands compilation.output.toList = compilation.code.flatMap Instruction.readAs ∧
      (readCommands compilation.output.toList = compilation.code.flatMap Instruction.commands ↔
        ∀ i ∈ compilation.code, i.IsUnsigned) := by
  -- the code accesses registers of names in the source only
  have hspelled {name : String} (hname : name ∈ spelled ls) : name.length = 1 := by
    obtain ⟨l, hl, hspells⟩ := List.mem_filterMap.1 hname
    split at hspells
    · next hkind =>
      cases hspells
      exact hletters l hl hkind
    · cases hspells
  have hread : readCommands compilation.output.toList =
      compilation.code.flatMap Instruction.readAs :=
    readCommands_render fun i hi name hname =>
      hspelled (mem_spelled_of_register hcompile htokens hi hname)
  exact ⟨hread, hread ▸ Instruction.flatMap_readAs_eq_iff compilation.code⟩

/-- The code of a quotient is read as it is meant. -/
theorem readCommands_output_of_quotient :
    ∃ compilation, (compile {} "i a a = a / 2").1 = .ok compilation ∧
      readCommands compilation.output.toList =
        [.load 'a', .number false 2 0, .operation .div, .store 'a', .number false 0 0,
          .setScale] := by
  have hread : (match (compile {} "i a a = a / 2").1 with
      | .ok compilation => decide (compilation.code = [.load "a", .pushInt 2, .operation .div,
          .store "a", .directive .wholeScale])
      | .error _ => false) = true := by decide +kernel
  have htokens : (Reader.ofString "i a a = a / 2").tokenize =
      .ok [⟨.intKeyword, "i", ⟨1, 1⟩⟩, ⟨.identifier, "a", ⟨1, 3⟩⟩, ⟨.identifier, "a", ⟨1, 5⟩⟩,
        ⟨.assign, "=", ⟨1, 7⟩⟩, ⟨.identifier, "a", ⟨1, 9⟩⟩, ⟨.operator .div, "/", ⟨1, 11⟩⟩,
        ⟨.number (.int 2), "2", ⟨1, 13⟩⟩, .endOfFile ⟨1, 14⟩] ⟨[], [], ⟨1, 14⟩⟩ := by
    decide +kernel
  split at hread
  · next compilation hcompile =>
    have hcode := of_decide_eq_true hread
    obtain ⟨_, hexact⟩ := readCommands_output hcompile htokens (by decide)
    have htwo : (0 : Int32) ≤ 2 := by decide
    have hunsigned : ∀ i ∈ compilation.code, i.IsUnsigned := by
      simp [hcode, Instruction.IsUnsigned, htwo]
    refine ⟨compilation, hcompile, ?_⟩
    rw [hexact.2 hunsigned, hcode]
    rfl
  · cases hread

/-- A minus in front of a folded number is read as a subtraction. -/
theorem minus_read_as_subtraction :
    ∃ compilation, (compile {} "i a a = 1 - 2").1 = .ok compilation ∧
      compilation.diagnostics = [] ∧ compilation.output = "-1\nsa\n0 k\n" ∧
      compilation.code.flatMap Instruction.commands =
        [.number true 1 0, .store 'a', .number false 0 0, .setScale] ∧
      readCommands compilation.output.toList =
        [.operation .sub, .number false 1 0, .store 'a', .number false 0 0, .setScale] := by
  have hread : (match (compile {} "i a a = 1 - 2").1 with
      | .ok compilation => decide (compilation.diagnostics = [] ∧
          compilation.code = [.pushInt (-1), .store "a", .directive .wholeScale])
      | .error _ => false) = true := by decide +kernel
  split at hread
  · next compilation hcompile =>
    obtain ⟨hclean, hcode⟩ := of_decide_eq_true hread
    have houtput : compilation.output = "-1\nsa\n0 k\n" := by
      rw [Compilation.output, hcode]
      decide +kernel
    refine ⟨compilation, hcompile, hclean, houtput, ?_, ?_⟩
    · rw [hcode]
      decide
    · rw [houtput]
      decide +kernel
  · cases hread

end DeskCalc
