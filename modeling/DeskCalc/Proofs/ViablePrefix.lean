import Mathlib.Algebra.Order.Kleene
import DeskCalc.Proofs.Grammar

/-!
# Beginnings of sentences

The grammar is regular: how a sentence may go on depends on a stage only, of which there are few. A
lexeme leads from one stage to the next, and one that leads nowhere makes a beginning that no
sentence has.

What may still come at a stage is a language, and these languages satisfy one equation each, read
off the grammar. How tight operators bind plays no part in that: an expression is a value and then
operators of either pair, each with a value behind it.

Main statements: `Stage.mem_rest_iff` — the stages recognise the sentences — and
`isViable_iff_stage?`.
-/

namespace DeskCalc.Grammar

open Lexeme (Kind)
open Computability

/-- The sentences, each with the end behind it. -/
def closedProgram : Language Kind := program * {[.endOfFile]}

/-- Some sentence begins with these kinds. The end counts as part of a sentence. -/
def IsViable (ks : List Kind) : Prop := ∃ more, ks ++ more ∈ closedProgram

/-! ## Equations of the grammar -/

/-- Operators of either pair, each with a value behind it. -/
def operations : Language Kind := (operator true * value + operator false * value)∗

/-- An expression is a value and then operators with values, whichever pair these are of. -/
private theorem expression_eq : expression = value * operations := by
  have hloose : operator false * (value * (operator true * value)∗) =
      operator false * value * (operator true * value)∗ := (mul_assoc _ _ _).symm
  unfold expression term tier operations
  rw [hloose, mul_assoc]
  congr 1
  generalize operator true * value = tight
  generalize operator false * value = loose
  -- what starts with either of them can be sorted into runs, and the other way round
  apply le_antisymm
  · have hstep : loose * tight∗ ≤ (tight + loose)∗ := by
      calc loose * tight∗
          ≤ (tight + loose)∗ * (tight + loose)∗ :=
            mul_le_mul' (le_trans le_add_self le_kstar) (kstar_mono le_self_add)
        _ = (tight + loose)∗ := kstar_mul_kstar _
    calc tight∗ * (loose * tight∗)∗
        ≤ (tight + loose)∗ * (tight + loose)∗∗ :=
          mul_le_mul' (kstar_mono le_self_add) (kstar_mono hstep)
      _ = (tight + loose)∗ := by rw [kstar_idem, kstar_mul_kstar]
  · apply kstar_le_of_mul_le_right
    · exact one_le_mul one_le_kstar one_le_kstar
    · rw [add_mul]
      apply add_le
      · rw [← mul_assoc]
        exact mul_le_mul_left mul_kstar_le_kstar _
      · rw [← mul_assoc]
        calc loose * tight∗ * (loose * tight∗)∗
            ≤ (loose * tight∗)∗ := mul_kstar_le_kstar
          _ ≤ tight∗ * (loose * tight∗)∗ := le_mul_of_one_le_left' one_le_kstar

/-! ## Stages of a sentence -/

/-- How far a sentence has come. -/
inductive Stage where
  /-- There are declarations only, so another one may come. -/
  | declarations
  /-- The keyword of a declaration was the last. -/
  | declaredName
  /-- A print statement was the last. -/
  | statements
  /-- The name in front of an assignment was the last. -/
  | target
  /-- A sign that an operand has to follow was the last. -/
  | operand
  /-- An operand was the last, so the expression may go on or end. -/
  | continuation
  /-- The keyword of a print statement was the last. -/
  | printedName
  | closed
deriving DecidableEq, Inhabited

namespace Stage

/-- The stage behind the first lexeme of a statement, or behind the end. -/
def opening : Kind → Option Stage
  | .identifier => some target
  | .printKeyword => some printedName
  | .endOfFile => some closed
  | _ => none

/-- The stage behind one more lexeme. -/
def after : Stage → Kind → Option Stage
  | declarations, .floatKeyword | declarations, .intKeyword => some declaredName
  | continuation, .operator _ => some operand
  | declarations, k | statements, k | continuation, k => opening k
  | declaredName, .identifier => some declarations
  | target, .assign => some operand
  | operand, .identifier | operand, .number _ => some continuation
  | printedName, .identifier => some statements
  | _, _ => none

/-- The stage behind lexemes of these kinds, unless they lead nowhere. -/
def of? (ks : List Kind) : Option Stage := ks.foldlM after declarations

theorem of?_concat (ks : List Kind) (k : Kind) :
    of? (ks ++ [k]) = (of? ks).bind fun s => s.after k := by
  simp [of?, List.foldlM_append]

/-- What may still come at each stage. -/
def rest : Stage → Language Kind
  | declarations => closedProgram
  | declaredName => {[.identifier]} * closedProgram
  | statements => statement∗ * {[.endOfFile]}
  | target => {[.assign]} * (expression * (statement∗ * {[.endOfFile]}))
  | operand => expression * (statement∗ * {[.endOfFile]})
  | continuation => operations * (statement∗ * {[.endOfFile]})
  | printedName => {[.identifier]} * (statement∗ * {[.endOfFile]})
  | closed => 1

/-! ### One equation for each stage -/

private theorem rest_declarations :
    rest declarations =
      {[.floatKeyword]} * rest declaredName + {[.intKeyword]} * rest declaredName +
        rest statements := by
  -- a program has no declaration or begins with one
  have hprogram : program = statement∗ + declaration * program := by
    unfold program
    nth_rewrite 1 [← one_add_mul_kstar]
    rw [add_mul, one_mul, mul_assoc]
  unfold rest closedProgram
  nth_rewrite 1 [hprogram]
  rw [add_mul, declaration, add_mul, add_mul, add_mul]
  simp only [mul_assoc]
  rw [add_comm]

private theorem rest_statements :
    rest statements =
      {[.identifier]} * rest target + {[.printKeyword]} * rest printedName + {[.endOfFile]} := by
  unfold rest
  nth_rewrite 1 [← one_add_mul_kstar]
  rw [add_mul, one_mul, statement, add_mul, add_mul, add_comm]
  simp only [mul_assoc]

private theorem rest_operand : rest operand = value * rest continuation := by
  rw [rest, rest, expression_eq, mul_assoc]

private theorem rest_continuation :
    rest continuation =
      operator true * rest operand + operator false * rest operand + rest statements := by
  have hoperations : operations =
      1 + (operator true * value + operator false * value) * operations :=
    one_add_mul_kstar.symm
  rw [rest_operand, rest, rest]
  nth_rewrite 1 [hoperations]
  rw [add_mul, one_mul, add_mul, add_mul, add_comm]
  simp only [mul_assoc]

/-! ### The stages recognise the sentences -/

section

variable {k : Kind} {w : List Kind} {letters language : Language Kind}

/-- What starts with a letter has it in front. -/
private theorem cons_mem_mul_iff (h : ∀ w ∈ letters, ∃ k, w = [k]) :
    k :: w ∈ letters * language ↔ [k] ∈ letters ∧ w ∈ language := by
  rw [Language.mem_mul]
  constructor
  · rintro ⟨a, ha, b, hb, hcons⟩
    obtain ⟨k', rfl⟩ := h a ha
    -- the word of letters is one letter, so it is the first one
    obtain ⟨rfl, rfl⟩ := List.cons.inj hcons
    exact ⟨ha, hb⟩
  · rintro ⟨hk, hw⟩
    exact ⟨[k], hk, w, hw, rfl⟩

private theorem nil_notMem_mul (h : ∀ w ∈ letters, ∃ k, w = [k]) : [] ∉ letters * language := by
  rw [Language.mem_mul]
  rintro ⟨a, ha, b, -, hnil⟩
  obtain ⟨k, rfl⟩ := h a ha
  cases hnil

private theorem exists_of_mem_singleton (k : Kind) :
    ∀ w ∈ ({[k]} : Language Kind), ∃ k, w = [k] := by
  rintro w rfl
  exact ⟨k, rfl⟩

private theorem exists_of_mem_value : ∀ w ∈ value, ∃ k, w = [k] := by
  rintro w (rfl | ⟨v, rfl⟩)
  · exact ⟨_, rfl⟩
  · exact ⟨_, rfl⟩

private theorem exists_of_mem_operator (tight : Bool) : ∀ w ∈ operator tight, ∃ k, w = [k] := by
  rintro w ⟨op, -, rfl⟩
  exact ⟨_, rfl⟩

private theorem cons_mem_singleton_mul_iff {k' : Kind} :
    k :: w ∈ ({[k']} : Language Kind) * language ↔ k = k' ∧ w ∈ language := by
  rw [cons_mem_mul_iff (exists_of_mem_singleton k')]
  change [k] = [k'] ∧ _ ↔ _
  rw [List.singleton_inj]

private theorem cons_mem_value_mul_iff :
    k :: w ∈ value * language ↔ (k = .identifier ∨ ∃ v, k = .number v) ∧ w ∈ language := by
  rw [cons_mem_mul_iff exists_of_mem_value]
  change ([k] = [.identifier] ∨ ∃ v, [k] = [.number v]) ∧ _ ↔ _
  simp only [List.singleton_inj]

private theorem cons_mem_operator_mul_iff {tight : Bool} :
    k :: w ∈ operator tight * language ↔
      (∃ op : Operator, op.bindsTight = tight ∧ k = .operator op) ∧ w ∈ language := by
  rw [cons_mem_mul_iff (exists_of_mem_operator tight)]
  change (∃ op : Operator, op.bindsTight = tight ∧ [k] = [.operator op]) ∧ _ ↔ _
  simp only [List.singleton_inj]

end

private theorem cons_mem_rest_statements_iff {k : Kind} {w : List Kind} :
    k :: w ∈ rest statements ↔ ∃ s, opening k = some s ∧ w ∈ rest s := by
  have hend : k :: w ∈ ({[.endOfFile]} : Language Kind) ↔ k = .endOfFile ∧ w = [] := by
    change k :: w = [.endOfFile] ↔ _
    rw [List.cons.injEq]
  rw [rest_statements, Language.mem_add, Language.mem_add, cons_mem_singleton_mul_iff,
    cons_mem_singleton_mul_iff, hend]
  -- each kind opens one alternative at most
  cases k <;> simp [opening, rest]

/-- A lexeme may come at a stage exactly if it leads to one where what is behind it may come. -/
private theorem cons_mem_rest_iff (s : Stage) (k : Kind) (w : List Kind) :
    k :: w ∈ s.rest ↔ ∃ s', s.after k = some s' ∧ w ∈ s'.rest := by
  cases s with
  | declarations =>
    rw [rest_declarations, Language.mem_add, Language.mem_add, cons_mem_singleton_mul_iff,
      cons_mem_singleton_mul_iff, cons_mem_rest_statements_iff]
    cases k <;> simp [after, opening]
  | statements => rw [cons_mem_rest_statements_iff, after]
  | operand =>
    rw [rest_operand, cons_mem_value_mul_iff]
    cases k <;> simp [after]
  | continuation =>
    rw [rest_continuation, Language.mem_add, Language.mem_add, cons_mem_operator_mul_iff,
      cons_mem_operator_mul_iff, cons_mem_rest_statements_iff]
    cases k with
    -- which pair an operator is of makes no difference to the stage behind it
    | operator op => cases hop : op.bindsTight <;> simp [after, opening, hop]
    | _ => simp [after, opening]
  | declaredName | target | printedName =>
    rw [rest, cons_mem_singleton_mul_iff]
    cases k <;> simp [after, rest]
  | closed => simp [rest, after, Language.mem_one]

/-- Nothing has to come only where the sentence is closed. -/
private theorem nil_mem_rest_iff (s : Stage) : [] ∈ s.rest ↔ s = closed := by
  have hstatements : [] ∉ rest statements := by
    rw [rest_statements, Language.mem_add, Language.mem_add]
    rintro ((h | h) | h)
    · exact nil_notMem_mul (exists_of_mem_singleton _) h
    · exact nil_notMem_mul (exists_of_mem_singleton _) h
    · cases h
  -- each alternative starts with a letter, so only the closed sentence is empty
  cases s with
  | declarations =>
    rw [rest_declarations, Language.mem_add, Language.mem_add]
    simp [nil_notMem_mul (exists_of_mem_singleton _), hstatements]
  | statements => exact iff_of_false hstatements nofun
  | operand =>
    rw [rest_operand]
    exact iff_of_false (nil_notMem_mul exists_of_mem_value) nofun
  | continuation =>
    rw [rest_continuation, Language.mem_add, Language.mem_add]
    simp [nil_notMem_mul (exists_of_mem_operator _), hstatements]
  | declaredName | target | printedName =>
    exact iff_of_false (nil_notMem_mul (exists_of_mem_singleton _)) nofun
  | closed => exact iff_of_true rfl rfl

/-- The stages recognise what may still come: it leads to the closed sentence. -/
theorem mem_rest_iff (s : Stage) (ks : List Kind) :
    ks ∈ s.rest ↔ ks.foldlM after s = some closed := by
  induction ks generalizing s with
  | nil => simp [nil_mem_rest_iff]
  | cons k ks ih =>
    -- one lexeme moves both sides to the same stage
    rw [cons_mem_rest_iff, List.foldlM_cons, Option.bind_eq_bind, Option.bind_eq_some_iff]
    simp only [ih]

/-- At every stage something may still come, if only the end. -/
private theorem exists_mem_rest (s : Stage) : ∃ ks, ks ∈ s.rest := by
  simp only [mem_rest_iff]
  cases s with
  | declarations | statements | continuation => exact ⟨[.endOfFile], rfl⟩
  | declaredName | operand | printedName => exact ⟨[.identifier, .endOfFile], rfl⟩
  | target => exact ⟨[.assign, .identifier, .endOfFile], rfl⟩
  | closed => exact ⟨[], rfl⟩

end Stage

/-- Some sentence begins with these kinds exactly if they lead to a stage. -/
theorem isViable_iff_stage? (ks : List Kind) : IsViable ks ↔ (Stage.of? ks).isSome := by
  have hsentence (more : List Kind) : ks ++ more ∈ closedProgram ↔
      ∃ s, Stage.of? ks = some s ∧ more ∈ s.rest := by
    change _ ∈ Stage.rest .declarations ↔ _
    rw [Stage.mem_rest_iff, List.foldlM_append, Option.bind_eq_bind, Option.bind_eq_some_iff]
    simp only [Stage.of?, Stage.mem_rest_iff]
  unfold IsViable
  simp only [hsentence]
  constructor
  · rintro ⟨more, s, hs, -⟩
    exact Option.isSome_of_eq_some hs
  · intro h
    obtain ⟨s, hs⟩ := Option.isSome_iff_exists.1 h
    -- a stage is no dead end
    obtain ⟨more, hmore⟩ := s.exists_mem_rest
    exact ⟨more, s, hs, hmore⟩

end DeskCalc.Grammar
