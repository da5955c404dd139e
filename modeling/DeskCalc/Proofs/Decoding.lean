import DeskCalc.Proofs.Lines

/-!
# The program that a code comes from

In the code of a program operands stand in front of their operation, and the values of assignments in
front of the store. So a code is read from its end: the last instruction tells what the last
statement or expression is, and in front of it stand the codes of its parts. That needs an
instruction for every node, so five places have to be set for each coercion.

Types and places leave no trace in the code. Programs are alike if nothing else is different, except
that numbers may differ as some relation allows. Then their codes are alike, and nothing else has
such a code. With equal numbers this is about codes, and with numbers written alike about their
texts.

Main statements: `Statement.forall₂_codeAll_iff` and `code_determines_program`.
-/

namespace DeskCalc

variable {same : Literal → Literal → Prop}

/-! ## Programs up to types and places -/

/-- The expressions are the same but for types and places. Numbers may differ as `same` allows. -/
inductive Expr.AlikeBy (same : Literal → Literal → Prop) : Expr → Expr → Prop where
  | identifier {name : String} {ty ty' : Option Ty} {l l' : Location} :
      AlikeBy same (.identifier name ty l) (.identifier name ty' l')
  | literal {v w : Literal} {ty ty' : Option Ty} {l l' : Location} (h : same v w) :
      AlikeBy same (.literal v ty l) (.literal w ty' l')
  | binary {op : Operator} {left left' right right' : Expr} {ty ty' : Option Ty} {l l' : Location}
      (hleft : AlikeBy same left left') (hright : AlikeBy same right right') :
      AlikeBy same (.binary op left right ty l) (.binary op left' right' ty' l')
  | coercion {inner inner' : Expr} {ty ty' : Option Ty} {l l' : Location}
      (hinner : AlikeBy same inner inner') :
      AlikeBy same (.coercion inner ty l) (.coercion inner' ty' l')

/-- The statements are the same but for types and places. Numbers may differ as `same` allows. -/
inductive Statement.AlikeBy (same : Literal → Literal → Prop) : Statement → Statement → Prop where
  | print {name : String} {l l' : Location} : AlikeBy same (.print name l) (.print name l')
  | assign {target : String} {value value' : Expr} {ty ty' : Option Ty} {l l' : Location}
      (hvalue : value.AlikeBy same value') :
      AlikeBy same (.assign target value ty l) (.assign target value' ty' l')

/-! ## From the end of a code -/

/-- Codes are alike if they end alike and are alike in front of that. -/
private theorem forall₂_concat_iff {code code' : List Instruction} {i j : Instruction} :
    List.Forall₂ (Instruction.AlikeBy same) (code ++ [i]) (code' ++ [j]) ↔
      i.AlikeBy same j ∧ List.Forall₂ (Instruction.AlikeBy same) code code' := by
  rw [← List.forall₂_reverse_iff, List.reverse_concat, List.reverse_concat, List.forall₂_cons,
    List.forall₂_reverse_iff]

namespace Expr

/-- The instruction of the root, which is the last one. -/
def lastCode : Expr → Instruction
  | identifier name _ _ => .load name
  | literal value _ _ => .push value
  | binary op _ _ _ _ => .operation op
  | coercion _ _ _ => .directive .fractionScale

/-- The code in front of that of the root. -/
def operandCode : Expr → List Instruction
  | identifier .. | literal .. => []
  | binary _ left right _ _ => left.code true ++ right.code true
  | coercion inner _ _ => inner.code true

private theorem code_eq_concat (e : Expr) : e.code true = e.operandCode ++ [e.lastCode] := by
  cases e <;> rfl

/-- Codes that end with the codes of two expressions are alike if the roots are alike and so are the
codes in front of these. -/
private theorem forall₂_code {e e' : Expr} {before before' : List Instruction}
    (h : List.Forall₂ (Instruction.AlikeBy same) (before ++ e.code true)
      (before' ++ e'.code true)) :
    e.lastCode.AlikeBy same e'.lastCode ∧
      List.Forall₂ (Instruction.AlikeBy same) (before ++ e.operandCode)
        (before' ++ e'.operandCode) := by
  rw [code_eq_concat, code_eq_concat, ← List.append_assoc, ← List.append_assoc] at h
  exact forall₂_concat_iff.1 h

/-- The expression at the end of a code is told by the code, and so is what stands in front. -/
private theorem alikeBy_of_code {e e' : Expr} {before before' : List Instruction}
    (h : List.Forall₂ (Instruction.AlikeBy same) (before ++ e.code true)
      (before' ++ e'.code true)) :
    e.AlikeBy same e' ∧ List.Forall₂ (Instruction.AlikeBy same) before before' := by
  -- the roots are alike, and the codes of the operands stand in front of them
  induction e generalizing e' before before' with
  | identifier name ty l =>
    obtain ⟨hlast, hfront⟩ := forall₂_code h
    replace hlast := (Instruction.alikeBy_iff_eq rfl).1 hlast
    cases e' with
    | identifier name' ty' l' =>
      cases hlast
      exact ⟨.identifier, by simpa [operandCode] using hfront⟩
    | literal w => cases w <;> cases hlast
    | _ => cases hlast
  | literal v ty l =>
    obtain ⟨hlast, hfront⟩ := forall₂_code h
    -- the root pushes a number, so both do, and the numbers may differ as allowed
    obtain ⟨w, hw, hsame⟩ := (Instruction.alikeBy_iff_exists (Instruction.number?_push _)).1 hlast
    cases e' with
    | literal w' ty' l' =>
      cases Instruction.push_inj hw
      exact ⟨.literal hsame, by simpa [operandCode] using hfront⟩
    | _ => cases w <;> cases hw
  | binary op left right ty l ihl ihr =>
    obtain ⟨hlast, hfront⟩ := forall₂_code h
    replace hlast := (Instruction.alikeBy_iff_eq rfl).1 hlast
    cases e' with
    | binary op' left' right' ty' l' =>
      cases hlast
      rw [operandCode, operandCode, ← List.append_assoc, ← List.append_assoc] at hfront
      -- the right operand stands behind the left one
      obtain ⟨hright, hmore⟩ := ihr hfront
      obtain ⟨hleft, hbefore⟩ := ihl hmore
      exact ⟨.binary hleft hright, hbefore⟩
    | literal w => cases w <;> cases hlast
    | _ => cases hlast
  | coercion inner ty l ih =>
    obtain ⟨hlast, hfront⟩ := forall₂_code h
    replace hlast := (Instruction.alikeBy_iff_eq rfl).1 hlast
    cases e' with
    | coercion inner' ty' l' =>
      obtain ⟨hinner, hbefore⟩ := ih hfront
      exact ⟨.coercion hinner, hbefore⟩
    | literal w => cases w <;> cases hlast
    | _ => cases hlast

/-- Expressions that are alike have codes that are alike. -/
private theorem AlikeBy.code {e e' : Expr} (h : e.AlikeBy same e') :
    List.Forall₂ (Instruction.AlikeBy same) (e.code true) (e'.code true) := by
  induction h with
  | identifier => exact .cons ((Instruction.alikeBy_iff_eq rfl).2 rfl) .nil
  | literal hsame =>
    exact .cons ((Instruction.alikeBy_iff_exists (Instruction.number?_push _)).2 ⟨_, rfl, hsame⟩) .nil
  | binary _ _ ihl ihr =>
    apply forall₂_concat_iff.2
    exact ⟨(Instruction.alikeBy_iff_eq rfl).2 rfl, List.rel_append ihl ihr⟩
  | coercion _ ih =>
    apply forall₂_concat_iff.2
    exact ⟨(Instruction.alikeBy_iff_eq rfl).2 rfl, ih⟩

end Expr

namespace Statement

/-- The statement at the end of a code is told by the code, and so is what stands in front. -/
private theorem alikeBy_of_code {s s' : Statement} {before before' : List Instruction}
    (h : List.Forall₂ (Instruction.AlikeBy same) (before ++ s.code true)
      (before' ++ s'.code true)) :
    s.AlikeBy same s' ∧ List.Forall₂ (Instruction.AlikeBy same) before before' := by
  have hprint (name : String) (l : Location) (before : List Instruction) :
      before ++ (print name l).code true = before ++ [.load name] ++ [.print] := by
    simp [code]
  have hassign (target : String) (value : Expr) (ty : Option Ty) (l : Location)
      (before : List Instruction) :
      before ++ (assign target value ty l).code true =
        before ++ value.code true ++ [.store target] ++ [.directive .wholeScale] := by
    simp [code]
  -- the last instruction tells the kind of the statement
  cases s with
  | print name l =>
    cases s' with
    | print name' l' =>
      rw [hprint, hprint, forall₂_concat_iff, forall₂_concat_iff] at h
      obtain ⟨-, hload, hbefore⟩ := h
      cases (Instruction.alikeBy_iff_eq rfl).1 hload
      exact ⟨.print, hbefore⟩
    | assign target' value' ty' l' =>
      rw [hprint, hassign, forall₂_concat_iff] at h
      cases (Instruction.alikeBy_iff_eq rfl).1 h.1
  | assign target value ty l =>
    cases s' with
    | print name' l' =>
      rw [hprint, hassign, forall₂_concat_iff] at h
      cases (Instruction.alikeBy_iff_eq rfl).1 h.1
    | assign target' value' ty' l' =>
      rw [hassign, hassign, forall₂_concat_iff, forall₂_concat_iff] at h
      obtain ⟨-, hstore, hfront⟩ := h
      cases (Instruction.alikeBy_iff_eq rfl).1 hstore
      -- in front of the store stands the value
      obtain ⟨hvalue, hbefore⟩ := Expr.alikeBy_of_code hfront
      exact ⟨.assign hvalue, hbefore⟩

/-- Statements that are alike have codes that are alike. -/
private theorem AlikeBy.code {s s' : Statement} (h : s.AlikeBy same s') :
    List.Forall₂ (Instruction.AlikeBy same) (s.code true) (s'.code true) := by
  have hsame {i : Instruction} (hi : i.number? = none) : i.AlikeBy same i :=
    (Instruction.alikeBy_iff_eq hi).2 rfl
  cases h with
  | print => exact .cons (hsame rfl) (.cons (hsame rfl) .nil)
  | assign hvalue =>
    exact List.rel_append hvalue.code (.cons (hsame rfl) (.cons (hsame rfl) .nil))

private theorem code_ne_nil (s : Statement) : s.code true ≠ [] := by
  cases s with
  | print => exact List.cons_ne_nil _ _
  | assign => exact List.append_ne_nil_of_right_ne_nil _ (List.cons_ne_nil _ _)

private theorem codeAll_nil : codeAll true [] = [] := rfl

private theorem codeAll_concat (ss : List Statement) (s : Statement) :
    codeAll true (ss ++ [s]) = codeAll true ss ++ s.code true := by
  rw [codeAll_append]
  exact congrArg _ (List.append_nil _)

/-- Codes are alike exactly if they are those of statements that are alike. -/
theorem forall₂_codeAll_iff {ss ss' : List Statement} :
    List.Forall₂ (Instruction.AlikeBy same) (codeAll true ss) (codeAll true ss') ↔
      List.Forall₂ (AlikeBy same) ss ss' := by
  constructor
  · intro h
    -- from the last statement to the first one
    induction ss using List.reverseRecOn generalizing ss' with
    | nil =>
      cases ss' with
      | nil => exact .nil
      | cons s' ss' =>
        rw [codeAll_nil, List.forall₂_nil_left_iff] at h
        -- every statement has an instruction, so no code of one is empty
        cases s'.code_ne_nil (List.append_eq_nil_iff.1 h).1
    | append_singleton ss s ih =>
      rcases List.eq_nil_or_concat' ss' with rfl | ⟨ss', s', rfl⟩
      · rw [codeAll_concat, codeAll_nil, List.forall₂_nil_right_iff] at h
        cases s.code_ne_nil (List.append_eq_nil_iff.1 h).2
      · rw [codeAll_concat, codeAll_concat] at h
        obtain ⟨hs, hss⟩ := alikeBy_of_code h
        exact List.rel_append (ih hss) (.cons hs .nil)
  · intro h
    induction h with
    | nil => exact .nil
    | cons hs _ ih => exact List.rel_append hs.code ih

end Statement

/-! ## Outputs -/

/-- The texts of two codes from sources are equal exactly if the codes are alike. -/
private theorem output_eq_output_iff {settings settings' : Settings} {source source' : String}
    {c c' : Compilation} (hc : (compile settings source).1 = .ok c)
    (hc' : (compile settings' source').1 = .ok c') :
    c.output = c'.output ↔
      List.Forall₂ (Instruction.AlikeBy Literal.WrittenAlike) c.code c'.code := by
  -- lines are equal exactly if the instructions are alike in what they write
  have hlines : List.Forall₂ (Instruction.AlikeBy Literal.WrittenAlike) c.code c'.code ↔
      c.code.map Instruction.text = c'.code.map Instruction.text := by
    rw [← List.forall₂_eq_eq_eq, List.forall₂_map_left_iff, List.forall₂_map_right_iff]
    simp only [Instruction.text_eq_text_iff]
  rw [hlines]
  constructor
  · intro h
    rw [← linesOf_output hc, ← linesOf_output hc', h]
  · intro h
    rw [Compilation.output, Compilation.output, render_eq_unlines, render_eq_unlines, h]

/-- The code of a program, with five places set for each coercion, determines its statements up to
types and places. Its text determines the statements of a checked source up to types, places and
numbers that are no integers and are written alike. -/
theorem code_determines_program :
    (∀ ss ss' : List Statement, Statement.codeAll true ss = Statement.codeAll true ss' ↔
      List.Forall₂ (Statement.AlikeBy Eq) ss ss') ∧
    ∀ (settings settings' : Settings) (source source' : String) (c c' : Compilation),
      settings.coercionScale = true → settings'.coercionScale = true →
      (compile settings source).1 = .ok c → (compile settings' source').1 = .ok c' →
      (c.output = c'.output ↔
        List.Forall₂ (Statement.AlikeBy Literal.WrittenAlike) c.program.statements
          c'.program.statements) := by
  constructor
  · intro ss ss'
    rw [← Statement.forall₂_codeAll_iff, Instruction.alikeBy_eq, List.forall₂_eq_eq_eq]
  · intro settings settings' source source' c c' hscale hscale' hc hc'
    have hcode {settings : Settings} {source : String} {c : Compilation}
        (hscale : settings.coercionScale = true) (hc : (compile settings source).1 = .ok c) :
        c.code = Statement.codeAll true c.program.statements := by
      obtain ⟨p, _, _, rfl⟩ := compile_eq_ok_iff.1 hc
      rw [← hscale]
      rfl
    rw [output_eq_output_iff hc hc', hcode hscale hc, hcode hscale' hc',
      Statement.forall₂_codeAll_iff]

/-- Two sources that differ in their lines have one output, and their statements differ in places
only. -/
theorem code_determines_program_of_two_layouts :
    ∃ c c', (compile {} "f a a = 1").1 = .ok c ∧ (compile {} "f a\n a = 1").1 = .ok c' ∧
      c.output = c'.output ∧ c.program.statements ≠ c'.program.statements ∧
      List.Forall₂ (Statement.AlikeBy Literal.WrittenAlike) c.program.statements
        c'.program.statements := by
  have hread : (match (compile {} "f a a = 1").1, (compile {} "f a\n a = 1").1 with
      | .ok c, .ok c' => decide (c.code = c'.code ∧ c.program.statements ≠ c'.program.statements)
      | _, _ => false) = true := by decide +kernel
  split at hread
  · next c c' hc hc' =>
    obtain ⟨hcode, hne⟩ := of_decide_eq_true hread
    have houtput : c.output = c'.output := congrArg render hcode
    exact ⟨c, c', hc, hc', houtput, hne,
      (code_determines_program.2 {} {} _ _ c c' rfl rfl hc hc').1 houtput⟩
  · cases hread

end DeskCalc
