import DeskCalc.Proofs.Lines
import DeskCalc.Proofs.Scale

/-!
# Compiling without a change of the scale

Whether coercions change the scale is asked last, when code is generated for the checked program.
There a coercion adds a directive for five places or nothing, and nothing else adds this directive.
So without the change the code is short of just these directives, one for each coercion. Since no
other instruction has their line, the text is short of just the lines of the directives.

Main statements: `Statement.codeAll_false` and `output_without_scale`.
-/

namespace DeskCalc

/-- The instruction is the directive for five places. -/
def Instruction.setsFraction (i : Instruction) : Bool := i = .directive .fractionScale

namespace Expr

/-- Only a coercion has the directive, and only with a change of the scale. -/
private theorem ownCode_false (e : Expr) :
    e.ownCode false = (e.ownCode true).filter fun i => !i.setsFraction := by
  -- of the nodes only a coercion has the directive, and it is the only one to lose it
  cases e with
  | literal v ty l => cases v <;> rfl
  | _ => rfl

private theorem countP_ownCode (e : Expr) :
    (e.ownCode true).countP Instruction.setsFraction = e.isCoercion.toNat := by
  cases e with
  | literal v ty l => cases v <;> rfl
  | _ => rfl

private theorem code_false (e : Expr) :
    e.code false = (e.code true).filter fun i => !i.setsFraction := by
  rw [code_eq_flatMap, code_eq_flatMap, List.filter_flatMap]
  exact congrArg (e.nodes.flatMap ·) (funext ownCode_false)

/-- Each coercion has one directive. -/
private theorem countP_code (e : Expr) :
    (e.code true).countP Instruction.setsFraction = e.nodes.countP isCoercion := by
  rw [code_eq_flatMap]
  induction e.nodes with
  | nil => rfl
  | cons n ns ih =>
    -- a coercion adds one directive, and another node none
    rw [List.flatMap_cons, List.countP_append, ih, countP_ownCode, List.countP_cons, Nat.add_comm]
    cases n.isCoercion <;> rfl

end Expr

namespace Statement

/-- The nodes of the expressions in a statement. -/
def nodes : Statement → List Expr
  | print .. => []
  | assign _ value _ _ => value.nodes

private theorem code_false (s : Statement) :
    s.code false = (s.code true).filter fun i => !i.setsFraction := by
  cases s with
  | print name l => rfl
  | assign target value ty l =>
    rw [code, code, List.filter_append, Expr.code_false]
    rfl

private theorem countP_code (s : Statement) :
    (s.code true).countP Instruction.setsFraction = s.nodes.countP Expr.isCoercion := by
  cases s with
  | print name l => rfl
  | assign target value ty l =>
    -- the directive behind the store is that for whole numbers, and it is not counted
    rw [code, List.countP_append, Expr.countP_code]
    rfl

/-- The code without a change of the scale is the other one without the directives. -/
theorem codeAll_false (ss : List Statement) :
    codeAll false ss = (codeAll true ss).filter fun i => !i.setsFraction := by
  rw [codeAll, codeAll, List.filter_flatMap]
  exact congrArg (ss.flatMap ·) (funext code_false)

/-- There are as many directives as coercions. -/
private theorem countP_codeAll (ss : List Statement) :
    (codeAll true ss).countP Instruction.setsFraction =
      (ss.flatMap nodes).countP Expr.isCoercion := by
  induction ss with
  | nil => rfl
  | cons s ss ih =>
    rw [codeAll, List.flatMap_cons, List.countP_append, countP_code, List.flatMap_cons,
      List.countP_append]
    exact congrArg _ ih

end Statement

/-- Directives are told by their lines. -/
private theorem Instruction.text_eq_iff_setsFraction (i : Instruction) :
    decide (i.text = "5k") = i.setsFraction := by
  rw [setsFraction, decide_eq_decide]
  exact text_eq_fractionScale_iff

/-- Compiling with and without a change of the scale succeeds for the same sources and gives the same
program and the same diagnostics. The output without it is the other output without the lines for
five places, of which there is one for each coercion in the program. -/
theorem output_without_scale (capacity : Nat) (source : String) :
    match (compile ⟨capacity, true⟩ source).1, (compile ⟨capacity, false⟩ source).1 with
    | .ok scaled, .ok plain =>
      plain.program = scaled.program ∧ plain.diagnostics = scaled.diagnostics ∧
      plain.output = unlines ((linesOf scaled.output).filter fun line => line ≠ "5k") ∧
      (linesOf scaled.output).countP (fun line => line = "5k") =
        (scaled.program.statements.flatMap Statement.nodes).countP Expr.isCoercion
    | .error e, .error e' => e = e'
    | _, _ => False := by
  cases hparse : Parse.program (Cursor.ofString source) with
  | error e c => simp only [compile, hparse]
  | ok p c =>
    have hscaled : (compile ⟨capacity, true⟩ source).1 = .ok (p.compile ⟨capacity, true⟩).1 :=
      compile_eq_ok_iff.2 ⟨p, c, hparse, rfl⟩
    have hplain : (compile ⟨capacity, false⟩ source).1 = .ok (p.compile ⟨capacity, false⟩).1 :=
      compile_eq_ok_iff.2 ⟨p, c, hparse, rfl⟩
    rw [hscaled, hplain]
    -- both codes are generated for one program
    have hcode : (p.compile ⟨capacity, false⟩).1.code =
        (p.compile ⟨capacity, true⟩).1.code.filter fun i => !i.setsFraction :=
      Statement.codeAll_false _
    refine ⟨rfl, rfl, ?_, ?_⟩
    · -- the lines are the texts of the instructions, so both are filtered alike
      rw [linesOf_output hscaled, Compilation.output, hcode, render_eq_unlines, List.filter_map]
      congr 3
      funext i
      rw [← i.text_eq_iff_setsFraction]
      simp
    · rw [linesOf_output hscaled, List.countP_map]
      have hline : (fun line => decide (line = "5k")) ∘ Instruction.text =
          Instruction.setsFraction := funext Instruction.text_eq_iff_setsFraction
      rw [hline]
      exact Statement.countP_codeAll _

-- the number is wrapped in a coercion, and its line for five places is the one left out
example :
    (compile ⟨46, true⟩ "f a a = 1").1.map Compilation.output = .ok "1\n5k\nsa\n0 k\n" ∧
      (compile ⟨46, false⟩ "f a a = 1").1.map Compilation.output = .ok "1\nsa\n0 k\n" := by
  decide +kernel

end DeskCalc
