import DeskCalc.Compilation
import DeskCalc.Proofs.Machine
import DeskCalc.Proofs.Nodes

/-!
# The scale of divisions

The scale changes by directives only, and directives come from coercions and from the ends of
assignments. So an operation is run at five places if a coercion stands before it in its assignment,
as an operand of it or further ahead, and else at scale zero. A division of two single-precision
variables has no coercion of its own, so its quotient can be cut short.

Main statements: `scale_at_operation`, `scale_at_float_division` and
`scale_zero_at_float_division`.
-/

namespace DeskCalc

/-! ## The scale behind a code -/

/-- The scale behind an instruction. -/
def Instruction.scaleAfter (scale : Nat) : Instruction → Nat
  | directive d => d.places
  | _ => scale

/-- The scale behind a code, whatever it computes. -/
def scaleAfter (scale : Nat) (code : List Instruction) : Nat :=
  code.foldl Instruction.scaleAfter scale

private theorem scaleAfter_append (scale : Nat) (code more : List Instruction) :
    scaleAfter scale (code ++ more) = scaleAfter (scaleAfter scale code) more :=
  List.foldl_append

namespace Machine

variable {α : Type} {m m' : Machine α}

private theorem scale_of_step {i : Instruction} (h : Step i m (some m')) :
    m'.scale = i.scaleAfter m.scale := by
  obtain ⟨stack, registers, scale⟩ := m
  cases i with
  | load name =>
    cases h
    rfl
  | pushInt v =>
    cases h
    rfl
  | pushFloat v =>
    obtain ⟨x, hx⟩ := h
    cases hx
    rfl
  | directive d =>
    cases h
    rfl
  | store name =>
    cases stack with
    | nil => cases h
    | cons x rest =>
      cases h
      rfl
  | print =>
    cases stack with
    | nil => cases h
    | cons x rest =>
      cases h
      rfl
  | operation op =>
    -- an operation that is run finds two operands and leaves the scale
    match stack with
    | [] => cases h
    | [_] => cases h
    | y :: x :: rest =>
      obtain ⟨result, _, hresult⟩ := h
      obtain ⟨z, _, rfl⟩ := Option.map_eq_some_iff.1 hresult.symm
      rfl

/-- A run that is not stopped ends at the scale behind its code. -/
private theorem scale_of_run {code : List Instruction} (h : Run code m (some m')) :
    m'.scale = scaleAfter m.scale code := by
  induction code generalizing m with
  | nil =>
    cases h
    rfl
  | cons i code ih =>
    rcases h with ⟨_, hnone⟩ | ⟨between, hstep, hrun⟩
    · cases hnone
    · rw [ih hrun, scale_of_step hstep]
      rfl

end Machine

/-! ## The code of each node -/

namespace Expr

/-- What a node adds to the code of its operands. -/
def ownCode (coercionScale : Bool) : Expr → List Instruction
  | identifier name _ _ => [.load name]
  | literal value _ _ => [.push value]
  | binary op _ _ _ _ => [.operation op]
  | coercion .. => if coercionScale then [.directive .fractionScale] else []

/-- The code of an expression is that of its nodes in a row. -/
theorem code_eq_flatMap (coercionScale : Bool) (e : Expr) :
    e.code coercionScale = e.nodes.flatMap (ownCode coercionScale) := by
  induction e with
  | identifier name ty l => rfl
  | literal v ty l => rfl
  | binary op left right ty l ihl ihr =>
    rw [code, ihl, ihr, nodes, List.flatMap_append, List.flatMap_append, List.flatMap_singleton]
    rfl
  | coercion inner ty l ih =>
    rw [code, ih, nodes, List.flatMap_append, List.flatMap_singleton]
    rfl

/-- Behind nodes in a row the scale is five as soon as a coercion is one of them. -/
private theorem scaleAfter_ownCode (scale : Nat) (es : List Expr) :
    scaleAfter scale (es.flatMap (ownCode true)) = if es.any isCoercion then 5 else scale := by
  induction es generalizing scale with
  | nil => rfl
  | cons e es ih =>
    rw [List.flatMap_cons, scaleAfter_append, ih, List.any_cons]
    -- only a coercion adds a directive
    cases e with
    | literal v ty l => cases v <;> rfl
    | identifier name ty l => rfl
    | binary op left right ty l => rfl
    | coercion inner ty l => exact ite_self _

/-- A place in two lists in a row is one in the first or one in the second. -/
private theorem place_in_append {first second before after : List Expr} {n : Expr}
    (h : first ++ second = before ++ n :: after) :
    (∃ more, first = before ++ n :: more) ∨
      ∃ start, before = first ++ start ∧ second = start ++ n :: after := by
  rcases List.append_eq_append_iff.1 h with ⟨start, hbefore, hsecond⟩ | ⟨rest, hfirst, hrest⟩
  · exact .inr ⟨start, hbefore, hsecond⟩
  · -- the place is the first one of the second list, or lies in the first list
    cases rest with
    | nil =>
      rw [List.append_nil] at hfirst
      exact .inr ⟨[], by rw [List.append_nil, hfirst], hrest.symm⟩
    | cons n' rest =>
      obtain ⟨rfl, _⟩ := List.cons_eq_cons.1 hrest
      exact .inl ⟨rest, hfirst⟩

private theorem place_in_singleton {e n : Expr} {before after : List Expr}
    (h : [e] = before ++ n :: after) : before = [] ∧ e = n := by
  rcases List.singleton_eq_append_iff.1 h with ⟨hbefore, hself⟩ | ⟨_, hself⟩
  · cases hself
    exact ⟨hbefore, rfl⟩
  · cases hself

/-- The operands of an operation come before it. -/
private theorem operands_mem_before {op : Operator} {left right : Expr} {ty : Option Ty}
    {l : Location} {e : Expr} {before after : List Expr}
    (h : e.nodes = before ++ binary op left right ty l :: after) :
    left ∈ before ∧ right ∈ before := by
  induction e generalizing before after with
  | identifier name ty' l' =>
    obtain ⟨_, hself⟩ := place_in_singleton h
    cases hself
  | literal v ty' l' =>
    obtain ⟨_, hself⟩ := place_in_singleton h
    cases hself
  | binary op' left' right' ty' l' ihl ihr =>
    -- the operation is one in the left operand, one in the right operand, or the whole
    rw [nodes, List.append_assoc] at h
    rcases place_in_append h with ⟨more, hleft⟩ | ⟨start, rfl, hstart⟩
    · exact ihl hleft
    rcases place_in_append hstart with ⟨more, hright⟩ | ⟨start', rfl, hlast⟩
    · obtain ⟨hl, hr⟩ := ihr hright
      exact ⟨List.mem_append_right _ hl, List.mem_append_right _ hr⟩
    · obtain ⟨rfl, hself⟩ := place_in_singleton hlast
      cases hself
      rw [List.append_nil]
      exact ⟨List.mem_append_left _ (mem_nodes_self left),
        List.mem_append_right _ (mem_nodes_self right)⟩
  | coercion inner ty' l' ih =>
    rcases place_in_append h with ⟨more, hinner⟩ | ⟨start, rfl, hlast⟩
    · exact ih hinner
    · obtain ⟨_, hself⟩ := place_in_singleton hlast
      cases hself

end Expr

namespace Statement

/-- Statements that start at scale zero end at scale zero. -/
private theorem scaleAfter_codeAll (coercionScale : Bool) (ss : List Statement) :
    scaleAfter 0 (codeAll coercionScale ss) = 0 := by
  induction ss with
  | nil => rfl
  | cons s ss ih =>
    rw [codeAll, List.flatMap_cons, scaleAfter_append]
    cases s with
    | print name l => exact ih
    | assign target value ty l =>
      -- whatever scale the value is computed at, the last directive sets it to zero
      rw [code, scaleAfter_append]
      exact ih

end Statement

/-! ## Operations and divisions -/

/-- The code of a node stands behind that of the statements and of the nodes before it. -/
private theorem codeAll_eq_of_node (coercionScale : Bool) {ss : List Statement} {i : Nat}
    {target : String} {value : Expr} {ty : Option Ty} {l : Location}
    (hstatement : ss[i]? = some (.assign target value ty l)) {before after : List Expr} {n : Expr}
    (hnode : value.nodes = before ++ n :: after) : ∃ rest, Statement.codeAll coercionScale ss =
      Statement.codeAll coercionScale (ss.take i) ++ before.flatMap (Expr.ownCode coercionScale) ++
        n.ownCode coercionScale ++ rest := by
  obtain ⟨hi, hget⟩ := List.getElem?_eq_some_iff.1 hstatement
  -- behind the node come the other nodes, the store and the other statements
  refine ⟨after.flatMap (Expr.ownCode coercionScale) ++ [.store target, .directive .wholeScale] ++
    Statement.codeAll coercionScale (ss.drop (i + 1)), ?_⟩
  calc Statement.codeAll coercionScale ss
      = Statement.codeAll coercionScale (ss.take i ++ ss.drop i) := by rw [List.take_append_drop]
    _ = Statement.codeAll coercionScale (ss.take i) ++
          ((Statement.assign target value ty l).code coercionScale ++
            Statement.codeAll coercionScale (ss.drop (i + 1))) := by
        rw [Statement.codeAll_append, List.drop_eq_getElem_cons hi, hget]
        rfl
    _ = _ := by
        rw [Statement.code, Expr.code_eq_flatMap, hnode, List.flatMap_append, List.flatMap_cons]
        simp only [List.append_assoc]

/-- Run the code of a source from scale zero. An operation is run at five places if a coercion comes
before it in its assignment, and else at scale zero. -/
theorem scale_at_operation {settings : Settings} {source : String} {compilation : Compilation}
    (hcompile : (compile settings source).1 = .ok compilation)
    (hsetting : settings.coercionScale = true) {i : Nat} {target : String} {value : Expr}
    {ty : Option Ty} {l : Location}
    (hstatement : compilation.program.statements[i]? = some (.assign target value ty l))
    {before after : List Expr} {op : Operator} {left right : Expr} {found : Option Ty}
    {place : Location}
    (hnode : value.nodes = before ++ .binary op left right found place :: after) :
    let done := Statement.codeAll true (compilation.program.statements.take i) ++
      before.flatMap (Expr.ownCode true)
    scaleAfter 0 done = (if before.any Expr.isCoercion then 5 else 0) ∧
      ∃ rest, compilation.code = done ++ .operation op :: rest ∧
        ∀ (α : Type) (start m : Machine α), start.scale = 0 →
          Machine.Reaches compilation.code start (.operation op :: rest) m →
          m.scale = scaleAfter 0 done := by
  intro done
  obtain ⟨rest, hrest⟩ := codeAll_eq_of_node true hstatement hnode
  obtain ⟨p, c, _, hp⟩ := compile_eq_ok_iff.1 hcompile
  have hall : compilation.code = Statement.codeAll true compilation.program.statements := by
    rw [← hp, ← hsetting]
    rfl
  have hcode : compilation.code = done ++ .operation op :: rest := by
    rw [hall, hrest, List.append_assoc]
    rfl
  refine ⟨?_, rest, hcode, ?_⟩
  · -- the statements in front leave the scale at zero, so only the nodes in front count
    rw [scaleAfter_append, Statement.scaleAfter_codeAll, Expr.scaleAfter_ownCode]
  · intro α start m hstart hreach
    -- what is left to be run tells that the code in front has been run
    rw [hcode, Machine.reaches_append_iff] at hreach
    rw [Machine.scale_of_run hreach, hstart]

/-- Run the code of a source from scale zero. A single-precision division is run at five places if a
coercion comes before it in its assignment, as it does if an operand is coerced, and else at scale
zero. -/
theorem scale_at_float_division {settings : Settings} {source : String} {compilation : Compilation}
    (hcompile : (compile settings source).1 = .ok compilation)
    (hsetting : settings.coercionScale = true) {i : Nat} {target : String} {value : Expr}
    {ty : Option Ty} {l : Location}
    (hstatement : compilation.program.statements[i]? = some (.assign target value ty l))
    {before after : List Expr} {left right : Expr} {place : Location}
    (hnode : value.nodes = before ++ .binary .div left right (some .float) place :: after) :
    let done := Statement.codeAll true (compilation.program.statements.take i) ++
      before.flatMap (Expr.ownCode true)
    scaleAfter 0 done = (if before.any Expr.isCoercion then 5 else 0) ∧
      (left.isCoercion ∨ right.isCoercion → scaleAfter 0 done = 5) ∧
      ∃ rest, compilation.code = done ++ .operation .div :: rest ∧
        ∀ (α : Type) (start m : Machine α), start.scale = 0 →
          Machine.Reaches compilation.code start (.operation .div :: rest) m →
          m.scale = scaleAfter 0 done := by
  intro done
  obtain ⟨hscale, hrun⟩ := scale_at_operation hcompile hsetting hstatement hnode
  refine ⟨hscale, ?_, hrun⟩
  -- a coerced operand is itself a coercion before the division
  intro hoperand
  obtain ⟨hleft, hright⟩ := Expr.operands_mem_before hnode
  rw [hscale, if_pos]
  rcases hoperand with hcoerced | hcoerced
  · exact List.any_eq_true.2 ⟨left, hleft, hcoerced⟩
  · exact List.any_eq_true.2 ⟨right, hright, hcoerced⟩

/-- The quotient of an integer variable by a single-precision one is computed to five places. -/
theorem scale_at_float_division_of_mixed :
    ∃ compilation, (compile {} "i a f b f c c = a / b").1 = .ok compilation ∧
      compilation.diagnostics = [] ∧
      ∃ done rest, compilation.code = done ++ .operation .div :: rest ∧ scaleAfter 0 done = 5 := by
  have hread : (match (compile {} "i a f b f c c = a / b").1 with
      | .ok compilation => decide (compilation.diagnostics = [] ∧
          compilation.program.statements[0]? = some (.assign "c" (.binary .div
            (.coercion (.identifier "a" (some .int) ⟨1, 17⟩) (some .float) ⟨1, 17⟩)
            (.identifier "b" (some .float) ⟨1, 21⟩) (some .float) ⟨1, 19⟩)
            (some .float) ⟨1, 13⟩))
      | .error _ => false) = true := by decide +kernel
  split at hread
  · next compilation hcompile =>
    obtain ⟨hclean, hstatement⟩ := of_decide_eq_true hread
    obtain ⟨_, hfive, rest, hcode, _⟩ := scale_at_float_division hcompile rfl hstatement
      (show _ = [_, _, _] ++ _ :: [] from rfl)
    exact ⟨compilation, hcompile, hclean, _, rest, hcode, hfive (.inl rfl)⟩
  · cases hread

/-- The quotient of two single-precision variables is computed at scale zero. -/
theorem scale_zero_at_float_division :
    ∃ compilation, (compile {} "f a f b f c c = a / b").1 = .ok compilation ∧
      compilation.diagnostics = [] ∧
      ∃ left right place, compilation.program.statements =
          [.assign "c" (.binary .div left right (some .float) place) (some .float) ⟨1, 13⟩] ∧
        compilation.code = left.code true ++ right.code true ++
          .operation .div :: [.store "c", .directive .wholeScale] ∧
        scaleAfter 0 (left.code true ++ right.code true) = 0 := by
  have hread : (match (compile {} "f a f b f c c = a / b").1 with
      | .ok compilation => decide (compilation.diagnostics = [] ∧
          compilation.program.statements = [.assign "c" (.binary .div
            (.identifier "a" (some .float) ⟨1, 17⟩) (.identifier "b" (some .float) ⟨1, 21⟩)
            (some .float) ⟨1, 19⟩) (some .float) ⟨1, 13⟩] ∧
          compilation.code =
            [.load "a", .load "b", .operation .div, .store "c", .directive .wholeScale])
      | .error _ => false) = true := by decide +kernel
  split at hread
  · next compilation hcompile =>
    obtain ⟨hclean, hstatements, hcode⟩ := of_decide_eq_true hread
    exact ⟨compilation, hcompile, hclean, _, _, _, hstatements, hcode, rfl⟩
  · cases hread

end DeskCalc
