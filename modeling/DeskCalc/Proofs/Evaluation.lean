import Mathlib.Logic.Function.Basic
import DeskCalc.Code

/-!
# Code evaluates the tree

A calculator with a stack, registers and a scale, about whose numbers and arithmetic nothing is
known: an operation gives some value for each scale and each pair of operands. Code run on it
evaluates the tree that it was generated for, from left to right. The scale is handed on from part to
part, since a coercion in one operand is felt in the next one.

Code that runs on an empty stack runs in the same way on top of any other stack. So the code of an
expression, which needs nothing on the stack, cannot touch what lies below its own values.

Main statements: `Calculator.run_code`, `Calculator.run_above` and `code_evaluates`.
-/

namespace DeskCalc

/-! ## The calculator -/

/-- What numbers and operations mean on a calculator. An operation depends on the scale. -/
structure Interpretation (V : Type) where
  number : Literal → V
  operate : Nat → Operator → V → V → V

/-- What a calculator does that can be noticed: it keeps a value in a register or shows one. -/
inductive Effect (V : Type) where
  | stored (name : String) (value : V)
  | shown (value : V)

/-- A calculator, and what it has done so far. -/
structure Calculator (V : Type) where
  stack : List V
  registers : String → V
  scale : Nat
  effects : List (Effect V)

variable {V : Type}

namespace Calculator

def push (c : Calculator V) (x : V) : Calculator V := { c with stack := x :: c.stack }

/-- One instruction. It cannot be carried out if the stack is too short. -/
def step (I : Interpretation V) (c : Calculator V) (i : Instruction) : Option (Calculator V) :=
  match i, c.stack with
  | .load name, _ => some (c.push (c.registers name))
  | .pushInt v, _ => some (c.push (I.number (.int v)))
  | .pushFloat v, _ => some (c.push (I.number (.float v)))
  | .operation op, y :: x :: rest => some { c with stack := I.operate c.scale op x y :: rest }
  | .store name, x :: rest =>
    some { c with
      stack := rest
      registers := Function.update c.registers name x
      effects := c.effects ++ [.stored name x] }
  | .print, x :: _ => some { c with effects := c.effects ++ [.shown x] }
  | .directive d, _ => some { c with scale := d.places }
  | .operation _, [] | .operation _, [_] | .store _, [] | .print, [] => none

/-- Instructions one after the other. -/
def run (I : Interpretation V) (code : List Instruction) (c : Calculator V) :
    Option (Calculator V) :=
  code.foldlM (step I) c

/-- The calculator with more values at the bottom of its stack. -/
def above (c : Calculator V) (below : List V) : Calculator V := { c with stack := c.stack ++ below }

variable {I : Interpretation V} {c c' : Calculator V}

private theorem run_append (code more : List Instruction) :
    run I (code ++ more) c = (run I code c).bind (run I more) :=
  List.foldlM_append

/-- Code that is carried out is carried out up to any point. -/
private theorem exists_run_take {code : List Instruction} (h : run I code c = some c') (n : Nat) :
    ∃ between, run I (code.take n) c = some between := by
  rw [← List.take_append_drop n code, run_append, Option.bind_eq_some_iff] at h
  obtain ⟨between, hbetween, -⟩ := h
  exact ⟨between, hbetween⟩

/-! ## What lies below -/

private theorem step_above {i : Instruction} (h : step I c i = some c') (below : List V) :
    step I (c.above below) i = some (c'.above below) := by
  obtain ⟨stack, registers, scale, effects⟩ := c
  cases i with
  | operation op =>
    -- both operands are values of its own
    match stack with
    | [] => cases h
    | [_] => cases h
    | y :: x :: rest =>
      cases h
      rfl
  | store name =>
    cases stack with
    | nil => cases h
    | cons x rest =>
      cases h
      rfl
  | print =>
    cases stack with
    | nil => cases h
    | cons x rest =>
      cases h
      rfl
  | load | pushInt | pushFloat | directive =>
    cases h
    rfl

/-- Code that is carried out does the same on top of other values, and leaves these alone. -/
theorem run_above {code : List Instruction} (h : run I code c = some c') (below : List V) :
    run I code (c.above below) = some (c'.above below) := by
  induction code generalizing c with
  | nil =>
    cases h
    rfl
  | cons i code ih =>
    simp only [run, List.foldlM_cons, Option.bind_eq_bind, Option.bind_eq_some_iff] at h ⊢
    -- the values below are still there when the next instruction is carried out
    obtain ⟨between, hstep, hrun⟩ := h
    exact ⟨between.above below, step_above hstep below, ih hrun⟩

end Calculator

/-! ## Quiet instructions -/

/-- The instruction has no effect that can be noticed. -/
def Instruction.IsQuiet : Instruction → Prop
  | store _ | print => False
  | _ => True

/-- Expressions are evaluated without effects. -/
private theorem Expr.isQuiet_of_mem_code {coercionScale : Bool} {e : Expr} {i : Instruction}
    (h : i ∈ e.code coercionScale) : i.IsQuiet := by
  induction e with
  | identifier name ty l =>
    rw [List.mem_singleton.1 h]
    trivial
  | literal v ty l =>
    rw [List.mem_singleton.1 h]
    cases v <;> trivial
  | binary op left right ty l ihl ihr =>
    rcases List.mem_append.1 h with h | h
    · rcases List.mem_append.1 h with h | h
      · exact ihl h
      · exact ihr h
    · rw [List.mem_singleton.1 h]
      trivial
  | coercion inner ty l ih =>
    rcases List.mem_append.1 h with h | h
    · exact ih h
    · split at h
      · rw [List.mem_singleton.1 h]
        trivial
      · cases h

namespace Calculator

variable {I : Interpretation V} {c c' : Calculator V}

private theorem registers_of_step {i : Instruction} (hi : i.IsQuiet) (h : step I c i = some c') :
    c'.registers = c.registers ∧ c'.effects = c.effects := by
  obtain ⟨stack, registers, scale, effects⟩ := c
  cases i with
  | store | print => exact hi.elim
  | operation op =>
    -- an operation that is carried out finds two operands
    match stack with
    | [] => cases h
    | [_] => cases h
    | y :: x :: rest =>
      cases h
      exact ⟨rfl, rfl⟩
  | load | pushInt | pushFloat | directive =>
    cases h
    exact ⟨rfl, rfl⟩

/-- Quiet instructions change no register. -/
private theorem registers_of_run {code : List Instruction} (hcode : ∀ i ∈ code, i.IsQuiet)
    (h : run I code c = some c') : c'.registers = c.registers ∧ c'.effects = c.effects := by
  induction code generalizing c with
  | nil =>
    cases h
    exact ⟨rfl, rfl⟩
  | cons i code ih =>
    rw [run, List.foldlM_cons, Option.bind_eq_bind, Option.bind_eq_some_iff] at h
    obtain ⟨between, hstep, hrun⟩ := h
    obtain ⟨hi, hrest⟩ := List.forall_mem_cons.1 hcode
    obtain ⟨hregisters, heffects⟩ := registers_of_step hi hstep
    obtain ⟨hregisters', heffects'⟩ := ih hrest hrun
    exact ⟨hregisters'.trans hregisters, heffects'.trans heffects⟩

end Calculator

/-! ## Expressions -/

/-- The value of an expression and the scale behind it, from left to right. -/
def Expr.evaluate (I : Interpretation V) (coercionScale : Bool) (registers : String → V) :
    Expr → Nat → V × Nat
  | identifier name _ _, scale => (registers name, scale)
  | literal v _ _, scale => (I.number v, scale)
  | binary op left right _ _, scale =>
    let (a, scale) := left.evaluate I coercionScale registers scale
    let (b, scale) := right.evaluate I coercionScale registers scale
    (I.operate scale op a b, scale)
  | coercion inner _ _, scale =>
    let (a, scale) := inner.evaluate I coercionScale registers scale
    (a, if coercionScale then 5 else scale)

namespace Calculator

variable {I : Interpretation V}

/-- The calculator with the value of an expression on its stack. -/
def evaluated (I : Interpretation V) (coercionScale : Bool) (e : Expr) (c : Calculator V) :
    Calculator V :=
  let (x, scale) := e.evaluate I coercionScale c.registers c.scale
  { c with stack := x :: c.stack, scale }

/-- The code of an expression evaluates it. -/
theorem run_code (coercionScale : Bool) (e : Expr) (c : Calculator V) :
    run I (e.code coercionScale) c = some (c.evaluated I coercionScale e) := by
  induction e generalizing c with
  | identifier name ty l => rfl
  | literal v ty l => cases v <;> rfl
  | binary op left right ty l ihl ihr =>
    -- the operation finds the values of its operands, and the scale that the right one has left
    rw [Expr.code, run_append, run_append, ihl, Option.bind_some, ihr, Option.bind_some]
    rfl
  | coercion inner ty l ih =>
    rw [Expr.code, run_append, ih, Option.bind_some]
    cases coercionScale <;> rfl

/-- Up to any point the code of an expression does what it does on an empty stack, on top of the
values that were there before, and changes no register. -/
private theorem run_take_code (coercionScale : Bool) (e : Expr) (c : Calculator V) (n : Nat) :
    ∃ own, run I ((e.code coercionScale).take n) { c with stack := [] } = some own ∧
      run I ((e.code coercionScale).take n) c = some (own.above c.stack) ∧
      own.registers = c.registers ∧ own.effects = c.effects := by
  -- a part of the code is carried out on an empty stack, since all of it is
  obtain ⟨own, hown⟩ := exists_run_take (run_code (I := I) coercionScale e { c with stack := [] }) n
  have hquiet : ∀ i ∈ (e.code coercionScale).take n, i.IsQuiet := fun i hi =>
    Expr.isQuiet_of_mem_code (List.mem_of_mem_take hi)
  obtain ⟨hregisters, heffects⟩ := registers_of_run hquiet hown
  exact ⟨own, hown, run_above hown c.stack, hregisters, heffects⟩

end Calculator

/-! ## Statements -/

namespace Effect

/-- The registers behind an effect. -/
def update (registers : String → V) : Effect V → String → V
  | stored name x => Function.update registers name x
  | shown _ => registers

/-- The name of the register that is changed. -/
def target? : Effect V → Option String
  | stored name _ => some name
  | shown _ => none

def shown? : Effect V → Option V
  | stored .. => none
  | shown x => some x

end Effect

namespace Statement

/-- The name that a statement assigns to. -/
def target? : Statement → Option String
  | print .. => none
  | assign target _ _ _ => some target

def isPrint : Statement → Bool
  | print .. => true
  | assign .. => false

/-- What a statement does with certain values in the registers, at a scale. -/
def effect (I : Interpretation V) (coercionScale : Bool) (registers : String → V) (scale : Nat) :
    Statement → Effect V
  | print name _ => .shown (registers name)
  | assign target value _ _ =>
    .stored target (value.evaluate I coercionScale registers scale).1

/-- The scale behind a statement. An assignment goes back to whole numbers. -/
def scaleBehind (scale : Nat) : Statement → Nat
  | print .. => scale
  | assign .. => 0

/-- What statements do in order, each with what the ones before it have left. -/
def effects (I : Interpretation V) (coercionScale : Bool) (registers : String → V) (scale : Nat) :
    List Statement → List (Effect V)
  | [] => []
  | s :: ss =>
    let done := s.effect I coercionScale registers scale
    done :: effects I coercionScale (done.update registers) (s.scaleBehind scale) ss

end Statement

namespace Calculator

variable {I : Interpretation V}

/-- The calculator behind effects at the given scale. A value that is shown stays on the stack. -/
def after (c : Calculator V) (done : List (Effect V)) (scale : Nat) : Calculator V where
  stack := (done.filterMap Effect.shown?).reverse ++ c.stack
  registers := done.foldl Effect.update c.registers
  scale := scale
  effects := c.effects ++ done

private theorem run_assign (coercionScale : Bool) (target : String) (value : Expr) (ty : Option Ty)
    (l : Location) (c : Calculator V) :
    run I ((Statement.assign target value ty l).code coercionScale) c =
      some (c.after
        [.stored target (value.evaluate I coercionScale c.registers c.scale).1] 0) := by
  -- the value is on the stack when it is stored, and nothing else of it is left
  rw [Statement.code, run_append, run_code, Option.bind_some]
  rfl

private theorem run_print (coercionScale : Bool) (name : String) (l : Location) (c : Calculator V) :
    run I ((Statement.print name l).code coercionScale) c =
      some (c.after [.shown (c.registers name)] c.scale) :=
  rfl

/-- The code of a statement has its effect. -/
private theorem run_statement (coercionScale : Bool) (s : Statement) (c : Calculator V) :
    run I (s.code coercionScale) c =
      some (c.after [s.effect I coercionScale c.registers c.scale] (s.scaleBehind c.scale)) := by
  cases s with
  | print name l => exact run_print coercionScale name l c
  | assign target value ty l => exact run_assign coercionScale target value ty l c

/-- Effects in a row. -/
private theorem after_after (c : Calculator V) (done more : List (Effect V)) (scale scale' : Nat) :
    (c.after done scale).after more scale' = c.after (done ++ more) scale' := by
  simp [after, List.filterMap_append, List.foldl_append]

/-- The code of statements has their effects in order. -/
private theorem run_codeAll (coercionScale : Bool) (ss : List Statement) (c : Calculator V) :
    run I (Statement.codeAll coercionScale ss) c =
      some (c.after (Statement.effects I coercionScale c.registers c.scale ss)
        (ss.foldl Statement.scaleBehind c.scale)) := by
  induction ss generalizing c with
  | nil => simp [Statement.codeAll, Statement.effects, run, after]
  | cons s ss ih =>
    rw [Statement.codeAll, List.flatMap_cons, run_append, run_statement, Option.bind_some]
    -- the others start from the registers and the scale that the first one leaves
    exact (ih _).trans (congrArg some (after_after c _ _ _ _))

end Calculator

namespace Statement

variable {I : Interpretation V}

/-- There is one effect for each statement, on the register that it assigns to, if any. -/
private theorem target?_effects (coercionScale : Bool) (registers : String → V) (scale : Nat)
    (ss : List Statement) :
    (effects I coercionScale registers scale ss).map Effect.target? = ss.map target? := by
  induction ss generalizing registers scale with
  | nil => rfl
  | cons s ss ih =>
    rw [effects, List.map_cons, List.map_cons, ih]
    -- what is stored or shown depends on the registers, but not where
    cases s <;> rfl

private theorem length_shown_effects (coercionScale : Bool) (registers : String → V) (scale : Nat)
    (ss : List Statement) :
    ((effects I coercionScale registers scale ss).filterMap Effect.shown?).length =
      ss.countP isPrint := by
  induction ss generalizing registers scale with
  | nil => rfl
  | cons s ss ih =>
    cases s with
    | print name l =>
      -- a print statement shows one value, and an assignment shows none
      rw [List.countP_cons_of_pos rfl, ← ih]
      rfl
    | assign target value ty l =>
      rw [List.countP_cons_of_neg (by simp [isPrint]), ← ih]
      rfl

end Statement

open Calculator in
/-- On any calculator, the code of an expression leaves the value of the expression on the stack and
the scale that its evaluation ends at. At any point on the way the stack holds what it would hold had
it been empty at the start, and below that what was there, and the registers are as at the start. The
code of an assignment changes the register of its target and goes back to scale zero, and that of a
print statement shows a value, which stays on the stack. So the code of a program never finds the
stack too short, has the effects of its statements in order, and leaves what was shown on the
stack. -/
theorem code_evaluates (I : Interpretation V) (coercionScale : Bool) (c : Calculator V) :
    (∀ e : Expr,
      let (x, scale) := e.evaluate I coercionScale c.registers c.scale
      run I (e.code coercionScale) c = some { c with stack := x :: c.stack, scale := scale } ∧
        ∀ n, ∃ own, run I ((e.code coercionScale).take n) { c with stack := [] } = some own ∧
          run I ((e.code coercionScale).take n) c =
            some { own with stack := own.stack ++ c.stack } ∧
          own.registers = c.registers ∧ own.effects = c.effects) ∧
    (∀ (target : String) (value : Expr) (ty : Option Ty) (l : Location),
      let x := (value.evaluate I coercionScale c.registers c.scale).1
      run I ((Statement.assign target value ty l).code coercionScale) c = some
        { c with
          registers := Function.update c.registers target x
          scale := 0
          effects := c.effects ++ [.stored target x] }) ∧
    (∀ (name : String) (l : Location),
      let x := c.registers name
      run I ((Statement.print name l).code coercionScale) c = some
        { c with stack := x :: c.stack, effects := c.effects ++ [.shown x] }) ∧
    ∀ ss : List Statement,
      let done := Statement.effects I coercionScale c.registers c.scale ss
      (∃ final, run I (Statement.codeAll coercionScale ss) c = some final ∧
        final.effects = c.effects ++ done ∧ done.map Effect.target? = ss.map Statement.target? ∧
        final.registers = done.foldl Effect.update c.registers ∧
        final.stack = (done.filterMap Effect.shown?).reverse ++ c.stack ∧
        final.stack.length = c.stack.length + ss.countP Statement.isPrint) ∧
      ∀ n, ∃ between, run I ((Statement.codeAll coercionScale ss).take n) c = some between := by
  refine ⟨?_, ?_, ?_, ?_⟩
  · intro e
    exact ⟨run_code coercionScale e c, run_take_code coercionScale e c⟩
  · intro target value ty l x
    exact run_assign coercionScale target value ty l c
  · intro name l x
    exact run_print coercionScale name l c
  · intro ss done
    have hrun := run_codeAll (I := I) coercionScale ss c
    refine ⟨⟨_, hrun, rfl, Statement.target?_effects .., rfl, rfl, ?_⟩, exists_run_take hrun⟩
    -- what was shown lies on the stack, one value for each print statement
    have hshown := Statement.length_shown_effects (I := I) coercionScale c.registers c.scale ss
    simp only [Calculator.after, List.length_append, List.length_reverse, hshown]
    exact Nat.add_comm _ _

end DeskCalc
