import DeskCalc.Calculator
import DeskCalc.Program

/-!
# Generating code

Code follows the program tree, operands before operators:

- a name loads its register and a number is pushed;
- an operation is its left operand, its right operand and the operator;
- a coercion is its inner expression and then, where the settings ask for it, five decimal places,
  so that the division it is meant for is not cut short;
- an assignment is its value, a store and the return to whole numbers;
- a print statement loads the register and prints it.

Main statement: `Statement.codeAll_append` — the code of two lists of statements in a row is the
code of the first and then the code of the second.
-/

namespace DeskCalc

/-- The code that leaves the value of an expression on the stack. -/
def Expr.code (coercionScale : Bool) : Expr → List Instruction
  | identifier name _ _ => [.load name]
  | literal value _ _ => [.push value]
  | binary op left right _ _ =>
    left.code coercionScale ++ right.code coercionScale ++ [.operation op]
  | coercion inner _ _ =>
    inner.code coercionScale ++ if coercionScale then [.directive .fractionScale] else []

namespace Statement

/-- The code of a statement. -/
def code (coercionScale : Bool) : Statement → List Instruction
  | print name _ => [.load name, .print]
  | assign target value _ _ =>
    value.code coercionScale ++ [.store target, .directive .wholeScale]

/-- The code of statements in a row. -/
def codeAll (coercionScale : Bool) (ss : List Statement) : List Instruction :=
  ss.flatMap (code coercionScale)

/-- The code of two lists of statements in a row. -/
theorem codeAll_append (coercionScale : Bool) (ss more : List Statement) :
    codeAll coercionScale (ss ++ more) = codeAll coercionScale ss ++ codeAll coercionScale more :=
  List.flatMap_append

end Statement

end DeskCalc
