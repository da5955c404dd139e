/-!
# Arithmetic operators

The four binary operators, their written form, and their meaning on machine integers and on
single-precision numbers. Integer arithmetic is 32 bits wide and wraps around; a quotient that
has no 32-bit value does not exist.

Main statement: `Operator.onInts_eq_none_iff` — the only integer operations without a value are
a division by zero and the division of the least integer by minus one.
-/

namespace DeskCalc

/-- A binary arithmetic operator. -/
inductive Operator where
  | add
  | sub
  | mul
  | div
deriving DecidableEq, Inhabited

namespace Operator

/-- The character that writes the operator, in the source and in the generated code alike. -/
def symbol : Operator → Char
  | add => '+'
  | sub => '-'
  | mul => '*'
  | div => '/'

/-- The operator written as `c`. -/
def ofSymbol? : Char → Option Operator
  | '+' => some add
  | '-' => some sub
  | '*' => some mul
  | '/' => some div
  | _ => none

/-- Multiplication and division bind tighter than addition and subtraction. -/
def bindsTight : Operator → Bool
  | add | sub => false
  | mul | div => true

/-- Whether the quotient of `a` by `b`, cut toward zero, is a 32-bit integer. -/
def HasQuotient (a b : Int32) : Prop :=
  b ≠ 0 ∧ ¬ (a = Int32.minValue ∧ b = -1)

instance (a b : Int32) : Decidable (HasQuotient a b) :=
  inferInstanceAs (Decidable (_ ∧ _))

/-- Integer arithmetic: sums, differences and products wrap, a quotient is cut toward zero. -/
def onInts (op : Operator) (a b : Int32) : Option Int32 :=
  match op with
  | add => some (a + b)
  | sub => some (a - b)
  | mul => some (a * b)
  | div => if HasQuotient a b then some (a / b) else none

/-- Single-precision arithmetic, rounded to nearest. -/
def onFloats (op : Operator) (a b : Float32) : Float32 :=
  match op with
  | add => a + b
  | sub => a - b
  | mul => a * b
  | div => a / b

@[simp] theorem ofSymbol?_symbol (op : Operator) : ofSymbol? op.symbol = some op := by
  cases op <;> rfl

/-- Only a division can lack a value, and then its divisor is zero or the quotient too large. -/
theorem onInts_eq_none_iff {op : Operator} {a b : Int32} :
    op.onInts a b = none ↔ op = div ∧ (b = 0 ∨ (a = Int32.minValue ∧ b = -1)) := by
  cases op with
  | div =>
    simp only [onInts, HasQuotient]
    grind
  | _ => simp [onInts]

end Operator

/-- The single-precision number nearest to an integer; a tie goes to the even neighbour. -/
def singleOfInt (a : Int32) : Float32 :=
  Float32.ofInt a.toInt

end DeskCalc
