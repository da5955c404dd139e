import DeskCalc.Lexeme
import DeskCalc.Decimal.Fixed

/-!
# Instructions of the desk calculator

The generated code is a list of instructions for a calculator with a stack, named registers and a
scale, the number of decimal places to which it divides. The text of a code has one instruction on
each line.

Main statement: `render_append` — the text of two codes in a row is the text of the first followed
by the text of the second.
-/

namespace DeskCalc

/-- A change of the scale. -/
inductive Directive where
  /-- Divide to whole numbers. -/
  | wholeScale
  /-- Divide to five places. -/
  | fractionScale
deriving DecidableEq, Inhabited

namespace Directive

/-- The number of places that the directive sets. -/
def places : Directive → Nat
  | wholeScale => 0
  | fractionScale => 5

/-- The written form of a directive. -/
def text : Directive → String
  | wholeScale => "0 k"
  | fractionScale => "5k"

end Directive

/-- An instruction of the desk calculator. -/
inductive Instruction where
  /-- Push the value of a register. -/
  | load (name : String)
  /-- Pop a value into a register. -/
  | store (name : String)
  /-- Print the top of the stack, which stays. -/
  | print
  | pushInt (value : Int32)
  | pushFloat (value : Float32)
  /-- Pop two operands and push the result. -/
  | operation (op : Operator)
  | directive (d : Directive)
deriving DecidableEq, Inhabited

namespace Instruction

/-- The number of places with which numbers that may have a fraction are written. -/
def floatPlaces : Nat := 1

/-- The instruction that pushes a number. -/
def push : Literal → Instruction
  | .int value => pushInt value
  | .float value => pushFloat value

/-- The written form of an instruction. -/
def text : Instruction → String
  | load name => "l" ++ name
  | store name => "s" ++ name
  | print => "p"
  | pushInt value => toString value.toInt
  | pushFloat value => (Single.ofFloat32 value).text (Magnitude.fixed floatPlaces)
  | operation op => op.symbol.toString
  | directive d => d.text

end Instruction

/-- The text of a code: each instruction on a line of its own. -/
def render (code : List Instruction) : String :=
  String.join (code.map fun instruction => instruction.text ++ "\n")

@[simp] theorem render_nil : render [] = "" := rfl

@[simp] theorem render_cons (instruction : Instruction) (code : List Instruction) :
    render (instruction :: code) = instruction.text ++ "\n" ++ render code := by
  simp [render]

/-- The text of two codes in a row is that of the first and then that of the second. -/
theorem render_append (code more : List Instruction) :
    render (code ++ more) = render code ++ render more := by
  induction code with
  | nil => simp
  | cons instruction code ih => simp [ih, String.append_assoc]

end DeskCalc
