import DeskCalc.Diagnostic
import DeskCalc.Decimal.Shortest

/-!
# The journal of a compilation

A compilation keeps a journal of what it does, in order. The diagnostics of a program are the
entries of its journal that report one, so that nothing is reported without being logged.

Main statement: `Journal.diagnostics_append` — the diagnostics of two journals in a row are those of
the first and then those of the second.
-/

namespace DeskCalc

/-- An entry of the journal. -/
inductive Event where
  /-- A lexeme was obtained for parsing. -/
  | lexeme (lexeme : Lexeme)
  /-- A program with so many declarations and statements was read. -/
  | parsed (declarations statements : Nat)
  /-- A diagnostic was reported. -/
  | reported (diagnostic : Diagnostic)
  /-- A symbol table was filled. -/
  | tabled (symbols capacity : Nat)
  /-- An assignment is about to be checked. -/
  | assignment (target : String)
  /-- A print statement is about to be checked. -/
  | printing (name : String)
  /-- A name in an expression is about to be looked up. -/
  | identifier (name : String)
  /-- A number in an expression was given its type. -/
  | constant (ty : Ty)
  /-- The operands of an operation were given a common type. -/
  | generalized (ty : Ty)
  /-- An integer expression was wrapped in a coercion. -/
  | converted (location : Location)
  /-- An integer division was left to the target machine. -/
  | undivided (dividend divisor : Int32)
  /-- An operation was replaced by its value. -/
  | folded (op : Operator) (value : Literal)
  /-- So many instructions were generated. -/
  | generated (instructions : Nat)
  /-- A compilation ended. -/
  | compiled (declarations statements diagnostics : Nat)
  /-- An environment variable was ignored, since its value makes no sense. -/
  | ignored (setting value : String)
deriving DecidableEq, Inhabited

/-- How important an entry is. -/
inductive Event.Level where
  | trace
  | debug
  | info
  | warn
  | error
deriving DecidableEq, Inhabited

/-- A journal: entries in the order of their occurrence. -/
abbrev Journal := List Event

namespace Event

/-- The name of a level. -/
def Level.label : Level → String
  | trace => "TRACE"
  | debug => "DEBUG"
  | info => "INFO"
  | warn => "WARN"
  | error => "ERROR"

/-- The level of an entry. -/
def level : Event → Level
  | lexeme _ => .trace
  | undivided .. | ignored .. => .warn
  | compiled .. => .info
  | _ => .debug

/-- The wording of an entry. -/
def message : Event → String
  | lexeme _ => "lexeme"
  | parsed .. => "parsed program"
  | reported d => d.message
  | tabled .. => "built symbol table"
  | assignment _ => "assignment"
  | printing _ => "print"
  | identifier _ => "identifier"
  | constant ty => "constant : " ++ ty.text
  | generalized _ => "generalize"
  | converted _ => "convert to float"
  | undivided .. => "integer division not folded"
  | folded .. => "folded"
  | generated _ => "generated code"
  | compiled .. => "compiled"
  | ignored setting _ => "ignoring invalid " ++ setting

/-- Logged numbers have a point from one ten-thousandth up to below ten quadrillion. -/
def pointRange : PointRange := ⟨-4, 16⟩

/-- How a number is logged. -/
def literalText : Literal → String
  | .int value => "IntLiteral(" ++ toString value.toInt ++ ")"
  | .float value =>
    "FloatLiteral(" ++ (Single.ofFloat32 value).text (Magnitude.shortestText pointRange) ++ ")"

/-- The named details of an entry. -/
def fields : Event → List (String × String)
  | lexeme l => [("kind", l.kind.label), ("text", l.text)]
  | parsed declarations statements =>
    [("declarations", toString declarations), ("statements", toString statements)]
  | reported d => [("kind", d.kind.label)]
  | tabled symbols capacity =>
    [("symbols", toString symbols), ("capacity", toString capacity)]
  | assignment target => [("target", target)]
  | printing name => [("name", name)]
  | identifier name => [("name", name)]
  | constant _ => []
  | generalized ty => [("ty", ty.text)]
  | converted location => [("at", location.text)]
  | undivided dividend divisor =>
    [("dividend", toString dividend.toInt), ("divisor", toString divisor.toInt)]
  | folded op value => [("op", op.symbol.toString), ("result", literalText value)]
  | generated instructions => [("instructions", toString instructions)]
  | compiled declarations statements diagnostics =>
    [("declarations", toString declarations), ("statements", toString statements),
      ("diagnostics", toString diagnostics)]
  | ignored _ value => [("value", value)]

/-- The diagnostic that an entry reports. -/
def diagnostic? : Event → Option Diagnostic
  | reported d => some d
  | _ => none

end Event

namespace Journal

/-- The diagnostics reported, in order. -/
def diagnostics (log : Journal) : List Diagnostic := log.filterMap Event.diagnostic?

@[simp] theorem diagnostics_nil : diagnostics [] = [] := rfl

/-- Diagnostics are reported in the order of the journal. -/
@[simp] theorem diagnostics_append (log more : Journal) :
    diagnostics (log ++ more) = diagnostics log ++ diagnostics more :=
  List.filterMap_append

end Journal

end DeskCalc
