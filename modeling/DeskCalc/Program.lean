import DeskCalc.Lexeme

/-!
# Programs

A program declares typed variables and then assigns to them and prints them. Expressions are trees
over names and numbers; each node knows its place and, once it has been checked, its type.

Main statement: `Expr.ty_coerced` and `Expr.location_coerced` — a coerced expression has the type
asked for and the place of the expression it wraps.
-/

namespace DeskCalc

/-- The type of a variable or an expression. -/
inductive Ty where
  | int
  | float
deriving DecidableEq, Inhabited

namespace Ty

/-- How messages name a type. -/
def text : Ty → String
  | int => "int"
  | float => "float"

end Ty

/-- The type that a number has by its form. -/
def Literal.ty : Literal → Ty
  | .int _ => .int
  | .float _ => .float

/-! ## Expressions -/

/-- An expression. The type of a node is unknown before checking, and stays unknown for a name
that is not declared. -/
inductive Expr where
  | identifier (name : String) (ty : Option Ty) (location : Location)
  | literal (value : Literal) (ty : Option Ty) (location : Location)
  | binary (op : Operator) (left right : Expr) (ty : Option Ty) (location : Location)
  /-- The conversion of an integer expression to single precision. -/
  | coercion (inner : Expr) (ty : Option Ty) (location : Location)
deriving DecidableEq, Inhabited

namespace Expr

/-- The type found for the expression, if any. -/
def ty : Expr → Option Ty
  | identifier _ t _ | literal _ t _ | binary _ _ _ t _ | coercion _ t _ => t

/-- The place of the expression: its own lexeme for a leaf, its operator for an operation. -/
def location : Expr → Location
  | identifier _ _ l | literal _ _ l | binary _ _ _ _ l | coercion _ _ l => l

/-- Names and numbers have no parts. -/
def isLeaf : Expr → Bool
  | identifier .. | literal .. => true
  | binary .. | coercion .. => false

/-- The expression wrapped in a coercion to `target`, at the same place. -/
def coerced (e : Expr) (target : Ty) : Expr := coercion e (some target) e.location

@[simp] theorem ty_coerced (e : Expr) (target : Ty) : (e.coerced target).ty = some target := rfl

@[simp] theorem location_coerced (e : Expr) (target : Ty) :
    (e.coerced target).location = e.location := rfl

end Expr

/-! ## Statements and programs -/

/-- A declaration, placed at its keyword. -/
structure Declaration where
  ty : Ty
  name : String
  location : Location
deriving DecidableEq, Inhabited

/-- A statement, placed at its first lexeme. -/
inductive Statement where
  | print (name : String) (location : Location)
  /-- An assignment; its type is that of the target, once that is known to be declared. -/
  | assign (target : String) (value : Expr) (ty : Option Ty) (location : Location)
deriving DecidableEq, Inhabited

/-- A program: declarations, then statements. -/
structure Program where
  declarations : List Declaration
  statements : List Statement
deriving DecidableEq, Inhabited

end DeskCalc
