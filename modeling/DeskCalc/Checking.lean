import DeskCalc.Constant
import DeskCalc.SymbolTable

/-!
# Checking a program against a symbol table

Checking finds the type of every node from the leaves up. On the way it wraps integer operands of
single-precision operations in coercions and folds operations on numbers, and in the end it coerces
the value of an assignment to the type of its target. Faults are reported and checking goes on.

Main statements: `Expr.check_binary` — an operation is checked by checking its operands from left to
right and joining the results; `Statement.checkAll_append` — statements are checked one by one.
-/

namespace DeskCalc

/-- The report of a failed lookup. -/
def SymbolTable.reportLookup (t : SymbolTable) (name : String) (location : Location) : Journal :=
  match t.lookup name location with
  | .ok _ => []
  | .error d => [.reported d]

/-- The entry that a coercion of the expression `e` leaves, if it took place. -/
def Coercion.log (c : Coercion) (e : Expr) : Journal :=
  if c = .coerced then [.converted e.location] else []

/-- The entry that an attempt to fold the operation `op` leaves. -/
def Folding.log (f : Folding) (op : Operator) : Journal :=
  match f with
  | .kept => []
  | .undivided dividend divisor => [.undivided dividend divisor]
  | .folded value => [.folded op value]

namespace Expr

/-- The operation `op` on two checked operands: they get a common type, and the operation is
replaced by its value if that can be computed. -/
def join (op : Operator) (left right : Expr) (location : Location) : Expr × Journal :=
  let ty := generalize left.ty right.ty
  let (left', leftCoercion) := left.coerce ty
  let (right', rightCoercion) := right.coerce ty
  let folding := fold op left' right' (leftCoercion = .coerced) (rightCoercion = .coerced)
  let joined :=
    match folding with
    | .folded value => literal value (some ty) location
    | .kept | .undivided .. => binary op left' right' (some ty) location
  (joined, .generalized ty :: leftCoercion.log left ++ rightCoercion.log right ++ folding.log op)

/-- Check an expression. Types that it holds already are found anew. -/
def check (t : SymbolTable) : Expr → Expr × Journal
  | identifier name _ l => (identifier name (t.get? name) l, .identifier name :: t.reportLookup name l)
  | literal value _ l => (literal value (some value.ty) l, [.constant value.ty])
  | coercion inner _ l =>
    let (inner', log) := inner.check t
    (coercion inner' (some .float) l, log)
  | binary op left right _ l =>
    let (left', leftLog) := left.check t
    let (right', rightLog) := right.check t
    let (joined, log) := join op left' right' l
    (joined, leftLog ++ rightLog ++ log)

/-- An operation is checked by checking its operands and joining the results. -/
theorem check_binary (t : SymbolTable) (op : Operator) (left right : Expr) (ty : Option Ty)
    (l : Location) :
    (binary op left right ty l).check t =
      ((join op (left.check t).1 (right.check t).1 l).1,
        (left.check t).2 ++ (right.check t).2 ++
          (join op (left.check t).1 (right.check t).1 l).2) := rfl

end Expr

namespace Statement

/-- Check a statement. An assignment takes the type of its target; its value is coerced to that
type, and refused if it would lose its fraction. -/
def check (t : SymbolTable) : Statement → Statement × Journal
  | print name l => (print name l, .printing name :: t.reportLookup name l)
  | assign target value _ l =>
    let (value', log) := value.check t
    match t.get? target with
    -- there is no type to coerce the value to
    | none => (assign target value' none l, .assignment target :: log ++ t.reportLookup target l)
    | some ty =>
      let (value'', coercion) := value'.coerce ty
      let refusal : Journal :=
        if coercion = .rejected then [.reported (.narrowing target l)] else []
      (assign target value'' (some ty) l,
        .assignment target :: log ++ coercion.log value' ++ refusal)

/-- Check statements in order. -/
def checkAll (t : SymbolTable) (ss : List Statement) : List Statement × Journal :=
  let checked := ss.map (check t)
  (checked.map Prod.fst, checked.flatMap Prod.snd)

/-- Statements are checked one by one. -/
theorem checkAll_append (t : SymbolTable) (ss more : List Statement) :
    checkAll t (ss ++ more) =
      ((checkAll t ss).1 ++ (checkAll t more).1, (checkAll t ss).2 ++ (checkAll t more).2) := by
  simp [checkAll]

end Statement

end DeskCalc
