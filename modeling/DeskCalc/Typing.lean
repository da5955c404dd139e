import DeskCalc.Program

/-!
# Types of operations and coercion

An operation is a single-precision one as soon as one operand is; an integer expression may stand
where a single-precision one is wanted and is then wrapped in a coercion; never the other way
round.

Main statements: `generalize_eq_float_iff` and `coerce_eq_rejected_iff`.
-/

namespace DeskCalc

/-- The type of an operation whose operands have the types `left` and `right`, if known. -/
def generalize (left right : Option Ty) : Ty :=
  if left = some .float ∨ right = some .float then .float else .int

/-- What became of an expression that had to have a certain type. -/
inductive Coercion where
  /-- It had the type, or its type is unknown. -/
  | unchanged
  /-- It was an integer and is wrapped in a coercion now. -/
  | coerced
  /-- It has a fraction to lose, and is left as it was. -/
  | rejected
deriving DecidableEq, Inhabited

/-- Give the expression the type `target`, where that is possible. -/
def Expr.coerce (e : Expr) (target : Ty) : Expr × Coercion :=
  match e.ty, target with
  | some .float, .int => (e, .rejected)
  | some .int, .float => (e.coerced .float, .coerced)
  | _, _ => (e, .unchanged)

/-- An operation is a single-precision one as soon as one operand is. -/
theorem generalize_eq_float_iff {left right : Option Ty} :
    generalize left right = .float ↔ left = some .float ∨ right = some .float := by
  unfold generalize
  split <;> simp_all

namespace Expr

/-- Only a single-precision expression is refused, and only as an integer. -/
theorem coerce_eq_rejected_iff {e : Expr} {target : Ty} :
    (e.coerce target).2 = .rejected ↔ e.ty = some .float ∧ target = .int := by
  unfold coerce
  split <;> simp_all

/-- Only an integer expression is wrapped, and only for single precision. -/
theorem coerce_eq_coerced_iff {e : Expr} {target : Ty} :
    (e.coerce target).2 = .coerced ↔ e.ty = some .int ∧ target = .float := by
  unfold coerce
  split <;> simp_all

/-- An operand is never refused the common type of an operation. -/
theorem coerce_generalize_ne_rejected (left right : Expr) :
    (left.coerce (generalize left.ty right.ty)).2 ≠ .rejected ∧
      (right.coerce (generalize left.ty right.ty)).2 ≠ .rejected := by
  constructor <;>
  · rw [Ne, coerce_eq_rejected_iff]
    rintro ⟨hty, htarget⟩
    simp [generalize, hty] at htarget

end Expr

end DeskCalc
