import DeskCalc.Typing

/-!
# Constant folding

An operation on numbers is computed at once. A number behind a coercion that was just put there is
looked through if the other operand is a single-precision number. An integer division without a
value is left for the target machine.

Main statement: `fold_eq_undivided_iff` — the only operations on two integers that are not folded
are divisions without a 32-bit quotient.
-/

namespace DeskCalc

/-- The outcome of trying to compute an operation. -/
inductive Folding where
  /-- The operands are not the numbers that folding asks for. -/
  | kept
  /-- The operands are integers, but their quotient does not exist. -/
  | undivided (dividend divisor : Int32)
  /-- The value of the operation. -/
  | folded (value : Literal)
deriving DecidableEq, Inhabited

namespace Expr

/-- The number that an expression is. -/
def literal? : Expr → Option Literal
  | literal value _ _ => some value
  | _ => none

/-- The integer that an expression coerces. -/
def coercedInt? : Expr → Option Int32
  | coercion (literal (.int value) _ _) _ _ => some value
  | _ => none

end Expr

/-- Compute `op` on two operands, of which `leftCoerced` and `rightCoerced` were just wrapped in a
coercion. -/
def fold (op : Operator) (left right : Expr) (leftCoerced rightCoerced : Bool) : Folding :=
  match leftCoerced, rightCoerced with
  | false, false =>
    match left.literal?, right.literal? with
    | some (.int a), some (.int b) =>
      match op.onInts a b with
      | some value => .folded (.int value)
      | none => .undivided a b
    | some (.float a), some (.float b) => .folded (.float (op.onFloats a b))
    | _, _ => .kept
  | true, false =>
    -- the integer is converted here, so its coercion disappears with it
    match left.coercedInt?, right.literal? with
    | some a, some (.float b) => .folded (.float (op.onFloats (singleOfInt a) b))
    | _, _ => .kept
  | false, true =>
    match left.literal?, right.coercedInt? with
    | some (.float a), some b => .folded (.float (op.onFloats a (singleOfInt b)))
    | _, _ => .kept
  | true, true => .kept

/-- A division is left alone exactly if both operands are integers without a 32-bit quotient. -/
theorem fold_eq_undivided_iff {op : Operator} {left right : Expr} {lc rc : Bool} {a b : Int32} :
    fold op left right lc rc = .undivided a b ↔
      lc = false ∧ rc = false ∧ left.literal? = some (.int a) ∧ right.literal? = some (.int b) ∧
        op.onInts a b = none := by
  unfold fold
  split
  · split
    · next ha hb =>
      split
      · next value hv =>
        simp only [reduceCtorEq, ha, hb, Option.some.injEq, Literal.int.injEq, false_iff]
        rintro ⟨_, _, rfl, rfl, hnone⟩
        simp [hv] at hnone
      · next hv =>
        simp only [Folding.undivided.injEq, ha, hb, Option.some.injEq, Literal.int.injEq, true_and]
        constructor
        · rintro ⟨rfl, rfl⟩
          exact ⟨rfl, rfl, hv⟩
        · rintro ⟨rfl, rfl, _⟩
          exact ⟨rfl, rfl⟩
    · next ha hb => simp [ha, hb]
    · next hnot _ =>
      simp only [reduceCtorEq, false_iff]
      rintro ⟨_, _, ha, hb, _⟩
      exact hnot _ _ ha hb
  · split <;> simp
  · split <;> simp
  · simp

end DeskCalc
