import DeskCalc.Checking

/-!
# What becomes of an operation

Checked operands are joined in two ways. If both are numbers, a number behind a coercion that was
just put there counting as one, the operation is folded, unless it is an integer division without a
quotient. Else the operation stays, with its operands coerced to their common type.

Main statements: `fold_eq_folded_iff` — the operations that are folded — and `Expr.join_cases` —
what joining two operands leaves.
-/

namespace DeskCalc

/-! ## Folded operations -/

/-- The operations on numbers that are folded, and their values: on two integers, on two
single-precision numbers, and on one of each if the integer was just wrapped in a coercion. -/
inductive Folds (op : Operator) (left right : Expr) : Bool → Bool → Literal → Prop where
  | ints {a b n : Int32} (ha : left.literal? = some (.int a)) (hb : right.literal? = some (.int b))
      (hn : op.onInts a b = some n) : Folds op left right false false (.int n)
  | floats {a b : Float32} (ha : left.literal? = some (.float a))
      (hb : right.literal? = some (.float b)) :
      Folds op left right false false (.float (op.onFloats a b))
  | leftCoerced {a : Int32} {b : Float32} (ha : left.coercedInt? = some a)
      (hb : right.literal? = some (.float b)) :
      Folds op left right true false (.float (op.onFloats (singleOfInt a) b))
  | rightCoerced {a : Float32} {b : Int32} (ha : left.literal? = some (.float a))
      (hb : right.coercedInt? = some b) :
      Folds op left right false true (.float (op.onFloats a (singleOfInt b)))

theorem fold_eq_folded_iff {op : Operator} {left right : Expr} {lc rc : Bool} {v : Literal} :
    fold op left right lc rc = .folded v ↔ Folds op left right lc rc v := by
  constructor
  · intro h
    -- one case for each way in which the operands are coerced, and in each what they are
    unfold fold at h
    split at h
    · split at h
      · next ha hb =>
        split at h
        · next hn =>
          cases h
          exact .ints ha hb hn
        · cases h
      · next ha hb =>
        cases h
        exact .floats ha hb
      · cases h
    · split at h
      · next ha hb =>
        cases h
        exact .leftCoerced ha hb
      · cases h
    · split at h
      · next ha hb =>
        cases h
        exact .rightCoerced ha hb
      · cases h
    · cases h
  · intro h
    cases h with
    | ints ha hb hn => simp [fold, ha, hb, hn]
    | floats ha hb => simp [fold, ha, hb]
    | leftCoerced ha hb => simp [fold, ha, hb]
    | rightCoerced ha hb => simp [fold, ha, hb]

namespace Expr

/-! ## Coerced operands -/

variable {e : Expr} {target : Ty}

/-- An expression that is not refused has the type asked for, unless its type is unknown. -/
theorem ty_coerce (h : (e.coerce target).2 ≠ .rejected) :
    (e.coerce target).1.ty = some target ∨ (e.ty = none ∧ (e.coerce target).1 = e) := by
  cases hty : e.ty with
  | none => exact .inr ⟨rfl, by simp [coerce, hty]⟩
  | some ty =>
    apply Or.inl
    -- the types agree, or an integer is wrapped, since the refusal is excluded
    cases ty <;> cases target
    · simp [coerce, hty]
    · simp [coerce, hty]
    · exact absurd (coerce_eq_rejected_iff.2 ⟨hty, rfl⟩) h
    · simp [coerce, hty]

/-- What is a number in the end was not wrapped. -/
theorem coerce_of_literal? {v : Literal} (h : (e.coerce target).1.literal? = some v) :
    (e.coerce target).1 = e ∧ (e.coerce target).2 ≠ .coerced := by
  unfold coerce at *
  split at h
  · exact ⟨rfl, nofun⟩
  · cases h
  · exact ⟨rfl, nofun⟩

/-- Only what was wrapped is a coercion of a number, if it was none before. -/
theorem coerce_of_coercedInt? (he : e.coercedInt? = none) {a : Int32}
    (h : (e.coerce target).1.coercedInt? = some a) : (e.coerce target).2 = .coerced := by
  unfold coerce at *
  split at h
  · rw [he] at h
    cases h
  · rfl
  · rw [he] at h
    cases h

/-! ## Joined operands -/

/-- The value of an operation on operands that are coerced to a type, if it is folded. -/
def JoinFolds (op : Operator) (left right : Expr) (ty : Ty) (v : Literal) : Prop :=
  Folds op (left.coerce ty).1 (right.coerce ty).1 ((left.coerce ty).2 = .coerced)
    ((right.coerce ty).2 = .coerced) v

/-- Joining leaves the value of the operation, or the operation on the coerced operands. -/
theorem join_cases (op : Operator) (left right : Expr) (l : Location) :
    ∃ ty, ty = generalize left.ty right.ty ∧
      ((∃ v, JoinFolds op left right ty v ∧ (join op left right l).1 = literal v (some ty) l) ∨
        ((∀ v, ¬ JoinFolds op left right ty v) ∧ (join op left right l).1 =
          binary op (left.coerce ty).1 (right.coerce ty).1 (some ty) l)) := by
  refine ⟨_, rfl, ?_⟩
  simp only [JoinFolds, ← fold_eq_folded_iff]
  unfold join
  dsimp only
  split
  · next v hv => exact .inl ⟨v, hv, rfl⟩
  · next hkept => exact .inr ⟨by simp [hkept], rfl⟩
  · next hundivided => exact .inr ⟨by simp [hundivided], rfl⟩

/-- A number has the type of its form. -/
def LiteralTyped (e : Expr) : Prop := ∀ v, e.literal? = some v → e.ty = some v.ty

/-- The value of a folded operation is of the common type of its operands. -/
theorem ty_of_joinFolds {op : Operator} {left right : Expr} (hleft : left.LiteralTyped)
    (hright : right.LiteralTyped) {v : Literal}
    (h : JoinFolds op left right (generalize left.ty right.ty) v) :
    generalize left.ty right.ty = v.ty := by
  unfold JoinFolds at h
  revert h
  -- the common type and the two flags are the indices that the form of the fold decides
  generalize hty : generalize left.ty right.ty = ty
  generalize hlc : decide ((left.coerce ty).2 = .coerced) = lc
  generalize hrc : decide ((right.coerce ty).2 = .coerced) = rc
  intro h
  cases h with
  | ints ha hb _ =>
    -- neither operand was wrapped, so both are the integers that they were
    rw [(coerce_of_literal? ha).1] at ha
    rw [(coerce_of_literal? hb).1] at hb
    rw [← hty, hleft _ ha, hright _ hb]
    rfl
  | floats ha _ =>
    rw [(coerce_of_literal? ha).1] at ha
    rw [← hty, hleft _ ha]
    rfl
  | leftCoerced => exact (coerce_eq_coerced_iff.1 (by simpa using hlc)).2
  | rightCoerced => exact (coerce_eq_coerced_iff.1 (by simpa using hrc)).2

end Expr

end DeskCalc
