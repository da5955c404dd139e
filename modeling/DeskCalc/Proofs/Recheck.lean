import DeskCalc.Code
import DeskCalc.Proofs.Faultless

/-!
# Checking again

What checking leaves is left as it is when it is checked again, and the same is reported. Coercions
put into the tree by the first check are there already for the second one, so none of them counts as
just put there, and a number behind one is not looked through any more. Still no operation is folded
late: what the second check could fold are operations on plain numbers, and those have been folded
by the first.

The expressions may hold coercions and types of their own.

Main statement: `checkAll_checkAll`.
-/

namespace DeskCalc

namespace Expr

variable {e : Expr} {target : Ty}

/-- Nothing is left to coerce in what was coerced. -/
private theorem coerce_coerce_of_accepted (h : (e.coerce target).2 ≠ .rejected) :
    (e.coerce target).1.coerce target = ((e.coerce target).1, .unchanged) := by
  -- it has the type asked for already, or is without a type and left alone
  rcases ty_coerce h with hty | ⟨hnone, hsame⟩
  · unfold coerce at hty ⊢
    rw [hty]
    cases target <;> rfl
  · rw [hsame]
    simp [coerce, hnone]

/-- What is refused is refused again, and nothing else is. -/
private theorem coerce_coerce :
    (e.coerce target).1.coerce target =
      ((e.coerce target).1, if (e.coerce target).2 = .rejected then .rejected else .unchanged) := by
  by_cases h : (e.coerce target).2 = .rejected
  · obtain ⟨hty, rfl⟩ := coerce_eq_rejected_iff.1 h
    simp [coerce, hty]
  · rw [coerce_coerce_of_accepted h, if_neg h]

/-- The common type of operands stays when they are coerced to it. -/
private theorem generalize_coerce (left right : Expr) :
    generalize (left.coerce (generalize left.ty right.ty)).1.ty
      (right.coerce (generalize left.ty right.ty)).1.ty = generalize left.ty right.ty := by
  cases h : generalize left.ty right.ty with
  | int =>
    -- to integers nothing is wrapped
    have hsame (e : Expr) : (e.coerce .int).1 = e := by
      unfold coerce
      split
      · rfl
      · contradiction
      · rfl
    rw [hsame, hsame, h]
  | float =>
    -- an operand that was single precision is not touched
    rw [generalize_eq_float_iff] at h ⊢
    rcases h with hleft | hright
    · exact .inl (by simp [coerce, hleft])
    · exact .inr (by simp [coerce, hright])

/-! ## Expressions -/

/-- Checking the expression leaves it as it is. -/
def IsChecked (t : SymbolTable) (e : Expr) : Prop := (e.check t).1 = e

variable {t : SymbolTable}

private theorem IsChecked.literalTyped (he : e.IsChecked t) : e.LiteralTyped := by
  intro v hv
  cases e with
  | literal w ty l =>
    cases hv
    rw [← he]
    rfl
  | _ => cases hv

private theorem IsChecked.coerce (he : e.IsChecked t) (target : Ty) :
    (e.coerce target).1.IsChecked t := by
  unfold Expr.coerce
  split
  · exact he
  · -- the coercion keeps its type and its place
    have hinner : (e.check t).1 = e := he
    simp only [IsChecked, coerced, check, hinner]
  · exact he

/-- What joining leaves of checked operands is checked. -/
private theorem isChecked_join {left right : Expr} (hleft : left.IsChecked t)
    (hright : right.IsChecked t) (op : Operator) (l : Location) :
    (join op left right l).1.IsChecked t := by
  obtain ⟨hl, hr⟩ := coerce_generalize_ne_rejected left right
  have hgeneral := generalize_coerce left right
  obtain ⟨ty, rfl, ⟨v, hfolds, hjoin⟩ | ⟨hkept, hjoin⟩⟩ := join_cases op left right l
  · -- a number is left, whose type is found again
    rw [hjoin, ty_of_joinFolds hleft.literalTyped hright.literalTyped hfolds]
    rfl
  · -- the operation is left, and its operands are joined again
    rw [hjoin, IsChecked, check_binary, hleft.coerce, hright.coerce]
    obtain ⟨ty, hty, ⟨v, hfolds, hagain⟩ | ⟨-, hagain⟩⟩ :=
      join_cases op (left.coerce (generalize left.ty right.ty)).1
        (right.coerce (generalize left.ty right.ty)).1 l
    · -- nothing is wrapped this time, so only what was a number before could be folded
      rw [hgeneral] at hty
      subst hty
      rw [JoinFolds, coerce_coerce_of_accepted hl, coerce_coerce_of_accepted hr] at hfolds
      exfalso
      apply hkept v
      unfold JoinFolds
      -- two integers or two single-precision numbers had been folded the first time
      cases hfolds with
      | ints ha hb hn =>
        simp only [(coerce_of_literal? ha).2, (coerce_of_literal? hb).2, decide_false]
        exact .ints ha hb hn
      | floats ha hb =>
        simp only [(coerce_of_literal? ha).2, (coerce_of_literal? hb).2, decide_false]
        exact .floats ha hb
    · rw [hgeneral] at hty
      subst hty
      rw [hagain, coerce_coerce_of_accepted hl, coerce_coerce_of_accepted hr]

private theorem isChecked_check (t : SymbolTable) (e : Expr) : (e.check t).1.IsChecked t := by
  induction e with
  | identifier name ty l => rfl
  | literal v ty l => rfl
  | binary op left right ty l ihl ihr =>
    rw [check_binary]
    exact isChecked_join ihl ihr op l
  | coercion inner ty l ih =>
    have hinner : ((inner.check t).1.check t).1 = (inner.check t).1 := ih
    simp only [IsChecked, check, hinner]

end Expr

/-! ## Statements -/

namespace Statement

variable (t : SymbolTable)

/-- A checked statement is left as it is by checking it again. -/
private theorem fst_check_check (s : Statement) : ((s.check t).1.check t).1 = (s.check t).1 := by
  cases s with
  | print name l => rfl
  | assign target value ty l =>
    have hvalue := Expr.isChecked_check t value
    cases htarget : t.get? target with
    | none =>
      rw [fst_check_assign_of_none htarget, fst_check_assign_of_none htarget, hvalue]
    | some declared =>
      rw [fst_check_assign htarget, fst_check_assign htarget, hvalue.coerce, Expr.coerce_coerce]

/-- What is wrong with a statement is wrong with it once it is checked. -/
private theorem diagnostics_check_check (s : Statement) :
    Journal.diagnostics ((s.check t).1.check t).2 = Journal.diagnostics (s.check t).2 := by
  cases s with
  | print name l => rfl
  | assign target value ty l =>
    have hvalue := Expr.isChecked_check t value
    cases htarget : t.get? target with
    | none =>
      have hsame : (value.check t).1.occurrences = value.occurrences :=
        Expr.occurrences_check t value
      rw [fst_check_assign_of_none htarget, diagnostics_check_assign, diagnostics_check_assign,
        Expr.undeclared_congr hsame, htarget]
    | some declared =>
      have hsame : ((value.check t).1.coerce declared).1.occurrences = value.occurrences := by
        rw [Expr.occurrences_coerce, Expr.occurrences_check]
      rw [fst_check_assign htarget, diagnostics_check_assign, diagnostics_check_assign,
        hvalue.coerce, Expr.undeclared_congr hsame, htarget]
      dsimp only
      rw [Expr.coerce_coerce]
      -- what was refused was left as it is, so it is refused again
      by_cases hrejected : ((value.check t).1.coerce declared).2 = .rejected
      · simp [hrejected]
      · simp [hrejected]

end Statement

/-- Checking statements a second time changes none of them and reports the same diagnostics in the
same order, so the code generated from them is the same. -/
theorem checkAll_checkAll (t : SymbolTable) (ss : List Statement) :
    let (once, log) := Statement.checkAll t ss
    let (twice, again) := Statement.checkAll t once
    twice = once ∧ Journal.diagnostics again = Journal.diagnostics log ∧
      ∀ coercionScale, render (Statement.codeAll coercionScale twice) =
        render (Statement.codeAll coercionScale once) := by
  have hsame : (Statement.checkAll t (Statement.checkAll t ss).1).1 =
      (Statement.checkAll t ss).1 := by
    simp only [Statement.fst_checkAll, List.map_map, Function.comp_def, Statement.fst_check_check]
  have hreports : Journal.diagnostics (Statement.checkAll t (Statement.checkAll t ss).1).2 =
      Journal.diagnostics (Statement.checkAll t ss).2 := by
    rw [Statement.diagnostics_checkAll, Statement.diagnostics_checkAll, Statement.fst_checkAll,
      List.flatMap_map]
    simp only [Statement.diagnostics_check_check]
  refine ⟨hsame, hreports, ?_⟩
  intro coercionScale
  exact congrArg (fun ss => render (Statement.codeAll coercionScale ss)) hsame

end DeskCalc
