import DeskCalc.Proofs.Faultless

/-!
# The normal form of checked expressions

A checked expression without coercions of its own is in normal form. Each node has its type, names
that are not declared apart; the operands of an operation have its type; a coercion stands over an
integer operand of a single-precision operation and nowhere else; and no operation is left that
could have been folded.

These facts depend on each other: that operands fit rests on the types found for them, that no
coercion stands over another one on the shape of operands, and that nothing can be folded on both.
They are told node by node, each by the node and those below it, and joining keeps all of them.

Main statement: `checked_isNormal`.
-/

namespace DeskCalc

namespace Expr

variable {t : SymbolTable}

/-! ## Normal nodes -/

/-- A name that the table does not hold, which has no type. -/
def IsMissing (t : SymbolTable) : Expr → Prop
  | identifier name ty _ => ty = none ∧ t.get? name = none
  | _ => False

/-- An operand of an operation of the type `own`. It has this type unless it is a missing name, and
is a coercion in a single-precision operation only. -/
structure IsOperand (t : SymbolTable) (own : Ty) (e : Expr) : Prop where
  ty_eq : e.ty = some own ∨ e.IsMissing t
  own_eq : e.isCoercion → own = .float

/-- The operation is not one that is folded: two integers have no quotient, two single-precision
numbers are not its operands, and neither is one of them beside a coerced integer. -/
structure IsUnfolded (op : Operator) (left right : Expr) : Prop where
  ints : ∀ a b, left.literal? = some (.int a) → right.literal? = some (.int b) →
    op = .div ∧ (b = 0 ∨ (a = Int32.minValue ∧ b = -1))
  floats : ∀ a b, ¬ (left.literal? = some (.float a) ∧ right.literal? = some (.float b))
  leftCoerced : ∀ a b, ¬ (left.coercedInt? = some a ∧ right.literal? = some (.float b))
  rightCoerced : ∀ a b, ¬ (left.literal? = some (.float a) ∧ right.coercedInt? = some b)

/-- The root of the expression is in normal form: it has its type, and so have the nodes right below
it. -/
def IsNormalNode (t : SymbolTable) : Expr → Prop
  | identifier name ty _ => ty = t.get? name
  | literal v ty _ => ty = some v.ty
  | binary op left right ty _ =>
    ∃ own, ty = some own ∧ left.IsOperand t own ∧ right.IsOperand t own ∧ IsUnfolded op left right
  | coercion inner ty _ => ty = some .float ∧ inner.ty = some .int ∧ inner.isCoercion = false

/-- All nodes are in normal form, and the expression as a whole is not coerced. -/
structure IsNormal (t : SymbolTable) (e : Expr) : Prop where
  nodes : ∀ n ∈ e.nodes, n.IsNormalNode t
  root : e.isCoercion = false

/-! ## What normal expressions are like -/

theorem IsNormal.literalTyped {e : Expr} (he : e.IsNormal t) : e.LiteralTyped := by
  intro v hv
  have hnode := he.nodes e e.mem_nodes_self
  cases e with
  | literal w ty l =>
    cases hv
    exact hnode
  | _ => cases hv

/-- Only names that are missing have no type. -/
private theorem IsNormal.isMissing {e : Expr} (he : e.IsNormal t) (hty : e.ty = none) :
    e.IsMissing t := by
  have hnode := he.nodes e e.mem_nodes_self
  -- each other node has a type in normal form
  cases e with
  | identifier name ty l =>
    have hnone : ty = none := hty
    exact ⟨hnone, hnode.symm.trans hnone⟩
  | literal v ty l => cases hnode.symm.trans hty
  | binary op left right ty l =>
    obtain ⟨own, hown, _⟩ := hnode
    cases hown.symm.trans hty
  | coercion inner ty l => cases hnode.1.symm.trans hty

theorem IsNormal.coercedInt?_eq_none {e : Expr} (he : e.IsNormal t) : e.coercedInt? = none := by
  have hroot := he.root
  cases e with
  | coercion inner ty l => cases hroot
  | _ => rfl

/-! ## Coerced operands -/

/-- A normal expression that is not refused is a normal operand. -/
private theorem IsNormal.isOperand_coerce {e : Expr} (he : e.IsNormal t) {own : Ty}
    (h : (e.coerce own).2 ≠ .rejected) : (e.coerce own).1.IsOperand t own := by
  constructor
  · rcases ty_coerce h with hty | ⟨hnone, hsame⟩
    · exact .inl hty
    · rw [hsame]
      exact .inr (he.isMissing hnone)
  · intro hcoercion
    unfold coerce at hcoercion
    -- a coercion can only be the one put there
    split at hcoercion
    · exact absurd hcoercion (by simp [he.root])
    · rfl
    · exact absurd hcoercion (by simp [he.root])

private theorem IsNormal.nodes_coerce {e : Expr} (he : e.IsNormal t) (own : Ty) :
    ∀ n ∈ (e.coerce own).1.nodes, n.IsNormalNode t := by
  unfold coerce
  split
  · exact he.nodes
  · next hty =>
    intro n hn
    -- the coercion is one more node, over an integer that is no coercion
    rcases List.mem_append.1 hn with hn | hn
    · exact he.nodes n hn
    · rw [List.mem_singleton.1 hn]
      exact ⟨rfl, hty, he.root⟩
  · exact he.nodes

/-! ## Joined operands -/

/-- What was not folded is not to be folded: the operands are numbers only if they were so before or
were wrapped just now, and that is what folding looks for. -/
private theorem isUnfolded_of_not_joinFolds {left right : Expr} (hleft : left.IsNormal t)
    (hright : right.IsNormal t) {op : Operator} {own : Ty}
    (h : ∀ v, ¬ JoinFolds op left right own v) :
    IsUnfolded op (left.coerce own).1 (right.coerce own).1 := by
  unfold JoinFolds at h
  -- one case for each field, and in each the operands tell what was wrapped
  constructor
  · intro a b ha hb
    obtain ⟨-, hlc⟩ := coerce_of_literal? ha
    obtain ⟨-, hrc⟩ := coerce_of_literal? hb
    simp only [hlc, hrc, decide_false] at h
    rw [← Operator.onInts_eq_none_iff]
    cases hn : op.onInts a b with
    | none => rfl
    | some n => exact absurd (.ints ha hb hn) (h _)
  · intro a b hab
    obtain ⟨ha, hb⟩ := hab
    obtain ⟨-, hlc⟩ := coerce_of_literal? ha
    obtain ⟨-, hrc⟩ := coerce_of_literal? hb
    simp only [hlc, hrc, decide_false] at h
    exact h _ (.floats ha hb)
  · intro a b hab
    obtain ⟨ha, hb⟩ := hab
    have hlc := coerce_of_coercedInt? hleft.coercedInt?_eq_none ha
    obtain ⟨-, hrc⟩ := coerce_of_literal? hb
    simp only [hlc, hrc, decide_true, decide_false] at h
    exact h _ (.leftCoerced ha hb)
  · intro a b hab
    obtain ⟨ha, hb⟩ := hab
    obtain ⟨-, hlc⟩ := coerce_of_literal? ha
    have hrc := coerce_of_coercedInt? hright.coercedInt?_eq_none hb
    simp only [hlc, hrc, decide_true, decide_false] at h
    exact h _ (.rightCoerced ha hb)

/-- Joining normal operands gives a normal expression. -/
private theorem isNormal_join {left right : Expr} (hleft : left.IsNormal t)
    (hright : right.IsNormal t) (op : Operator) (l : Location) :
    (join op left right l).1.IsNormal t := by
  obtain ⟨hl, hr⟩ := coerce_generalize_ne_rejected left right
  obtain ⟨own, rfl, ⟨v, hfolds, hjoin⟩ | ⟨hkept, hjoin⟩⟩ := join_cases op left right l
  · -- a number is left, and it has its type
    have hty := ty_of_joinFolds hleft.literalTyped hright.literalTyped hfolds
    rw [hjoin]
    refine ⟨?_, rfl⟩
    intro n hn
    rw [List.mem_singleton.1 hn]
    exact congrArg some hty
  · -- the operation stays, behind its operands
    rw [hjoin]
    refine ⟨?_, rfl⟩
    intro n hn
    rcases List.mem_append.1 hn with hn | hn
    · rcases List.mem_append.1 hn with hn | hn
      · exact hleft.nodes_coerce _ n hn
      · exact hright.nodes_coerce _ n hn
    · rw [List.mem_singleton.1 hn]
      exact ⟨_, rfl, hleft.isOperand_coerce hl, hright.isOperand_coerce hr,
        isUnfolded_of_not_joinFolds hleft hright hkept⟩

theorem isNormal_check {e : Expr} (he : e.IsPlain) : (e.check t).1.IsNormal t := by
  induction e with
  | identifier name ty l =>
    refine ⟨?_, rfl⟩
    intro n hn
    rw [List.mem_singleton.1 hn]
    rfl
  | literal v ty l =>
    refine ⟨?_, rfl⟩
    intro n hn
    rw [List.mem_singleton.1 hn]
    rfl
  | binary op left right ty l ihl ihr =>
    rw [check_binary]
    exact isNormal_join (ihl he.1) (ihr he.2) op l
  | coercion inner ty l => exact he.elim

end Expr

/-! ## Checked statements -/

/-- Whatever the table holds, a checked expression is in normal form if it has had no coercions. The
value of a checked assignment is so too, or it is one coercion of such an integer expression, to the
type of a single-precision target. -/
theorem checked_isNormal (t : SymbolTable) :
    (∀ e : Expr, e.IsPlain → (e.check t).1.IsNormal t) ∧
    ∀ (target : String) (value : Expr) (ty : Option Ty) (l : Location), value.IsPlain →
      ∃ root : Expr, ((Statement.assign target value ty l).check t).1 =
          .assign target root (t.get? target) l ∧
        (root.IsNormal t ∨
          ∃ inner : Expr, root = inner.coerced .float ∧ t.get? target = some .float ∧
            inner.ty = some .int ∧ inner.IsNormal t) := by
  refine ⟨fun e he => Expr.isNormal_check he, ?_⟩
  intro target value ty l hvalue
  have hnormal := Expr.isNormal_check (t := t) hvalue
  cases htarget : t.get? target with
  | none => exact ⟨_, Statement.fst_check_assign_of_none htarget value ty l, .inl hnormal⟩
  | some declared =>
    refine ⟨_, Statement.fst_check_assign htarget value ty l, ?_⟩
    -- the value is wrapped if the target asks for it, and else it is as it was
    unfold Expr.coerce
    split
    · exact .inl hnormal
    · next hty => exact .inr ⟨_, rfl, rfl, hty, hnormal⟩
    · exact .inl hnormal

/-- A division by zero is kept as the one operand of a single-precision sum, and the value of an
integer sum is coerced for a single-precision target. -/
theorem checked_isNormal_of_division :
    let t := (SymbolTable.build 4 [⟨.int, "n", .start⟩, ⟨.float, "x", .start⟩]).1
    let n : Expr := .identifier "n" none .start
    let division : Expr := .binary .div (.literal (.int 1) none .start)
      (.literal (.int 0) none .start) none .start
    let mixed : Expr := .binary .add division (.literal (.float 0.5) none .start) none .start
    let sum : Expr := .binary .add n (.literal (.int 2) none .start) none .start
    (mixed.IsPlain ∧ sum.IsPlain) ∧ (mixed.check t).1.IsNormal t ∧
      ∃ inner : Expr, ((Statement.assign "x" sum none .start).check t).1 =
          .assign "x" (inner.coerced .float) (some .float) .start ∧
        inner.ty = some .int ∧ inner.IsNormal t := by
  intro t n division mixed sum
  have hmixed : mixed.IsPlain := ⟨⟨trivial, trivial⟩, trivial⟩
  have hsum : sum.IsPlain := ⟨trivial, trivial⟩
  obtain ⟨hexpr, hassign⟩ := checked_isNormal t
  obtain ⟨root, hroot, hshape⟩ := hassign "x" sum none .start hsum
  have htarget : t.get? "x" = some .float := by decide +kernel
  have hchecked : ((Statement.assign "x" sum none .start).check t).1 =
      .assign "x" ((sum.check t).1.coerced .float) (some .float) .start := by decide +kernel
  rw [htarget, hchecked] at hroot
  cases hroot
  refine ⟨⟨hmixed, hsum⟩, hexpr mixed hmixed, ?_⟩
  rcases hshape with hnormal | ⟨inner, hinner, _, hty, hnormal⟩
  · -- a coercion as a whole is not in normal form
    cases hnormal.root
  · rw [hinner] at hchecked
    exact ⟨inner, hchecked, hty, hnormal⟩

end DeskCalc
