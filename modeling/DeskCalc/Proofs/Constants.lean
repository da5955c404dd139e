import DeskCalc.Proofs.Integers
import DeskCalc.Proofs.Passes

/-!
# Expressions without names

An expression has a value by itself if no name is needed for it. It is folded to that value, or to
no number if it has none; and if it has no names either, then what prevents the value is a division,
which the code goes on to contain.

An expression of integers and operations is assigned to an integer variable as it is folded.

Main statements: `Expr.literal?_check` and `Expr.div_mem_code_check`.
-/

namespace DeskCalc

/-- Only a division can lack a value. -/
private theorem Operator.eq_div_of_onValues? {op : Operator} {a b : Literal}
    (h : op.onValues? a b = none) : op = .div := by
  cases a with
  | float a => cases h
  | int a =>
    cases b with
    | float b => cases h
    | int b =>
      rw [onValues?, Option.map_eq_none_iff, ← onInts_eq_wrapping?, onInts_eq_none_iff] at h
      exact h.1

namespace Expr

/-- The value that an expression has by itself. -/
def constant? (e : Expr) : Option Literal := e.value? fun _ => none

theorem constant?_binary (op : Operator) (left right : Expr) (ty : Option Ty) (l : Location) :
    (binary op left right ty l).constant? =
      left.constant?.bind fun a => right.constant?.bind fun b => op.onValues? a b := rfl

/-! ## Folding to the value -/

/-- The first pass leaves a number exactly where there is a value, and this value. -/
private theorem literal?_folded {e : Expr} (he : e.IsPlain) : e.folded.literal? = e.constant? := by
  induction e with
  | identifier name ty l => rfl
  | literal v ty l => rfl
  | binary op left right ty l ihl ihr =>
    -- the operands are numbers exactly where they have values, and then these values
    have hnumbers : op.onNumbers? left.folded right.folded =
        (binary op left right ty l).constant? := by
      rw [Operator.onNumbers?, ihl he.1, ihr he.2, constant?_binary]
    cases hv : op.onNumbers? left.folded right.folded with
    | some v =>
      rw [← hnumbers, hv, folded_of_some hv]
      rfl
    | none =>
      rw [← hnumbers, hv, folded_of_none hv]
      rfl
  | coercion inner ty l => exact he.elim

theorem literal?_check {e : Expr} (he : e.IsPlain) (t : SymbolTable) :
    (e.check t).1.literal? = e.constant? := by
  rw [fst_check_eq he, literal?_annotate, literal?_folded he]

/-! ## Divisions that are left -/

variable {scale : Bool} {i : Instruction}

private theorem mem_code_asOperand {e : Expr} (h : i ∈ e.code scale) (own : Ty) :
    i ∈ (e.asOperand own).code scale := by
  unfold asOperand
  split
  · exact List.mem_append_left _ h
  · exact h

/-- The second pass drops no instruction. -/
private theorem mem_code_annotate {e : Expr} (h : i ∈ e.code scale) (known : String → Option Ty) :
    i ∈ (e.annotate known).1.code scale := by
  induction e with
  | identifier name ty l => exact h
  | literal v ty l => exact h
  | binary op left right ty l ihl ihr =>
    simp only [code, List.mem_append] at h
    simp only [annotate, code, List.mem_append]
    -- the instruction comes from an operand, perhaps wrapped, or is the operation
    rcases h with (h | h) | h
    · exact .inl (.inl (mem_code_asOperand (ihl h) _))
    · exact .inl (.inr (mem_code_asOperand (ihr h) _))
    · exact .inr h
  | coercion inner ty l ih =>
    simp only [code, List.mem_append] at h
    simp only [annotate, code, List.mem_append]
    exact h.imp_left ih

/-- Without names, what has no value is kept for the sake of a division. -/
private theorem div_mem_code_folded {e : Expr} (he : e.IsPlain) (hnames : e.names = [])
    (hnone : e.constant? = none) : .operation .div ∈ e.folded.code scale := by
  induction e with
  | identifier name ty l => cases hnames
  | literal v ty l => cases hnone
  | binary op left right ty l ihl ihr =>
    obtain ⟨hleft, hright⟩ := List.append_eq_nil_iff.1 hnames
    have hkept : op.onNumbers? left.folded right.folded = none := by
      rw [Operator.onNumbers?, literal?_folded he.1, literal?_folded he.2, ← hnone,
        constant?_binary]
    rw [folded_of_none hkept]
    simp only [code, List.mem_append, List.mem_singleton]
    -- the division stands in an operand without a value, or else it is the operation
    cases ha : left.constant? with
    | none => exact .inl (.inl (ihl he.1 hleft ha))
    | some a =>
      cases hb : right.constant? with
      | none => exact .inl (.inr (ihr he.2 hright hb))
      | some b =>
        rw [constant?_binary, ha, hb] at hnone
        rw [Operator.eq_div_of_onValues? hnone]
        exact .inr rfl
  | coercion inner ty l => exact he.elim

theorem div_mem_code_check {e : Expr} (he : e.IsPlain) (hnames : e.names = [])
    (hnone : e.constant? = none) (t : SymbolTable) :
    .operation .div ∈ (e.check t).1.code scale := by
  rw [fst_check_eq he]
  exact mem_code_annotate (div_mem_code_folded he hnames hnone) _

/-! ## Integers and operations -/

/-- The expression is made of integers and operations only. -/
def IsArithmetic : Expr → Prop
  | literal v _ _ => v.ty = .int
  | binary _ left right _ _ => left.IsArithmetic ∧ right.IsArithmetic
  | identifier .. | coercion .. => False

namespace IsArithmetic

variable {e : Expr}

theorem names_eq_nil (h : e.IsArithmetic) : e.names = [] := by
  induction e with
  | literal v ty l => rfl
  | binary op left right ty l ihl ihr => rw [names, ihl h.1, ihr h.2, List.append_nil]
  | identifier name ty l => exact h.elim
  | coercion inner ty l => exact h.elim

theorem isPlain (h : e.IsArithmetic) : e.IsPlain := by
  induction e with
  | literal v ty l => trivial
  | binary op left right ty l ihl ihr => exact ⟨ihl h.1, ihr h.2⟩
  | identifier name ty l => exact h.elim
  | coercion inner ty l => exact h.elim

private theorem isIntegral (h : e.IsArithmetic) (t : SymbolTable) : e.IsIntegral t := by
  induction e with
  | literal v ty l => exact h
  | binary op left right ty l ihl ihr => exact ⟨ihl h.1, ihr h.2⟩
  | identifier name ty l => exact h.elim
  | coercion inner ty l => exact h.elim

theorem ty_of_constant? (h : e.IsArithmetic) {v : Literal} (hv : e.constant? = some v) :
    v.ty = .int := by
  induction e generalizing v with
  | literal w ty l =>
    cases hv
    exact h
  | binary op left right ty l ihl ihr =>
    rw [constant?_binary] at hv
    obtain ⟨a, ha, hv⟩ := Option.bind_eq_some_iff.1 hv
    obtain ⟨b, hb, hv⟩ := Option.bind_eq_some_iff.1 hv
    -- the common type of two integers is the integer one
    rw [Operator.ty_of_onValues? hv, ihl h.1 ha, ihr h.2 hb]
    rfl
  | identifier name ty l => exact h.elim
  | coercion inner ty l => exact h.elim

end IsArithmetic

end Expr

/-- Integers and operations are assigned to a declared integer variable as they are folded, and
nothing is wrong with that. -/
theorem Statement.check_assign_of_isArithmetic {t : SymbolTable} {target : String} {value : Expr}
    (htarget : t.get? target = some .int) (h : value.IsArithmetic) (ty : Option Ty)
    (l : Location) :
    ((assign target value ty l).check t).1 = assign target (value.check t).1 (some .int) l ∧
      Journal.diagnostics ((assign target value ty l).check t).2 = [] := by
  -- the value is found to be an integer, so it is not coerced to the type of the target
  have hint := (Expr.isIntegral_check (h.isIntegral t)).1
  have hkept : (value.check t).1.coerce .int = ((value.check t).1, .unchanged) := by
    simp [Expr.coerce, hint]
  -- no name is in the value, so none is undeclared
  have hknown : value.undeclared t.get? = [] := by
    have hnone := h.names_eq_nil
    rw [Expr.names_eq_map, List.map_eq_nil_iff] at hnone
    rw [Expr.undeclared, hnone]
    rfl
  constructor
  · rw [fst_check_assign htarget, hkept]
  · rw [diagnostics_check_assign, hknown, htarget]
    simp [hkept]

end DeskCalc
