import DeskCalc.Proofs.Arithmetic
import DeskCalc.Proofs.Faultless

/-!
# Checking keeps the meaning of a program

An expression has a value: a 32-bit integer or a single-precision number, or none if a division has
no quotient. Single-precision arithmetic and the conversion of an integer are left uninterpreted.

Checking rewrites a tree while it finds its types: it inserts coercions and replaces operations on
numbers by their value. No rewriting changes the value, also in trees that hold coercions and types
already.

Main statement: `check_keeps_value`.
-/

namespace DeskCalc

/-! ## Values -/

namespace Literal

/-- The single-precision number that a value is converted to. -/
def single : Literal → Float32
  | int a => singleOfInt a
  | float b => b

/-- A value as a single-precision one: an integer is converted, any other value is left alone. -/
def converted (v : Literal) : Literal := float v.single

/-- A value as one of the type `target`, to which it can be widened. -/
def widened (target : Ty) (v : Literal) : Literal :=
  match target with
  | .int => v
  | .float => v.converted

@[simp] theorem ty_converted (v : Literal) : v.converted.ty = .float := rfl

/-- A single-precision value is left alone. -/
private theorem converted_of_ty {v : Literal} (h : v.ty = .float) : v.converted = v := by
  cases v with
  | int a => cases h
  | float b => rfl

end Literal

namespace Operator

/-- An operation on values: on two integers it is integer arithmetic, and else single-precision
arithmetic, to which an integer operand is converted. -/
def onValues? (op : Operator) : Literal → Literal → Option Literal
  | .int a, .int b => (op.wrapping? a b).map .int
  | a, b => some (.float (op.onFloats a.single b.single))

/-- An operation on two integers has an integer value, and any other one a single-precision one. -/
theorem ty_of_onValues? {op : Operator} {a b v : Literal} (h : op.onValues? a b = some v) :
    v.ty = generalize (some a.ty) (some b.ty) := by
  cases a <;> cases b <;> simp only [onValues?, Option.map_eq_some_iff, Option.some.injEq] at h
  · obtain ⟨_, _, rfl⟩ := h
    rfl
  all_goals
    subst h
    rfl

/-- Widening both operands to their common type makes no difference to an operation. -/
private theorem onValues?_widened (op : Operator) (a b : Literal) :
    op.onValues? (a.widened (generalize (some a.ty) (some b.ty)))
        (b.widened (generalize (some a.ty) (some b.ty))) = op.onValues? a b := by
  -- an operation converts an integer beside a float itself, as widening would
  cases a <;> cases b <;> rfl

end Operator

/-! ## Expressions -/

namespace Expr

/-- The value of an expression. An operation or coercion with an operand that has none has none. -/
def value? (values : String → Option Literal) : Expr → Option Literal
  | identifier name _ _ => values name
  | literal v _ _ => some v
  | binary op left right _ _ =>
    (left.value? values).bind fun a => (right.value? values).bind fun b => op.onValues? a b
  | coercion inner _ _ => (inner.value? values).map Literal.converted

/-- The values respect the declarations of the names in the expression: a name that the table holds
has a value of its type, and any other name has none. Nothing is said about names elsewhere. -/
def Respects (t : SymbolTable) (values : String → Option Literal) (e : Expr) : Prop :=
  ∀ name ∈ e.names, (values name).map Literal.ty = t.get? name

/-- The value of the expression, if it has one, is of the type found for it. -/
def TypeFits (values : String → Option Literal) (e : Expr) : Prop :=
  ∀ v, e.value? values = some v → e.ty = some v.ty

variable {values : String → Option Literal}

private theorem value?_of_literal? {e : Expr} {v : Literal} (h : e.literal? = some v) :
    e.value? values = some v := by
  unfold literal? at h
  split at h
  · exact h
  · cases h

private theorem value?_of_coercedInt? {e : Expr} {a : Int32} (h : e.coercedInt? = some a) :
    e.value? values = some (Literal.int a).converted := by
  unfold coercedInt? at h
  split at h
  · cases h
    rfl
  · cases h

/-- What an operation is folded to is its value. -/
private theorem value?_of_folds {op : Operator} {left right : Expr} {lc rc : Bool} {v : Literal}
    (h : Folds op left right lc rc v) (ty : Option Ty) (l : Location) :
    (binary op left right ty l).value? values = some v := by
  -- the operands have the values that they are folded with
  have hoperands {a b : Literal} (ha : left.value? values = some a)
      (hb : right.value? values = some b) :
      (binary op left right ty l).value? values = op.onValues? a b := by
    simp only [value?, ha, hb, Option.bind_some]
  cases h with
  | ints ha hb hn =>
    rw [Operator.onInts_eq_wrapping?] at hn
    rw [hoperands (value?_of_literal? ha) (value?_of_literal? hb)]
    simp [Operator.onValues?, hn]
  | floats ha hb =>
    rw [hoperands (value?_of_literal? ha) (value?_of_literal? hb)]
    rfl
  | leftCoerced ha hb =>
    rw [hoperands (value?_of_coercedInt? ha) (value?_of_literal? hb)]
    rfl
  | rightCoerced ha hb =>
    rw [hoperands (value?_of_literal? ha) (value?_of_coercedInt? hb)]
    rfl

/-- Where the type found fits, an expression that is coerced, if need be, has the value widened to
the type asked for, unless it is refused. -/
private theorem value?_coerce {e : Expr} (he : e.TypeFits values) {target : Ty}
    (h : (e.coerce target).2 ≠ .rejected) :
    (e.coerce target).1.value? values = (e.value? values).map (Literal.widened target) := by
  match hv : e.value? values with
  -- without a value there is none behind a coercion either
  | none =>
    unfold coerce
    split
    · simp [hv]
    · simp [coerced, value?, hv]
    · simp [hv]
  | some v =>
    -- the type is that of the value, so a refusal and a coercion are decided by the value
    have hty : e.ty = some v.ty := he v hv
    rw [Ne, coerce_eq_rejected_iff, hty] at h
    cases v with
    | int a => cases target <;> simp [coerce, hty, Literal.ty, coerced, value?, hv, Literal.widened]
    | float b =>
      cases target with
      | int => exact absurd ⟨rfl, rfl⟩ h
      | float =>
        simp only [coerce, hty, Literal.ty, hv, Option.map_some, Literal.widened]
        rw [Literal.converted_of_ty rfl]

/-- Joining two checked operands keeps the value of the operation on them. -/
private theorem value?_join {left right : Expr} (hleft : left.TypeFits values)
    (hright : right.TypeFits values) (op : Operator) (ty : Option Ty) (l : Location) :
    (join op left right l).1.value? values = (binary op left right ty l).value? values := by
  obtain ⟨hl, hr⟩ := coerce_generalize_ne_rejected left right
  have hoperands : ∀ target, target = generalize left.ty right.ty →
      (binary op (left.coerce target).1 (right.coerce target).1 (some target) l).value? values =
        (binary op left right ty l).value? values := by
    intro target htarget
    subst htarget
    simp only [value?, value?_coerce hleft hl, value?_coerce hright hr]
    cases ha : left.value? values with
    | none => rfl
    | some a =>
      cases hb : right.value? values with
      | none => rfl
      | some b =>
        -- the types found are those of the values, so the operands are widened as these are
        rw [hleft a ha, hright b hb]
        exact op.onValues?_widened a b
  obtain ⟨target, htarget, ⟨v, hfolds, hjoin⟩ | ⟨_, hjoin⟩⟩ := join_cases op left right l
  · rw [hjoin, ← hoperands target htarget]
    exact (value?_of_folds hfolds _ l).symm
  · rw [hjoin]
    exact hoperands target htarget

/-- The value of an operation is of the common type of operands whose types fit. -/
private theorem typeFits_join {left right : Expr} (hleft : left.TypeFits values)
    (hright : right.TypeFits values) (op : Operator) (l : Location) :
    (join op left right l).1.TypeFits values := by
  intro v hv
  -- the value is that of the operation, of which the operands tell the type
  rw [value?_join hleft hright op none l] at hv
  simp only [value?, Option.bind_eq_some_iff] at hv
  obtain ⟨a, ha, b, hb, hop⟩ := hv
  rw [ty_join, hleft a ha, hright b hb, Operator.ty_of_onValues? hop]

variable {t : SymbolTable}

/-- Checking an expression keeps its value and finds the type of it. -/
private theorem value?_check {e : Expr} (h : e.Respects t values) :
    (e.check t).1.value? values = e.value? values ∧ (e.check t).1.TypeFits values := by
  induction e with
  | identifier name ty l =>
    refine ⟨rfl, ?_⟩
    intro v hv
    have hty := h name (List.mem_singleton_self name)
    rw [show values name = some v from hv] at hty
    exact hty.symm
  | literal v ty l =>
    refine ⟨rfl, ?_⟩
    intro w hw
    cases hw
    rfl
  | binary op left right ty l ihl ihr =>
    obtain ⟨hleft, hleftFits⟩ := ihl fun name hn => h name (List.mem_append_left _ hn)
    obtain ⟨hright, hrightFits⟩ := ihr fun name hn => h name (List.mem_append_right _ hn)
    rw [check_binary]
    refine ⟨?_, typeFits_join hleftFits hrightFits op l⟩
    -- the old type of the operation plays no part in its value
    rw [value?_join hleftFits hrightFits op ty l]
    simp only [value?, hleft, hright]
  | coercion inner ty l ih =>
    refine ⟨?_, ?_⟩
    · simp only [check, value?, (ih h).1]
    · intro v hv
      simp only [check, value?, Option.map_eq_some_iff] at hv
      obtain ⟨a, _, rfl⟩ := hv
      rfl

end Expr

/-! ## Assignments -/

/-- Where values respect the declarations, a checked expression has the same value as before, or
none as before, and the type found for it is that of the value. The value assigned to a declared
target is the one in the source, widened to the type of the target, unless narrowing is reported. -/
theorem check_keeps_value (t : SymbolTable) (values : String → Option Literal) :
    (∀ e : Expr, e.Respects t values →
      (e.check t).1.value? values = e.value? values ∧
        ∀ v, (e.check t).1.value? values = some v → (e.check t).1.ty = some v.ty) ∧
    ∀ (target : String) (declared : Ty) (value : Expr) (ty : Option Ty) (l : Location),
      value.Respects t values → t.get? target = some declared →
      (∀ name place, Diagnostic.narrowing name place ∉
        Journal.diagnostics ((Statement.assign target value ty l).check t).2) →
      ∃ root, ((Statement.assign target value ty l).check t).1 =
          .assign target root (some declared) l ∧
        root.value? values = (value.value? values).map (Literal.widened declared) ∧
        ∀ v, root.value? values = some v → v.ty = declared := by
  refine ⟨fun e he => Expr.value?_check he, ?_⟩
  intro target declared value ty l hvalue htarget hreport
  obtain ⟨hkept, hfits⟩ := Expr.value?_check hvalue
  -- a refusal would have been reported as narrowing
  have hcoerce : ((value.check t).1.coerce declared).2 ≠ .rejected := fun hrejected =>
    hreport target l (Statement.narrowing_mem_of_rejected htarget hrejected ty l)
  refine ⟨_, Statement.fst_check_assign htarget value ty l, ?_, ?_⟩
  · rw [Expr.value?_coerce hfits hcoerce, hkept]
  · intro v hv
    rw [Expr.value?_coerce hfits hcoerce, Option.map_eq_some_iff] at hv
    obtain ⟨a, ha, rfl⟩ := hv
    cases declared with
    | float => rfl
    | int =>
      -- a single-precision value would have been refused
      rw [Ne, Expr.coerce_eq_rejected_iff, hfits a ha] at hcoerce
      cases a with
      | int a => rfl
      | float b => exact absurd ⟨rfl, rfl⟩ hcoerce

/-- An integer sum assigned to a single-precision name is computed in integers and then converted,
also where a number in it has been given the wrong type. -/
theorem check_keeps_value_of_sum :
    let t := (SymbolTable.build 4 [⟨.int, "n", .start⟩, ⟨.float, "x", .start⟩]).1
    let values : String → Option Literal := fun name =>
      if name = "n" then some (.int 7) else some (.float 0)
    let sum : Expr := .binary .add (.identifier "n" none .start)
      (.binary .sub (.literal (.int 3) (some .float) .start) (.literal (.int 1) none .start) none
        .start) none .start
    (sum.Respects t values ∧ t.get? "x" = some .float ∧
      ∀ name place, Diagnostic.narrowing name place ∉
        Journal.diagnostics ((Statement.assign "x" sum none .start).check t).2) ∧
    ((sum.check t).1.value? values = some (.int 9)) ∧
    ∃ root, ((Statement.assign "x" sum none .start).check t).1 =
        .assign "x" root (some .float) .start ∧
      root.value? values = some (.float (singleOfInt 9)) := by
  intro t values sum
  have hsum : sum.value? values = some (.int 9) := by decide +kernel
  have hrespects : sum.Respects t values := by
    intro name hname
    simp only [sum, Expr.names, List.append_nil, List.mem_singleton] at hname
    subst hname
    decide +kernel
  have htarget : t.get? "x" = some .float := by decide +kernel
  have hclean : Journal.diagnostics ((Statement.assign "x" sum none .start).check t).2 = [] := by
    decide +kernel
  have hreport : ∀ name place, Diagnostic.narrowing name place ∉
      Journal.diagnostics ((Statement.assign "x" sum none .start).check t).2 := by
    simp [hclean]
  obtain ⟨hexpr, hassign⟩ := check_keeps_value t values
  obtain ⟨root, hroot, hvalue, _⟩ := hassign "x" .float sum none .start hrespects htarget hreport
  refine ⟨⟨hrespects, htarget, hreport⟩, ?_, root, hroot, ?_⟩
  · rw [(hexpr sum hrespects).1, hsum]
  · rw [hvalue, hsum]
    rfl

end DeskCalc
