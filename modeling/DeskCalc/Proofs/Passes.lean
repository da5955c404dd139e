import DeskCalc.Proofs.Meaning
import DeskCalc.Proofs.NormalForm

/-!
# Checking as two passes

Checking types, coerces and folds at once, node by node. The same comes out of two passes over the
tree: the first one folds operations on numbers and looks at no type; the second one finds types,
wraps integer operands of single-precision operations and folds nothing.

What could tell the two apart is that checking folds an operation behind the coercion of its
operands, and looks through those coercions only that were put there just now. For operands that
have been checked this makes no difference: a coercion just put over an integer stands beside a
single-precision operand, and no other operand is a coercion.

Main statement: `check_eq_annotate_folded`.
-/

namespace DeskCalc

/-! ## The two passes -/

/-- The value of an operation if both operands are numbers, whatever types were found for them. -/
def Operator.onNumbers? (op : Operator) (left right : Expr) : Option Literal :=
  left.literal?.bind fun a => right.literal?.bind fun b => op.onValues? a b

namespace Expr

/-- The first pass: operations on numbers are replaced by their values, from the leaves up. An
operation without a value is kept. -/
def folded : Expr → Expr
  | binary op left right ty l =>
    match op.onNumbers? left.folded right.folded with
    | some v => literal v none l
    | none => binary op left.folded right.folded ty l
  | coercion inner ty l => coercion inner.folded ty l
  | e => e

/-- The expression as an operand of an operation of the type `own`. -/
def asOperand (own : Ty) (e : Expr) : Expr :=
  if own = .float ∧ e.ty = some .int then coercion e (some .float) e.location else e

/-- The second pass: types are found where certain names are known, operands get the type of their
operation, and names that are not known are reported. -/
def annotate (known : String → Option Ty) : Expr → Expr × List Diagnostic
  | identifier name _ l =>
    (identifier name (known name) l, if known name = none then [.undeclared name l] else [])
  | literal v _ l => (literal v (some v.ty) l, [])
  | binary op left right _ l =>
    let (left', leftReports) := left.annotate known
    let (right', rightReports) := right.annotate known
    let own := generalize left'.ty right'.ty
    (binary op (left'.asOperand own) (right'.asOperand own) (some own) l,
      leftReports ++ rightReports)
  | coercion inner _ l =>
    let (inner', reports) := inner.annotate known
    (coercion inner' (some .float) l, reports)

/-! ## Numbers in each pass -/

theorem eq_literal_of_literal? {e : Expr} {v : Literal} (h : e.literal? = some v) :
    ∃ ty l, e = literal v ty l := by
  cases e with
  | literal w ty l =>
    cases h
    exact ⟨ty, l, rfl⟩
  | _ => cases h

/-- The second pass makes no number and removes none. -/
theorem literal?_annotate (known : String → Option Ty) (e : Expr) :
    (e.annotate known).1.literal? = e.literal? := by
  cases e <;> rfl

private theorem onNumbers?_annotate (known : String → Option Ty) (op : Operator)
    (left right : Expr) :
    op.onNumbers? (left.annotate known).1 (right.annotate known).1 = op.onNumbers? left right := by
  simp only [Operator.onNumbers?, literal?_annotate]

private theorem onNumbers?_eq_some_iff {op : Operator} {left right : Expr} {v : Literal} :
    op.onNumbers? left right = some v ↔
      ∃ a b, left.literal? = some a ∧ right.literal? = some b ∧ op.onValues? a b = some v := by
  simp only [Operator.onNumbers?, Option.bind_eq_some_iff]
  constructor
  · rintro ⟨a, ha, b, hb, hv⟩
    exact ⟨a, b, ha, hb, hv⟩
  · rintro ⟨a, b, ha, hb, hv⟩
    exact ⟨a, ha, b, hb, hv⟩

/-- Coercing an operand is what the second pass does with it. -/
private theorem fst_coerce (e : Expr) (own : Ty) : (e.coerce own).1 = e.asOperand own := by
  unfold coerce asOperand
  split
  · next hty => rw [if_neg (by simp)]
  · next hty => rw [if_pos ⟨rfl, hty⟩, coerced]
  · next hother =>
    rw [if_neg]
    rintro ⟨rfl, hty⟩
    exact hother hty rfl

/-- A coercion of a number was put over this number, if it was not there before. -/
private theorem literal?_of_coercedInt? {e : Expr} (he : e.coercedInt? = none) {own : Ty}
    {a : Int32} (h : (e.coerce own).1.coercedInt? = some a) : e.literal? = some (.int a) := by
  unfold coerce at h
  split at h
  · rw [he] at h
    cases h
  · -- the coercion was put there, over the integer that is looked for
    cases e with
    | literal v ty l =>
      cases v with
      | int b =>
        cases h
        rfl
      | float b => cases h
    | _ => cases h
  · rw [he] at h
    cases h

/-! ## Both passes fold the same operations -/

variable {t : SymbolTable}

/-- What is folded behind coercions just put there is an operation on the numbers below them. -/
private theorem onNumbers?_of_folds {left right : Expr} (hleft : left.coercedInt? = none)
    (hright : right.coercedInt? = none) {op : Operator} {own : Ty} {lc rc : Bool} {v : Literal}
    (h : Folds op (left.coerce own).1 (right.coerce own).1 lc rc v) :
    op.onNumbers? left right = some v := by
  -- each form of the fold tells which of the operands are numbers
  rw [onNumbers?_eq_some_iff]
  cases h with
  | @ints a b n ha hb hn =>
    rw [(coerce_of_literal? ha).1] at ha
    rw [(coerce_of_literal? hb).1] at hb
    rw [Operator.onInts_eq_wrapping?] at hn
    exact ⟨_, _, ha, hb, by simp [Operator.onValues?, hn]⟩
  | floats ha hb =>
    rw [(coerce_of_literal? ha).1] at ha
    rw [(coerce_of_literal? hb).1] at hb
    exact ⟨_, _, ha, hb, rfl⟩
  | leftCoerced ha hb =>
    rw [(coerce_of_literal? hb).1] at hb
    exact ⟨_, _, literal?_of_coercedInt? hleft ha, hb, rfl⟩
  | rightCoerced ha hb =>
    rw [(coerce_of_literal? ha).1] at ha
    exact ⟨_, _, ha, literal?_of_coercedInt? hright hb, rfl⟩

/-- For checked operands coercions neither prevent folding nor bring it about: an operation is folded
exactly if its operands are numbers and it has a value, which is what it is folded to. -/
private theorem joinFolds_iff {left right : Expr} (hleft : left.IsNormal t)
    (hright : right.IsNormal t) {op : Operator} {v : Literal} :
    JoinFolds op left right (generalize left.ty right.ty) v ↔ op.onNumbers? left right = some v := by
  constructor
  · intro h
    exact onNumbers?_of_folds hleft.coercedInt?_eq_none hright.coercedInt?_eq_none h
  · rw [onNumbers?_eq_some_iff]
    rintro ⟨a, b, ha, hb, hv⟩
    have hleftTy := hleft.literalTyped a ha
    have hrightTy := hright.literalTyped b hb
    obtain ⟨_, _, rfl⟩ := eq_literal_of_literal? ha
    obtain ⟨_, _, rfl⟩ := eq_literal_of_literal? hb
    cases hleftTy
    cases hrightTy
    -- the forms of the two numbers tell which of them is wrapped
    cases a with
    | int a =>
      cases b with
      | int b =>
        obtain ⟨n, hn, rfl⟩ := Option.map_eq_some_iff.1 hv
        rw [← Operator.onInts_eq_wrapping?] at hn
        exact .ints rfl rfl hn
      | float b =>
        cases hv
        exact .leftCoerced rfl rfl
    | float a =>
      cases b with
      | int b =>
        cases hv
        exact .rightCoerced rfl rfl
      | float b =>
        cases hv
        exact .floats rfl rfl

theorem folded_of_some {op : Operator} {left right : Expr} {v : Literal}
    (h : op.onNumbers? left.folded right.folded = some v) (ty : Option Ty) (l : Location) :
    (binary op left right ty l).folded = literal v none l := by
  rw [folded, h]

theorem folded_of_none {op : Operator} {left right : Expr}
    (h : op.onNumbers? left.folded right.folded = none) (ty : Option Ty) (l : Location) :
    (binary op left right ty l).folded = binary op left.folded right.folded ty l := by
  rw [folded, h]

theorem fst_check_eq {e : Expr} (he : e.IsPlain) :
    (e.check t).1 = (e.folded.annotate t.get?).1 := by
  induction e with
  | identifier name ty l => rfl
  | literal v ty l => rfl
  | binary op left right ty l ihl ihr =>
    have hleft := isNormal_check (t := t) he.1
    have hright := isNormal_check (t := t) he.2
    -- the passes find the same numbers as operands
    have hnumbers : op.onNumbers? (left.check t).1 (right.check t).1 =
        op.onNumbers? left.folded right.folded := by
      rw [ihl he.1, ihr he.2, onNumbers?_annotate]
    rw [check_binary]
    -- checking folds the operation or keeps it, and the first pass does the same
    obtain ⟨own, rfl, ⟨v, hfolds, hjoin⟩ | ⟨hkept, hjoin⟩⟩ :=
      join_cases op (left.check t).1 (right.check t).1 l
    · have hv := (joinFolds_iff hleft hright).1 hfolds
      rw [hnumbers] at hv
      rw [hjoin, ty_of_joinFolds hleft.literalTyped hright.literalTyped hfolds,
        folded_of_some hv]
      rfl
    · have hnone : op.onNumbers? left.folded right.folded = none := by
        rw [← hnumbers, Option.eq_none_iff_forall_ne_some]
        intro v hv
        exact hkept v ((joinFolds_iff hleft hright).2 hv)
      rw [hjoin, folded_of_none hnone, fst_coerce, fst_coerce, ihl he.1, ihr he.2]
      rfl
  | coercion inner ty l => exact he.elim

/-! ## Both passes together report the same -/

/-- No identifier is folded away. -/
private theorem occurrences_folded (e : Expr) : e.folded.occurrences = e.occurrences := by
  induction e with
  | identifier name ty l => rfl
  | literal v ty l => rfl
  | binary op left right ty l ihl ihr =>
    cases hv : op.onNumbers? left.folded right.folded with
    | none => rw [folded_of_none hv, occurrences, ihl, ihr, occurrences]
    | some v =>
      -- an operation on numbers has no identifiers
      obtain ⟨a, b, ha, hb, -⟩ := onNumbers?_eq_some_iff.1 hv
      rw [folded_of_some hv, occurrences, occurrences, ← ihl, ← ihr, occurrences_of_literal? ha,
        occurrences_of_literal? hb, List.append_nil]
  | coercion inner ty l ih => exact ih

/-- The second pass reports the identifiers that are not known. -/
private theorem snd_annotate (known : String → Option Ty) (e : Expr) :
    (e.annotate known).2 = e.undeclared known := by
  induction e with
  | identifier name ty l =>
    by_cases h : known name = none <;> simp [annotate, undeclared, occurrences, h]
  | literal v ty l => rfl
  | binary op left right ty l ihl ihr => rw [annotate, undeclared_binary, ← ihl, ← ihr]
  | coercion inner ty l ih => exact ih

end Expr

/-- Checking an expression without coercions leaves the tree and makes the reports that folding it
first, without a look at types, and then finding types and wrapping operands leave and make. -/
theorem check_eq_annotate_folded (t : SymbolTable) {e : Expr} (he : e.IsPlain) :
    (e.check t).1 = (e.folded.annotate t.get?).1 ∧
      Journal.diagnostics (e.check t).2 = (e.folded.annotate t.get?).2 := by
  refine ⟨Expr.fst_check_eq he, ?_⟩
  rw [Expr.diagnostics_check, Expr.snd_annotate]
  exact Expr.undeclared_congr (Expr.occurrences_folded e).symm t.get?

/-- A sum of an integer and a single-precision number is folded, a division by zero is kept and
wrapped, and so is the integer variable beside it; the other name is reported. -/
theorem check_eq_annotate_folded_of_sum :
    let t := (SymbolTable.build 4 [⟨.int, "n", .start⟩]).1
    let sum : Expr := .binary .add (.literal (.int 2) none .start)
      (.literal (.float 1.5) none .start) none ⟨1, 3⟩
    let division : Expr := .binary .div (.literal (.int 1) none .start)
      (.literal (.int 0) none .start) none ⟨1, 5⟩
    let quotient : Expr := .binary .div (.identifier "n" none .start)
      (.binary .mul (.identifier "z" none ⟨1, 8⟩) sum none .start) none .start
    let e : Expr := .binary .sub quotient division none .start
    e.IsPlain ∧
      (e.check t).1 = .binary .sub
        (.binary .div ((Expr.identifier "n" (some .int) .start).coerced .float)
          (.binary .mul (.identifier "z" none ⟨1, 8⟩) (.literal (.float 3.5) (some .float) ⟨1, 3⟩)
            (some .float) .start) (some .float) .start)
        ((Expr.binary .div (.literal (.int 1) (some .int) .start)
          (.literal (.int 0) (some .int) .start) (some .int) ⟨1, 5⟩).coerced .float)
        (some .float) .start ∧
      Journal.diagnostics (e.check t).2 = [.undeclared "z" ⟨1, 8⟩] := by
  intro t sum division quotient e
  have he : e.IsPlain := ⟨⟨trivial, trivial, trivial, trivial⟩, trivial, trivial⟩
  obtain ⟨htree, hreports⟩ := check_eq_annotate_folded t he
  refine ⟨he, htree.trans ?_, hreports.trans ?_⟩
  · decide +kernel
  · decide +kernel

end DeskCalc
