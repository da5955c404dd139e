import DeskCalc.Proofs.Faultless

/-!
# Warnings and the divisions that are left

An integer division without a quotient is left to the target machine, and checking warns about it.
The warning is given when the operands of the division are joined, in the middle of a tree that is
still being folded and wrapped further up. But a division is no number, so nothing further up is
folded over it; it can only be wrapped. And a division of two integers is left for no other reason
than that it has no quotient. So the warnings tell what divisions of two integers are in the checked
tree.

Main statements: `Expr.divisions_join` — what joining leaves and warns about — and
`warnings_checkAll`.
-/

namespace DeskCalc

/-- The warning about a dividend and a divisor. -/
def Event.ofDivision (d : Int32 × Int32) : Event := .undivided d.1 d.2

namespace Journal

/-- The entries that warn, in order. -/
def warnings (log : Journal) : List Event := log.filter fun e => e.level = .warn

/-- The journal warns about these divisions, in order and each once, and about nothing else. They
have no quotient of 32 bits. -/
structure WarnsOf (ds : List (Int32 × Int32)) (log : Journal) : Prop where
  warnings_eq : log.warnings = ds.map Event.ofDivision
  cause : ∀ d ∈ ds, d.2 = 0 ∨ (d.1 = Int32.minValue ∧ d.2 = -1)

private theorem warnsOf_nil {log : Journal} (h : log.warnings = []) : WarnsOf [] log := ⟨h, nofun⟩

private theorem WarnsOf.cons {ds : List (Int32 × Int32)} {log : Journal} {e : Event}
    (he : e.level ≠ .warn) (h : WarnsOf ds log) : WarnsOf ds (e :: log) := by
  refine ⟨?_, h.cause⟩
  rw [← h.warnings_eq]
  exact List.filter_cons_of_neg (by simpa using he)

/-- Journals in a row warn about the divisions in a row. -/
private theorem WarnsOf.append {ds more : List (Int32 × Int32)} {log logged : Journal}
    (h : WarnsOf ds log) (h' : WarnsOf more logged) : WarnsOf (ds ++ more) (log ++ logged) := by
  constructor
  · rw [List.map_append, ← h.warnings_eq, ← h'.warnings_eq]
    exact List.filter_append log logged
  · rw [List.forall_mem_append]
    exact ⟨h.cause, h'.cause⟩

end Journal

/-! ## Divisions in a tree -/

namespace Expr

/-- The dividend and the divisor, if the root is a division of two integers. -/
def division? : Expr → Option (Int32 × Int32)
  | binary .div (literal (.int a) _ _) (literal (.int b) _ _) _ _ => some (a, b)
  | _ => none

/-- The divisions of two integers, in the order of the nodes. -/
def divisions (e : Expr) : List (Int32 × Int32) := e.nodes.filterMap division?

/-- The divisions in an operation: those in its operands, and perhaps itself. -/
private theorem divisions_binary (op : Operator) (left right : Expr) (ty : Option Ty)
    (l : Location) : (binary op left right ty l).divisions =
      left.divisions ++ right.divisions ++ (binary op left right ty l).division?.toList := by
  unfold divisions
  rw [nodes, List.filterMap_append, List.filterMap_append, List.filterMap_cons]
  -- the root is the last node, and it is a division or none
  cases (binary op left right ty l).division? <;> rfl

private theorem divisions_coercion (inner : Expr) (ty : Option Ty) (l : Location) :
    (coercion inner ty l).divisions = inner.divisions := by
  unfold divisions
  rw [nodes, List.filterMap_append]
  exact List.append_nil _

private theorem divisions_coerce (e : Expr) (target : Ty) :
    (e.coerce target).1.divisions = e.divisions := by
  unfold coerce
  split
  · rfl
  · exact divisions_coercion e _ _
  · rfl

private theorem divisions_of_literal? {e : Expr} {v : Literal} (h : e.literal? = some v) :
    e.divisions = [] := by
  cases e with
  | literal w ty l => rfl
  | _ => cases h

private theorem divisions_of_coercedInt? {e : Expr} {a : Int32} (h : e.coercedInt? = some a) :
    e.divisions = [] := by
  unfold coercedInt? at h
  split at h
  · rfl
  · cases h

/-- Nothing is folded over a division. -/
private theorem divisions_of_folds {op : Operator} {left right : Expr} {lc rc : Bool} {v : Literal}
    (h : Folds op left right lc rc v) : left.divisions = [] ∧ right.divisions = [] := by
  cases h with
  | ints ha hb | floats ha hb => exact ⟨divisions_of_literal? ha, divisions_of_literal? hb⟩
  | leftCoerced ha hb => exact ⟨divisions_of_coercedInt? ha, divisions_of_literal? hb⟩
  | rightCoerced ha hb => exact ⟨divisions_of_literal? ha, divisions_of_coercedInt? hb⟩

private theorem division?_eq_some_iff {op : Operator} {left right : Expr} {ty : Option Ty}
    {l : Location} {d : Int32 × Int32} : (binary op left right ty l).division? = some d ↔
      op = .div ∧ left.literal? = some (.int d.1) ∧ right.literal? = some (.int d.2) := by
  constructor
  · intro h
    unfold division? at h
    split at h
    · next heq =>
      cases heq
      cases h
      exact ⟨rfl, rfl, rfl⟩
    · cases h
  · rintro ⟨rfl, hleft, hright⟩
    cases left with
    | literal v ty l =>
      cases right with
      | literal w ty l =>
        cases hleft
        cases hright
        rfl
      | _ => cases hright
    | _ => cases hleft

/-! ## Joined operands -/

/-- Two integers as operands were not wrapped, so folding has tried them. -/
private theorem fold_ne_kept {left right : Expr} {own : Ty} {a b : Int32}
    (ha : (left.coerce own).1.literal? = some (.int a))
    (hb : (right.coerce own).1.literal? = some (.int b)) (op : Operator) :
    fold op (left.coerce own).1 (right.coerce own).1 ((left.coerce own).2 = .coerced)
      ((right.coerce own).2 = .coerced) ≠ .kept := by
  have hlc := (coerce_of_literal? ha).2
  have hrc := (coerce_of_literal? hb).2
  simp only [fold, hlc, hrc, decide_false, ha, hb]
  -- with two integers folding finds a value or gives up for want of a quotient
  split <;> simp

/-- No coercion is warned about. -/
private theorem warnsOf_log (c : Coercion) (e : Expr) : Journal.WarnsOf [] (c.log e) := by
  apply Journal.warnsOf_nil
  unfold Coercion.log
  split <;> rfl

/-- Joining keeps the divisions in the operands. It adds at most the operation itself, if that is
left as a division of two integers, and warns about just that. -/
theorem divisions_join (op : Operator) (left right : Expr) (l : Location) :
    ∃ own, (join op left right l).1.divisions = left.divisions ++ right.divisions ++ own ∧
      Journal.WarnsOf own (join op left right l).2 := by
  unfold join
  dsimp only
  generalize generalize left.ty right.ty = own
  -- what is logged in front of the fold warns about nothing
  have hcoercions : Journal.WarnsOf [] (.generalized own :: (left.coerce own).2.log left ++
      (right.coerce own).2.log right) :=
    ((warnsOf_log _ left).append (warnsOf_log _ right)).cons nofun
  cases hfold : fold op (left.coerce own).1 (right.coerce own).1
      ((left.coerce own).2 = .coerced) ((right.coerce own).2 = .coerced) with
  | folded v =>
    -- the operands were numbers, without divisions
    obtain ⟨hleft, hright⟩ := divisions_of_folds (fold_eq_folded_iff.1 hfold)
    rw [divisions_coerce] at hleft hright
    refine ⟨[], ?_, hcoercions.append (Journal.warnsOf_nil rfl)⟩
    rw [hleft, hright]
    rfl
  | undivided a b =>
    obtain ⟨_, _, ha, hb, hnone⟩ := fold_eq_undivided_iff.1 hfold
    obtain ⟨hop, hcause⟩ := Operator.onInts_eq_none_iff.1 hnone
    have hroot : (binary op (left.coerce own).1 (right.coerce own).1 (some own) l).division? =
        some (a, b) := division?_eq_some_iff.2 ⟨hop, ha, hb⟩
    refine ⟨[(a, b)], ?_, hcoercions.append ⟨rfl, by simpa using hcause⟩⟩
    dsimp only
    rw [divisions_binary, divisions_coerce, divisions_coerce, hroot]
    rfl
  | kept =>
    have hroot : (binary op (left.coerce own).1 (right.coerce own).1 (some own) l).division? =
        none := by
      -- a division of two integers would have been tried, and would not have been kept
      rw [Option.eq_none_iff_forall_ne_some]
      intro d hd
      obtain ⟨_, ha, hb⟩ := division?_eq_some_iff.1 hd
      exact fold_ne_kept ha hb op hfold
    refine ⟨[], ?_, hcoercions.append (Journal.warnsOf_nil rfl)⟩
    dsimp only
    rw [divisions_binary, divisions_coerce, divisions_coerce, hroot]
    rfl

end Expr

/-! ## Checked expressions and statements -/

variable (t : SymbolTable)

private theorem SymbolTable.warnsOf_reportLookup (name : String) (l : Location) :
    Journal.WarnsOf [] (t.reportLookup name l) := by
  apply Journal.warnsOf_nil
  unfold reportLookup
  split <;> rfl

/-- Checking an expression warns about the divisions that it leaves. -/
private theorem Expr.warnsOf_check (e : Expr) :
    Journal.WarnsOf (e.check t).1.divisions (e.check t).2 := by
  induction e with
  | identifier name ty l =>
    exact (t.warnsOf_reportLookup name l).cons nofun
  | literal v ty l => exact Journal.warnsOf_nil rfl
  | binary op left right ty l ihl ihr =>
    obtain ⟨own, hdivisions, hown⟩ := divisions_join op (left.check t).1 (right.check t).1 l
    rw [check_binary, hdivisions]
    exact (ihl.append ihr).append hown
  | coercion inner ty l ih =>
    rw [check, divisions_coercion]
    exact ih

namespace Statement

/-- The divisions of two integers in a statement. -/
def divisions : Statement → List (Int32 × Int32)
  | print .. => []
  | assign _ value _ _ => value.divisions

/-- Checking a statement warns about the divisions that it leaves. -/
private theorem warnsOf_check (s : Statement) :
    Journal.WarnsOf (s.check t).1.divisions (s.check t).2 := by
  cases s with
  | print name l =>
    exact (t.warnsOf_reportLookup name l).cons nofun
  | assign target value ty l =>
    have hvalue : Journal.WarnsOf (value.check t).1.divisions
        (.assignment target :: (value.check t).2) := (value.warnsOf_check t).cons nofun
    cases htarget : t.get? target with
    | none =>
      rw [fst_check_assign_of_none htarget]
      simp only [check, htarget]
      simpa [divisions] using hvalue.append (t.warnsOf_reportLookup target l)
    | some declared =>
      -- a refusal is reported, but it is an error and no warning
      have hrefusal (c : Coercion) : Journal.WarnsOf []
          (if c = .rejected then [.reported (.narrowing target l)] else []) := by
        apply Journal.warnsOf_nil
        split <;> rfl
      rw [fst_check_assign htarget, divisions, Expr.divisions_coerce]
      simp only [check, htarget]
      simpa using (hvalue.append (Expr.warnsOf_log _ _)).append (hrefusal _)

end Statement

/-- Checking statements warns about exactly those divisions of two integers that are in the checked
statements, in the order of the statements and of the nodes of each; they are those by zero and that
of the least integer by minus one. -/
theorem warnings_checkAll (ss : List Statement) :
    let (checked, log) := Statement.checkAll t ss
    Journal.warnings log = (checked.flatMap Statement.divisions).map Event.ofDivision ∧
      ∀ d ∈ checked.flatMap Statement.divisions,
        d.2 = 0 ∨ (d.1 = Int32.minValue ∧ d.2 = -1) := by
  have hall : Journal.WarnsOf ((Statement.checkAll t ss).1.flatMap Statement.divisions)
      (Statement.checkAll t ss).2 := by
    induction ss with
    | nil => exact Journal.warnsOf_nil rfl
    | cons s ss ih => exact (s.warnsOf_check t).append ih
  exact ⟨hall.warnings_eq, hall.cause⟩

/-- A sum is not folded over a division by zero, so the division is warned about once. -/
example :
    let division : Expr :=
      .binary .div (.literal (.int 1) none ⟨1, 5⟩) (.literal (.int 0) none ⟨1, 9⟩) none ⟨1, 7⟩
    let sum : Expr := .binary .add division (.literal (.int 2) none ⟨1, 13⟩) none ⟨1, 11⟩
    Journal.warnings (Statement.checkAll (.empty 1) [.assign "a" sum none ⟨1, 1⟩]).2 =
      [.undivided 1 0] := by
  decide

end DeskCalc
