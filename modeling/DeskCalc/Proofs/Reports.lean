import DeskCalc.Proofs.Nodes

/-!
# What checking reports

Joining operands reports nothing. So what checking an expression reports are the failed lookups of
its identifiers, from left to right, whatever is folded or coerced on the way. A statement adds what
its target calls for.

Main statements: `Expr.diagnostics_check` and `Statement.diagnostics_check_assign`.
-/

namespace DeskCalc

variable (t : SymbolTable)

private theorem SymbolTable.diagnostics_reportLookup (name : String) (l : Location) :
    Journal.diagnostics (t.reportLookup name l) =
      if t.get? name = none then [.undeclared name l] else [] := by
  cases h : t.get? name with
  | none =>
    have hlookup : t.lookup name l = .error (.undeclared name l) :=
      SymbolTable.lookup_eq_error_iff.2 ⟨h, rfl⟩
    simp [reportLookup, hlookup, Journal.diagnostics, Event.diagnostic?]
  | some ty =>
    have hlookup : t.lookup name l = .ok ty := SymbolTable.lookup_eq_ok_iff.2 h
    simp [reportLookup, hlookup]

/-- A coercion is logged, but nothing is wrong with it. -/
private theorem Coercion.diagnostics_log (c : Coercion) (e : Expr) :
    Journal.diagnostics (c.log e) = [] := by
  unfold log
  split <;> rfl

namespace Expr

/-- One report for each identifier of a name that is not known, from left to right. -/
def undeclared (known : String → Option Ty) (e : Expr) : List Diagnostic :=
  (e.occurrences.filter fun o => known o.1 = none).map fun o => .undeclared o.1 o.2

theorem undeclared_binary (known : String → Option Ty) (op : Operator) (left right : Expr)
    (ty : Option Ty) (l : Location) :
    (binary op left right ty l).undeclared known =
      left.undeclared known ++ right.undeclared known := by
  simp [undeclared, occurrences]

/-- What is reported depends on the identifiers only. -/
theorem undeclared_congr {e e' : Expr} (h : e.occurrences = e'.occurrences)
    (known : String → Option Ty) : e.undeclared known = e'.undeclared known := by
  rw [undeclared, undeclared, h]

/-- Nothing is wrong with operands that are joined. -/
private theorem diagnostics_join (op : Operator) (left right : Expr) (l : Location) :
    Journal.diagnostics (join op left right l).2 = [] := by
  -- the fold is logged in any case, and nothing is wrong with it
  have hfolding (f : Folding) : Journal.diagnostics (f.log op) = [] := by
    cases f <;> rfl
  unfold join
  dsimp only
  rw [List.cons_append, List.cons_append]
  change Journal.diagnostics (_ ++ _) = []
  rw [Journal.diagnostics_append, Journal.diagnostics_append, Coercion.diagnostics_log,
    Coercion.diagnostics_log, hfolding]
  rfl

/-- Checking an expression reports its undeclared identifiers. -/
theorem diagnostics_check (e : Expr) :
    Journal.diagnostics (e.check t).2 = e.undeclared t.get? := by
  induction e with
  | identifier name ty l =>
    change Journal.diagnostics (t.reportLookup name l) = _
    rw [SymbolTable.diagnostics_reportLookup]
    by_cases h : t.get? name = none <;> simp [undeclared, occurrences, h]
  | literal v ty l => rfl
  | binary op left right ty l ihl ihr =>
    rw [check_binary, Journal.diagnostics_append, Journal.diagnostics_append, ihl, ihr,
      diagnostics_join, List.append_nil, undeclared_binary]
  | coercion inner ty l ih => exact ih

end Expr

namespace Statement

theorem diagnostics_check_print (name : String) (l : Location) :
    Journal.diagnostics ((print name l).check t).2 =
      if t.get? name = none then [.undeclared name l] else [] :=
  t.diagnostics_reportLookup name l

/-- Checking an assignment reports the undeclared identifiers of its value, and then an undeclared
target or a value that is refused. -/
theorem diagnostics_check_assign (target : String) (value : Expr) (ty : Option Ty) (l : Location) :
    Journal.diagnostics ((assign target value ty l).check t).2 =
      value.undeclared t.get? ++
        match t.get? target with
        | none => [.undeclared target l]
        | some declared =>
          if ((value.check t).1.coerce declared).2 = .rejected then [.narrowing target l]
          else [] := by
  rw [← Expr.diagnostics_check]
  cases htarget : t.get? target with
  | none =>
    simp only [check, htarget]
    change Journal.diagnostics ((value.check t).2 ++ t.reportLookup target l) = _
    rw [Journal.diagnostics_append, SymbolTable.diagnostics_reportLookup, if_pos htarget]
  | some declared =>
    simp only [check, htarget, List.cons_append, List.append_assoc]
    change Journal.diagnostics ((value.check t).2 ++ _) = _
    rw [Journal.diagnostics_append, Journal.diagnostics_append, Coercion.diagnostics_log,
      List.nil_append]
    -- behind the reports of the value there is at most the refusal
    apply congrArg
    split <;> rfl

end Statement

end DeskCalc
