import DeskCalc.Proofs.Reports

/-!
# Programs without faults

Where checking reports nothing, every name is declared and no value is refused.

Main statement: `Statement.declared_of_check_assign`.
-/

namespace DeskCalc

variable {t : SymbolTable}

/-- The names in an expression without faults are declared. -/
theorem Expr.declared_of_check {e : Expr} (h : Journal.diagnostics (e.check t).2 = []) :
    ∀ name ∈ e.names, ∃ ty, t.get? name = some ty := by
  rw [diagnostics_check, undeclared, List.map_eq_nil_iff, List.filter_eq_nil_iff] at h
  intro name hname
  rw [names_eq_map] at hname
  -- each name stands somewhere in the expression, where it would be reported
  obtain ⟨o, ho, rfl⟩ := List.mem_map.1 hname
  have hknown := h o ho
  rw [decide_eq_true_eq] at hknown
  exact Option.ne_none_iff_exists'.1 hknown

namespace Statement

/-- The statement that checking leaves of an assignment to a declared target. -/
theorem fst_check_assign {target : String} {declared : Ty} (h : t.get? target = some declared)
    (value : Expr) (ty : Option Ty) (l : Location) :
    ((assign target value ty l).check t).1 =
      assign target ((value.check t).1.coerce declared).1 (some declared) l := by
  simp [check, h]

/-- The value of an assignment to a target that is not declared is only checked. -/
theorem fst_check_assign_of_none {target : String} (h : t.get? target = none) (value : Expr)
    (ty : Option Ty) (l : Location) :
    ((assign target value ty l).check t).1 = assign target (value.check t).1 none l := by
  simp [check, h]

/-- A value that is refused is reported. -/
theorem narrowing_mem_of_rejected {target : String} {declared : Ty} {value : Expr}
    (htarget : t.get? target = some declared)
    (h : ((value.check t).1.coerce declared).2 = .rejected) (ty : Option Ty) (l : Location) :
    Diagnostic.narrowing target l ∈
      Journal.diagnostics ((assign target value ty l).check t).2 := by
  rw [diagnostics_check_assign, htarget]
  simp [h]

/-- An assignment without faults has a declared target and a value without faults, which is not
refused. -/
theorem declared_of_check_assign {target : String} {value : Expr} {ty : Option Ty} {l : Location}
    (h : Journal.diagnostics ((assign target value ty l).check t).2 = []) :
    ∃ declared, t.get? target = some declared ∧
      ((value.check t).1.coerce declared).2 ≠ .rejected ∧
      Journal.diagnostics (value.check t).2 = [] := by
  rw [diagnostics_check_assign, List.append_eq_nil_iff, ← Expr.diagnostics_check] at h
  obtain ⟨hvalue, hassigned⟩ := h
  cases htarget : t.get? target with
  | none =>
    rw [htarget] at hassigned
    cases hassigned
  | some declared =>
    rw [htarget] at hassigned
    refine ⟨declared, rfl, ?_, hvalue⟩
    -- a value that is refused is reported, and nothing is
    intro hrejected
    simp [hrejected] at hassigned

theorem fst_checkAll (t : SymbolTable) (ss : List Statement) :
    (checkAll t ss).1 = ss.map fun s => (s.check t).1 := by
  simp [checkAll]

/-- The diagnostics of statements are those of each, in order. -/
theorem diagnostics_checkAll (t : SymbolTable) (ss : List Statement) :
    Journal.diagnostics (checkAll t ss).2 =
      ss.flatMap fun s => Journal.diagnostics (s.check t).2 := by
  simp [checkAll, Journal.diagnostics, List.filterMap_flatMap, List.flatMap_map]

/-- Statements are without faults if each of them is. -/
theorem diagnostics_checkAll_eq_nil_iff {ss : List Statement} :
    Journal.diagnostics (checkAll t ss).2 = [] ↔
      ∀ s ∈ ss, Journal.diagnostics (s.check t).2 = [] := by
  rw [diagnostics_checkAll, List.flatMap_eq_nil_iff]

end Statement

end DeskCalc
