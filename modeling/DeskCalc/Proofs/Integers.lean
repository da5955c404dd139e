import DeskCalc.Compilation
import DeskCalc.Proofs.Declared
import DeskCalc.Proofs.Derivation
import DeskCalc.Proofs.Faultless
import DeskCalc.Proofs.Machine

/-!
# The integer part of a program is computed exactly

An assignment to an integer variable that is not reported is made of integer variables, integers and
operations on them only: anything else would give it a fraction to lose. So its code sets no scale,
and since every assignment before it went back to scale zero its quotients are cut toward zero.
What is folded is computed with 32 bits and agrees with the machine as long as nothing wraps around.

Main statement: `integers_computed_exactly`.
-/

namespace DeskCalc

/-! ## Integral expressions -/

namespace Expr

/-- The value of an expression over integers in exact arithmetic. -/
def integer? (values : String → Option Int) : Expr → Option Int
  | identifier name _ _ => values name
  | literal (.int a) _ _ => some a.toInt
  | binary op left right _ _ =>
    (left.integer? values).bind fun a => (right.integer? values).bind fun b => op.onIntegers? a b
  | literal (.float _) _ _ | coercion .. => none

/-- No part without names has a value that takes more than 32 bits. -/
def ConstantsFit (e : Expr) : Prop :=
  ∀ part ∈ e.nodes, part.names = [] → ∀ n, part.integer? (fun _ => none) = some n →
    Operator.Fits n

instance (e : Expr) : Decidable e.ConstantsFit :=
  inferInstanceAs (Decidable (∀ part ∈ e.nodes, _ → ∀ n, _ = some n → _))

/-- The expression is made of integer variables, integers and operations only. -/
def IsIntegral (t : SymbolTable) : Expr → Prop
  | identifier name _ _ => t.get? name = some .int
  | literal v _ _ => v.ty = .int
  | binary _ left right _ _ => left.IsIntegral t ∧ right.IsIntegral t
  | coercion .. => False

variable {t : SymbolTable}

private theorem ConstantsFit.left {op : Operator} {left right : Expr} {ty : Option Ty}
    {l : Location} (h : (binary op left right ty l).ConstantsFit) : left.ConstantsFit := by
  intro part hpart
  apply h part
  simp only [nodes, List.mem_append, hpart, true_or]

private theorem ConstantsFit.right {op : Operator} {left right : Expr} {ty : Option Ty}
    {l : Location} (h : (binary op left right ty l).ConstantsFit) : right.ConstantsFit := by
  intro part hpart
  apply h part
  simp only [nodes, List.mem_append, hpart, true_or, or_true]

/-- An expression without coercions over declared names is a single-precision one or integral. -/
private theorem isIntegral_or_ty_check {e : Expr} (hplain : e.IsPlain)
    (hnames : ∀ name ∈ e.names, ∃ ty, t.get? name = some ty) :
    e.IsIntegral t ∨ (e.check t).1.ty = some .float := by
  induction e with
  | identifier name ty l =>
    obtain ⟨declared, hty⟩ := hnames name (List.mem_singleton_self name)
    cases declared with
    | int => exact .inl hty
    | float => exact .inr hty
  | literal v ty l =>
    cases v with
    | int a => exact .inl rfl
    | float b => exact .inr rfl
  | binary op left right ty l ihl ihr =>
    -- one single-precision operand makes the operation one
    rw [check_binary, ty_join, Option.some.injEq, generalize_eq_float_iff]
    rcases ihl hplain.1 fun name hn => hnames name (List.mem_append_left _ hn) with hleft | hleft
    · rcases ihr hplain.2 fun name hn => hnames name (List.mem_append_right _ hn) with
        hright | hright
      · exact .inl ⟨hleft, hright⟩
      · exact .inr (.inr hright)
    · exact .inr (.inl hleft)
  | coercion inner ty l => exact hplain.elim

/-- Operands that are integers already are joined as they stand, or folded to an integer. -/
private theorem fst_join_of_int {op : Operator} {left right : Expr} (hleft : left.ty = some .int)
    (hright : right.ty = some .int) (l : Location) :
    (join op left right l).1 = binary op left right (some .int) l ∨
      ∃ v, Folds op left right false false v ∧
        (join op left right l).1 = literal v (some .int) l := by
  -- an integer operand is not coerced to the type that it has
  have hkept {e : Expr} (h : e.ty = some .int) : e.coerce .int = (e, .unchanged) := by
    simp [coerce, h]
  have hint : generalize left.ty right.ty = .int := by simp [generalize, hleft, hright]
  obtain ⟨ty, hty, hcases⟩ := join_cases op left right l
  rw [hint] at hty
  subst hty
  simp only [JoinFolds, hkept hleft, hkept hright, reduceCtorEq, decide_false] at hcases
  rcases hcases with hfolded | ⟨_, hjoin⟩
  · exact .inr hfolded
  · exact .inl hjoin

private theorem integer?_of_literal? {e : Expr} {a : Int32} (h : e.literal? = some (.int a))
    (values : String → Option Int) : e.integer? values = some a.toInt := by
  unfold literal? at h
  split at h
  · cases h
    rfl
  · cases h

private theorem int_of_literal? {e : Expr} (he : e.IsIntegral t) {v : Literal}
    (h : e.literal? = some v) : ∃ a, v = .int a := by
  unfold literal? at h
  split at h
  · cases h
    cases v with
    | int a => exact ⟨a, rfl⟩
    | float b => cases he
  · cases h

/-- Integral operands are folded with 32-bit arithmetic. -/
private theorem folds_of_isIntegral {op : Operator} {left right : Expr} (hleft : left.IsIntegral t)
    {v : Literal} (h : Folds op left right false false v) :
    ∃ a b c, left.literal? = some (.int a) ∧ right.literal? = some (.int b) ∧
      op.onInts a b = some c ∧ v = .int c := by
  cases h with
  | ints ha hb hn => exact ⟨_, _, _, ha, hb, hn, rfl⟩
  -- an integral operand that is a literal is an integer
  | floats ha _ =>
    obtain ⟨_, hfloat⟩ := int_of_literal? hleft ha
    cases hfloat

/-- An integral expression is found to be an integer one and stays integral. -/
theorem isIntegral_check {e : Expr} (he : e.IsIntegral t) :
    (e.check t).1.ty = some .int ∧ (e.check t).1.IsIntegral t := by
  induction e with
  | identifier name ty l => exact ⟨he, he⟩
  | literal v ty l => exact ⟨congrArg some he, he⟩
  | binary op left right ty l ihl ihr =>
    obtain ⟨hleftTy, hleft⟩ := ihl he.1
    obtain ⟨hrightTy, hright⟩ := ihr he.2
    rw [check_binary]
    -- a folded operation is an integer literal, and any other keeps its operands
    rcases fst_join_of_int hleftTy hrightTy l with hjoin | ⟨v, hv, hjoin⟩
    · rw [hjoin]
      exact ⟨rfl, hleft, hright⟩
    · rw [hjoin]
      obtain ⟨_, _, _, _, _, _, rfl⟩ := folds_of_isIntegral hleft hv
      exact ⟨rfl, rfl⟩
  | coercion inner ty l => exact he.elim

/-- Where constants fit, checking an integral expression keeps its exact value. -/
private theorem integer?_check {e : Expr} (he : e.IsIntegral t) (hfit : e.ConstantsFit)
    (values : String → Option Int) : (e.check t).1.integer? values = e.integer? values := by
  induction e generalizing values with
  | identifier name ty l => rfl
  | literal v ty l => cases v <;> rfl
  | binary op left right ty l ihl ihr =>
    obtain ⟨hleftTy, hleft⟩ := isIntegral_check he.1
    obtain ⟨hrightTy, hright⟩ := isIntegral_check he.2
    rw [check_binary]
    -- an operation that is not folded has the value that its operands give
    rcases fst_join_of_int hleftTy hrightTy l with hjoin | ⟨v, hv, hjoin⟩
    · rw [hjoin, integer?, integer?, ihl he.1 hfit.left, ihr he.2 hfit.right]
    · rw [hjoin]
      obtain ⟨a, b, c, ha, hb, hc, rfl⟩ := folds_of_isIntegral hleft hv
      have hvalue (values : String → Option Int) :
          (binary op left right ty l).integer? values = op.onIntegers? a.toInt b.toInt := by
        rw [integer?, ← ihl he.1 hfit.left, ← ihr he.2 hfit.right, integer?_of_literal? ha,
          integer?_of_literal? hb]
        rfl
      -- what is folded has no names, so its exact value is one of those that fit
      have hnames : (binary op left right ty l).names = [] := by
        rw [names, ← names_check t left, ← names_check t right, names_of_literal? ha,
          names_of_literal? hb]
        rfl
      obtain ⟨n, hn, hexact⟩ := Operator.toInt_of_onInts hc
      have hbounds := hfit _ (mem_nodes_self _) hnames n ((hvalue _).trans hn)
      rw [hvalue, hn, integer?, hexact hbounds]
  | coercion inner ty l => exact he.elim

end Expr

/-! ## Running integral code -/

/-- The names that the table holds as those of integer variables. -/
def SymbolTable.integers (t : SymbolTable) : Set String := {name | t.get? name = some .int}

namespace Machine

variable {α : Type} {t : SymbolTable} {coercionScale : Bool} {m m' : Machine α}

/-- All registers of these names hold integers. -/
def HoldsIntegers (names : Set String) (m : Machine α) : Prop :=
  ∀ name ∈ names, ∃ n, m.registers name = .whole n

theorem step_operation_iff (op : Operator) (hscale : m.scale = 0) (a b : Int)
    (outcome : Option (Machine α)) :
    Step (.operation op) ((m.push (.whole a)).push (.whole b)) outcome ↔
      outcome = (op.onIntegers? a b).map fun n => m.push (.whole n) := by
  -- at scale zero the machine promises the exact result for whole operands
  have hpromise : @Number.promise? α m.scale op (.whole a) (.whole b) =
      some ((op.onIntegers? a b).map .whole) := by
    simp [Number.promise?, hscale]
  simp only [Step, push, Number.Operates, hpromise, Option.some.injEq]
  constructor
  · intro h
    obtain ⟨result, hresult, rfl⟩ := h
    rw [hresult _ rfl, Option.map_map]
    rfl
  · intro h
    refine ⟨(op.onIntegers? a b).map .whole, fun promised hp => hp, ?_⟩
    rw [h, Option.map_map]
    rfl

/-- At scale zero the code of an integral expression pushes its exact value, or stops for want of
one. -/
private theorem run_integral_iff {e : Expr} (he : e.IsIntegral t) (hscale : m.scale = 0)
    (hm : m.HoldsIntegers t.integers) (outcome : Option (Machine α)) :
    Run (e.code coercionScale) m outcome ↔
      outcome = (e.integer? m.integer?).map fun n => m.push (.whole n) := by
  induction e generalizing m outcome with
  | identifier name ty l =>
    obtain ⟨n, hn⟩ := hm name he
    rw [Expr.code, run_singleton]
    simp only [Step, Expr.integer?, integer?, hn, Number.whole?, Option.map_some]
  | literal v ty l =>
    cases v with
    | int a =>
      rw [Expr.code, run_singleton]
      rfl
    | float b => cases he
  | binary op left right ty l ihl ihr =>
    have hleft := ihl he.1 hscale hm
    rw [Expr.code, List.append_assoc, Expr.integer?]
    -- where one operand stops, the code behind it is not run
    cases ha : left.integer? m.integer? with
    | none =>
      rw [ha] at hleft
      exact run_append_of_stops hleft
    | some a =>
      rw [ha] at hleft
      rw [run_append_of_ends hleft]
      -- the code of the right operand sees the same registers and leaves the left value in place
      have hright := ihr (m := m.push (.whole a)) he.2 hscale hm
      rw [show (m.push (.whole a)).integer? = m.integer? from rfl] at hright
      cases hb : right.integer? m.integer? with
      | none =>
        rw [hb] at hright
        exact run_append_of_stops hright
      | some b =>
        rw [hb] at hright
        rw [run_append_of_ends hright, run_singleton]
        exact step_operation_iff op hscale a b outcome
  | coercion inner ty l => exact he.elim

/-- At scale zero the code of an assignment of an integral expression stores its exact value, or
stops for want of one. -/
private theorem run_assign_iff {target : String} {value : Expr} {ty : Option Ty} {l : Location}
    (hvalue : value.IsIntegral t) (hscale : m.scale = 0) (hm : m.HoldsIntegers t.integers)
    (outcome : Option (Machine α)) :
    Run ((Statement.assign target value ty l).code coercionScale) m outcome ↔
      outcome = (value.integer? m.integer?).map (m.assign target) := by
  have hrun (o : Option (Machine α)) : Run (value.code coercionScale) m o ↔
      o = (value.integer? m.integer?).map fun n => m.push (.whole n) :=
    run_integral_iff hvalue hscale hm o
  rw [Statement.code]
  cases hn : value.integer? m.integer? with
  | none =>
    rw [hn] at hrun
    exact run_append_of_stops hrun
  | some n =>
    rw [hn] at hrun
    rw [run_append_of_ends hrun]
    simp only [Run, Step, push, reduceCtorEq, false_and, false_or, Option.some.injEq,
      exists_eq_left]
    rfl

end Machine

/-! ## Statements without faults -/

variable {t : SymbolTable}

namespace Statement

/-- An assignment to an integer variable without faults is one of an integral expression. -/
theorem isIntegral_of_check_assign {target : String} {value : Expr} {ty : Option Ty} {l : Location}
    (hplain : value.IsPlain) (h : Journal.diagnostics ((assign target value ty l).check t).2 = [])
    (htarget : t.get? target = some .int) :
    value.IsIntegral t ∧
      ((assign target value ty l).check t).1 = assign target (value.check t).1 (some .int) l := by
  obtain ⟨declared, hdeclared, haccepted, hvalue⟩ := declared_of_check_assign h
  rw [htarget] at hdeclared
  cases hdeclared
  -- a single-precision value would have been refused
  rcases Expr.isIntegral_or_ty_check hplain (Expr.declared_of_check hvalue) with hintegral | hfloat
  · refine ⟨hintegral, ?_⟩
    rw [fst_check_assign htarget]
    simp [Expr.coerce, (Expr.isIntegral_check hintegral).1]
  · exact absurd (Expr.coerce_eq_rejected_iff.2 ⟨hfloat, rfl⟩) haccepted

/-- No coercion is in the statement. -/
def IsPlain : Statement → Prop
  | print .. => True
  | assign _ value _ _ => value.IsPlain

end Statement

namespace Machine

variable {α : Type} {coercionScale : Bool} {m m' : Machine α}

/-- A statement without faults that completes leaves integers in the registers of integer variables
and the scale at zero. -/
private theorem holdsIntegers_of_run {s : Statement} (hplain : s.IsPlain)
    (hclean : Journal.diagnostics (s.check t).2 = []) (hscale : m.scale = 0)
    (hm : m.HoldsIntegers t.integers) (h : Run ((s.check t).1.code coercionScale) m (some m')) :
    m'.scale = 0 ∧ m'.HoldsIntegers t.integers := by
  cases s with
  | print name l =>
    obtain ⟨hscale', hregisters⟩ := run_print_frame h
    refine ⟨hscale'.trans hscale, ?_⟩
    unfold HoldsIntegers
    rw [hregisters]
    exact hm
  | assign target value ty l =>
    obtain ⟨declared, htarget, _, _⟩ := Statement.declared_of_check_assign hclean
    cases declared with
    | int =>
      obtain ⟨hvalue, hcheck⟩ := Statement.isIntegral_of_check_assign hplain hclean htarget
      rw [hcheck, run_assign_iff (Expr.isIntegral_check hvalue).2 hscale hm] at h
      obtain ⟨n, _, rfl⟩ := Option.map_eq_some_iff.1 h.symm
      refine ⟨rfl, ?_⟩
      intro name hname
      -- the target has been given an integer, and the other registers are as before
      by_cases heq : name = target
      · subst heq
        exact ⟨n, Function.update_self _ _ _⟩
      · obtain ⟨k, hk⟩ := hm name hname
        exact ⟨k, (Function.update_of_ne heq _ _).trans hk⟩
    | float =>
      rw [Statement.fst_check_assign htarget] at h
      obtain ⟨hscale', x, hregisters⟩ := run_assign_frame h
      refine ⟨hscale', ?_⟩
      intro name hname
      -- the only register that changes is not that of an integer variable
      have hne : name ≠ target := by
        intro heq
        rw [← heq, show t.get? name = some .int from hname] at htarget
        cases htarget
      rw [hregisters, Function.update_of_ne hne]
      exact hm name hname

/-- Statements without faults that are all run to their end leave integers in the registers of
integer variables and the scale at zero. -/
private theorem holdsIntegers_of_run_all {ss : List Statement}
    (hss : ∀ s ∈ ss, s.IsPlain ∧ Journal.diagnostics (s.check t).2 = []) (hscale : m.scale = 0)
    (hm : m.HoldsIntegers t.integers)
    (h : Run (Statement.codeAll coercionScale (ss.map fun s => (s.check t).1)) m (some m')) :
    m'.scale = 0 ∧ m'.HoldsIntegers t.integers := by
  induction ss generalizing m with
  | nil =>
    cases h
    exact ⟨hscale, hm⟩
  | cons s ss ih =>
    obtain ⟨hplain, hclean⟩ := hss s List.mem_cons_self
    rw [List.map_cons, Statement.codeAll, List.flatMap_cons, run_append] at h
    -- the run behind the first statement starts where the statement ended
    rcases h with ⟨_, hnone⟩ | ⟨between, hs, hrest⟩
    · cases hnone
    · obtain ⟨hscale', hm'⟩ := holdsIntegers_of_run hplain hclean hscale hm hs
      exact ih (fun s' hs' => hss s' (List.mem_cons_of_mem _ hs')) hscale' hm' hrest

end Machine

/-! ## What is read has no coercions -/

namespace Grammar

private theorem isPlain_of_isTier {tight : Bool} {operand : List Lexeme → Expr → Prop}
    (hoperand : ∀ ls e, operand ls e → e.IsPlain) {ls : List Lexeme} {e : Expr}
    (h : IsTier tight operand ls e) : e.IsPlain := by
  cases h with
  | @mk _ _ first steps hfirst hsteps =>
    have hplain := hoperand _ _ hfirst
    clear hfirst
    -- the left operand of a step is the operation on everything before it
    induction hsteps generalizing first with
    | nil => exact hplain
    | cons hstep _ ih =>
      cases hstep with
      | mk ho htight hright => exact ih ⟨hplain, hoperand _ _ hright⟩

private theorem isPlain_of_isExpression {ls : List Lexeme} {e : Expr} (h : IsExpression ls e) :
    e.IsPlain := by
  -- an expression is a tier over terms, and a term is one over values
  apply isPlain_of_isTier _ h
  intro ls' term hterm
  apply isPlain_of_isTier _ hterm
  intro ls'' value hvalue
  cases hvalue with
  | identifier hl => trivial
  | number hl => trivial

theorem isPlain_of_isProgram {ls : List Lexeme} {p : Program} (h : IsProgram ls p) :
    ∀ s ∈ p.statements, s.IsPlain := by
  cases h with
  | mk hds hss =>
    clear hds
    dsimp only
    induction hss with
    | nil =>
      intro s hs
      cases hs
    | cons hs _ ih =>
      intro s' hs'
      rcases List.mem_cons.1 hs' with rfl | hs'
      · cases hs with
        | assign htarget hsign he => exact isPlain_of_isExpression he
        | print hkeyword hname => trivial
      · exact ih s' hs'

end Grammar

/-! ## Compiled programs -/

/-- The names declared as integer variables. -/
def Program.integers (p : Program) : Set String :=
  {name | ∃ d ∈ p.declarations, d.name = name ∧ d.ty = .int}

/-- A table filled without faults holds the integer variables that are declared. -/
private theorem Program.integers_eq {p : Program} {capacity : Nat}
    (h : Journal.diagnostics (SymbolTable.build capacity p.declarations).2 = []) :
    p.integers = (SymbolTable.build capacity p.declarations).1.integers := by
  ext name
  exact (SymbolTable.get?_build_eq_some_iff h).symm

/-- Run the code of a source without faults from scale zero with integers in the registers of all
integer variables. Behind each statement this is so again. And an assignment to an integer variable
stores the exact value of its expression in the source, or stops for want of one, if the constants
in it fit. -/
theorem integers_computed_exactly {settings : Settings} {source : String}
    {compilation : Compilation} (hcompile : (compile settings source).1 = .ok compilation)
    (hclean : compilation.diagnostics = []) :
    ∃ ls l final p c, (Reader.ofString source).tokenize = .ok (ls ++ [l]) final ∧
      l.kind = .endOfFile ∧ Grammar.IsProgram ls p ∧
      Parse.program (.ofString source) = .ok p c ∧
      ∀ (α : Type) (start : Machine α), start.scale = 0 → start.HoldsIntegers p.integers →
        ∀ i m,
          Machine.Reaches compilation.code start
            (Statement.codeAll settings.coercionScale (compilation.program.statements.drop i)) m →
          m.scale = 0 ∧ m.HoldsIntegers p.integers ∧
          ∀ target value ty place, p.statements[i]? = some (.assign target value ty place) →
            target ∈ p.integers → value.ConstantsFit →
            ∃ checked, compilation.program.statements[i]? = some checked ∧
              ∀ outcome, Machine.Run (checked.code settings.coercionScale) m outcome ↔
                outcome = (value.integer? m.integer?).map (m.assign target) := by
  obtain ⟨p, c, hparse, rfl⟩ := compile_eq_ok_iff.1 hcompile
  obtain ⟨ls, l, final, htokens, hl, hp, _⟩ := Parse.program_derives hparse
  refine ⟨ls, l, final, p, c, htokens, hl, hp, hparse, ?_⟩
  intro α start hscale hstart i m hreach
  -- neither the table nor a statement reports anything
  have hlog : Journal.diagnostics (p.check settings.symbolCapacity).2 = [] := hclean
  rw [Program.check, Journal.diagnostics_append, List.append_eq_nil_iff,
    Statement.diagnostics_checkAll_eq_nil_iff] at hlog
  obtain ⟨htable, hstatements⟩ := hlog
  have hplain := Grammar.isPlain_of_isProgram hp
  rw [Program.integers_eq htable] at hstart ⊢
  generalize ht : (SymbolTable.build settings.symbolCapacity p.declarations).1 = t at *
  have hprogram : (p.compile settings).1.program.statements =
      p.statements.map fun s => (s.check t).1 := by
    rw [← ht, ← Statement.fst_checkAll]
    rfl
  -- the code run so far is that of the statements before the place reached
  have hcode : (p.compile settings).1.code =
      Statement.codeAll settings.coercionScale ((p.statements.take i).map fun s => (s.check t).1) ++
        Statement.codeAll settings.coercionScale
          ((p.compile settings).1.program.statements.drop i) := by
    rw [hprogram, ← List.map_drop, ← Statement.codeAll_append, ← List.map_append,
      List.take_append_drop, ← hprogram]
    rfl
  rw [hcode, Machine.reaches_append_iff] at hreach
  -- the invariant holds at the place reached, where the next assignment is then run
  obtain ⟨hscale', hm⟩ := Machine.holdsIntegers_of_run_all
    (fun s hs => ⟨hplain s (List.mem_of_mem_take hs), hstatements s (List.mem_of_mem_take hs)⟩)
    hscale hstart hreach
  refine ⟨hscale', hm, ?_⟩
  intro target value ty place hstatement htarget hfit
  have hmem := List.mem_of_getElem? hstatement
  obtain ⟨hvalue, hcheck⟩ :=
    Statement.isIntegral_of_check_assign (hplain _ hmem) (hstatements _ hmem) htarget
  refine ⟨((Statement.assign target value ty place).check t).1, ?_, ?_⟩
  · rw [hprogram, List.getElem?_map, hstatement]
    rfl
  · intro outcome
    rw [hcheck, Machine.run_assign_iff (Expr.isIntegral_check hvalue).2 hscale' hm,
      Expr.integer?_check hvalue hfit]

/-- A quotient that the machine computes and one that is folded are both cut toward zero. -/
theorem integers_computed_exactly_of_quotients :
    ∃ compilation, (compile {} "i a i b b = a / 2 - 7 / 2").1 = .ok compilation ∧
      compilation.diagnostics = [] ∧
      ∀ start : Machine Unit, start.scale = 0 → start.registers "a" = .whole (-7) →
        start.registers "b" = .whole 0 →
        ∀ outcome, Machine.Run compilation.code start outcome ↔
          outcome = some (start.assign "b" (-6)) := by
  -- the program read, and the two quotients in it
  let value : Expr := .binary .sub
    (.binary .div (.identifier "a" none ⟨1, 13⟩) (.literal (.int 2) none ⟨1, 17⟩) none ⟨1, 15⟩)
    (.binary .div (.literal (.int 7) none ⟨1, 21⟩) (.literal (.int 2) none ⟨1, 25⟩) none ⟨1, 23⟩)
    none ⟨1, 19⟩
  let p : Program := ⟨[⟨.int, "a", ⟨1, 1⟩⟩, ⟨.int, "b", ⟨1, 5⟩⟩], [.assign "b" value none ⟨1, 9⟩]⟩
  have hread : (match Parse.program (.ofString "i a i b b = a / 2 - 7 / 2") with
      | .ok q _ => decide (q = p)
      | .error .. => false) = true := by decide +kernel
  obtain ⟨c, hparse⟩ : ∃ c, Parse.program (.ofString "i a i b b = a / 2 - 7 / 2") = .ok p c := by
    split at hread
    · next q c hq =>
      rw [hq, of_decide_eq_true hread]
      exact ⟨c, rfl⟩
    · cases hread
  have hcompile := compile_eq_ok_iff.2 ⟨p, c, hparse, @rfl _ (p.compile {}).1⟩
  have hclean : (p.compile {}).1.diagnostics = [] := by decide +kernel
  refine ⟨_, hcompile, hclean, ?_⟩
  intro start hscale ha hb outcome
  obtain ⟨_, _, _, p', _, _, _, _, hparse', hrun⟩ := integers_computed_exactly hcompile hclean
  cases hparse.symm.trans hparse'
  have hstart : start.HoldsIntegers p.integers := by
    intro name hname
    obtain ⟨d, hd, rfl, _⟩ := hname
    rcases List.mem_cons.1 hd with rfl | hd
    · exact ⟨_, ha⟩
    · rw [List.mem_singleton.1 hd]
      exact ⟨_, hb⟩
  have hfit : value.ConstantsFit := by decide
  have hfolded : Operator.div.onIntegers? 7 2 = some 3 := by decide
  have hcut : Operator.div.onIntegers? (-7) 2 = some (-3) := by decide
  have hvalue : value.integer? start.integer? = some (-6) := by
    simp [value, Expr.integer?, Machine.integer?, ha, Number.whole?, hfolded, hcut]
    rfl
  obtain ⟨_, _, hassign⟩ := hrun Unit start hscale hstart 0 start ⟨[], rfl, rfl⟩
  obtain ⟨checked, hchecked, hiff⟩ :=
    hassign "b" value none ⟨1, 9⟩ rfl ⟨_, .tail _ (.head _), rfl, rfl⟩ hfit
  cases hchecked
  rw [hvalue] at hiff
  exact hiff outcome

end DeskCalc
