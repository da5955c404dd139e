import DeskCalc.Proofs.Integers
import DeskCalc.Proofs.Scale

/-!
# Integer divisions

An integer division is cut toward zero as long as it is run at scale zero. A coercion that stands
ahead of it in the same assignment has set five places by then, and they are undone only behind the
assignment. So an integer quotient can keep a fraction where a folded one would not. In an
assignment to an integer variable this does not happen.

Main statements: `scale_at_int_division` and `scale_five_at_int_division`.
-/

namespace DeskCalc

/-- A quotient that is folded is the exact one, cut toward zero. -/
private theorem Operator.onIntegers?_of_onInts_div {a b q : Int32} (h : div.onInts a b = some q) :
    div.onIntegers? a.toInt b.toInt = some q.toInt := by
  -- a quotient was found, so it is one of 32 bits
  by_cases hq : HasQuotient a b
  · rw [onInts, if_pos hq, Option.some.injEq] at h
    have hb : b.toInt ≠ 0 := fun hb => hq.1 (Int32.toInt_inj.1 hb)
    rw [onIntegers?, if_neg hb, ← h, toInt_div_of_hasQuotient hq]
  · rw [onInts, if_neg hq] at h
    cases h

/-- No coercion is in an integral expression. -/
private theorem Expr.any_isCoercion_of_isIntegral {t : SymbolTable} {e : Expr}
    (h : e.IsIntegral t) : e.nodes.any isCoercion = false := by
  induction e with
  | identifier name ty l => rfl
  | literal v ty l => rfl
  | binary op left right ty l ihl ihr => simp [nodes, ihl h.1, ihr h.2, isCoercion]
  | coercion inner ty l => exact h.elim

/-- The value that is assigned to an integer variable without faults is integral. -/
private theorem Statement.isIntegral_of_fst_check {t : SymbolTable} {s : Statement}
    (hplain : s.IsPlain) (hclean : Journal.diagnostics (s.check t).2 = []) {target : String}
    {value : Expr} {l : Location} (h : (s.check t).1 = .assign target value (some .int) l) :
    value.IsIntegral t := by
  cases s with
  | print name l' => cases h
  | assign target' value' ty' l' =>
    obtain ⟨declared, htarget, _, _⟩ := declared_of_check_assign hclean
    -- the type that checking leaves is that with which the target was declared
    have hint : declared = .int := by
      rw [fst_check_assign htarget] at h
      cases h
      rfl
    rw [hint] at htarget
    obtain ⟨hvalue, hcheck⟩ := isIntegral_of_check_assign hplain hclean htarget
    rw [hcheck] at h
    cases h
    exact (Expr.isIntegral_check hvalue).2

section Compiled

variable {settings : Settings} {source : String} {compilation : Compilation}

/-- The value that a source without faults assigns to an integer variable is integral. -/
private theorem isIntegral_of_compile (hcompile : (compile settings source).1 = .ok compilation)
    (hclean : compilation.diagnostics = []) {i : Nat} {target : String} {value : Expr}
    {l : Location}
    (hstatement : compilation.program.statements[i]? = some (.assign target value (some .int) l)) :
    ∃ t, value.IsIntegral t := by
  obtain ⟨p, c, hparse, rfl⟩ := compile_eq_ok_iff.1 hcompile
  obtain ⟨_, _, _, _, _, hp, _⟩ := Parse.program_derives hparse
  have hlog : Journal.diagnostics (p.check settings.symbolCapacity).2 = [] := hclean
  rw [Program.check, Journal.diagnostics_append, List.append_eq_nil_iff,
    Statement.diagnostics_checkAll_eq_nil_iff] at hlog
  have hstatements : (p.compile settings).1.program.statements = p.statements.map fun s =>
      (s.check (SymbolTable.build settings.symbolCapacity p.declarations).1).1 :=
    Statement.fst_checkAll _ _
  rw [hstatements, List.getElem?_map, Option.map_eq_some_iff] at hstatement
  obtain ⟨s, hs, hcheck⟩ := hstatement
  have hmem := List.mem_of_getElem? hs
  exact ⟨_, Statement.isIntegral_of_fst_check (Grammar.isPlain_of_isProgram hp s hmem)
    (hlog.2 s hmem) hcheck⟩

/-- Run the code of a source without faults from scale zero. An integer division is run at five
places if a coercion comes before it in its assignment, which is never so if the target is an
integer variable, and else at scale zero. At scale zero its quotient is the one that is folded. -/
theorem scale_at_int_division (hcompile : (compile settings source).1 = .ok compilation)
    (hclean : compilation.diagnostics = []) (hsetting : settings.coercionScale = true) {i : Nat}
    {target : String} {value : Expr} {ty : Option Ty} {l : Location}
    (hstatement : compilation.program.statements[i]? = some (.assign target value ty l))
    {before after : List Expr} {left right : Expr} {place : Location}
    (hnode : value.nodes = before ++ .binary .div left right (some .int) place :: after) :
    let done := Statement.codeAll true (compilation.program.statements.take i) ++
      before.flatMap (Expr.ownCode true)
    scaleAfter 0 done = (if before.any Expr.isCoercion then 5 else 0) ∧
      (ty = some .int → scaleAfter 0 done = 0) ∧
      ∃ rest, compilation.code = done ++ .operation .div :: rest ∧
        ∀ (α : Type) (start m : Machine α), start.scale = 0 →
          Machine.Reaches compilation.code start (.operation .div :: rest) m →
          m.scale = scaleAfter 0 done ∧
          (m.scale = 0 → ∀ (below : Machine α) (a b q : Int32),
            m = (below.push (.whole a.toInt)).push (.whole b.toInt) →
            Operator.div.onInts a b = some q →
            ∀ outcome, Machine.Step (.operation .div) m outcome ↔
              outcome = some (below.push (.whole q.toInt))) := by
  intro done
  -- the scale is read off the code in front of the division
  obtain ⟨hscale, rest, hcode, hrun⟩ := scale_at_operation hcompile hsetting hstatement hnode
  refine ⟨hscale, ?_, rest, hcode, ?_⟩
  · rintro rfl
    obtain ⟨t, hvalue⟩ := isIntegral_of_compile hcompile hclean hstatement
    -- an integral value has no coercion at all, in particular none before the division
    have hnone := Expr.any_isCoercion_of_isIntegral hvalue
    rw [hnode, List.any_append, Bool.or_eq_false_iff] at hnone
    rw [hscale, hnone.1]
    rfl
  · intro α start m hstart hreach
    refine ⟨hrun α start m hstart hreach, ?_⟩
    rintro hzero below a b q rfl hq outcome
    have hbelow : below.scale = 0 := hzero
    rw [Machine.step_operation_iff .div hbelow, Operator.onIntegers?_of_onInts_div hq]
    rfl

end Compiled

/-- An integer quotient that comes before all coercions is cut toward zero. -/
theorem scale_at_int_division_of_first :
    ∃ compilation, (compile {} "i a i b f c c = a / b + a * c").1 = .ok compilation ∧
      compilation.diagnostics = [] ∧
      ∃ rest, compilation.code = [.load "a", .load "b"] ++ .operation .div :: rest ∧
        ∀ start m below : Machine Unit, start.scale = 0 →
          Machine.Reaches compilation.code start (.operation .div :: rest) m →
          m = (below.push (.whole (-7))).push (.whole 2) →
          ∀ outcome, Machine.Step (.operation .div) m outcome ↔
            outcome = some (below.push (.whole (-3))) := by
  have hread : (match (compile {} "i a i b f c c = a / b + a * c").1 with
      | .ok compilation => decide (compilation.diagnostics = [] ∧
          compilation.program.statements[0]? = some (.assign "c" (.binary .add
            (.coercion (.binary .div (.identifier "a" (some .int) ⟨1, 17⟩)
              (.identifier "b" (some .int) ⟨1, 21⟩) (some .int) ⟨1, 19⟩) (some .float) ⟨1, 19⟩)
            (.binary .mul (.coercion (.identifier "a" (some .int) ⟨1, 25⟩) (some .float) ⟨1, 25⟩)
              (.identifier "c" (some .float) ⟨1, 29⟩) (some .float) ⟨1, 27⟩)
            (some .float) ⟨1, 23⟩) (some .float) ⟨1, 13⟩))
      | .error _ => false) = true := by decide +kernel
  split at hread
  · next compilation hcompile =>
    obtain ⟨hclean, hstatement⟩ := of_decide_eq_true hread
    obtain ⟨hscale, _, rest, hcode, hrun⟩ := scale_at_int_division hcompile hclean rfl hstatement
      (show _ = [_, _] ++ _ :: [_, _, _, _, _, _] from rfl)
    refine ⟨compilation, hcompile, hclean, rest, hcode, ?_⟩
    intro start m below hstart hreach hm outcome
    obtain ⟨hm', hquotient⟩ := hrun Unit start m hstart hreach
    exact hquotient (hm'.trans hscale) below (-7) 2 (-3) hm (by decide) outcome
  · cases hread

/-- An integer quotient that comes behind a coercion is computed to five places. -/
theorem scale_five_at_int_division :
    ∃ compilation, (compile {} "i a i b f c c = a * c + a / b").1 = .ok compilation ∧
      compilation.diagnostics = [] ∧
      ∃ value before left right place after, compilation.program.statements =
          [.assign "c" value (some .float) ⟨1, 13⟩] ∧
        value.nodes = before ++ .binary .div left right (some .int) place :: after ∧
        compilation.code = before.flatMap (Expr.ownCode true) ++
          .operation .div :: [.directive .fractionScale, .operation .add, .store "c",
            .directive .wholeScale] ∧
        scaleAfter 0 (before.flatMap (Expr.ownCode true)) = 5 := by
  have hread : (match (compile {} "i a i b f c c = a * c + a / b").1 with
      | .ok compilation => decide (compilation.diagnostics = [] ∧
          compilation.program.statements = [.assign "c" (.binary .add
            (.binary .mul (.coercion (.identifier "a" (some .int) ⟨1, 17⟩) (some .float) ⟨1, 17⟩)
              (.identifier "c" (some .float) ⟨1, 21⟩) (some .float) ⟨1, 19⟩)
            (.coercion (.binary .div (.identifier "a" (some .int) ⟨1, 25⟩)
              (.identifier "b" (some .int) ⟨1, 29⟩) (some .int) ⟨1, 27⟩) (some .float) ⟨1, 27⟩)
            (some .float) ⟨1, 23⟩) (some .float) ⟨1, 13⟩] ∧
          compilation.code = [.load "a", .directive .fractionScale, .load "c", .operation .mul,
            .load "a", .load "b", .operation .div, .directive .fractionScale, .operation .add,
            .store "c", .directive .wholeScale])
      | .error _ => false) = true := by decide +kernel
  split at hread
  · next compilation hcompile =>
    obtain ⟨hclean, hstatements, hcode⟩ := of_decide_eq_true hread
    refine ⟨compilation, hcompile, hclean, _, _, _, _, _, _, hstatements,
      (show _ = [_, _, _, _, _, _] ++ _ :: [_, _] from rfl), hcode, rfl⟩
  · cases hread

end DeskCalc
