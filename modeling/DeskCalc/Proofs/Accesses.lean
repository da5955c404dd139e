import DeskCalc.Proofs.Faults
import DeskCalc.Proofs.Names

/-!
# The accesses to registers

The lexemes of a source tell which registers its code accesses, and when. A print statement loads
the name that it prints. An assignment loads the names behind its sign, one by one, and then stores its
target. Checking folds numbers and wraps operands, but no name is dropped or moved on the way.

So a name that is not known is reported exactly if the code accesses its register, and the code of a
program without faults accesses the registers of declared names only.

Main statement: `accesses_in_order`.
-/

namespace DeskCalc

/-! ## What lexemes ask for -/

/-- The accesses that the lexemes of a statement ask for. A name that a statement begins with is the
target of an assignment, and is stored when all the others have been loaded. -/
def spelledAccesses : List Lexeme → List Instruction
  | [] => []
  | first :: ls =>
    (spelled ls).map .load ++ if first.kind = .identifier then [.store first.text] else []

namespace Grammar

/-- The code of a statement accesses the registers that its lexemes ask for. -/
private theorem accessCode_of_isStatement {ls : List Lexeme} {s : Statement}
    (h : IsStatement ls s) : s.accessCode = spelledAccesses ls := by
  cases h with
  | assign htarget hsign he =>
    rw [Statement.accessCode, spelledAccesses, if_pos htarget,
      spelled_cons_of_ne (by simp [hsign]), spelled_of_isExpression he]
  | print hkeyword hname =>
    -- the keyword in front is no name, and there is nothing to store
    rw [Statement.accessCode, spelledAccesses, if_neg (by simp [hkeyword]),
      spelled_cons_of_identifier hname]
    rfl

/-- Lexemes that repeat what `one` reads fall into parts that `one` reads. -/
private theorem Repeated.exists_parts {α : Type} {one : List Lexeme → α → Prop} {ls : List Lexeme}
    {xs : List α} (h : Repeated one ls xs) :
    ∃ parts : List (List Lexeme), ls = parts.flatten ∧ List.Forall₂ one parts xs := by
  induction h with
  | nil => exact ⟨[], rfl, .nil⟩
  | @cons ls more x xs hx _ ih =>
    obtain ⟨parts, hmore, hparts⟩ := ih
    exact ⟨ls :: parts, by rw [List.flatten_cons, hmore], .cons hx hparts⟩

/-- The code of statements accesses the registers that their lexemes ask for, part by part. -/
private theorem flatMap_accessCode {parts : List (List Lexeme)} {ss : List Statement}
    (h : List.Forall₂ IsStatement parts ss) :
    ss.flatMap Statement.accessCode = parts.flatMap spelledAccesses := by
  induction h with
  | nil => rfl
  | cons hs _ ih => rw [List.flatMap_cons, List.flatMap_cons, accessCode_of_isStatement hs, ih]

end Grammar

/-! ## Names that are not known -/

section

variable {known : String → Option Ty} {name : String}

private theorem Expr.undeclared_mem_iff {e : Expr} :
    (∃ l, .undeclared name l ∈ e.undeclared known) ↔ known name = none ∧ name ∈ e.names := by
  rw [Expr.names_eq_map]
  constructor
  · rintro ⟨l, hl⟩
    obtain ⟨⟨name', l'⟩, ho, heq⟩ := List.mem_map.1 hl
    obtain ⟨rfl, rfl⟩ := Diagnostic.undeclared.inj heq
    obtain ⟨hmem, hnone⟩ := List.mem_filter.1 ho
    exact ⟨of_decide_eq_true hnone, List.mem_map_of_mem hmem⟩
  · rintro ⟨hnone, hmem⟩
    obtain ⟨⟨name', l⟩, ho, rfl⟩ := List.mem_map.1 hmem
    exact ⟨l, List.mem_map_of_mem (List.mem_filter.2 ⟨ho, decide_eq_true hnone⟩)⟩

/-- A fault of the name `other` is one for the name asked for exactly if the names are the same. -/
private theorem undeclared_mem_singleton_iff {other : String} {place : Location} :
    (∃ l, .undeclared name l ∈ [Diagnostic.undeclared other place]) ↔ name = other := by
  simp only [List.mem_singleton, Diagnostic.undeclared.injEq, exists_and_left, exists_eq, and_true]

/-- A statement is at fault for a name exactly if it has the name and the name is not known. -/
private theorem Statement.undeclared_mem_faults_iff {s : Statement} :
    (∃ l, .undeclared name l ∈ s.faults known) ↔ known name = none ∧ name ∈ s.names := by
  cases s with
  | print other place =>
    rw [faults, names, List.mem_singleton]
    by_cases hother : known other = none
    · rw [if_pos hother, undeclared_mem_singleton_iff]
      exact ⟨fun h => ⟨h ▸ hother, h⟩, And.right⟩
    · rw [if_neg hother]
      simp only [List.not_mem_nil, exists_false, false_iff]
      rintro ⟨hnone, rfl⟩
      exact hother hnone
  | assign target value ty place =>
    rw [faults, names, List.mem_cons]
    simp only [List.mem_append, exists_or, Expr.undeclared_mem_iff]
    cases htarget : known target with
    -- the target is reported behind the value, and both count
    | none =>
      rw [undeclared_mem_singleton_iff]
      constructor
      · rintro (⟨hnone, hmem⟩ | rfl)
        · exact ⟨hnone, .inr hmem⟩
        · exact ⟨htarget, .inl rfl⟩
      · rintro ⟨hnone, rfl | hmem⟩
        · exact .inr rfl
        · exact .inl ⟨hnone, hmem⟩
    | some declared =>
      -- a target that is known is at fault for its value only
      have hne (hnone : known name = none) : name ≠ target := by
        rintro rfl
        cases hnone.symm.trans htarget
      have hrefused : ¬ ∃ l, Diagnostic.undeclared name l ∈
          if value.hasFloatLeaf known then [Diagnostic.narrowing target place] else [] := by
        rintro ⟨l, hl⟩
        split at hl <;> simp at hl
      cases declared with
      | int =>
        rw [or_iff_left hrefused]
        exact and_congr_right fun hnone => (or_iff_right (hne hnone)).symm
      | float =>
        simp only [List.not_mem_nil, exists_false, or_false]
        exact and_congr_right fun hnone => (or_iff_right (hne hnone)).symm

/-- No declaration is refused for a name that is not known. -/
private theorem Registry.undeclared_notMem_declareAll (r : Registry) (ds : List Declaration)
    (l : Location) : .undeclared name l ∉ (r.declareAll ds).2 := by
  intro h
  obtain ⟨d, _, hduplicate | ⟨capacity, hfull⟩⟩ := r.fault_of_mem_declareAll h
  · cases hduplicate
  · cases hfull

end

/-- A program is at fault for a name exactly if a statement has the name and it was not accepted. -/
private theorem Program.undeclared_mem_faults_iff {capacity : Nat} {p : Program} {name : String} :
    (∃ l, .undeclared name l ∈ p.faults capacity) ↔
      (SymbolTable.build capacity p.declarations).1.get? name = none ∧
        name ∈ p.statements.flatMap Statement.names := by
  obtain ⟨-, hkeeps⟩ := SymbolTable.keeps_build capacity p.declarations
  rw [hkeeps.get?_eq]
  -- the declarations are never at fault for a name that is not known
  simp only [faults, List.mem_append, Registry.undeclared_notMem_declareAll, false_or,
    List.mem_flatMap]
  constructor
  · rintro ⟨l, s, hs, hl⟩
    obtain ⟨hnone, hname⟩ := Statement.undeclared_mem_faults_iff.1 ⟨l, hl⟩
    exact ⟨hnone, s, hs, hname⟩
  · rintro ⟨hnone, s, hs, hname⟩
    obtain ⟨l, hl⟩ := Statement.undeclared_mem_faults_iff.2 ⟨hnone, hname⟩
    exact ⟨l, s, hs, hl⟩

/-- The code of a program accesses the registers of the names in its statements. -/
private theorem Program.mem_access_iff {settings : Settings} {p : Program} {name : String} :
    (.load name ∈ (p.compile settings).1.code ∨ .store name ∈ (p.compile settings).1.code) ↔
      name ∈ p.statements.flatMap Statement.names := by
  -- a load or a store of the name is an instruction with its register
  have hcode : name ∈ (p.compile settings).1.code.filterMap Instruction.register? ↔
      (.load name ∈ (p.compile settings).1.code ∨ .store name ∈ (p.compile settings).1.code) := by
    simp only [List.mem_filterMap, Instruction.register?_eq_some_iff, and_or_left, exists_or,
      exists_eq_right]
  rw [← hcode, p.accessed_code]
  simp only [List.mem_flatMap, Statement.mem_accesses_iff]

/-- The lexemes of a source that is compiled fall into declarations and statements, and the code
accesses the registers that the statements ask for, in order. A name is reported as undeclared
exactly if the code accesses its register and the symbol table has not accepted it. Without faults
the code accesses the registers of declared names only. -/
theorem accesses_in_order {settings : Settings} {source : String} {compilation : Compilation}
    (h : (compile settings source).1 = .ok compilation) :
    ∃ (declarations : List Lexeme) (statements : List (List Lexeme)) (last : Lexeme)
      (final : Reader) (p : Program) (c : Cursor),
      (Reader.ofString source).tokenize =
        .ok (declarations ++ statements.flatten ++ [last]) final ∧
      last.kind = .endOfFile ∧
      Parse.program (.ofString source) = .ok p c ∧
      Grammar.Repeated Grammar.IsDeclaration declarations p.declarations ∧
      List.Forall₂ Grammar.IsStatement statements p.statements ∧
      compilation.code.filter Instruction.isAccess = statements.flatMap spelledAccesses ∧
      (∀ name, (∃ l, .undeclared name l ∈ compilation.diagnostics) ↔
        (.load name ∈ compilation.code ∨ .store name ∈ compilation.code) ∧
          (SymbolTable.build settings.symbolCapacity p.declarations).1.get? name = none) ∧
      (compilation.diagnostics = [] → ∀ name,
        (.load name ∈ compilation.code ∨ .store name ∈ compilation.code) →
          name ∈ p.declarations.map Declaration.name) := by
  obtain ⟨p, c, hparse, rfl⟩ := compile_eq_ok_iff.1 h
  obtain ⟨ls, last, final, htokens, hlast, hp, -⟩ := Parse.program_derives hparse
  have hfaults := Program.diagnostics_compile (Grammar.isPlain_of_isProgram hp) settings
  have hundeclared (name : String) :
      (∃ l, .undeclared name l ∈ (p.compile settings).1.diagnostics) ↔
        (.load name ∈ (p.compile settings).1.code ∨ .store name ∈ (p.compile settings).1.code) ∧
          (SymbolTable.build settings.symbolCapacity p.declarations).1.get? name = none := by
    rw [hfaults, Program.undeclared_mem_faults_iff, Program.mem_access_iff, and_comm]
  cases hp with
  | @mk ls more ds ss hds hss =>
    obtain ⟨statements, rfl, hstatements⟩ := hss.exists_parts
    refine ⟨ls, statements, last, final, ⟨ds, ss⟩, c, htokens, hlast, hparse, hds, hstatements, ?_,
      hundeclared, ?_⟩
    · rw [Program.accessing_code, Grammar.flatMap_accessCode hstatements]
    · intro hclean name haccess
      -- a name whose register is accessed is known, so it was declared
      have hknown : (SymbolTable.build settings.symbolCapacity ds).1.get? name ≠ none := by
        intro hnone
        obtain ⟨l, hl⟩ := (hundeclared name).2 ⟨haccess, hnone⟩
        rw [hclean] at hl
        cases hl
      obtain ⟨ty, hty⟩ := Option.ne_none_iff_exists'.1 hknown
      have hlog : Journal.diagnostics (SymbolTable.build settings.symbolCapacity ds).2 = [] := by
        have hall : Journal.diagnostics (Program.check settings.symbolCapacity ⟨ds, ss⟩).2 = [] :=
          hclean
        rw [Program.check, Journal.diagnostics_append, List.append_eq_nil_iff] at hall
        exact hall.1
      obtain ⟨d, hd, rfl, -⟩ := (SymbolTable.get?_build_eq_some_iff hlog).1 hty
      exact List.mem_map_of_mem hd

/-- The product in front is folded and the quotient is not, and `y` is not known. The accesses are
those of the lexemes all the same. -/
theorem accesses_in_order_of_folded_product :
    let source := "i a f x x = 2 * 3 + a / y a = 4 p x"
    ∃ compilation, (compile {} source).1 = .ok compilation ∧
      compilation.code.filter Instruction.isAccess =
        [.load "a", .load "y", .store "x", .store "a", .load "x"] ∧
      ∀ name, (∃ l, .undeclared name l ∈ compilation.diagnostics) ↔ name = "y" := by
  intro source
  let value : Expr := .binary .add
    (.binary .mul (.literal (.int 2) none ⟨1, 13⟩) (.literal (.int 3) none ⟨1, 17⟩) none ⟨1, 15⟩)
    (.binary .div (.identifier "a" none ⟨1, 21⟩) (.identifier "y" none ⟨1, 25⟩) none ⟨1, 23⟩) none
    ⟨1, 19⟩
  let p : Program := {
    declarations := [⟨.int, "a", ⟨1, 1⟩⟩, ⟨.float, "x", ⟨1, 5⟩⟩]
    statements := [.assign "x" value none ⟨1, 9⟩,
      .assign "a" (.literal (.int 4) none ⟨1, 31⟩) none ⟨1, 27⟩, .print "x" ⟨1, 33⟩] }
  obtain ⟨c, hp⟩ : ∃ c, Parse.program (.ofString source) = .ok p c := by decide +kernel
  have hcompile : (compile {} source).1 = .ok (p.compile {}).1 :=
    compile_eq_ok_iff.2 ⟨p, c, hp, rfl⟩
  obtain ⟨_, _, _, _, _, _, _, _, hp', _, _, _, hundeclared, _⟩ := accesses_in_order hcompile
  cases hp.symm.trans hp'
  have haccesses : (p.compile {}).1.code.filter Instruction.isAccess =
      [.load "a", .load "y", .store "x", .store "a", .load "x"] := by decide +kernel
  refine ⟨_, hcompile, haccesses, fun name => (hundeclared name).trans ?_⟩
  -- of the registers accessed only that of `y` is not in the table
  have hregisters (i : Instruction) (hi : i.isAccess) : i ∈ (p.compile {}).1.code ↔
      i ∈ [.load "a", .load "y", .store "x", .store "a", .load "x"] := by
    rw [← haccesses, List.mem_filter, and_iff_left hi]
  rw [hregisters (.load name) rfl, hregisters (.store name) rfl]
  simp only [List.mem_cons, Instruction.load.injEq, Instruction.store.injEq, reduceCtorEq,
    List.not_mem_nil, or_false, false_or]
  constructor
  · rintro ⟨(rfl | rfl | rfl) | (rfl | rfl), hnone⟩
    · exact absurd hnone (by decide +kernel)
    · rfl
    · exact absurd hnone (by decide +kernel)
    · exact absurd hnone (by decide +kernel)
    · exact absurd hnone (by decide +kernel)
  · rintro rfl
    exact ⟨by simp, by decide +kernel⟩

end DeskCalc
