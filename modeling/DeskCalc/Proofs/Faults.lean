import DeskCalc.Proofs.Integers
import DeskCalc.Proofs.Registry

/-!
# The faults of a program

The rules of the language say what is wrong with a program, without a look at how it is checked:
names are accepted in order as long as they are new and there is room, every use of another name is
a fault, and so is a value with a single-precision leaf for an integer target. A compilation reports
these faults, one after the other in the order of the source, and nothing else.

Whether a value is refused is decided by the type found for a tree that was coerced and folded on
the way. That type is single precision exactly if some leaf is, since folding keeps the type that an
operation has by its operands.

Main statement: `diagnostics_eq_faults`.
-/

namespace DeskCalc

/-! ## The rules -/

/-- Some leaf of the expression is a single-precision number, or a name known to be of this type. -/
def Expr.hasFloatLeaf (known : String → Option Ty) : Expr → Bool
  | identifier name _ _ => known name = some .float
  | literal v _ _ => v.ty = .float
  | binary _ left right _ _ => left.hasFloatLeaf known || right.hasFloatLeaf known
  | coercion inner _ _ => inner.hasFloatLeaf known

/-- What is wrong with a statement where certain names are known. -/
def Statement.faults (known : String → Option Ty) : Statement → List Diagnostic
  | print name l => if known name = none then [.undeclared name l] else []
  | assign target value _ l =>
    -- the uses in the value come before the target
    value.undeclared known ++
      match known target with
      | none => [.undeclared target l]
      | some .int => if value.hasFloatLeaf known then [.narrowing target l] else []
      | some .float => []

/-- What is wrong with a program: with its declarations, of which those that are refused change
nothing, and then with its statements. -/
def Program.faults (symbolCapacity : Nat) (p : Program) : List Diagnostic :=
  let (accepted, refusals) := (Registry.empty symbolCapacity).declareAll p.declarations
  refusals ++ p.statements.flatMap (Statement.faults accepted.get?)

/-! ## What is reported -/

/-- The type found for an expression is single precision if some leaf is. -/
private theorem Expr.ty_check_eq_float_iff {t : SymbolTable} {e : Expr} (he : e.IsPlain) :
    (e.check t).1.ty = some .float ↔ e.hasFloatLeaf t.get? := by
  induction e with
  | identifier name ty l => simp [check, Expr.ty, hasFloatLeaf]
  | literal v ty l => simp [check, Expr.ty, hasFloatLeaf]
  | binary op left right ty l ihl ihr =>
    rw [check_binary, ty_join, Option.some.injEq, generalize_eq_float_iff, ihl he.1, ihr he.2,
      hasFloatLeaf, Bool.or_eq_true]
  | coercion inner ty l => exact he.elim

/-- Checking a statement reports its faults, where the names in the table are known. -/
private theorem Statement.diagnostics_check {s : Statement} (hs : s.IsPlain) (t : SymbolTable) :
    Journal.diagnostics (s.check t).2 = s.faults t.get? := by
  cases s with
  | print name l => exact diagnostics_check_print t name l
  | assign target value ty l =>
    rw [diagnostics_check_assign, faults]
    apply congrArg
    -- a value is refused by an integer target only, and then for its type
    have hrefused (declared : Ty) : ((value.check t).1.coerce declared).2 = .rejected ↔
        value.hasFloatLeaf t.get? ∧ declared = .int := by
      rw [Expr.coerce_eq_rejected_iff, Expr.ty_check_eq_float_iff hs]
    cases htarget : t.get? target with
    | none => rfl
    | some declared =>
      cases declared with
      | int => simp [hrefused]
      | float => simp [hrefused]

/-- The diagnostics of a program are its faults. -/
theorem Program.diagnostics_compile {p : Program} (hp : ∀ s ∈ p.statements, s.IsPlain)
    (settings : Settings) :
    (p.compile settings).1.diagnostics = p.faults settings.symbolCapacity := by
  obtain ⟨hbuild, hkeeps⟩ := SymbolTable.keeps_build settings.symbolCapacity p.declarations
  generalize htable : (SymbolTable.build settings.symbolCapacity p.declarations).1 = t at hkeeps
  -- the names in the table are those accepted
  have hknown : t.get? =
      ((Registry.empty settings.symbolCapacity).declareAll p.declarations).1.get? :=
    funext hkeeps.get?_eq
  have hstatements : Journal.diagnostics (Statement.checkAll t p.statements).2 =
      p.statements.flatMap (Statement.faults t.get?) := by
    rw [Statement.diagnostics_checkAll]
    exact List.flatMap_congr fun s hs => Statement.diagnostics_check (hp s hs) t
  calc (p.compile settings).1.diagnostics
      = Journal.diagnostics ((SymbolTable.build settings.symbolCapacity p.declarations).2 ++
          (Statement.checkAll t p.statements).2) := by rw [← htable]; rfl
    _ = p.faults settings.symbolCapacity := by
        rw [Journal.diagnostics_append, hbuild, hstatements, hknown]
        rfl

/-- A source that is a program is compiled, and its diagnostics are the faults of the program that
its lexemes derive, in order. -/
theorem diagnostics_eq_faults (settings : Settings) {source : String} {p : Program} {c : Cursor}
    (h : Parse.program (.ofString source) = .ok p c) :
    ∃ compilation ls last final, (compile settings source).1 = .ok compilation ∧
      (Reader.ofString source).tokenize = .ok (ls ++ [last]) final ∧ Grammar.IsProgram ls p ∧
      compilation.diagnostics = p.faults settings.symbolCapacity := by
  obtain ⟨ls, last, final, htokens, _, hp, _⟩ := Parse.program_derives h
  have hcompile := compile_eq_ok_iff.2 ⟨p, c, h, @rfl _ (p.compile settings).1⟩
  have hplain := Grammar.isPlain_of_isProgram hp
  exact ⟨_, ls, last, final, hcompile, htokens, hp, p.diagnostics_compile hplain settings⟩

/-- With room for two names, a second declaration of `a` and the declaration of `b` are refused; the
value of `a` has an unknown name and a single-precision one, `b` is no target, and `z` cannot be
printed. -/
theorem diagnostics_eq_faults_of_two_names :
    let source := "i a f x i a i b a = x + y b = 1 p z"
    ∃ p c, Parse.program (.ofString source) = .ok p c ∧
      ∃ compilation, (compile { symbolCapacity := 2 } source).1 = .ok compilation ∧
        compilation.diagnostics =
          [.duplicate "a" ⟨1, 9⟩, .tableFull "b" 2 ⟨1, 13⟩, .undeclared "y" ⟨1, 25⟩,
            .narrowing "a" ⟨1, 17⟩, .undeclared "b" ⟨1, 27⟩, .undeclared "z" ⟨1, 33⟩] := by
  intro source
  have hread : (match Parse.program (.ofString source) with
      | .ok p _ => decide (p.faults 2 =
          [.duplicate "a" ⟨1, 9⟩, .tableFull "b" 2 ⟨1, 13⟩, .undeclared "y" ⟨1, 25⟩,
            .narrowing "a" ⟨1, 17⟩, .undeclared "b" ⟨1, 27⟩, .undeclared "z" ⟨1, 33⟩])
      | .error .. => false) = true := by decide +kernel
  split at hread
  · next p c hp =>
    obtain ⟨compilation, _, _, _, hcompile, _, _, hfaults⟩ :=
      diagnostics_eq_faults { symbolCapacity := 2 } hp
    exact ⟨p, c, hp, compilation, hcompile, hfaults.trans (of_decide_eq_true hread)⟩
  · cases hread

end DeskCalc
