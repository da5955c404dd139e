import DeskCalc.Checking
import DeskCalc.Code
import DeskCalc.Grammar.Reading
import DeskCalc.Settings

/-!
# Compiling a source

A source is read as a program; its declarations fill a symbol table, its statements are checked
against the table and code is generated for the checked program. A source that is no program is the
only obstacle: a program with faults is compiled all the same, and its faults are its diagnostics.

Main statement: `compile_eq_ok_iff` — compiling succeeds exactly for the sources that are programs,
and then with the compilation of the program read.
-/

namespace DeskCalc

/-- A compiled program. -/
structure Compilation where
  /-- The program with the types and coercions found and its constants folded. -/
  program : Program
  diagnostics : List Diagnostic
  code : List Instruction
deriving DecidableEq, Inhabited

namespace Compilation

/-- The text of the generated code. -/
def output (c : Compilation) : String := render c.code

/-- Whether the program has faults. -/
def hasErrors (c : Compilation) : Bool := !c.diagnostics.isEmpty

end Compilation

namespace Program

/-- What filling the symbol table and checking the statements make of a program. -/
def check (symbolCapacity : Nat) (p : Program) : Program × Journal :=
  let (table, tableLog) := SymbolTable.build symbolCapacity p.declarations
  let (statements, checkLog) := Statement.checkAll table p.statements
  ({ p with statements }, tableLog ++ checkLog)

/-- Compile a program. -/
def compile (settings : Settings) (p : Program) : Compilation × Journal :=
  let (program, log) := p.check settings.symbolCapacity
  let diagnostics := Journal.diagnostics log
  let code := Statement.codeAll settings.coercionScale program.statements
  let closing : Journal :=
    [.generated code.length,
      .compiled program.declarations.length program.statements.length diagnostics.length]
  (⟨program, diagnostics, code⟩, log ++ closing)

end Program

/-- Compile a source. -/
def compile (settings : Settings) (source : String) :
    Except ParseError Compilation × Journal :=
  match Parse.program (Cursor.ofString source) with
  | .error e c => (.error e, c.lexemes.map .lexeme)
  | .ok p c =>
    let (compilation, log) := p.compile settings
    (.ok compilation,
      c.lexemes.map .lexeme ++ .parsed p.declarations.length p.statements.length :: log)

/-- Compiling succeeds exactly for the sources that are programs. -/
theorem compile_eq_ok_iff {settings : Settings} {source : String} {compilation : Compilation} :
    (compile settings source).1 = .ok compilation ↔
      ∃ p c, Parse.program (Cursor.ofString source) = .ok p c ∧
        (p.compile settings).1 = compilation := by
  unfold compile
  split
  · next e c h => simp [h]
  · next p c h =>
    simp only [Except.ok.injEq, h, EStateM.Result.ok.injEq]
    constructor
    · intro hc
      exact ⟨p, c, ⟨rfl, rfl⟩, hc⟩
    · rintro ⟨p', c', ⟨rfl, rfl⟩, hc⟩
      exact hc

end DeskCalc
