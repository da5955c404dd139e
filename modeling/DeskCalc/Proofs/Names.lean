import DeskCalc.Compilation
import DeskCalc.Proofs.Derivation
import DeskCalc.Proofs.Faultless

/-!
# The names in a program and in its code

A program has the names that its lexemes spell, checking drops and moves none of them, and each of
them in a statement becomes one access to a register.

Main statements: `Grammar.spelled_of_isStatement` — a statement has the names that its lexemes spell
— and `Program.accessing_code` — the code of a program loads and stores the registers of the names
in it, in order.
-/

namespace DeskCalc

/-! ## The names in a program -/

/-- The names that lexemes spell, in order. -/
def spelled (ls : List Lexeme) : List String :=
  ls.filterMap fun l => if l.kind = .identifier then some l.text else none

/-- The names in a statement. That of a target comes first. -/
def Statement.names : Statement → List String
  | print name _ => [name]
  | assign target value _ _ => target :: value.names

theorem spelled_append (ls more : List Lexeme) :
    spelled (ls ++ more) = spelled ls ++ spelled more :=
  List.filterMap_append

theorem spelled_cons_of_identifier {l : Lexeme} (h : l.kind = .identifier) (ls : List Lexeme) :
    spelled (l :: ls) = l.text :: spelled ls := by
  simp [spelled, h]

theorem spelled_cons_of_ne {l : Lexeme} (h : l.kind ≠ .identifier) (ls : List Lexeme) :
    spelled (l :: ls) = spelled ls := by
  simp [spelled, h]

namespace Grammar

private theorem spelled_of_isTier {tight : Bool} {operand : List Lexeme → Expr → Prop}
    (hoperand : ∀ ls e, operand ls e → e.names = spelled ls) {ls : List Lexeme} {e : Expr}
    (h : IsTier tight operand ls e) : e.names = spelled ls := by
  cases h with
  | @mk ls more first steps hfirst hsteps =>
    -- the names of the steps come behind those of whatever operand they are applied to
    have hfold (left : Expr) :
        (steps.foldl Step.apply left).names = left.names ++ spelled more := by
      clear hfirst
      induction hsteps generalizing left with
      | nil => exact (List.append_nil _).symm
      | cons hstep _ ih =>
        cases hstep with
        | mk ho _ hright =>
          rw [List.foldl_cons, ih, Step.apply, Expr.names, hoperand _ _ hright, spelled_append,
            spelled_cons_of_ne (by simp [ho]), List.append_assoc]
    rw [hfold, hoperand _ _ hfirst, spelled_append]

theorem spelled_of_isExpression {ls : List Lexeme} {e : Expr} (h : IsExpression ls e) :
    e.names = spelled ls := by
  -- two tiers, one over the other
  apply spelled_of_isTier _ h
  intro ls' term hterm
  apply spelled_of_isTier _ hterm
  intro ls'' value hvalue
  cases hvalue with
  | identifier hl => simp [spelled, hl, Expr.names]
  | number hl => simp [spelled, hl, Expr.names]

/-- A statement has the names that its lexemes spell. -/
theorem spelled_of_isStatement {ls : List Lexeme} {s : Statement} (h : IsStatement ls s) :
    s.names = spelled ls := by
  cases h with
  | assign htarget hsign he =>
    rw [Statement.names, spelled_of_isExpression he, spelled_cons_of_identifier htarget,
      spelled_cons_of_ne (by simp [hsign])]
  | print hkeyword hname =>
    rw [Statement.names, spelled_cons_of_ne (by simp [hkeyword]), spelled_cons_of_identifier hname]
    rfl

/-- The names in statements are spelled by the lexemes of the program. -/
theorem mem_spelled_of_isProgram {ls : List Lexeme} {p : Program} (h : IsProgram ls p)
    {name : String} (hname : name ∈ p.statements.flatMap Statement.names) : name ∈ spelled ls := by
  cases h with
  | @mk ls more ds ss hds hss =>
    -- declarations spell names too, but those in statements are spelled behind them
    have hall : ss.flatMap Statement.names = spelled more := by
      clear hname hds
      induction hss with
      | nil => rfl
      | cons hs _ ih => rw [List.flatMap_cons, spelled_of_isStatement hs, ih, spelled_append]
    rw [spelled_append, ← hall]
    exact List.mem_append_right _ hname

end Grammar

/-! ## The registers that code accesses -/

/-- The register that an instruction reads or writes. -/
def Instruction.register? : Instruction → Option String
  | load name | store name => some name
  | _ => none

/-- The instruction reads a register or writes to one. -/
def Instruction.isAccess (i : Instruction) : Bool := i.register?.isSome

theorem Instruction.register?_eq_some_iff {i : Instruction} {name : String} :
    i.register? = some name ↔ i = .load name ∨ i = .store name := by
  cases i <;> simp [register?]

/-- The code of an expression loads the registers of its names, from left to right. -/
private theorem Expr.accessing_code (coercionScale : Bool) (e : Expr) :
    (e.code coercionScale).filter Instruction.isAccess = e.names.map .load := by
  induction e with
  | identifier name ty l => rfl
  | literal v ty l => cases v <;> rfl
  | binary op left right ty l ihl ihr =>
    rw [code, List.filter_append, List.filter_append, ihl, ihr, names, List.map_append]
    exact List.append_nil _
  | coercion inner ty l ih =>
    rw [code, List.filter_append, ih]
    -- setting the scale accesses no register
    cases coercionScale <;> exact List.append_nil _

namespace Statement

/-- The names in a statement in the order in which its code accesses their registers. -/
def accesses : Statement → List String
  | print name _ => [name]
  | assign target value _ _ => value.names ++ [target]

/-- The instructions by which the code of a statement accesses registers: the value of an assignment
is loaded before its target is stored. -/
def accessCode : Statement → List Instruction
  | print name _ => [.load name]
  | assign target value _ _ => value.names.map .load ++ [.store target]

private theorem registers_accessCode (s : Statement) :
    s.accessCode.filterMap Instruction.register? = s.accesses := by
  cases s with
  | print name l => rfl
  | assign target value ty l =>
    rw [accessCode, List.filterMap_append, List.filterMap_map]
    -- a load of each name has its register, so all of them are there
    change value.names.filterMap some ++ _ = _
    rw [List.filterMap_some]
    rfl

private theorem accessing_code (coercionScale : Bool) (s : Statement) :
    (s.code coercionScale).filter Instruction.isAccess = s.accessCode := by
  cases s with
  | print name l => rfl
  | assign target value ty l =>
    rw [code, List.filter_append, Expr.accessing_code]
    rfl

theorem mem_accesses_iff {s : Statement} {name : String} : name ∈ s.accesses ↔ name ∈ s.names := by
  cases s with
  | print => rfl
  | assign target value ty l => simp [accesses, names, or_comm]

/-- Checking keeps the accesses of a statement. -/
private theorem accessCode_check (t : SymbolTable) (s : Statement) :
    (s.check t).1.accessCode = s.accessCode := by
  cases s with
  | print name l => rfl
  | assign target value ty l =>
    cases htarget : t.get? target with
    | none => simp [check, htarget, accessCode, Expr.names_check]
    | some declared =>
      rw [fst_check_assign htarget, accessCode, Expr.names_coerce, Expr.names_check]
      rfl

private theorem accessing_codeAll (coercionScale : Bool) (ss : List Statement) :
    (codeAll coercionScale ss).filter Instruction.isAccess = ss.flatMap accessCode := by
  induction ss with
  | nil => rfl
  | cons s ss ih =>
    rw [codeAll, List.flatMap_cons, List.filter_append, accessing_code, List.flatMap_cons]
    exact congrArg _ ih

end Statement

namespace Program

/-- The code of a program accesses registers as its statements do, one after the other. -/
theorem accessing_code (settings : Settings) (p : Program) :
    (p.compile settings).1.code.filter Instruction.isAccess =
      p.statements.flatMap Statement.accessCode := by
  -- which table the statements are checked with does not matter
  generalize ht : (SymbolTable.build settings.symbolCapacity p.declarations).1 = t
  have hcode : (p.compile settings).1.code =
      Statement.codeAll settings.coercionScale (p.statements.map fun s => (s.check t).1) := by
    rw [← ht, ← Statement.fst_checkAll]
    rfl
  rw [hcode, Statement.accessing_codeAll, List.flatMap_map]
  simp only [Statement.accessCode_check]

/-- The code of a program accesses the registers named in its statements, in order. -/
theorem accessed_code (settings : Settings) (p : Program) :
    (p.compile settings).1.code.filterMap Instruction.register? =
      p.statements.flatMap Statement.accesses := by
  -- an instruction with a register is an access, so nothing is lost by keeping accesses only
  have hfilter (code : List Instruction) : code.filterMap Instruction.register? =
      (code.filter Instruction.isAccess).filterMap Instruction.register? := by
    rw [List.filterMap_filter]
    congr 1
    funext i
    cases i <;> rfl
  rw [hfilter, p.accessing_code, List.filterMap_flatMap]
  simp only [Statement.registers_accessCode]

end Program

/-- The registers that the code of a source accesses are named by its lexemes. -/
theorem mem_spelled_of_register {settings : Settings} {source : String} {compilation : Compilation}
    (hcompile : (compile settings source).1 = .ok compilation) {ls : List Lexeme} {final : Reader}
    (htokens : (Reader.ofString source).tokenize = .ok ls final) {i : Instruction} {name : String}
    (hi : i ∈ compilation.code) (hname : i.register? = some name) : name ∈ spelled ls := by
  obtain ⟨p, c, hparse, rfl⟩ := compile_eq_ok_iff.1 hcompile
  obtain ⟨ls', l, final', htokens', _, hp, _⟩ := Parse.program_derives hparse
  cases htokens.symm.trans htokens'
  have hmem : name ∈ p.statements.flatMap Statement.accesses := by
    rw [← p.accessed_code settings]
    exact List.mem_filterMap.2 ⟨i, hi, hname⟩
  obtain ⟨s, hs, hin⟩ := List.mem_flatMap.1 hmem
  rw [spelled_append]
  refine List.mem_append_left _ (Grammar.mem_spelled_of_isProgram hp ?_)
  exact List.mem_flatMap.2 ⟨s, hs, Statement.mem_accesses_iff.1 hin⟩

end DeskCalc
