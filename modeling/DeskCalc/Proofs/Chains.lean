import DeskCalc.Proofs.Constants
import DeskCalc.Proofs.Layout
import DeskCalc.Proofs.Recognition
import DeskCalc.Proofs.Registry

/-!
# Chains of integers

Integers joined by operators can be evaluated in one pass, with a running sum, a term that has
still to be added to it or taken from it, and no tree. That comes to what the tree of the chain is
folded to: the tight operators behind the term go on with it, and a loose one closes it, as the
tree has it.

Main statements: `Chain.exists_isExpression` and `compile_chain`.
-/

namespace DeskCalc

open Lexeme (Kind)

/-! ## Evaluation in one pass -/

/-- What has been seen of a chain: a sum, and a term that is still to be added or taken away. -/
structure Accumulator where
  sum : Int32
  negated : Bool
  term : Int32
deriving DecidableEq, Inhabited

namespace Accumulator

/-- The value, if the term is not gone on with. -/
def total (s : Accumulator) : Int32 := if s.negated then s.sum - s.term else s.sum + s.term

/-- One more operator and its operand. -/
def step (s : Accumulator) : Operator × Int32 → Option Accumulator
  | (.add, n) => some ⟨s.total, false, n⟩
  | (.sub, n) => some ⟨s.total, true, n⟩
  | (.mul, n) => some { s with term := s.term * n }
  | (.div, n) => if n = 0 then none else some { s with term := s.term / n }

end Accumulator

/-- An integer, and operators each with an integer behind it. -/
structure Chain where
  first : Int32
  rest : List (Operator × Int32)
deriving DecidableEq, Inhabited

namespace Chain

/-- The value of a chain, unless something is divided by zero. -/
def evaluate (chain : Chain) : Option Int32 :=
  (chain.rest.foldlM Accumulator.step ⟨0, false, chain.first⟩).map Accumulator.total

/-- The kinds of lexemes that operators and integers are. -/
def operationKinds (rest : List (Operator × Int32)) : List Kind :=
  rest.flatMap fun x => [.operator x.1, .number (.int x.2)]

/-- The kinds of the lexemes of a chain. -/
def kinds (chain : Chain) : List Kind := .number (.int chain.first) :: operationKinds chain.rest

end Chain

namespace Accumulator

variable {op : Operator} {n : Int32}

/-- A tight operator goes on with the term. What is divided by no negative integer has a quotient
unless it is divided by zero. -/
private theorem step_of_tight (hop : op.bindsTight = true) (hn : 0 ≤ n) (s : Accumulator) :
    s.step (op, n) = (op.onInts s.term n).map fun term => { s with term } := by
  cases op with
  | add => cases hop
  | sub => cases hop
  | mul => rfl
  | div =>
    -- the smallest integer has no quotient by -1 only, and no divisor is negative here
    have hquotient : Operator.HasQuotient s.term n ↔ n ≠ 0 := by
      refine and_iff_left ?_
      rintro ⟨-, rfl⟩
      exact absurd hn (by decide)
    simp only [step, Operator.onInts, hquotient]
    by_cases hzero : n = 0 <;> simp [hzero]

/-- A loose operator closes the term. -/
private theorem step_of_loose (hop : op.bindsTight = false) (s : Accumulator) :
    s.step (op, n) = some ⟨s.total, op = .sub, n⟩ := by
  cases op with
  | add => rfl
  | sub => rfl
  | mul => cases hop
  | div => cases hop

end Accumulator

/-! ## The tree of a chain -/

open Grammar

/-- An integer as an expression. -/
def Expr.ofInt32 (n : Int32) (l : Location) : Expr := literal (.int n) none l

/-- The tree of what has been seen of a chain, where `term` is that of its term. -/
def Accumulator.tree (s : Accumulator) (term : Expr) : Expr :=
  .binary (if s.negated then .sub else .add) (.ofInt32 s.sum .start) term none .start

namespace Grammar

variable {steps : List Step} {left left' : Expr}

/-- The value of operations depends on the value that they start from. -/
private theorem constant?_foldl_congr (h : left.constant? = left'.constant?) :
    (steps.foldl Step.apply left).constant? = (steps.foldl Step.apply left').constant? := by
  induction steps generalizing left left' with
  | nil => exact h
  | cons s steps ih =>
    apply ih
    -- the operand on the left counts with its value only
    rw [Step.apply, Step.apply, Expr.constant?_binary, Expr.constant?_binary, h]

private theorem constant?_foldl_of_none (h : left.constant? = none) :
    (steps.foldl Step.apply left).constant? = none := by
  induction steps generalizing left with
  | nil => exact h
  | cons s steps ih =>
    apply ih
    rw [Step.apply, Expr.constant?_binary, h, Option.bind_none]

private theorem isArithmetic_foldl (hleft : left.IsArithmetic)
    (hsteps : ∀ s ∈ steps, s.right.IsArithmetic) : (steps.foldl Step.apply left).IsArithmetic := by
  induction steps generalizing left with
  | nil => exact hleft
  | cons s steps ih =>
    obtain ⟨hs, hsteps⟩ := List.forall_mem_cons.1 hsteps
    exact ih ⟨hleft, hs⟩ hsteps

end Grammar

namespace Accumulator

private theorem constant?_tree_congr (s : Accumulator) {term term' : Expr}
    (h : term.constant? = term'.constant?) :
    (s.tree term).constant? = (s.tree term').constant? := by
  rw [tree, tree, Expr.constant?_binary, Expr.constant?_binary, h]

private theorem constant?_tree_of_none (s : Accumulator) {term : Expr} (h : term.constant? = none) :
    (s.tree term).constant? = none := by
  rw [tree, Expr.constant?_binary, h]
  rfl

/-- The tree has the value that has been found. -/
private theorem constant?_tree (s : Accumulator) (l : Location) :
    (s.tree (.ofInt32 s.term l)).constant? = some (.int s.total) := by
  have hvalue (op : Operator) : (Expr.binary op (.ofInt32 s.sum .start) (.ofInt32 s.term l) none
      .start).constant? = (op.onInts s.sum s.term).map .int := by
    rw [Operator.onInts_eq_wrapping?]
    rfl
  rw [tree, hvalue, total]
  cases s.negated <;> rfl

end Accumulator

/-- The operations of a chain behind its first integer: those of the first term and then those of
the expression. From any accumulator on, they come to what the operators and integers `rest` do. -/
structure Chain.Continues (rest : List (Operator × Int32)) (ls more : List Lexeme)
    (tight loose : List Step) : Prop where
  tight_steps : Repeated (IsStep true IsValue) ls tight
  loose_steps : Repeated (IsStep false IsTerm) more loose
  arithmetic : ∀ s ∈ tight ++ loose, s.right.IsArithmetic
  constant?_eq : ∀ (s : Accumulator) (l : Location),
    (loose.foldl Step.apply (s.tree (tight.foldl Step.apply (.ofInt32 s.term l)))).constant? =
      (rest.foldlM Accumulator.step s).map fun s => .int s.total

namespace Chain.Continues

variable {rest : List (Operator × Int32)} {ls more : List Lexeme} {tight loose : List Step}
  {o v : Lexeme} {op : Operator} {n : Int32}

private theorem nil : Continues [] [] [] [] [] where
  tight_steps := .nil
  loose_steps := .nil
  arithmetic := nofun
  constant?_eq s l := s.constant?_tree l

private theorem isValue_of_kind (hv : v.kind = .number (.int n)) :
    IsValue [v] (.ofInt32 n v.location) :=
  .number hv

/-- A tight operator in front of the others belongs to the first term. -/
private theorem cons_tight (h : Continues rest ls more tight loose) (ho : o.kind = .operator op)
    (hop : op.bindsTight = true) (hv : v.kind = .number (.int n)) (hn : 0 ≤ n) :
    Continues ((op, n) :: rest) (o :: v :: ls) more
      (⟨op, o.location, .ofInt32 n v.location⟩ :: tight) loose where
  tight_steps := .cons (.mk ho hop (isValue_of_kind hv)) h.tight_steps
  loose_steps := h.loose_steps
  arithmetic := List.forall_mem_cons.2 ⟨rfl, h.arithmetic⟩
  constant?_eq s l := by
    have hoperation : (Step.apply (.ofInt32 s.term l)
        ⟨op, o.location, .ofInt32 n v.location⟩).constant? = (op.onInts s.term n).map .int := by
      rw [Operator.onInts_eq_wrapping?]
      rfl
    rw [List.foldlM_cons, Accumulator.step_of_tight hop hn, List.foldl_cons]
    cases hterm : op.onInts s.term n with
    | none =>
      rw [hterm] at hoperation
      -- what divides by zero has no value, and neither has what is built on it
      exact constant?_foldl_of_none (s.constant?_tree_of_none (constant?_foldl_of_none hoperation))
    | some term =>
      -- the operation has the value of the new term
      rw [hterm] at hoperation
      have hterm : (Expr.ofInt32 term l).constant? = some (.int term) := rfl
      refine Eq.trans (constant?_foldl_congr (s.constant?_tree_congr ?_))
        (h.constant?_eq { s with term } l)
      exact constant?_foldl_congr (hoperation.trans hterm.symm)

/-- A loose operator in front of the others closes the first term, and another one begins. -/
private theorem cons_loose (h : Continues rest ls more tight loose) (ho : o.kind = .operator op)
    (hop : op.bindsTight = false) (hv : v.kind = .number (.int n)) :
    Continues ((op, n) :: rest) [] (o :: v :: ls ++ more) []
      (⟨op, o.location, tight.foldl Step.apply (.ofInt32 n v.location)⟩ :: loose) where
  tight_steps := .nil
  loose_steps := .cons (.mk ho hop (.mk (isValue_of_kind hv) h.tight_steps)) h.loose_steps
  arithmetic := by
    obtain ⟨htight, hloose⟩ := List.forall_mem_append.1 h.arithmetic
    exact List.forall_mem_cons.2 ⟨isArithmetic_foldl rfl htight, hloose⟩
  constant?_eq s l := by
    -- a loose operator is one of two, and the sign of the accumulator keeps which
    have hsign : (if decide (op = .sub) = true then Operator.sub else .add) = op := by
      cases op with
      | add => rfl
      | sub => rfl
      | mul => cases hop
      | div => cases hop
    have hnext (term : Expr) : Accumulator.tree ⟨s.total, op = .sub, n⟩ term =
        .binary op (.ofInt32 s.total .start) term none .start := by
      rw [Accumulator.tree, hsign]
    rw [List.foldlM_cons, Accumulator.step_of_loose hop, List.foldl_cons, List.foldl_nil]
    -- the operation on what has been found is the tree of the next accumulator
    refine Eq.trans (constant?_foldl_congr ?_) (h.constant?_eq ⟨s.total, op = .sub, n⟩ v.location)
    rw [Step.apply, hnext, Expr.constant?_binary, Expr.constant?_binary, s.constant?_tree l]
    rfl

end Chain.Continues

namespace Chain

/-- Lexemes of operators and integers go on with an expression. -/
private theorem exists_continues {rest : List (Operator × Int32)} (hrest : ∀ x ∈ rest, 0 ≤ x.2)
    {ls : List Lexeme} (hls : ls.map Lexeme.kind = operationKinds rest) :
    ∃ us more tight loose, ls = us ++ more ∧ Continues rest us more tight loose := by
  induction rest generalizing ls with
  | nil =>
    obtain rfl := List.map_eq_nil_iff.1 hls
    exact ⟨[], [], [], [], rfl, .nil⟩
  | cons x rest ih =>
    obtain ⟨op, n⟩ := x
    obtain ⟨hn, hrest⟩ := List.forall_mem_cons.1 hrest
    obtain ⟨o, ls, rfl, ho, hls⟩ := List.map_eq_cons_iff.1 hls
    obtain ⟨v, ls, rfl, hv, hls⟩ := List.map_eq_cons_iff.1 hls
    obtain ⟨us, more, tight, loose, rfl, h⟩ := ih hrest hls
    -- it is the first operator that tells which of the two lists its step is put into
    cases hop : op.bindsTight with
    | true => exact ⟨_, _, _, _, rfl, h.cons_tight ho hop hv hn⟩
    | false => exact ⟨_, _, _, _, rfl, h.cons_loose ho hop hv⟩

/-- The lexemes of a chain derive an expression of integers and operations, and the value of that is
the value of the chain. -/
theorem exists_isExpression {chain : Chain} (hrest : ∀ x ∈ chain.rest, 0 ≤ x.2) {ls : List Lexeme}
    (hls : ls.map Lexeme.kind = chain.kinds) :
    ∃ e, IsExpression ls e ∧ e.IsArithmetic ∧ e.constant? = chain.evaluate.map .int := by
  obtain ⟨v, ls, rfl, hv, hls⟩ := List.map_eq_cons_iff.1 hls
  obtain ⟨us, more, tight, loose, rfl, h⟩ := exists_continues hrest hls
  obtain ⟨htight, hloose⟩ := List.forall_mem_append.1 h.arithmetic
  have hterm : (tight.foldl Step.apply (.ofInt32 chain.first v.location)).IsArithmetic :=
    isArithmetic_foldl rfl htight
  refine ⟨loose.foldl Step.apply (tight.foldl Step.apply (.ofInt32 chain.first v.location)), ?_,
    isArithmetic_foldl hterm hloose, ?_⟩
  · exact .mk (.mk (Continues.isValue_of_kind hv) h.tight_steps) h.loose_steps
  · rw [evaluate, Option.map_map]
    refine Eq.trans (constant?_foldl_congr ?_) (h.constant?_eq ⟨0, false, chain.first⟩ v.location)
    -- the first term is added to a sum of zero
    rw [Accumulator.tree, Expr.constant?_binary]
    -- where the first term divides by zero both sides are without a value
    cases hvalue : (tight.foldl Step.apply (.ofInt32 chain.first v.location)).constant? with
    | none => rfl
    | some value =>
      cases value with
      -- integers and operations have no value that is a float
      | float b => cases hterm.ty_of_constant? hvalue
      | int a =>
        have hzero : Operator.add.onValues? (.int 0) (.int a) = some (.int a) := by
          simp [Operator.onValues?, ← Operator.onInts_eq_wrapping?, Operator.onInts]
        exact hzero.symm

end Chain

/-! ## Compiling a chain -/

private theorem map_kind_lexemesOf (read : List Char) (ps : List Piece) :
    (lexemesOf read ps).map Lexeme.kind = ps.map Piece.kind := by
  induction ps generalizing read with
  | nil => rfl
  | cons p ps ih => rw [lexemesOf, List.map_cons, List.map_cons, ih, Piece.lexeme]

/-- What spells integers spells none that is negative. -/
private theorem Chain.nonneg_of_spells {chain : Chain} {ps : List Piece}
    (hps : ∀ p ∈ ps, Spells p.text p.kind) (hkinds : ps.map Piece.kind = chain.kinds) :
    ∀ x ∈ chain.rest, 0 ≤ x.2 := by
  intro x hx
  have hmem : Kind.number (.int x.2) ∈ ps.map Piece.kind := by
    rw [hkinds, Chain.kinds, Chain.operationKinds]
    refine List.mem_cons_of_mem _ (List.mem_flatMap.2 ⟨x, hx, ?_⟩)
    exact List.mem_cons_of_mem _ List.mem_cons_self
  obtain ⟨p, hp, hk⟩ := List.mem_map.1 hmem
  have hspells := hps p hp
  rw [hk] at hspells
  generalize p.text = text at hspells
  cases hspells with
  | int hrun hrange hvalue =>
    -- digits spell a natural number, as a minus is a lexeme by itself
    rw [Int32.le_iff_toInt_le, hvalue]
    exact Int.natCast_nonneg _

/-- There is room for one name in every table. -/
private theorem SymbolTable.diagnostics_build_singleton (capacity : Nat) (d : Declaration) :
    Journal.diagnostics (build capacity [d]).2 = [] := by
  -- a table has at least one slot, whatever capacity is asked for
  have hroom : 0 ≠ max capacity 1 := by omega
  rw [(keeps_build capacity [d]).1]
  simp [Registry.declareAll, Registry.insert, Registry.empty, Registry.names, hroom]

/-- A program that declares an integer variable and assigns integers and operations to it is without
faults, and the value is left as it is folded. -/
private theorem Program.compile_arithmetic (settings : Settings) (name : String) {value : Expr}
    (h : value.IsArithmetic) (place place' : Location) :
    ∃ t, let c := (compile settings
        ⟨[⟨.int, name, place⟩], [.assign name value none place']⟩).1
      c.diagnostics = [] ∧
        c.program.statements = [.assign name (value.check t).1 (some .int) place'] ∧
        c.code = (value.check t).1.code settings.coercionScale ++
          [.store name, .directive .wholeScale] := by
  let d : Declaration := ⟨.int, name, place⟩
  have htable := SymbolTable.diagnostics_build_singleton settings.symbolCapacity d
  refine ⟨(SymbolTable.build settings.symbolCapacity [d]).1, ?_⟩
  have htarget : (SymbolTable.build settings.symbolCapacity [d]).1.get? name = some .int :=
    (SymbolTable.get?_build_eq_some_iff htable).2 ⟨d, List.mem_singleton_self d, rfl, rfl⟩
  -- the target is an integer and so is the value, which is neither coerced nor narrowed
  obtain ⟨hstatement, hclean⟩ := Statement.check_assign_of_isArithmetic htarget h none place'
  intro c
  have hdiagnostics : c.diagnostics =
      Journal.diagnostics ((SymbolTable.build settings.symbolCapacity [d]).2 ++
        (Statement.checkAll (SymbolTable.build settings.symbolCapacity [d]).1
          [.assign name value none place']).2) := rfl
  have hstatements : c.program.statements = [.assign name _ (some .int) place'] :=
    congrArg (fun s => [s]) hstatement
  have hcode : c.code = Statement.codeAll settings.coercionScale c.program.statements := rfl
  refine ⟨?_, hstatements, ?_⟩
  · rw [hdiagnostics, Journal.diagnostics_append, htable, Statement.diagnostics_checkAll]
    simp [hclean]
  · rw [hcode, hstatements, Statement.codeAll, List.flatMap_singleton, Statement.code]

/-- No name is in a chain. -/
private theorem Chain.identifier_notMem_kinds (chain : Chain) : .identifier ∉ chain.kinds := by
  simp [Chain.kinds, Chain.operationKinds]

/-- Lexemes that assign an expression to a declared integer variable derive that program. -/
private theorem Grammar.isProgram_assign {keyword name target sign : Lexeme} {ls : List Lexeme}
    {e : Expr} (hkeyword : keyword.kind = .intKeyword) (hname : name.kind = .identifier)
    (htarget : target.kind = .identifier) (hsign : sign.kind = .assign) (he : IsExpression ls e) :
    IsProgram (keyword :: name :: target :: sign :: ls)
      ⟨[⟨.int, name.text, keyword.location⟩], [.assign target.text e none target.location]⟩ := by
  have hdeclarations := Repeated.cons (IsDeclaration.int hkeyword hname) .nil
  have hstatements := Repeated.cons (IsStatement.assign htarget hsign he) .nil
  rw [List.append_nil] at hdeclarations hstatements
  exact .mk hdeclarations hstatements

/-- A source that assigns a chain to a declared integer variable is read as that program, and the
value of what is assigned is the value of the chain. -/
private theorem Chain.exists_program {source : String} {chain : Chain}
    {keyword name target sign : Piece} {ps : List Piece} {behind : List Char}
    (hsplit : IsSplit source.toList (keyword :: name :: target :: sign :: ps) behind [])
    (hkeyword : keyword.kind = .intKeyword) (hname : name.kind = .identifier)
    (htarget : target.kind = .identifier) (hsign : sign.kind = .assign)
    (hsame : target.text = name.text) (hlength : name.text.length ≤ maxNameLength)
    (hchain : ps.map Piece.kind = chain.kinds) :
    ∃ e place place' c, e.IsArithmetic ∧ e.constant? = chain.evaluate.map .int ∧
      Parse.program (.ofString source) =
        .ok ⟨[⟨.int, String.ofList name.text, place⟩],
          [.assign (String.ofList name.text) e none place']⟩ c := by
  have htokens := Reader.tokenize_of_isSplit [] hsplit
  simp only [lexemesOf] at htokens
  -- where the lexemes stand does not matter, so what is read before them is left open
  generalize [] ++ keyword.chars ++ name.chars ++ target.chars ++ sign.chars = read at htokens
  have hkinds : (lexemesOf read ps).map Lexeme.kind = chain.kinds := by
    rw [map_kind_lexemesOf, hchain]
  have hspells : ∀ p ∈ ps, Spells p.text p.kind := by
    intro p hp
    exact hsplit.spells p (by simp [hp])
  obtain ⟨e, he, harithmetic, hvalue⟩ :=
    exists_isExpression (nonneg_of_spells hspells hchain) hkinds
  have hnames : NamesFit (lexemesOf read ps) := by
    intro l hl hk
    have hmem := List.mem_map_of_mem (f := Lexeme.kind) hl
    rw [hkinds, hk] at hmem
    exact absurd hmem chain.identifier_notMem_kinds
  obtain ⟨c, hparse⟩ := Parse.program_accepts htokens
    (by simp [namesFit_cons, hnames, hkeyword, hsign, hsame, hlength, Piece.lexeme])
    (isProgram_assign hkeyword hname htarget hsign he)
  simp only [Piece.lexeme, hsame] at hparse
  exact ⟨e, _, _, c, harithmetic, hvalue, hparse⟩

/-- A chain of integers, spelled with any white space, is assigned to an integer variable. The
source is compiled without a fault. If the chain has a value, the code is that value, the store and
the return to whole numbers; else what is assigned is no number, and the code divides. -/
theorem compile_chain (settings : Settings) {source : String} {chain : Chain}
    {w₁ w₂ w₃ w₄ behind : List Char} {ps : List Piece}
    (hsplit : IsSplit source.toList
      (⟨w₁, ['i'], .intKeyword⟩ :: ⟨w₂, ['a'], .identifier⟩ :: ⟨w₃, ['a'], .identifier⟩ ::
        ⟨w₄, ['='], .assign⟩ :: ps) behind [])
    (hchain : ps.map Piece.kind = chain.kinds) :
    ∃ c, (compile settings source).1 = .ok c ∧ c.diagnostics = [] ∧
      match chain.evaluate with
      | some v => c.output = toString v.toInt ++ "\nsa\n0 k\n"
      | none => ∃ e ty place, c.program.statements = [.assign "a" e ty place] ∧
          e.literal? = none ∧ .operation .div ∈ c.code := by
  obtain ⟨e, place, place', c, harithmetic, hvalue, hparse⟩ :=
    Chain.exists_program hsplit rfl rfl rfl rfl rfl (by simp [maxNameLength]) hchain
  obtain ⟨t, hclean, hstatements, hcode⟩ :=
    Program.compile_arithmetic settings "a" harithmetic place place'
  refine ⟨_, compile_eq_ok_iff.2 ⟨_, c, hparse, rfl⟩, hclean, ?_⟩
  -- the value of the chain tells whether what is assigned is a number
  have hliteral := Expr.literal?_check harithmetic.isPlain t
  rw [hvalue] at hliteral
  cases heval : chain.evaluate with
  | some v =>
    rw [heval] at hliteral
    obtain ⟨ty, l, hfolded⟩ := Expr.eq_literal_of_literal? hliteral
    rw [hfolded] at hcode
    calc render _
        = render [.pushInt v, .store "a", .directive .wholeScale] := congrArg render hcode
      _ = toString v.toInt ++ ("\n" ++ render [.store "a", .directive .wholeScale]) := by
          rw [render_cons, String.append_assoc, Instruction.text]
      _ = toString v.toInt ++ "\nsa\n0 k\n" := rfl
  | none =>
    -- without a value the folded tree still divides, and so does its code
    rw [heval] at hvalue hliteral
    refine ⟨_, _, _, hstatements, hliteral, ?_⟩
    rw [hcode]
    exact List.mem_append_left _
      (Expr.div_mem_code_check harithmetic.isPlain harithmetic.names_eq_nil hvalue t)

/-- There is a tab, no white space or a line feed, and a number starts with a zero. -/
theorem compile_chain_of_difference :
    ∃ c, (compile {} "i a\ta=7 -3*02\n").1 = .ok c ∧ c.diagnostics = [] ∧
      c.output = "1\nsa\n0 k\n" := by
  let ps : List Piece :=
    [⟨[], ['7'], .number (.int 7)⟩, ⟨[' '], ['-'], .operator .sub⟩, ⟨[], ['3'], .number (.int 3)⟩,
      ⟨[], ['*'], .operator .mul⟩, ⟨[], ['0', '2'], .number (.int 2)⟩]
  have hseven : Spells ['7'] (.number (.int 7)) :=
    .int ⟨by decide, by simp, by decide⟩ (by decide) (by decide)
  have hthree : Spells ['3'] (.number (.int 3)) :=
    .int ⟨by decide, by simp, by decide⟩ (by decide) (by decide)
  have htwo : Spells ['0', '2'] (.number (.int 2)) :=
    .int ⟨by decide, by simp, by decide⟩ (by decide) (by decide)
  have hname : Spells ['a'] .identifier :=
    .name ⟨by decide, by simp, by decide⟩ (by decide)
  have hsplit : IsSplit "i a\ta=7 -3*02\n".toList
      (⟨[], ['i'], .intKeyword⟩ :: ⟨[' '], ['a'], .identifier⟩ :: ⟨['\t'], ['a'], .identifier⟩ ::
        ⟨[], ['='], .assign⟩ :: ps) ['\n'] [] := by
    refine ⟨by decide, by simp [ps, isBlank], ?_, by decide, by simp [isBlank], by decide⟩
    simp [ps, Spells.intKeyword, hname, Spells.assign, hseven, Spells.sub, hthree, Spells.mul, htwo]
  have hchain : ps.map Piece.kind = Chain.kinds ⟨7, [(.sub, 3), (.mul, 2)]⟩ := rfl
  obtain ⟨c, hcompile, hclean, houtput⟩ := compile_chain {} hsplit hchain
  exact ⟨c, hcompile, hclean, houtput⟩

end DeskCalc
