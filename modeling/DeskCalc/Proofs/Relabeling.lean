import Mathlib.Data.List.Find
import DeskCalc.Proofs.Names
import DeskCalc.Proofs.Registry

/-!
# Names and places are labels

A program in which the names are replaced by others, different ones by different ones, is compiled as
before, with the names replaced in all that is said of it and done with it. The hashes of the new
names are others, and so are the slots of the symbol table that they lead to; but a table answers as
a registry does, which only asks whether two names are the same. For the places of a program it is
not even asked whether they are the same.

Names and places are replaced together here, since they are handed on in the same way.

Main statements: `Program.compile_relabel` and `names_are_labels`.
-/

namespace DeskCalc

/-- What to put for the names and the places of a program. -/
structure Relabeling where
  name : String → String
  place : Location → Location

/-- Other names at the same places. -/
def Relabeling.ofNames (name : String → String) : Relabeling := ⟨name, id⟩

/-! ## Relabeled programs -/

variable (ρ : Relabeling)

def Expr.relabel : Expr → Expr
  | identifier name ty l => identifier (ρ.name name) ty (ρ.place l)
  | literal v ty l => literal v ty (ρ.place l)
  | binary op left right ty l => binary op left.relabel right.relabel ty (ρ.place l)
  | coercion inner ty l => coercion inner.relabel ty (ρ.place l)

def Statement.relabel : Statement → Statement
  | print name l => print (ρ.name name) (ρ.place l)
  | assign target value ty l => assign (ρ.name target) (value.relabel ρ) ty (ρ.place l)

def Declaration.relabel (d : Declaration) : Declaration :=
  { d with name := ρ.name d.name, location := ρ.place d.location }

def Program.relabel (p : Program) : Program where
  declarations := p.declarations.map (Declaration.relabel ρ)
  statements := p.statements.map (Statement.relabel ρ)

def Diagnostic.relabel : Diagnostic → Diagnostic
  | duplicate name l => duplicate (ρ.name name) (ρ.place l)
  | undeclared name l => undeclared (ρ.name name) (ρ.place l)
  | narrowing target l => narrowing (ρ.name target) (ρ.place l)
  | tableFull name capacity l => tableFull (ρ.name name) capacity (ρ.place l)

def Instruction.relabel : Instruction → Instruction
  | load name => load (ρ.name name)
  | store name => store (ρ.name name)
  | i => i

def Compilation.relabel (c : Compilation) : Compilation where
  program := c.program.relabel ρ
  diagnostics := c.diagnostics.map (Diagnostic.relabel ρ)
  code := c.code.map (Instruction.relabel ρ)

/-- The names that a program declares or uses. -/
def Program.names (p : Program) : List String :=
  p.declarations.map Declaration.name ++ p.statements.flatMap Statement.names

/-! ## Expressions -/

namespace Expr

@[simp] theorem ty_relabel (e : Expr) : (e.relabel ρ).ty = e.ty := by
  cases e <;> rfl

@[simp] theorem location_relabel (e : Expr) : (e.relabel ρ).location = ρ.place e.location := by
  cases e <;> rfl

@[simp] theorem literal?_relabel (e : Expr) : (e.relabel ρ).literal? = e.literal? := by
  cases e <;> rfl

@[simp] theorem coercedInt?_relabel (e : Expr) : (e.relabel ρ).coercedInt? = e.coercedInt? := by
  cases e with
  | coercion inner ty l =>
    cases inner with
    | literal v ty l => cases v <;> rfl
    | _ => rfl
  | _ => rfl

/-- Coercing looks at the type only. -/
private theorem coerce_relabel (e : Expr) (target : Ty) :
    (e.relabel ρ).coerce target = ((e.coerce target).1.relabel ρ, (e.coerce target).2) := by
  unfold coerce
  rw [ty_relabel]
  split
  · rfl
  · -- the coercion stands at the place of what is coerced
    rw [coerced, location_relabel]
    rfl
  · rfl

/-- Folding looks at numbers only. -/
private theorem fold_relabel (op : Operator) (left right : Expr) (lc rc : Bool) :
    fold op (left.relabel ρ) (right.relabel ρ) lc rc = fold op left right lc rc := by
  simp only [fold, literal?_relabel, coercedInt?_relabel]

private theorem join_relabel (op : Operator) (left right : Expr) (l : Location) :
    (join op (left.relabel ρ) (right.relabel ρ) (ρ.place l)).1 =
      (join op left right l).1.relabel ρ := by
  unfold join
  simp only [ty_relabel, coerce_relabel, fold_relabel]
  split <;> rfl

private theorem occurrences_relabel (e : Expr) :
    (e.relabel ρ).occurrences = e.occurrences.map fun o => (ρ.name o.1, ρ.place o.2) := by
  induction e with
  | identifier name ty l => rfl
  | literal v ty l => rfl
  | binary op left right ty l ihl ihr =>
    rw [relabel, occurrences, ihl, ihr, occurrences, List.map_append]
  | coercion inner ty l ih => exact ih

variable {ρ}

/-- A checked expression is relabeled where the new names are found with the types of the old
ones. -/
private theorem check_relabel {t t' : SymbolTable} {e : Expr}
    (h : ∀ name ∈ e.names, t'.get? (ρ.name name) = t.get? name) :
    ((e.relabel ρ).check t').1 = (e.check t).1.relabel ρ := by
  induction e with
  | identifier name ty l =>
    have hname := h name (List.mem_singleton_self name)
    simp only [relabel, check, hname]
  | literal v ty l => rfl
  | binary op left right ty l ihl ihr =>
    have hleft := ihl fun name hn => h name (List.mem_append_left _ hn)
    have hright := ihr fun name hn => h name (List.mem_append_right _ hn)
    rw [relabel, check_binary, check_binary, hleft, hright, join_relabel]
  | coercion inner ty l ih => simp only [relabel, check, ih h]

private theorem undeclared_relabel {known known' : String → Option Ty} {e : Expr}
    (h : ∀ name ∈ e.names, known' (ρ.name name) = known name) :
    (e.relabel ρ).undeclared known' = (e.undeclared known).map (Diagnostic.relabel ρ) := by
  rw [undeclared, undeclared, occurrences_relabel, List.filter_map, List.map_map, List.map_map]
  -- the occurrences that are reported are the same ones, before they are renamed
  have hfilter : e.occurrences.filter
        ((fun o => known' o.1 = none) ∘ fun o => (ρ.name o.1, ρ.place o.2)) =
      e.occurrences.filter fun o => known o.1 = none := by
    apply List.filter_congr
    intro o ho
    have hname : o.1 ∈ e.names := by
      rw [names_eq_map]
      exact List.mem_map_of_mem ho
    simp only [Function.comp_apply, h o.1 hname]
  rw [hfilter]
  rfl

private theorem code_relabel (coercionScale : Bool) (e : Expr) :
    (e.relabel ρ).code coercionScale = (e.code coercionScale).map (Instruction.relabel ρ) := by
  induction e with
  | identifier name ty l => rfl
  | literal v ty l => cases v <;> rfl
  | binary op left right ty l ihl ihr =>
    rw [relabel, code, ihl, ihr, code, List.map_append, List.map_append]
    rfl
  | coercion inner ty l ih =>
    rw [relabel, code, ih, code, List.map_append]
    cases coercionScale <;> rfl

end Expr

/-! ## Statements -/

namespace Statement

variable {ρ} {t t' : SymbolTable} {s : Statement}

theorem check_relabel (h : ∀ name ∈ s.names, t'.get? (ρ.name name) = t.get? name) :
    ((s.relabel ρ).check t').1 = (s.check t).1.relabel ρ := by
  cases s with
  | print name l => rfl
  | assign target value ty l =>
    have htarget := h target List.mem_cons_self
    have hvalue := Expr.check_relabel fun name hn => h name (List.mem_cons_of_mem _ hn)
    -- an undeclared target is left without a type under either name
    cases hfound : t.get? target with
    | none =>
      rw [hfound] at htarget
      rw [relabel, fst_check_assign_of_none htarget, fst_check_assign_of_none hfound, hvalue]
      rfl
    | some declared =>
      rw [hfound] at htarget
      rw [relabel, fst_check_assign htarget, fst_check_assign hfound, hvalue, Expr.coerce_relabel]
      rfl

theorem diagnostics_check_relabel (h : ∀ name ∈ s.names, t'.get? (ρ.name name) = t.get? name) :
    Journal.diagnostics ((s.relabel ρ).check t').2 =
      (Journal.diagnostics (s.check t).2).map (Diagnostic.relabel ρ) := by
  cases s with
  | print name l =>
    rw [relabel, diagnostics_check_print, diagnostics_check_print,
      h name (List.mem_singleton_self name)]
    split <;> rfl
  | assign target value ty l =>
    have htarget := h target List.mem_cons_self
    have hnames : ∀ name ∈ value.names, t'.get? (ρ.name name) = t.get? name :=
      fun name hn => h name (List.mem_cons_of_mem _ hn)
    rw [relabel, diagnostics_check_assign, diagnostics_check_assign, List.map_append,
      Expr.undeclared_relabel hnames, htarget]
    -- the reports of the names in the value agree, which leaves the narrowing
    apply congrArg
    cases t.get? target with
    | none => rfl
    | some declared =>
      dsimp only
      rw [Expr.check_relabel hnames, Expr.coerce_relabel]
      split <;> rfl

private theorem code_relabel (coercionScale : Bool) (s : Statement) :
    (s.relabel ρ).code coercionScale = (s.code coercionScale).map (Instruction.relabel ρ) := by
  cases s with
  | print name l => rfl
  | assign target value ty l =>
    rw [relabel, code, Expr.code_relabel, code, List.map_append]
    rfl

theorem codeAll_relabel (coercionScale : Bool) (ss : List Statement) :
    codeAll coercionScale (ss.map (relabel ρ)) =
      (codeAll coercionScale ss).map (Instruction.relabel ρ) := by
  simp only [codeAll, List.flatMap_map, List.map_flatMap, code_relabel]

end Statement

/-! ## Declarations -/

namespace Registry

/-- The registry under other names. -/
def relabel (r : Registry) : Registry :=
  { r with accepted := r.accepted.map fun s => ⟨ρ.name s.name, s.ty⟩ }

@[simp] theorem names_relabel (r : Registry) : (r.relabel ρ).names = r.names.map ρ.name := by
  simp [names, relabel]

variable {ρ} {ns : Set String} {r : Registry}

/-- A name is among others exactly if its new name is among theirs. -/
private theorem mem_names_relabel_iff (hρ : ns.InjOn ρ.name) (hr : ∀ n ∈ r.names, n ∈ ns)
    {name : String} (hname : name ∈ ns) : ρ.name name ∈ (r.relabel ρ).names ↔ name ∈ r.names := by
  rw [names_relabel, List.mem_map]
  constructor
  · rintro ⟨n, hn, heq⟩
    -- two names with the same new name are the same
    rwa [← hρ (hr n hn) hname heq]
  · intro hn
    exact ⟨name, hn, rfl⟩

private theorem get?_relabel (hρ : ns.InjOn ρ.name) (hr : ∀ n ∈ r.names, n ∈ ns) {name : String}
    (hname : name ∈ ns) : (r.relabel ρ).get? (ρ.name name) = r.get? name := by
  -- the search for a new name stops where that for the old one does
  have hsame : r.accepted.find? (fun s => ρ.name s.name = ρ.name name) =
      r.accepted.find? fun s => s.name = name := by
    apply List.find?_congr
    intro s hs
    have hmem : s.name ∈ ns := hr _ (List.mem_map_of_mem hs)
    simp only [hρ.eq_iff hmem hname]
  simp only [get?, relabel, List.find?_map, Option.map_map]
  rw [← hsame]
  rfl

/-- A declaration is refused under the new names with the same fault, or accepted as before. -/
private theorem insert_relabel (hρ : ns.InjOn ρ.name) (hr : ∀ n ∈ r.names, n ∈ ns) {name : String}
    (hname : name ∈ ns) (ty : Ty) (l : Location) :
    (r.relabel ρ).insert (ρ.name name) ty (ρ.place l) =
      match r.insert name ty l with
      | .ok r' => .ok (r'.relabel ρ)
      | .error d => .error (d.relabel ρ) := by
  unfold insert
  simp only [mem_names_relabel_iff hρ hr hname]
  -- a duplicate is refused before the capacity is looked at, so it comes first here too
  by_cases hmem : name ∈ r.names
  · simp only [if_pos hmem]
    rfl
  · simp only [if_neg hmem]
    by_cases hfull : r.accepted.length = r.capacity
    · simp [relabel, hfull, Diagnostic.relabel]
    · simp [relabel, hfull]

private theorem names_insert {r' : Registry} {name : String} {ty : Ty} {l : Location}
    (h : r.insert name ty l = .ok r') : r'.names = r.names ++ [name] := by
  unfold insert at h
  split at h
  · cases h
  · split at h
    · cases h
    · cases h
      simp [names]

private theorem declareAll_relabel (hρ : ns.InjOn ρ.name) (hr : ∀ n ∈ r.names, n ∈ ns)
    {ds : List Declaration} (hds : ∀ d ∈ ds, d.name ∈ ns) :
    (r.relabel ρ).declareAll (ds.map (Declaration.relabel ρ)) =
        ((r.declareAll ds).1.relabel ρ, (r.declareAll ds).2.map (Diagnostic.relabel ρ)) ∧
      ∀ n ∈ (r.declareAll ds).1.names, n ∈ ns := by
  induction ds generalizing r with
  | nil => exact ⟨rfl, hr⟩
  | cons d ds ih =>
    obtain ⟨hd, hds⟩ := List.forall_mem_cons.1 hds
    have hinsert : (r.relabel ρ).insert (d.relabel ρ).name (d.relabel ρ).ty
        (d.relabel ρ).location = _ := insert_relabel hρ hr hd d.ty d.location
    rw [List.map_cons, declareAll, declareAll, hinsert]
    cases haccept : r.insert d.name d.ty d.location with
    | ok r' =>
      -- the name is accepted, and it is one of those to be told apart
      have hr' : ∀ n ∈ r'.names, n ∈ ns := by
        rw [names_insert haccept]
        exact List.forall_mem_append.2 ⟨hr, List.forall_mem_singleton.2 hd⟩
      exact ih hr' hds
    | error fault =>
      -- a refusal leaves the registry as it is, and its report is renamed
      obtain ⟨hrest, hmem⟩ := ih hr hds
      simp only [hrest]
      exact ⟨rfl, hmem⟩

end Registry

/-- A table of declarations under new names finds these with the types of the old ones, and the same
declarations are refused. -/
private theorem SymbolTable.build_relabel {ρ : Relabeling} {ns : Set String} (hρ : ns.InjOn ρ.name)
    {ds : List Declaration} (hds : ∀ d ∈ ds, d.name ∈ ns) (capacity : Nat) :
    Journal.diagnostics (build capacity (ds.map (Declaration.relabel ρ))).2 =
        (Journal.diagnostics (build capacity ds).2).map (Diagnostic.relabel ρ) ∧
      ∀ name ∈ ns, (build capacity (ds.map (Declaration.relabel ρ))).1.get? (ρ.name name) =
        (build capacity ds).1.get? name := by
  obtain ⟨hfaults, hkeeps⟩ := keeps_build capacity ds
  obtain ⟨hfaults', hkeeps'⟩ := keeps_build capacity (ds.map (Declaration.relabel ρ))
  -- both tables answer as registries, and these are told apart by the names only
  obtain ⟨hall, hmem⟩ := Registry.declareAll_relabel (r := .empty capacity) hρ (by nofun) hds
  have hempty : (Registry.empty capacity).relabel ρ = .empty capacity := rfl
  rw [hempty] at hall
  refine ⟨?_, ?_⟩
  · rw [hfaults, hfaults', hall]
  · intro name hname
    rw [hkeeps.get?_eq, hkeeps'.get?_eq, hall]
    exact Registry.get?_relabel hρ hmem hname

/-! ## Programs -/

namespace Program

/-- What compiling makes of a program, statement by statement. -/
private theorem fst_compile {settings : Settings} {p : Program} {t : SymbolTable} {log : Journal}
    (h : SymbolTable.build settings.symbolCapacity p.declarations = (t, log)) :
    (p.compile settings).1 =
      { program := { p with statements := p.statements.map fun s => (s.check t).1 }
        diagnostics := Journal.diagnostics log ++
          p.statements.flatMap fun s => Journal.diagnostics (s.check t).2
        code := Statement.codeAll settings.coercionScale
          (p.statements.map fun s => (s.check t).1) } := by
  rw [← Statement.fst_checkAll, ← Statement.diagnostics_checkAll, ← Journal.diagnostics_append]
  simp only [compile, check, h]

variable {ρ}

/-- Compiling a relabeled program is compiling the program and relabeling what comes of it, as long
as different names get different ones. -/
theorem compile_relabel (settings : Settings) {p : Program}
    (hρ : Set.InjOn ρ.name {name | name ∈ p.names}) :
    ((p.relabel ρ).compile settings).1 = (p.compile settings).1.relabel ρ := by
  -- the names of a program are those that have to be told apart
  have hdeclared : ∀ d ∈ p.declarations, d.name ∈ {name | name ∈ p.names} := fun d hd =>
    List.mem_append_left _ (List.mem_map_of_mem hd)
  have hused : ∀ s ∈ p.statements, ∀ name ∈ s.names, name ∈ {name | name ∈ p.names} :=
    fun s hs name hname => List.mem_append_right _ (List.mem_flatMap.2 ⟨s, hs, hname⟩)
  obtain ⟨hfaults, hfound⟩ := SymbolTable.build_relabel hρ hdeclared settings.symbolCapacity
  rcases hbuild : SymbolTable.build settings.symbolCapacity p.declarations with ⟨t, log⟩
  rcases hbuild' : SymbolTable.build settings.symbolCapacity
    (p.declarations.map (Declaration.relabel ρ)) with ⟨t', log'⟩
  rw [hbuild, hbuild'] at hfaults hfound
  -- each statement is checked against a table that gives its names the same types
  have hstatements : (p.relabel ρ).statements.map (fun s => (s.check t').1) =
      (p.statements.map fun s => (s.check t).1).map (Statement.relabel ρ) := by
    simp only [relabel, List.map_map]
    apply List.map_congr_left
    intro s hs
    exact Statement.check_relabel fun name hname => hfound name (hused s hs name hname)
  have hreports : ((p.relabel ρ).statements.flatMap fun s => Journal.diagnostics (s.check t').2) =
      (p.statements.flatMap fun s => Journal.diagnostics (s.check t).2).map
        (Diagnostic.relabel ρ) := by
    simp only [relabel, List.flatMap_map, List.map_flatMap]
    apply List.flatMap_congr
    intro s hs
    exact Statement.diagnostics_check_relabel fun name hname =>
      hfound name (hused s hs name hname)
  rw [fst_compile hbuild, fst_compile (p := p.relabel ρ) hbuild', hstatements, hreports, hfaults,
    Statement.codeAll_relabel]
  simp only [Compilation.relabel, List.map_append, relabel]

end Program

/-- A program in which the names are replaced, different ones by different ones, is compiled to the
same program, diagnostics and code with the names replaced, however many slots the symbol table has.
What is done with names that are not in the program does not matter. -/
theorem names_are_labels (settings : Settings) (p : Program) (name : String → String)
    (h : Set.InjOn name {n | n ∈ p.names}) :
    let compiled := (p.compile settings).1
    let renamed := ((p.relabel (.ofNames name)).compile settings).1
    renamed.program = compiled.program.relabel (.ofNames name) ∧
      renamed.diagnostics = compiled.diagnostics.map (Diagnostic.relabel (.ofNames name)) ∧
      renamed.code = compiled.code.map (Instruction.relabel (.ofNames name)) := by
  intro compiled renamed
  have hall : renamed = compiled.relabel (.ofNames name) := Program.compile_relabel settings h
  rw [hall]
  exact ⟨rfl, rfl, rfl⟩

/-- In a table of one slot the second name finds no room, and the first one is declared twice; the
names change places, and each fault is told of the other name. -/
theorem names_are_labels_of_full_table :
    let settings : Settings := { symbolCapacity := 1 }
    let product : Expr := .binary .mul (.identifier "b" none ⟨2, 5⟩)
      (.literal (.int 2) none ⟨2, 9⟩) none ⟨2, 7⟩
    let p : Program :=
      { declarations :=
          [⟨.float, "a", ⟨1, 1⟩⟩, ⟨.int, "b", ⟨1, 5⟩⟩, ⟨.int, "a", ⟨1, 9⟩⟩]
        statements := [.assign "a" product none ⟨2, 1⟩, .print "b" ⟨3, 1⟩] }
    let swap : String → String := fun n => if n = "a" then "b" else "a"
    let renamed := ((p.relabel (.ofNames swap)).compile settings).1
    Set.InjOn swap {n | n ∈ p.names} ∧
      renamed.diagnostics = [.tableFull "a" 1 ⟨1, 5⟩, .duplicate "b" ⟨1, 9⟩,
        .undeclared "a" ⟨2, 5⟩, .undeclared "a" ⟨3, 1⟩] ∧
      renamed.code = [.load "a", .pushInt 2, .operation .mul, .directive .fractionScale,
        .store "b", .directive .wholeScale, .load "a", .print] := by
  intro settings product p swap renamed
  have hnames : p.names = ["a", "b", "a", "a", "b", "b"] := rfl
  have hswap : Set.InjOn swap {n | n ∈ p.names} := by
    intro x hx y hy hxy
    simp only [hnames, List.mem_cons, List.not_mem_nil, or_false, Set.mem_ofPred_eq] at hx hy
    grind
  obtain ⟨_, hdiagnostics, hcode⟩ := names_are_labels settings p swap hswap
  refine ⟨hswap, hdiagnostics.trans ?_, hcode.trans ?_⟩
  · decide +kernel
  · decide +kernel

end DeskCalc
