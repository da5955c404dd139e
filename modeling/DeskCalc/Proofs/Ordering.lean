import Mathlib.Data.List.Nodup
import DeskCalc.Compilation
import DeskCalc.Proofs.Registry

/-!
# Only the names accepted matter

What becomes of the statements of a program depends on the names that its declarations are accepted
with, and on nothing else of the declarations: not on their order, their places or the ones refused,
and not on the number of slots beyond the room that it gives. Two symbol tables may be laid out in
quite different ways, since the order of insertions and the number of slots decide where each name
comes to stand; but both answer as a registry of the names accepted does, and the statements are
checked by such answers only.

Main statement: `compile_reordered`.
-/

namespace DeskCalc

/-! ## The names that are accepted -/

/-- The name and the type that a declaration declares, wherever it stands. -/
def Declaration.symbol (d : Declaration) : Symbol := ⟨d.name, d.ty⟩

@[simp] theorem Declaration.name_symbol (d : Declaration) : d.symbol.name = d.name := rfl

/-- The first declaration of each name, in order. -/
def firstSymbols : List Declaration → List Symbol
  | [] => []
  | d :: ds => d.symbol :: (firstSymbols ds).filter fun s => s.name ≠ d.name

/-- The names that there is room for, each with the type of its first declaration. -/
def acceptedSymbols (capacity : Nat) (ds : List Declaration) : List Symbol :=
  (firstSymbols ds).take (max capacity 1)

private theorem nodup_firstSymbols (ds : List Declaration) :
    ((firstSymbols ds).map Symbol.name).Nodup := by
  induction ds with
  | nil => exact List.nodup_nil
  | cons d ds ih =>
    rw [firstSymbols, List.map_cons, List.nodup_cons]
    constructor
    · -- the symbols of this name have been filtered out behind
      intro hmem
      obtain ⟨s, hs, hname⟩ := List.mem_map.1 hmem
      have hne := (List.mem_filter.1 hs).2
      exact absurd hname (by simpa using hne)
    · exact ih.sublist (List.filter_sublist.map _)

/-- Where no name is declared twice, every declaration is the first one of its name. -/
private theorem firstSymbols_of_nodup {ds : List Declaration}
    (h : (ds.map Declaration.name).Nodup) : firstSymbols ds = ds.map Declaration.symbol := by
  induction ds with
  | nil => rfl
  | cons d ds ih =>
    rw [List.map_cons, List.nodup_cons] at h
    obtain ⟨hd, hds⟩ := h
    rw [firstSymbols, ih hds, List.map_cons, List.filter_eq_self.2]
    intro s hs
    obtain ⟨other, hother, rfl⟩ := List.mem_map.1 hs
    have hne : other.name ≠ d.name := fun heq => hd (heq ▸ List.mem_map_of_mem hother)
    simp [hne]

namespace Registry

variable {r : Registry}

/-- Of declarations in a row those are accepted that are the first of a new name, as long as there
is room. -/
private theorem accepted_declareAll (h : r.accepted.length ≤ r.capacity) (ds : List Declaration) :
    (r.declareAll ds).1.accepted =
      (r.accepted ++ (firstSymbols ds).filter fun s => s.name ∉ r.names).take r.capacity := by
  induction ds generalizing r with
  | nil => simp [declareAll, firstSymbols, List.take_of_length_le h]
  | cons d ds ih =>
    rw [declareAll, firstSymbols]
    by_cases hmem : d.name ∈ r.names
    · -- a name that is there is refused, and so it is again behind
      have hinsert : r.insert d.name d.ty d.location = .error (.duplicate d.name d.location) := by
        simp only [insert, if_pos hmem]
      have hfilter : (d.symbol :: (firstSymbols ds).filter fun s => s.name ≠ d.name).filter
          (fun s => s.name ∉ r.names) = (firstSymbols ds).filter fun s => s.name ∉ r.names := by
        rw [List.filter_cons_of_neg (by simp [hmem]), List.filter_filter]
        apply List.filter_congr
        intro s _
        by_cases hs : s.name = d.name
        · simp [hs, hmem]
        · simp [hs]
      rw [hinsert, hfilter]
      exact ih h
    · by_cases hfull : r.accepted.length = r.capacity
      · -- without room nothing is accepted any more, and nothing more is taken
        have hinsert : r.insert d.name d.ty d.location =
            .error (.tableFull d.name r.capacity d.location) := by
          simp only [insert, if_neg hmem, if_pos hfull]
        rw [hinsert]
        refine (ih h).trans ?_
        rw [← hfull, List.take_left, List.take_left]
      · have hinsert : r.insert d.name d.ty d.location =
            .ok { r with accepted := r.accepted ++ [d.symbol] } := by
          simp only [insert, if_neg hmem, if_neg hfull]
          rfl
        have hroom : (r.accepted ++ [d.symbol]).length ≤ r.capacity := by
          rw [List.length_append, List.length_singleton]
          omega
        rw [hinsert]
        refine (ih (r := { r with accepted := r.accepted ++ [d.symbol] }) hroom).trans ?_
        rw [List.filter_cons_of_pos (by simp [hmem]), List.filter_filter,
          List.append_assoc, List.singleton_append]
        -- the name just accepted is one more to be left out behind it
        congr 3
        apply List.filter_congr
        intro s _
        simp [names]

/-- With room for all, different names are accepted without faults. -/
private theorem faults_declareAll_of_nodup {ds : List Declaration}
    (hnodup : (ds.map Declaration.name).Nodup) (hnew : ∀ d ∈ ds, d.name ∉ r.names)
    (hroom : r.accepted.length + ds.length ≤ r.capacity) :
    (r.declareAll ds).2 = [] := by
  induction ds generalizing r with
  | nil => rfl
  | cons d ds ih =>
    rw [List.map_cons, List.nodup_cons] at hnodup
    obtain ⟨hd, hds⟩ := List.forall_mem_cons.1 hnew
    rw [List.length_cons] at hroom
    have hinsert : r.insert d.name d.ty d.location =
        .ok { r with accepted := r.accepted ++ [d.symbol] } := by
      simp only [insert, if_neg hd, if_neg (show r.accepted.length ≠ r.capacity by omega)]
      rfl
    rw [declareAll, hinsert]
    apply ih (r := { r with accepted := r.accepted ++ [d.symbol] }) hnodup.2
    · intro other hother
      -- the names behind are other ones, so they are still new
      have hne : other.name ≠ d.name := fun heq => hnodup.1 (heq ▸ List.mem_map_of_mem hother)
      simpa [names, Declaration.symbol, hne] using hds other hother
    · change (r.accepted ++ [d.symbol]).length + ds.length ≤ r.capacity
      rw [List.length_append, List.length_singleton]
      omega

/-- Where no name was accepted twice, a name is found with the type it was accepted with. -/
private theorem get?_eq_some_iff (h : r.names.Nodup) {name : String} {ty : Ty} :
    r.get? name = some ty ↔ ⟨name, ty⟩ ∈ r.accepted := by
  rw [get?, Option.map_eq_some_iff]
  constructor
  · rintro ⟨s, hs, rfl⟩
    obtain rfl : s.name = name := by simpa using List.find?_some hs
    exact List.mem_of_find?_eq_some hs
  · intro hmem
    have hfound : (r.accepted.find? fun s => s.name = name).isSome := by
      rw [List.find?_isSome]
      exact ⟨_, hmem, by simp⟩
    obtain ⟨s, hs⟩ := Option.isSome_iff_exists.1 hfound
    have hname : s.name = name := by simpa using List.find?_some hs
    -- two symbols of one name are the same one
    have hsame := List.inj_on_of_nodup_map h (List.mem_of_find?_eq_some hs) hmem hname
    exact ⟨s, hs, congrArg Symbol.ty hsame⟩

end Registry

namespace SymbolTable

/-- A table knows exactly the names accepted, each with its type. -/
private theorem get?_build_eq_some_iff_mem {capacity : Nat} {ds : List Declaration} {name : String}
    {ty : Ty} :
    (build capacity ds).1.get? name = some ty ↔ ⟨name, ty⟩ ∈ acceptedSymbols capacity ds := by
  have haccepted : ((Registry.empty capacity).declareAll ds).1.accepted =
      acceptedSymbols capacity ds := by
    rw [Registry.accepted_declareAll (Nat.zero_le _)]
    simp [Registry.empty, Registry.names, acceptedSymbols]
  -- no name is accepted twice, so a name is found with the one type it has
  have hnodup : ((Registry.empty capacity).declareAll ds).1.names.Nodup := by
    rw [Registry.names, haccepted]
    exact (nodup_firstSymbols ds).sublist ((List.take_sublist _ _).map _)
  rw [(keeps_build capacity ds).2.get?_eq, Registry.get?_eq_some_iff hnodup, haccepted]

/-- Different names for which there is room are declared without faults. -/
private theorem diagnostics_build_of_nodup {capacity : Nat} {ds : List Declaration}
    (hnodup : (ds.map Declaration.name).Nodup) (hroom : ds.length ≤ capacity) :
    Journal.diagnostics (build capacity ds).2 = [] := by
  rw [(keeps_build capacity ds).1]
  apply Registry.faults_declareAll_of_nodup hnodup
  · intro d _
    exact List.not_mem_nil
  · simp only [Registry.empty, List.length_nil]
    omega

end SymbolTable

/-! ## Checking asks for types only -/

section

variable {t t' : SymbolTable} (h : t.get? = t'.get?)
include h

private theorem SymbolTable.reportLookup_congr (name : String) (l : Location) :
    t.reportLookup name l = t'.reportLookup name l := by
  simp only [reportLookup, lookup, h]

/-- Tables that know the same names with the same types check an expression alike. -/
private theorem Expr.check_congr (e : Expr) : e.check t = e.check t' := by
  induction e with
  | identifier name ty l => simp only [check, h, SymbolTable.reportLookup_congr h]
  | literal v ty l => rfl
  | binary op left right ty l ihl ihr => rw [check_binary, check_binary, ihl, ihr]
  | coercion inner ty l ih => simp only [check, ih]

private theorem Statement.check_congr (s : Statement) : s.check t = s.check t' := by
  cases s with
  | print name l => simp only [check, SymbolTable.reportLookup_congr h]
  | assign target value ty l =>
    simp only [check, h, Expr.check_congr h, SymbolTable.reportLookup_congr h]

private theorem Statement.checkAll_congr (ss : List Statement) :
    checkAll t ss = checkAll t' ss := by
  simp only [checkAll, funext (Statement.check_congr h)]

end

/-! ## Programs with the same statements -/

/-- Two programs were compiled alike but for the faults of their declarations, which are reported
first. -/
structure Compilation.AlikeBut (faults faults' : List Diagnostic) (c c' : Compilation) : Prop where
  statements : c.program.statements = c'.program.statements
  diagnostics : ∃ reports, c.diagnostics = faults ++ reports ∧ c'.diagnostics = faults' ++ reports
  output : c.output = c'.output

/-- Programs with the same statements are compiled alike where the same names are accepted with the
same types. -/
private theorem Program.compile_alikeBut {coercionScale : Bool} {ss : List Statement}
    {ds ds' : List Declaration} {capacity capacity' : Nat}
    (h : ∀ s, s ∈ acceptedSymbols capacity ds ↔ s ∈ acceptedSymbols capacity' ds') :
    Compilation.AlikeBut (Journal.diagnostics (SymbolTable.build capacity ds).2)
      (Journal.diagnostics (SymbolTable.build capacity' ds').2)
      (compile ⟨capacity, coercionScale⟩ ⟨ds, ss⟩).1
      (compile ⟨capacity', coercionScale⟩ ⟨ds', ss⟩).1 := by
  -- tables are asked for types only, and they know the same ones
  have hget :
      (SymbolTable.build capacity ds).1.get? = (SymbolTable.build capacity' ds').1.get? := by
    funext name
    apply Option.ext
    intro ty
    rw [SymbolTable.get?_build_eq_some_iff_mem, SymbolTable.get?_build_eq_some_iff_mem, h]
  have hchecked := Statement.checkAll_congr hget ss
  refine ⟨congrArg Prod.fst hchecked, ⟨Journal.diagnostics (Statement.checkAll
    (SymbolTable.build capacity ds).1 ss).2, Journal.diagnostics_append _ _, ?_⟩, ?_⟩
  · rw [hchecked]
    exact Journal.diagnostics_append _ _
  · exact congrArg (fun checked => render (Statement.codeAll coercionScale checked.1)) hchecked

/-- Where the first names declared, as many as there is room for, are the same and have the same
types, the same statements are compiled to the same program, with the same reports behind the faults
of the declarations, and to the same output. In particular this is so for declarations of different
names in any order, if there is room for all of them, and then the declarations have no faults. -/
theorem compile_reordered (coercionScale : Bool) (ss : List Statement) (ds ds' : List Declaration)
    (capacity capacity' : Nat) :
    let faults := Journal.diagnostics (SymbolTable.build capacity ds).2
    let faults' := Journal.diagnostics (SymbolTable.build capacity' ds').2
    let c := (Program.compile ⟨capacity, coercionScale⟩ ⟨ds, ss⟩).1
    let c' := (Program.compile ⟨capacity', coercionScale⟩ ⟨ds', ss⟩).1
    ((∀ s, s ∈ acceptedSymbols capacity ds ↔ s ∈ acceptedSymbols capacity' ds') →
      c.AlikeBut faults faults' c') ∧
    ((ds.map Declaration.symbol).Perm (ds'.map Declaration.symbol) →
      (ds.map Declaration.name).Nodup → ds.length ≤ capacity → ds'.length ≤ capacity' →
      faults = [] ∧ faults' = [] ∧ c.AlikeBut [] [] c') := by
  intro faults faults' c c'
  refine ⟨Program.compile_alikeBut, ?_⟩
  intro hperm hnodup hroom hroom'
  have hnames (ds : List Declaration) :
      ds.map Declaration.name = (ds.map Declaration.symbol).map Symbol.name := by
    rw [List.map_map]
    rfl
  have hnodup' : (ds'.map Declaration.name).Nodup := by
    rw [hnames] at hnodup ⊢
    exact (hperm.map Symbol.name).nodup_iff.1 hnodup
  -- with room for all of them every declaration is accepted
  have hall {capacity : Nat} {ds : List Declaration} (hnodup : (ds.map Declaration.name).Nodup)
      (hroom : ds.length ≤ capacity) : acceptedSymbols capacity ds = ds.map Declaration.symbol := by
    rw [acceptedSymbols, firstSymbols_of_nodup hnodup]
    apply List.take_of_length_le
    rw [List.length_map]
    omega
  have hfaults : faults = [] := SymbolTable.diagnostics_build_of_nodup hnodup hroom
  have hfaults' : faults' = [] := SymbolTable.diagnostics_build_of_nodup hnodup' hroom'
  have hsame : c.AlikeBut faults faults' c' := by
    apply Program.compile_alikeBut
    intro s
    rw [hall hnodup hroom, hall hnodup' hroom']
    exact hperm.mem_iff
  rw [hfaults, hfaults'] at hsame
  exact ⟨hfaults, hfaults', hsame⟩

/-- In a table of two slots a second declaration of `a` is refused, and so is one of `c`; where `b`
is declared before `a` and nothing else is declared, the same two names are known. The two
declarations that are accepted may change places as well. -/
theorem compile_reordered_of_two_tables :
    let a : Declaration := ⟨.int, "a", ⟨1, 1⟩⟩
    let b : Declaration := ⟨.float, "b", ⟨1, 5⟩⟩
    let ds : List Declaration := [a, ⟨.float, "a", ⟨2, 1⟩⟩, b, ⟨.int, "c", ⟨2, 5⟩⟩]
    let ds' : List Declaration := [⟨.float, "b", ⟨1, 1⟩⟩, ⟨.int, "a", ⟨1, 5⟩⟩]
    let half : Expr := .binary .div (.identifier "a" none ⟨3, 5⟩) (.literal (.int 2) none ⟨3, 9⟩)
      none ⟨3, 7⟩
    let ss : List Statement := [.assign "b" half none ⟨3, 1⟩, .print "c" ⟨4, 1⟩]
    let c := (Program.compile { symbolCapacity := 2 } ⟨ds, ss⟩).1
    let c' := (Program.compile {} ⟨ds', ss⟩).1
    let refusals : List Diagnostic := [.duplicate "a" ⟨2, 1⟩, .tableFull "c" 2 ⟨2, 5⟩]
    (∀ s, s ∈ acceptedSymbols 2 ds ↔ s ∈ acceptedSymbols 46 ds') ∧ c.AlikeBut refusals [] c' ∧
      c'.diagnostics = [.undeclared "c" ⟨4, 1⟩] ∧
      ([a, b].map Declaration.symbol).Perm (ds'.map Declaration.symbol) ∧
      ([a, b].map Declaration.name).Nodup ∧
      (Program.compile { symbolCapacity := 2 } ⟨[a, b], ss⟩).1.AlikeBut [] [] c' := by
  intro a b ds ds' half ss c c' refusals
  have hperm : (acceptedSymbols 2 ds).Perm (acceptedSymbols 46 ds') := by decide
  have hsymbols : ([a, b].map Declaration.symbol).Perm (ds'.map Declaration.symbol) := by decide
  have hnames : ([a, b].map Declaration.name).Nodup := by decide
  have hfaults : Journal.diagnostics (SymbolTable.build 2 ds).2 = refusals := by decide +kernel
  have hfaults' : Journal.diagnostics (SymbolTable.build 46 ds').2 = [] := by decide +kernel
  have hsame := (compile_reordered true ss ds ds' 2 46).1 fun s => hperm.mem_iff
  rw [hfaults, hfaults'] at hsame
  obtain ⟨-, -, hmoved⟩ := (compile_reordered true ss [a, b] ds' 2 46).2 hsymbols hnames
    (by decide) (by decide)
  exact ⟨fun s => hperm.mem_iff, hsame, by decide +kernel, hsymbols, hnames, hmoved⟩

end DeskCalc
