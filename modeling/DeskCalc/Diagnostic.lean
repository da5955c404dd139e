import DeskCalc.Program

/-!
# Diagnostics

What is wrong with a program that could be read: a name declared twice, used without a declaration
or left out of a full symbol table, or a number that would lose its fraction. None of these stops a
compilation.

Main statement: `Diagnostic.mem_counts_iff` — the summary of a list of diagnostics names a kind with
the number of its diagnostics, and only if there are any.
-/

namespace DeskCalc

/-- A fault of a program, at its place. -/
inductive Diagnostic where
  /-- A second declaration of a name; the first one stands. -/
  | duplicate (name : String) (location : Location)
  /-- A name that the symbol table does not hold. -/
  | undeclared (name : String) (location : Location)
  /-- A single-precision value for an integer variable. -/
  | narrowing (target : String) (location : Location)
  /-- A declaration that found no free slot. -/
  | tableFull (name : String) (capacity : Nat) (location : Location)
deriving DecidableEq, Inhabited

/-- The kinds under which diagnostics are summarised. -/
inductive Diagnostic.Kind where
  | declaration
  | reference
  | type
  | capacity
deriving DecidableEq, Inhabited

namespace Diagnostic

/-- The name of a kind. -/
def Kind.label : Kind → String
  | declaration => "Declaration"
  | reference => "Reference"
  | type => "Type"
  | capacity => "Capacity"

/-- All kinds. -/
def Kind.all : List Kind := [declaration, reference, type, capacity]

/-- The kind of a diagnostic. -/
def kind : Diagnostic → Kind
  | duplicate .. => .declaration
  | undeclared .. => .reference
  | narrowing .. => .type
  | tableFull .. => .capacity

/-- The name that a diagnostic is about. -/
def name : Diagnostic → String
  | duplicate n _ | undeclared n _ | narrowing n _ | tableFull n _ _ => n

/-- The place that a diagnostic names. -/
def location : Diagnostic → Location
  | duplicate _ l | undeclared _ l | narrowing _ l | tableFull _ _ l => l

/-- The wording of a diagnostic. -/
def message (d : Diagnostic) : String :=
  words ++ " (at " ++ d.location.text ++ ")"
where
  /-- The wording without the place. -/
  words : String :=
    match d with
    | duplicate n _ => "id " ++ n ++ " has been declared"
    | undeclared n _ => "identifier " ++ n ++ " is not declared"
    | narrowing n _ => "can't convert float to integer when assigning to " ++ n
    | tableFull n capacity _ =>
      "symbol table full (" ++ toString capacity ++ " slots), cannot declare " ++ n

/-- How many diagnostics there are of each kind that occurs. -/
def counts (ds : List Diagnostic) : List (Kind × Nat) :=
  (Kind.all.map fun k => (k, ds.countP fun d => d.kind = k)).filter fun p => p.2 ≠ 0

/-- The summary names a kind with the number of its diagnostics, and only if there are any. -/
theorem mem_counts_iff {ds : List Diagnostic} {k : Kind} {n : Nat} :
    (k, n) ∈ counts ds ↔ n = ds.countP (fun d => d.kind = k) ∧ n ≠ 0 := by
  have hall : k ∈ Kind.all := by cases k <;> simp [Kind.all]
  simp only [counts, List.mem_filter, List.mem_map, Prod.mk.injEq, decide_eq_true_eq]
  constructor
  · rintro ⟨⟨k', _, rfl, rfl⟩, hn⟩
    exact ⟨rfl, hn⟩
  · rintro ⟨rfl, hn⟩
    exact ⟨⟨k, hall, rfl, rfl⟩, hn⟩

end Diagnostic

end DeskCalc
