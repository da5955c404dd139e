import DeskCalc.Journal

/-!
# The symbol table

A table of a fixed number of slots holds the declared names with their types. A name is looked for
from its home slot on, slot by slot and around the end, until it or a free slot is met; no slot is
inspected twice, so a full table answers too. The table never grows, and the first declaration of a
name stands.

Main statements: `SymbolTable.lookup_eq_ok_iff` — a lookup succeeds with the type that the table
holds; `SymbolTable.countedProbe_le` — a search inspects no more slots than there are;
`SymbolTable.declare_eq_insert` — a declaration that is refused leaves the table as it was;
`SymbolTable.capacity_insert` — an insertion keeps the number of slots.
-/

namespace DeskCalc

/-- A declared name and its type. -/
structure Symbol where
  name : String
  ty : Ty
deriving DecidableEq, Inhabited

/-- The hash of a name: from 5381 on, each byte of its UTF-8 form is added to 33 times the hash so
far, modulo two to the power of 64. -/
def nameHash (name : String) : UInt64 :=
  (name.toList.flatMap String.utf8EncodeChar).foldl (fun h byte => h * 33 + byte.toUInt64) 5381

/-- A fixed number of slots, each free or taken by a symbol. -/
structure SymbolTable where
  capacity : Nat
  capacity_pos : 0 < capacity
  slots : Vector (Option Symbol) capacity
  /-- The number of slots taken. -/
  size : Nat

namespace SymbolTable

/-- The outcome of looking for a name: it is there with its type, or a free slot comes first, or
every slot is taken by another name. -/
inductive Probe (capacity : Nat) where
  | found (ty : Ty)
  | vacant (index : Fin capacity)
  | full

/-- A table of free slots: as many as asked for, but at least one. -/
def empty (capacity : Nat) : SymbolTable :=
  { capacity := max capacity 1
    capacity_pos := by omega
    slots := Vector.replicate _ none
    size := 0 }

/-- Whether no slot is taken. -/
def isEmpty (t : SymbolTable) : Bool := t.size = 0

/-- The slot where the search for a name begins. -/
def home (t : SymbolTable) (name : String) : Fin t.capacity :=
  ⟨(nameHash name).toNat % t.capacity, Nat.mod_lt _ t.capacity_pos⟩

/-- The slot behind `i`; behind the last comes the first. -/
def behind (t : SymbolTable) (i : Fin t.capacity) : Fin t.capacity :=
  ⟨(i.val + 1) % t.capacity, Nat.mod_lt _ t.capacity_pos⟩

/-- Look for a name in at most `steps` slots from `i` on, and count the slots inspected. -/
def countedProbeFrom (t : SymbolTable) (name : String) :
    Nat → Fin t.capacity → Probe t.capacity × Nat
  | 0, _ => (.full, 0)
  | steps + 1, i =>
    match t.slots[i] with
    -- nothing is ever removed, so the name cannot stand behind a free slot
    | none => (.vacant i, 1)
    | some symbol =>
      if symbol.name = name then (.found symbol.ty, 1)
      else
        let (outcome, inspected) := t.countedProbeFrom name steps (t.behind i)
        (outcome, inspected + 1)

/-- Look for a name in every slot once, from its home slot on, and count the slots inspected. -/
def countedProbe (t : SymbolTable) (name : String) : Probe t.capacity × Nat :=
  t.countedProbeFrom name t.capacity (t.home name)

/-- What a search in at most `steps` slots from `i` on comes to. -/
def probeFrom (t : SymbolTable) (name : String) (steps : Nat) (i : Fin t.capacity) :
    Probe t.capacity :=
  (t.countedProbeFrom name steps i).1

/-- What a search for a name comes to. -/
def probe (t : SymbolTable) (name : String) : Probe t.capacity := (t.countedProbe name).1

/-- The type of a name, if the table holds it. -/
def get? (t : SymbolTable) (name : String) : Option Ty :=
  match t.probe name with
  | .found ty => some ty
  | .vacant _ | .full => none

/-- The type of a name that is used at `location`. -/
def lookup (t : SymbolTable) (name : String) (location : Location) : Except Diagnostic Ty :=
  match t.get? name with
  | some ty => .ok ty
  | none => .error (.undeclared name location)

/-- Declare a name. A name that the table holds already, and one for which no slot is free, are
refused. -/
def declare (t : SymbolTable) (name : String) (ty : Ty) (location : Location) :
    EStateM.Result Diagnostic SymbolTable Unit :=
  match t.probe name with
  | .found _ => .error (.duplicate name location) t
  | .vacant i => .ok () { t with slots := t.slots.set i (some ⟨name, ty⟩), size := t.size + 1 }
  | .full => .error (.tableFull name t.capacity location) t

/-- The table with a name declared, or why the name is refused. -/
def insert (t : SymbolTable) (name : String) (ty : Ty) (location : Location) :
    Except Diagnostic SymbolTable :=
  match t.declare name ty location with
  | .ok () t' => .ok t'
  | .error e _ => .error e

/-- Declare names in order; those refused are reported. -/
def declareAll (t : SymbolTable) : List Declaration → SymbolTable × Journal
  | [] => (t, [])
  | d :: ds =>
    match t.declare d.name d.ty d.location with
    | .ok () t' => t'.declareAll ds
    | .error e t' =>
      let (final, log) := t'.declareAll ds
      (final, .reported e :: log)

/-- The table of a list of declarations. -/
def build (capacity : Nat) (ds : List Declaration) : SymbolTable × Journal :=
  let (t, log) := (empty capacity).declareAll ds
  (t, log ++ [.tabled t.size t.capacity])

/-- A lookup succeeds with the type that the table holds. -/
theorem lookup_eq_ok_iff {t : SymbolTable} {name : String} {location : Location} {ty : Ty} :
    t.lookup name location = .ok ty ↔ t.get? name = some ty := by
  unfold lookup
  split <;> simp_all

/-- A lookup that fails reports the name at the place of its use. -/
theorem lookup_eq_error_iff {t : SymbolTable} {name : String} {location : Location}
    {d : Diagnostic} :
    t.lookup name location = .error d ↔ t.get? name = none ∧ d = .undeclared name location := by
  unfold lookup
  split
  · next ty h => simp [h]
  · next h => simp [h, @eq_comm _ d]

/-- A search inspects no more slots than it has steps. -/
theorem countedProbeFrom_le (t : SymbolTable) (name : String) (steps : Nat)
    (i : Fin t.capacity) : (t.countedProbeFrom name steps i).2 ≤ steps := by
  induction steps generalizing i with
  | zero => exact Nat.le_refl 0
  | succ steps ih =>
    unfold countedProbeFrom
    split
    · exact Nat.le_add_left 1 steps
    · split
      · exact Nat.le_add_left 1 steps
      · exact Nat.succ_le_succ (ih _)

/-- A search inspects no more slots than there are. -/
theorem countedProbe_le (t : SymbolTable) (name : String) :
    (t.countedProbe name).2 ≤ t.capacity :=
  t.countedProbeFrom_le name t.capacity _

/-- A declaration that is refused leaves the table as it was. -/
theorem declare_eq_insert (t : SymbolTable) (name : String) (ty : Ty) (location : Location) :
    t.declare name ty location =
      match t.insert name ty location with
      | .ok t' => .ok () t'
      | .error e => .error e t := by
  unfold insert declare
  cases t.probe name <;> rfl

/-- An insertion keeps the number of slots. -/
theorem capacity_insert {t t' : SymbolTable} {name : String} {ty : Ty} {location : Location}
    (h : t.insert name ty location = .ok t') : t'.capacity = t.capacity := by
  unfold insert declare at h
  cases hprobe : t.probe name <;> rw [hprobe] at h <;> cases h
  rfl

end SymbolTable

end DeskCalc
