import Mathlib.Data.Fintype.Card
import DeskCalc.Proofs.Declared

/-!
# Symbol tables and what they are for

A symbol table is to answer as a list of the names accepted would: the first declaration of a name
stands, and there is room for a fixed number of names. Where the hashes put the names and how they
collide is not to be seen in any answer.

A search inspects each slot once at most, and finds the table full only after it has inspected them
all. So a name is refused for want of room exactly if as many names as there are slots have been
accepted.

Main statement: `answers_of_registry`.
-/

namespace DeskCalc

/-! ## Registries -/

/-- The names accepted so far, in order, and the number of names that there is room for. -/
structure Registry where
  capacity : Nat
  accepted : List Symbol

namespace Registry

/-- A registry with no names and with room for at least one. -/
def empty (capacity : Nat) : Registry := ⟨max capacity 1, []⟩

def names (r : Registry) : List String := r.accepted.map Symbol.name

/-- The type with which a name was accepted. -/
def get? (r : Registry) (name : String) : Option Ty :=
  (r.accepted.find? fun s => s.name = name).map Symbol.ty

def lookup (r : Registry) (name : String) (location : Location) : Except Diagnostic Ty :=
  match r.get? name with
  | some ty => .ok ty
  | none => .error (.undeclared name location)

/-- A name is accepted unless it has been already or there is no room for it. -/
def insert (r : Registry) (name : String) (ty : Ty) (location : Location) :
    Except Diagnostic Registry :=
  if name ∈ r.names then .error (.duplicate name location)
  else if r.accepted.length = r.capacity then .error (.tableFull name r.capacity location)
  else .ok { r with accepted := r.accepted ++ [⟨name, ty⟩] }

/-- Accept names in order, and tell the faults of those refused. -/
def declareAll (r : Registry) : List Declaration → Registry × List Diagnostic
  | [] => (r, [])
  | d :: ds =>
    match r.insert d.name d.ty d.location with
    | .ok r' => r'.declareAll ds
    | .error fault =>
      let (final, faults) := r.declareAll ds
      (final, fault :: faults)

/-- A name is refused if it is there already, or for want of room. -/
private theorem fault_of_insert {r : Registry} {name : String} {ty : Ty} {l : Location}
    {fault : Diagnostic} (h : r.insert name ty l = .error fault) :
    fault = .duplicate name l ∨ fault = .tableFull name r.capacity l := by
  unfold insert at h
  split at h
  · cases h
    exact .inl rfl
  · split at h
    · cases h
      exact .inr rfl
    · cases h

/-- The faults of declarations are refusals of their names, each at the place of the declaration. -/
theorem fault_of_mem_declareAll (r : Registry) {ds : List Declaration} {fault : Diagnostic}
    (h : fault ∈ (r.declareAll ds).2) :
    ∃ d ∈ ds, fault = .duplicate d.name d.location ∨
      ∃ capacity, fault = .tableFull d.name capacity d.location := by
  induction ds generalizing r with
  | nil => cases h
  | cons d ds ih =>
    rw [declareAll] at h
    split at h
    · obtain ⟨other, hother, hfault⟩ := ih _ h
      exact ⟨other, List.mem_cons_of_mem _ hother, hfault⟩
    · next refusal hrefusal =>
      -- the declaration itself is refused, or one behind it
      rcases List.mem_cons.1 h with rfl | hrest
      · refine ⟨d, List.mem_cons_self, ?_⟩
        exact (fault_of_insert hrefusal).imp_right fun hfull => ⟨r.capacity, hfull⟩
      · obtain ⟨other, hother, hfault⟩ := ih _ hrest
        exact ⟨other, List.mem_cons_of_mem _ hother, hfault⟩

private theorem get?_eq_none_iff {r : Registry} {name : String} :
    r.get? name = none ↔ name ∉ r.names := by
  simp [get?, names]

/-- A new name is found with its type, and any other name as before. -/
private theorem get?_append {r : Registry} {name : String} (h : name ∉ r.names) (ty : Ty)
    (n : String) : get? { r with accepted := r.accepted ++ [⟨name, ty⟩] } n =
      if n = name then some ty else r.get? n := by
  split
  · next hn =>
    subst hn
    -- the name was not there before, so the search gets to the new symbol
    have hnone : (r.accepted.find? fun s => s.name = n) = none := by
      simpa [names] using h
    simp [get?, List.find?_append, hnone]
  · next hn => simp [get?, List.find?_append, Ne.symm hn]

end Registry

namespace SymbolTable

variable {t t' : SymbolTable} {r : Registry} {name : String} {ty : Ty} {l : Location}

/-! ## Full tables -/

/-- A search that finds the table full has come past taken slots only. -/
private theorem slot_ne_none_of_probeFrom_full {steps : Nat} {i : Fin t.capacity}
    (h : t.probeFrom name steps i = .full) {k : Nat} (hk : k < steps) {j : Fin t.capacity}
    (hj : j.val = (i.val + k) % t.capacity) : t.slots.get j ≠ none := by
  induction steps generalizing i k with
  | zero => exact absurd hk (Nat.not_lt_zero k)
  | succ steps ih =>
    rw [probeFrom_succ] at h
    split at h
    · cases h
    · next s hs =>
      split at h
      · cases h
      · -- the slot looked at now is taken, and the others are looked at later
        cases k with
        | zero =>
          have hij : j = i := Fin.ext (by rw [hj, Nat.add_zero, Nat.mod_eq_of_lt i.isLt])
          rw [hij, hs]
          nofun
        | succ k =>
          refine ih h (Nat.lt_of_succ_lt_succ hk) ?_
          rw [hj, behind, Nat.mod_add_mod, Nat.add_assoc, Nat.add_comm 1 k]

/-- From any slot each slot is reached, around the end if need be. -/
private theorem exists_offset (i j : Fin t.capacity) :
    ∃ k < t.capacity, j.val = (i.val + k) % t.capacity := by
  have hi := i.isLt
  have hj := j.isLt
  -- the slot lies ahead, or is reached around the end
  by_cases hij : i.val ≤ j.val
  · refine ⟨j.val - i.val, by omega, ?_⟩
    rw [Nat.add_sub_cancel' hij, Nat.mod_eq_of_lt hj]
  · refine ⟨j.val + t.capacity - i.val, by omega, ?_⟩
    rw [Nat.add_sub_cancel' (by omega), Nat.add_mod_right, Nat.mod_eq_of_lt hj]

/-! ## Taken slots -/

/-- The slots that are taken. -/
def taken (t : SymbolTable) : Finset (Fin t.capacity) :=
  Finset.univ.filter fun i => t.slots.get i ≠ none

private theorem mem_taken_iff {i : Fin t.capacity} : i ∈ t.taken ↔ t.slots.get i ≠ none := by
  simp [taken]

private theorem taken_put (i : Fin t.capacity) (s : Symbol) :
    (t.put i i.isLt s).taken = Insert.insert i t.taken := by
  ext j
  rw [mem_taken_iff, Finset.mem_insert, mem_taken_iff]
  by_cases hij : i = j
  · subst hij
    rw [slots_put_self]
    simp
  · rw [slots_put_of_ne hij]
    simp [Ne.symm hij]

private theorem card_taken_of_full (h : t.probe name = .full) : t.taken.card = t.capacity := by
  -- as many steps as there are slots lead to each slot
  have hall : t.taken = Finset.univ := by
    ext j
    obtain ⟨k, hk, hj⟩ := exists_offset (t.home name) j
    simp [mem_taken_iff, slot_ne_none_of_probeFrom_full h hk hj]
  rw [hall, Finset.card_univ, Fintype.card_fin]

private theorem card_taken_lt {i : Fin t.capacity} (h : t.slots.get i = none) :
    t.taken.card < t.capacity := by
  have hi : i ∉ t.taken := by simp [mem_taken_iff, h]
  have hlt := Finset.card_lt_univ_of_notMem hi
  rwa [Fintype.card_fin] at hlt

/-! ## Tables and registries -/

/-- The table holds what is registered. -/
structure Keeps (t : SymbolTable) (r : Registry) : Prop where
  capacity_eq : t.capacity = r.capacity
  size_eq : t.size = r.accepted.length
  card_taken : t.taken.card = t.size
  wellPlaced : t.WellPlaced
  get?_eq : ∀ name, t.get? name = r.get? name

private theorem keeps_empty (capacity : Nat) : (empty capacity).Keeps (.empty capacity) where
  capacity_eq := rfl
  size_eq := rfl
  card_taken := by
    have hnone : (empty capacity).taken = ∅ := by
      ext i
      simp [mem_taken_iff, slots_empty]
    rw [hnone]
    rfl
  wellPlaced := wellPlaced_empty capacity
  get?_eq name := by rw [get?_empty]; rfl

namespace Keeps

/-- A name is refused by both with the same fault, or accepted by both. -/
private theorem insert (h : t.Keeps r) (name : String) (ty : Ty) (l : Location) :
    (∃ d, t.insert name ty l = .error d ∧ r.insert name ty l = .error d) ∨
      ∃ t' r', t.insert name ty l = .ok t' ∧ r.insert name ty l = .ok r' ∧ t'.Keeps r' := by
  have hknown : t.get? name = none ↔ name ∉ r.names := by
    rw [h.get?_eq, Registry.get?_eq_none_iff]
  cases hprobe : t.probe name with
  | found ty' =>
    -- a name that is there is a duplicate, whether or not there is room
    have hmem : name ∈ r.names := by
      by_contra hnot
      have hsome : t.get? name = some ty' := get?_eq_some_iff.2 hprobe
      rw [hknown.2 hnot] at hsome
      cases hsome
    refine .inl ⟨.duplicate name l, ?_, ?_⟩
    · simp [SymbolTable.insert, declare, hprobe]
    · simp [Registry.insert, hmem]
  | full =>
    -- all slots have been inspected, so all are taken
    have hnot : name ∉ r.names := hknown.1 (by simp [get?, hprobe])
    have hfull : r.accepted.length = r.capacity := by
      rw [← h.size_eq, ← h.card_taken, card_taken_of_full hprobe, h.capacity_eq]
    refine .inl ⟨.tableFull name r.capacity l, ?_, ?_⟩
    · simp [SymbolTable.insert, declare, hprobe, h.capacity_eq]
    · simp [Registry.insert, hnot, hfull]
  | vacant i =>
    -- one slot is free, so fewer names have been accepted than there are slots
    have hfree : t.slots.get i = none := slot_of_probeFrom_vacant hprobe
    have hok : t.insert name ty l = .ok (t.put i i.isLt ⟨name, ty⟩) :=
      insert_eq_ok_iff.2 ⟨i, hprobe, rfl⟩
    obtain ⟨hplaced, hnone, hget⟩ := get?_insert h.wellPlaced hok
    have hnot := hknown.1 hnone
    have hroom : r.accepted.length ≠ r.capacity := by
      rw [← h.size_eq, ← h.card_taken, ← h.capacity_eq]
      exact Nat.ne_of_lt (card_taken_lt hfree)
    have haccepted : r.insert name ty l =
        .ok { r with accepted := r.accepted ++ [⟨name, ty⟩] } := by
      simp only [Registry.insert, if_neg hnot, if_neg hroom]
    refine .inr ⟨_, _, hok, haccepted, ?_⟩
    exact {
      capacity_eq := h.capacity_eq
      size_eq := by simp [h.size_eq]
      card_taken := by
        rw [taken_put, Finset.card_insert_of_notMem (by simp [mem_taken_iff, hfree]), h.card_taken]
      wellPlaced := hplaced
      get?_eq := fun n => by rw [hget, Registry.get?_append hnot, h.get?_eq] }

private theorem lookup (h : t.Keeps r) (name : String) (l : Location) :
    t.lookup name l = r.lookup name l := by
  cases hname : r.get? name <;> simp [SymbolTable.lookup, Registry.lookup, h.get?_eq, hname]

/-- Declarations in order are refused by both with the same faults. -/
private theorem declareAll (h : t.Keeps r) (ds : List Declaration) :
    Journal.diagnostics (t.declareAll ds).2 = (r.declareAll ds).2 ∧
      (t.declareAll ds).1.Keeps (r.declareAll ds).1 := by
  induction ds generalizing t r with
  | nil => exact ⟨rfl, h⟩
  | cons d ds ih =>
    rw [SymbolTable.declareAll, Registry.declareAll, SymbolTable.declare_eq_insert]
    -- a refusal leaves both as they are, and both report it
    rcases h.insert d.name d.ty d.location with ⟨fault, ht, hr⟩ | ⟨t', r', ht, hr, h'⟩
    · obtain ⟨hfaults, hkeeps⟩ := ih h
      simp only [ht, hr, ← hfaults]
      exact ⟨rfl, hkeeps⟩
    · simp only [ht, hr]
      exact ih h'

end Keeps

/-- A table built of declarations reports the faults that a registry finds in them, and holds what
it accepts. -/
theorem keeps_build (capacity : Nat) (ds : List Declaration) :
    Journal.diagnostics (build capacity ds).2 = ((Registry.empty capacity).declareAll ds).2 ∧
      (build capacity ds).1.Keeps ((Registry.empty capacity).declareAll ds).1 := by
  obtain ⟨hfaults, hkeeps⟩ := (keeps_empty capacity).declareAll ds
  refine ⟨?_, hkeeps⟩
  rw [← hfaults]
  exact (Journal.diagnostics_append _ _).trans (List.append_nil _)

end SymbolTable

/-! ## Runs -/

/-- What a table can be asked. -/
inductive Request where
  | insert (name : String) (ty : Ty) (location : Location)
  | get (name : String)
  | lookup (name : String) (location : Location)
  /-- Go on with a new table, filled with declarations. -/
  | build (capacity : Nat) (declarations : List Declaration)

inductive Answer where
  | inserted (fault : Option Diagnostic)
  | found (ty : Option Ty)
  | lookedUp (outcome : Except Diagnostic Ty)
  | built (faults : List Diagnostic)

/-- The answer of a table, and the table afterwards. -/
def SymbolTable.answer (t : SymbolTable) : Request → Answer × SymbolTable
  | .insert name ty l =>
    match t.declare name ty l with
    | .ok () t' => (.inserted none, t')
    | .error d t' => (.inserted (some d), t')
  | .get name => (.found (t.get? name), t)
  | .lookup name l => (.lookedUp (t.lookup name l), t)
  | .build capacity ds =>
    let (t', log) := build capacity ds
    (.built log.diagnostics, t')

/-- The answer of a registry, and the registry afterwards. A refusal changes nothing. -/
def Registry.answer (r : Registry) : Request → Answer × Registry
  | .insert name ty l =>
    match r.insert name ty l with
    | .ok r' => (.inserted none, r')
    | .error d => (.inserted (some d), r)
  | .get name => (.found (r.get? name), r)
  | .lookup name l => (.lookedUp (r.lookup name l), r)
  | .build capacity ds =>
    let (r', faults) := (empty capacity).declareAll ds
    (.built faults, r')

/-- The answers to requests one after the other. -/
def answerAll {σ : Type} (answer : σ → Request → Answer × σ) (s : σ) :
    List Request → List Answer × σ
  | [] => ([], s)
  | q :: qs =>
    let (a, s') := answer s q
    let (as, final) := answerAll answer s' qs
    (a :: as, final)

namespace SymbolTable.Keeps

variable {t : SymbolTable} {r : Registry}

/-- A table that holds what is registered answers as the registry does, and goes on to hold it. -/
private theorem answer (h : t.Keeps r) (q : Request) :
    (t.answer q).1 = (r.answer q).1 ∧ (t.answer q).2.Keeps (r.answer q).2 := by
  cases q with
  | insert name ty l =>
    rcases h.insert name ty l with ⟨d, ht, hr⟩ | ⟨t', r', ht, hr, h'⟩
    · simp only [SymbolTable.answer, Registry.answer, SymbolTable.declare_eq_insert, ht, hr]
      exact ⟨trivial, h⟩
    · simp only [SymbolTable.answer, Registry.answer, SymbolTable.declare_eq_insert, ht, hr]
      exact ⟨trivial, h'⟩
  | get name => exact ⟨congrArg Answer.found (h.get?_eq name), h⟩
  | lookup name l => exact ⟨congrArg Answer.lookedUp (h.lookup name l), h⟩
  | build capacity ds =>
    obtain ⟨hfaults, hkeeps⟩ := keeps_build capacity ds
    exact ⟨congrArg Answer.built hfaults, hkeeps⟩

private theorem answerAll (h : t.Keeps r) (qs : List Request) :
    (DeskCalc.answerAll SymbolTable.answer t qs).1 = (DeskCalc.answerAll Registry.answer r qs).1 ∧
      (DeskCalc.answerAll SymbolTable.answer t qs).2.Keeps
        (DeskCalc.answerAll Registry.answer r qs).2 := by
  induction qs generalizing t r with
  | nil => exact ⟨rfl, h⟩
  | cons q qs ih =>
    obtain ⟨hanswer, hnext⟩ := h.answer q
    obtain ⟨hrest, hfinal⟩ := ih hnext
    refine ⟨?_, hfinal⟩
    simp only [DeskCalc.answerAll, hanswer, hrest]

end SymbolTable.Keeps

/-- Whatever a table that was empty is asked, it answers as a registry of the names accepted does.
It counts these names and knows each with the type that it was accepted with, and no search inspects
more slots than there is room for names. -/
theorem answers_of_registry (capacity : Nat) (requests : List Request) :
    let (answers, t) := answerAll SymbolTable.answer (.empty capacity) requests
    let (expected, r) := answerAll Registry.answer (.empty capacity) requests
    answers = expected ∧ t.size = r.accepted.length ∧ t.capacity = r.capacity ∧
      (∀ name, t.get? name = r.get? name) ∧
      ∀ name, ∃ inspected ≤ r.capacity, t.countedProbe name = (t.probe name, inspected) := by
  obtain ⟨hanswers, hkeeps⟩ := (SymbolTable.keeps_empty capacity).answerAll requests
  refine ⟨hanswers, hkeeps.size_eq, hkeeps.capacity_eq, hkeeps.get?_eq, ?_⟩
  intro name
  -- there is room for as many names as the table has slots
  rw [← hkeeps.capacity_eq]
  exact ⟨_, SymbolTable.countedProbe_le _ name, rfl⟩

end DeskCalc
