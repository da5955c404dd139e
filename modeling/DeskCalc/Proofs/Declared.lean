import Mathlib.Data.Fin.Basic
import DeskCalc.SymbolTable

/-!
# What a symbol table holds

A name is looked for from its home slot to the first free slot. So a table answers well only if no
free slot lies between the home slot of a name and the slot where it stands. Insertions keep this:
a free slot is taken, and none is freed.

Main statements: `SymbolTable.get?_insert` — an insertion adds one name and keeps what is known of
the others; `SymbolTable.get?_build_eq_some_iff` — a table built without faults holds exactly the
names declared.
-/

namespace DeskCalc.SymbolTable

variable {t t' : SymbolTable} {name : String} {ty : Ty}

/-- Every symbol in a slot is what a search for its name finds. -/
def WellPlaced (t : SymbolTable) : Prop :=
  ∀ (i : Fin t.capacity) (s : Symbol), t.slots.get i = some s → t.get? s.name = some s.ty

theorem get?_eq_some_iff : t.get? name = some ty ↔ t.probe name = .found ty := by
  unfold get?
  split <;> simp_all

/-! ## Searches -/

/-- A search goes on behind a slot that is taken by another name. -/
theorem probeFrom_succ (t : SymbolTable) (name : String) (steps : Nat) (i : Fin t.capacity) :
    t.probeFrom name (steps + 1) i =
      match t.slots.get i with
      | none => .vacant i
      | some s =>
        if s.name = name then .found s.ty else t.probeFrom name steps (t.behind i) := by
  rw [probeFrom, countedProbeFrom]
  change Prod.fst (match t.slots.get i with | none => _ | some s => _) = _
  cases t.slots.get i with
  | none => rfl
  | some s =>
    dsimp only
    split <;> rfl

private theorem slot_of_probeFrom_found {steps : Nat} {i : Fin t.capacity}
    (h : t.probeFrom name steps i = .found ty) :
    ∃ j : Fin t.capacity, t.slots.get j = some ⟨name, ty⟩ := by
  induction steps generalizing i with
  | zero => cases h
  | succ steps ih =>
    rw [probeFrom_succ] at h
    split at h
    · cases h
    · next s hs =>
      split at h
      · next hname =>
        cases h
        -- the search ends at the slot with the name
        exact ⟨i, by rw [hs, ← hname]⟩
      · exact ih h

theorem slot_of_probeFrom_vacant {steps : Nat} {i j : Fin t.capacity}
    (h : t.probeFrom name steps i = .vacant j) : t.slots.get j = none := by
  induction steps generalizing i with
  | zero => cases h
  | succ steps ih =>
    rw [probeFrom_succ] at h
    split at h
    · next hs =>
      cases h
      exact hs
    · split at h
      · cases h
      · exact ih h

/-! ## Insertions -/

/-- The table with a symbol in a slot that was free. -/
@[reducible] def put (t : SymbolTable) (i : Nat) (hi : i < t.capacity) (s : Symbol) : SymbolTable :=
  { t with slots := t.slots.set i (some s) hi, size := t.size + 1 }

theorem insert_eq_ok_iff {l : Location} :
    t.insert name ty l = .ok t' ↔
      ∃ i, t.probe name = .vacant i ∧ t' = t.put i i.isLt ⟨name, ty⟩ := by
  unfold insert declare
  cases t.probe name with
  | found ty' => simp
  | vacant i =>
    simp only [Except.ok.injEq, Probe.vacant.injEq]
    constructor
    · intro ht
      exact ⟨i, rfl, ht.symm⟩
    · intro ht
      obtain ⟨j, rfl, rfl⟩ := ht
      rfl
  | full => simp

theorem slots_put_self (i : Fin t.capacity) (s : Symbol) :
    (t.put i i.isLt s).slots.get i = some s :=
  Vector.getElem_set_self i.isLt

theorem slots_put_of_ne {i j : Fin t.capacity} (h : i ≠ j) (s : Symbol) :
    (t.put i i.isLt s).slots.get j = t.slots.get j := by
  have hval : i.val ≠ j.val := fun hij => h (Fin.ext hij)
  exact Vector.getElem_set_ne i.isLt j.isLt hval

/-- A name that was found is found still: the search for it passes no free slot. -/
private theorem probeFrom_put_of_found {i : Fin t.capacity} (hi : t.slots.get i = none) (s : Symbol)
    {steps : Nat} {j : Fin t.capacity} (h : t.probeFrom name steps j = .found ty) :
    (t.put i i.isLt s).probeFrom name steps j = .found ty := by
  induction steps generalizing j with
  | zero => cases h
  | succ steps ih =>
    rw [probeFrom_succ] at h ⊢
    split at h
    · cases h
    · next s' hs =>
      -- the slot taken is not the one that was free
      have hne : i ≠ j := by
        intro heq
        rw [← heq, hi] at hs
        cases hs
      rw [slots_put_of_ne hne, hs]
      dsimp only
      split at h
      · next hname =>
        rw [if_pos hname]
        exact h
      · next hname =>
        rw [if_neg hname]
        exact ih h

/-- The name that takes the free slot found for it is found there. -/
private theorem probeFrom_put_self {i : Fin t.capacity} {steps : Nat} {j : Fin t.capacity}
    (h : t.probeFrom name steps j = .vacant i) :
    (t.put i i.isLt ⟨name, ty⟩).probeFrom name steps j = .found ty := by
  have hi := slot_of_probeFrom_vacant h
  induction steps generalizing j with
  | zero => cases h
  | succ steps ih =>
    rw [probeFrom_succ] at h ⊢
    split at h
    · cases h
      rw [slots_put_self]
      exact if_pos rfl
    · next s hs =>
      have hne : i ≠ j := by
        intro heq
        rw [← heq, hi] at hs
        cases hs
      rw [slots_put_of_ne hne, hs]
      dsimp only
      split at h
      · cases h
      · next hname =>
        rw [if_neg hname]
        exact ih h

/-- A well-placed table with a new name in the slot found for it holds this name beside all others,
and is well-placed. -/
theorem get?_insert (ht : t.WellPlaced) {l : Location} (h : t.insert name ty l = .ok t') :
    t'.WellPlaced ∧ t.get? name = none ∧
      ∀ n, t'.get? n = if n = name then some ty else t.get? n := by
  obtain ⟨i, hi, rfl⟩ := insert_eq_ok_iff.1 h
  have hfree := slot_of_probeFrom_vacant hi
  have hself : (t.put i i.isLt ⟨name, ty⟩).get? name = some ty :=
    get?_eq_some_iff.2 (probeFrom_put_self hi)
  -- what was found before is found still, whichever name it is
  have hkept {n : String} {ty' : Ty} (hn : t.get? n = some ty') :
      (t.put i i.isLt ⟨name, ty⟩).get? n = some ty' :=
    get?_eq_some_iff.2 (probeFrom_put_of_found hfree _ (get?_eq_some_iff.1 hn))
  have hnone : t.get? name = none := by
    unfold get?
    rw [hi]
  refine ⟨?_, hnone, ?_⟩
  -- a symbol stands in the new slot, where it is found, or stood where it stands
  · intro j s hs
    by_cases hij : i = j
    · subst hij
      rw [slots_put_self] at hs
      cases hs
      exact hself
    · rw [slots_put_of_ne hij] at hs
      exact hkept (ht j s hs)
  · intro n
    split
    · next hn => rw [hn, hself]
    · next hn =>
      cases hget : t.get? n with
      | some ty' => exact hkept hget
      | none =>
        -- a name found now would stand in a slot, and had been found there before
        cases hget' : (t.put i i.isLt ⟨name, ty⟩).get? n with
        | none => rfl
        | some ty' =>
          obtain ⟨j, hj⟩ := slot_of_probeFrom_found (get?_eq_some_iff.1 hget')
          by_cases hij : i = j
          · subst hij
            rw [slots_put_self] at hj
            cases hj
            exact absurd rfl hn
          · rw [slots_put_of_ne hij] at hj
            rw [← hget, ht j _ hj]

theorem slots_empty (capacity : Nat) (i : Fin (empty capacity).capacity) :
    (empty capacity).slots.get i = none :=
  Vector.getElem_replicate i.isLt

theorem wellPlaced_empty (capacity : Nat) : (empty capacity).WellPlaced := by
  intro i s hs
  rw [slots_empty] at hs
  cases hs

theorem get?_empty (capacity : Nat) (name : String) : (empty capacity).get? name = none := by
  cases h : (empty capacity).get? name with
  | none => rfl
  | some ty =>
    obtain ⟨j, hj⟩ := slot_of_probeFrom_found (get?_eq_some_iff.1 h)
    rw [slots_empty] at hj
    cases hj

/-! ## Declarations -/

/-- Declaring names without faults adds exactly these names. -/
private theorem get?_declareAll {ds : List Declaration} (ht : t.WellPlaced)
    (h : Journal.diagnostics (t.declareAll ds).2 = []) :
    (t.declareAll ds).1.get? name = some ty ↔
      t.get? name = some ty ∨ ∃ d ∈ ds, d.name = name ∧ d.ty = ty := by
  induction ds generalizing t with
  | nil => simp [declareAll]
  | cons d ds ih =>
    unfold declareAll at h ⊢
    rw [declare_eq_insert] at h ⊢
    cases hinsert : t.insert d.name d.ty d.location with
    | error e =>
      rw [hinsert] at h
      -- a refusal would have been reported
      simp [Journal.diagnostics, Event.diagnostic?] at h
    | ok t' =>
      rw [hinsert] at h
      obtain ⟨ht', hnone, hget⟩ := get?_insert ht hinsert
      dsimp only at h ⊢
      rw [ih ht' h, hget]
      simp only [List.mem_cons, exists_eq_or_imp]
      -- the name just accepted had not been found before
      split
      · next hname =>
        subst hname
        simp [hnone]
      · next hname => simp [Ne.symm hname]

/-- A table built without faults holds exactly the names declared, each with its type. -/
theorem get?_build_eq_some_iff {capacity : Nat} {ds : List Declaration}
    (h : Journal.diagnostics (build capacity ds).2 = []) :
    (build capacity ds).1.get? name = some ty ↔ ∃ d ∈ ds, d.name = name ∧ d.ty = ty := by
  -- only the declarations can be refused, whatever else is logged while the table is built
  have hlog : Journal.diagnostics ((empty capacity).declareAll ds).2 = [] := by
    simp only [build, Journal.diagnostics_append] at h
    exact (List.append_eq_nil_iff.1 h).1
  have hget := @get?_declareAll _ name ty ds (wellPlaced_empty capacity) hlog
  rw [get?_empty] at hget
  simpa [build] using hget

end DeskCalc.SymbolTable
