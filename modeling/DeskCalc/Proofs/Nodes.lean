import DeskCalc.Proofs.Folding

/-!
# The nodes of an expression

Nodes are listed in the order in which they are checked and coded: operands before operations, and
the left one before the right one.

Main statement: `Expr.occurrences_check` — checking neither drops nor moves an identifier.
-/

namespace DeskCalc.Expr

/-- The names in an expression, from left to right. -/
def names : Expr → List String
  | identifier name _ _ => [name]
  | literal .. => []
  | binary _ left right _ _ => left.names ++ right.names
  | coercion inner _ _ => inner.names

/-- The identifiers in an expression, from left to right, each with its place. -/
def occurrences : Expr → List (String × Location)
  | identifier name _ l => [(name, l)]
  | literal .. => []
  | binary _ left right _ _ => left.occurrences ++ right.occurrences
  | coercion inner _ _ => inner.occurrences

/-- The nodes of an expression, each as the expression that it is the root of. -/
def nodes : Expr → List Expr
  | binary op left right ty l => left.nodes ++ right.nodes ++ [binary op left right ty l]
  | coercion inner ty l => inner.nodes ++ [coercion inner ty l]
  | e => [e]

def isCoercion : Expr → Bool
  | coercion .. => true
  | _ => false

/-- No coercion is in the expression. -/
def IsPlain : Expr → Prop
  | binary _ left right _ _ => left.IsPlain ∧ right.IsPlain
  | coercion .. => False
  | _ => True

theorem mem_nodes_self (e : Expr) : e ∈ e.nodes := by
  cases e <;> simp [nodes]

theorem names_eq_map (e : Expr) : e.names = e.occurrences.map Prod.fst := by
  induction e with
  | identifier name ty l => rfl
  | literal v ty l => rfl
  | binary op left right ty l ihl ihr => rw [names, occurrences, List.map_append, ihl, ihr]
  | coercion inner ty l ih => exact ih

/-! ## Checking keeps identifiers -/

theorem occurrences_coerce (e : Expr) (target : Ty) :
    (e.coerce target).1.occurrences = e.occurrences := by
  unfold coerce
  split <;> rfl

theorem occurrences_of_literal? {e : Expr} {v : Literal} (h : e.literal? = some v) :
    e.occurrences = [] := by
  unfold literal? at h
  split at h
  · rfl
  · cases h

private theorem occurrences_of_coercedInt? {e : Expr} {a : Int32} (h : e.coercedInt? = some a) :
    e.occurrences = [] := by
  unfold coercedInt? at h
  split at h
  · rfl
  · cases h

/-- Only operations without identifiers are folded. -/
private theorem occurrences_of_folds {op : Operator} {left right : Expr} {lc rc : Bool}
    {v : Literal} (h : Folds op left right lc rc v) :
    left.occurrences = [] ∧ right.occurrences = [] := by
  -- an operand that is folded is a number or a coercion of one
  cases h with
  | ints ha hb | floats ha hb => exact ⟨occurrences_of_literal? ha, occurrences_of_literal? hb⟩
  | leftCoerced ha hb => exact ⟨occurrences_of_coercedInt? ha, occurrences_of_literal? hb⟩
  | rightCoerced ha hb => exact ⟨occurrences_of_literal? ha, occurrences_of_coercedInt? hb⟩

/-- The type of joined operands is their common type. -/
theorem ty_join (op : Operator) (left right : Expr) (l : Location) :
    (join op left right l).1.ty = some (generalize left.ty right.ty) := by
  obtain ⟨ty, rfl, ⟨v, _, hjoin⟩ | ⟨_, hjoin⟩⟩ := join_cases op left right l
  · rw [hjoin]
    rfl
  · rw [hjoin]
    rfl

private theorem occurrences_join (op : Operator) (left right : Expr) (l : Location) :
    (join op left right l).1.occurrences = left.occurrences ++ right.occurrences := by
  obtain ⟨ty, -, ⟨v, hfolds, hjoin⟩ | ⟨_, hjoin⟩⟩ := join_cases op left right l
  · obtain ⟨hleft, hright⟩ := occurrences_of_folds hfolds
    -- a folded operation had no identifier before it was coerced either
    rw [occurrences_coerce] at hleft hright
    rw [hjoin, hleft, hright]
    rfl
  · rw [hjoin, occurrences, occurrences_coerce, occurrences_coerce]

/-- Checking neither drops nor moves an identifier. -/
theorem occurrences_check (t : SymbolTable) (e : Expr) :
    (e.check t).1.occurrences = e.occurrences := by
  induction e with
  | identifier name ty l => rfl
  | literal v ty l => rfl
  | binary op left right ty l ihl ihr =>
    rw [check_binary, occurrences_join, ihl, ihr, occurrences]
  | coercion inner ty l ih => exact ih

theorem names_check (t : SymbolTable) (e : Expr) : (e.check t).1.names = e.names := by
  rw [names_eq_map, names_eq_map, occurrences_check]

theorem names_coerce (e : Expr) (target : Ty) : (e.coerce target).1.names = e.names := by
  rw [names_eq_map, names_eq_map, occurrences_coerce]

theorem names_of_literal? {e : Expr} {v : Literal} (h : e.literal? = some v) : e.names = [] := by
  rw [names_eq_map, occurrences_of_literal? h, List.map_nil]

end DeskCalc.Expr
