import DeskCalc.Proofs.Faults
import DeskCalc.Proofs.Lines

/-!
# What diagnostics say

Each diagnostic of a compilation is about a name in the program, in a declaration or in a statement.
Names are words of the source, and beside the name a message has fixed words and numbers. So each
message fits on a line.

Main statement: `not_mem_message_of_compile`.
-/

namespace DeskCalc

/-! ## The names in diagnostics -/

/-- What is wrong with a statement is wrong with a name in it. -/
private theorem Statement.name_of_mem_faults {known : String → Option Ty} {s : Statement}
    {d : Diagnostic} (h : d ∈ s.faults known) : d.name ∈ s.names := by
  cases s with
  | print name l =>
    rw [faults] at h
    split at h
    · cases List.mem_singleton.1 h
      exact List.mem_singleton_self _
    · cases h
  | assign target value ty l =>
    rw [faults, List.mem_append] at h
    rw [names, List.mem_cons]
    -- a name in the value is not known, or the target is at fault
    rcases h with hvalue | htarget
    · right
      obtain ⟨o, ho, rfl⟩ := List.mem_map.1 hvalue
      rw [Expr.names_eq_map]
      exact List.mem_map_of_mem (List.mem_of_mem_filter ho)
    · left
      split at htarget
      · cases List.mem_singleton.1 htarget
        rfl
      · split at htarget
        · cases List.mem_singleton.1 htarget
          rfl
        · cases htarget
      · cases htarget

namespace Grammar

/-- The names declared are those that the lexemes of the declarations spell. -/
private theorem spelled_of_declarations {ls : List Lexeme} {ds : List Declaration}
    (h : Repeated IsDeclaration ls ds) : ds.map Declaration.name = spelled ls := by
  induction h with
  | nil => rfl
  | cons hd _ ih =>
    rw [List.map_cons, ih, spelled_append]
    -- the keyword of a declaration spells no name
    cases hd with
    | float hkeyword hname =>
      rw [spelled_cons_of_ne (by simp [hkeyword]), spelled_cons_of_identifier hname]
      rfl
    | int hkeyword hname =>
      rw [spelled_cons_of_ne (by simp [hkeyword]), spelled_cons_of_identifier hname]
      rfl

private theorem name_mem_spelled_of_isProgram {ls : List Lexeme} {p : Program}
    (h : IsProgram ls p) {d : Declaration} (hd : d ∈ p.declarations) : d.name ∈ spelled ls := by
  cases h with
  | mk hds _ =>
    rw [spelled_append, ← spelled_of_declarations hds]
    exact List.mem_append_left _ (List.mem_map_of_mem hd)

end Grammar

/-- What is wrong with a program is wrong with a name that its lexemes spell. -/
private theorem Program.name_of_mem_faults {ls : List Lexeme} {p : Program}
    (hp : Grammar.IsProgram ls p) {capacity : Nat} {d : Diagnostic} (h : d ∈ p.faults capacity) :
    d.name ∈ spelled ls := by
  rw [faults, List.mem_append] at h
  rcases h with hdeclarations | hstatements
  · -- a refusal names the declaration that is refused
    obtain ⟨declaration, hmem, rfl | ⟨_, rfl⟩⟩ := Registry.fault_of_mem_declareAll _ hdeclarations
    · exact Grammar.name_mem_spelled_of_isProgram hp hmem
    · exact Grammar.name_mem_spelled_of_isProgram hp hmem
  · obtain ⟨s, hs, hd⟩ := List.mem_flatMap.1 hstatements
    apply Grammar.mem_spelled_of_isProgram hp
    exact List.mem_flatMap.2 ⟨s, hs, Statement.name_of_mem_faults hd⟩

/-! ## Messages -/

/-- A message has no line feed, unless the name has one. -/
private theorem Diagnostic.not_mem_message {d : Diagnostic} (h : '\n' ∉ d.name.toList) :
    '\n' ∉ d.message.toList := by
  -- numbers are written in digits, and no digit is a line feed
  have hnumber (n : Nat) : '\n' ∉ Nat.toDigits 10 n := by
    intro hmem
    have hdigit := Nat.isDigit_of_mem_toDigits (by decide) (by decide) hmem
    exact absurd hdigit (by decide)
  have hplace : '\n' ∉ d.location.text.toList := by
    simp [Location.text, toString, hnumber]
  have hwords : '\n' ∉ (message.words d).toList := by
    unfold message.words
    cases d with
    | duplicate name l => simpa [Diagnostic.name] using h
    | undeclared name l => simpa [Diagnostic.name] using h
    | narrowing name l => simpa [Diagnostic.name] using h
    | tableFull name capacity l => simpa [Diagnostic.name, toString, hnumber] using h
  simp [message, hplace, hwords]

/-- No message of a compilation has a line feed. -/
theorem not_mem_message_of_compile {settings : Settings} {source : String}
    {compilation : Compilation} (hcompile : (compile settings source).1 = .ok compilation)
    {d : Diagnostic} (hd : d ∈ compilation.diagnostics) : '\n' ∉ d.message.toList := by
  obtain ⟨p, c, hparse, -⟩ := compile_eq_ok_iff.1 hcompile
  obtain ⟨compilation', ls, last, final, hcompile', htokens, hp, hfaults⟩ :=
    diagnostics_eq_faults settings hparse
  cases hcompile.symm.trans hcompile'
  rw [hfaults] at hd
  -- the diagnostic is a fault, so its name is a word of the source, of letters only
  have hspelled : d.name ∈ spelled (ls ++ [last]) := by
    rw [spelled_append]
    exact List.mem_append_left _ (Program.name_of_mem_faults hp hd)
  apply Diagnostic.not_mem_message
  intro hmem
  exact absurd (isLower_of_mem_spelled htokens hspelled '\n' hmem) (by decide)

end DeskCalc
