import DeskCalc.Journal
import DeskCalc.Text.WhiteSpace

/-!
# Settings

A compilation has two settings: the number of slots of the symbol table, and whether coercions
change the scale. The environment may override both; a value that makes no sense is ignored and
logged, and one that is no text counts as absent.

Main statement: `Settings.symbolCapacity_pos` — the environment never sets an empty table.
-/

namespace DeskCalc

/-- What a compilation can be told beside its source. -/
structure Settings where
  /-- The number of slots of the symbol table. -/
  symbolCapacity : Nat := 46
  /-- Whether a coercion sets five decimal places. -/
  coercionScale : Bool := true
deriving DecidableEq, Inhabited

/-- Environment variables and their bytes. -/
abbrev Environment := List (String × ByteArray)

namespace Environment

/-- The text of a variable, if it is set and is text. -/
def text? (env : Environment) (name : String) : Option String :=
  (env.lookup name).bind String.fromUTF8?

end Environment

namespace Settings

/-- The variable that sets the number of slots. -/
def capacityVariable : String := "ACDC_SYMBOL_CAPACITY"

/-- The variable that says whether coercions change the scale. -/
def scaleVariable : String := "ACDC_COERCION_SCALE"

/-- The greatest number of slots that can be asked for. -/
def maxCapacity : Nat := UInt64.size - 1

/-- A positive number of 64 bits in decimal digits, possibly behind a plus. -/
def capacity? (s : String) : Option Nat :=
  let digits :=
    match s.toList with
    | '+' :: digits => digits
    | digits => digits
  let n := Lexeme.digitsValue digits
  if digits ≠ [] ∧ digits.all Char.isDigit ∧ 0 < n ∧ n ≤ maxCapacity then some n else none

/-- How a switch is turned on or off: by a word or a digit. -/
def switch? (s : String) : Option Bool :=
  if s ∈ ["1", "true", "yes", "on"] then some true
  else if s ∈ ["0", "false", "no", "off"] then some false
  else none

/-- Override the number of slots by what the environment says, if anything. -/
def withCapacity (settings : Settings) : Option String → Settings × Journal
  | none => (settings, [])
  | some value =>
    match capacity? (trimmed value) with
    | some symbolCapacity => ({ settings with symbolCapacity }, [])
    | none => (settings, [.ignored capacityVariable value])

/-- Override the switch by what the environment says, if anything. -/
def withScale (settings : Settings) : Option String → Settings × Journal
  | none => (settings, [])
  | some value =>
    match switch? (trimmed value) with
    | some coercionScale => ({ settings with coercionScale }, [])
    | none =>
      -- a blank value is as good as none
      if trimmed value = "" then (settings, []) else (settings, [.ignored scaleVariable value])

/-- The settings that an environment asks for. -/
def ofEnvironment (env : Environment) : Settings × Journal :=
  let (settings, log) := withCapacity {} (env.text? capacityVariable)
  let (settings, more) := settings.withScale (env.text? scaleVariable)
  (settings, log ++ more)

/-- Asking for slots never asks for none. -/
theorem pos_of_capacity? {s : String} {n : Nat} (h : capacity? s = some n) : 0 < n := by
  unfold capacity? at h
  dsimp only at h
  split at h <;> split at h <;> cases h
  all_goals
    next hcond => exact hcond.2.2.1

/-- The environment never sets an empty table. -/
theorem symbolCapacity_pos (env : Environment) : 0 < (ofEnvironment env).1.symbolCapacity := by
  have hcapacity (value : Option String) : 0 < (withCapacity {} value).1.symbolCapacity := by
    unfold withCapacity
    split
    · exact Nat.succ_pos _
    · split
      · next n hn => exact pos_of_capacity? hn
      · exact Nat.succ_pos _
  have hscale (settings : Settings) (value : Option String) :
      (settings.withScale value).1.symbolCapacity = settings.symbolCapacity := by
    unfold withScale
    split
    · rfl
    · split
      · rfl
      · split <;> rfl
  simp only [ofEnvironment, hscale]
  exact hcapacity _

end Settings

end DeskCalc
