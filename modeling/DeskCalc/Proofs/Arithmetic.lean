import Mathlib.Data.Int.Basic
import DeskCalc.Operator

/-!
# Integer arithmetic

The operators on 32-bit integers are exact arithmetic that wraps around. Where the exact result has
32 bits they are exact.

Main statements: `Operator.onInts_eq_wrapping?` and `Operator.toInt_of_onInts`.
-/

namespace DeskCalc.Operator

/-- Exact arithmetic on integers. A quotient is cut toward zero; by zero there is none. -/
def onIntegers? (op : Operator) (a b : Int) : Option Int :=
  match op with
  | add => some (a + b)
  | sub => some (a - b)
  | mul => some (a * b)
  | div => if b = 0 then none else some (a.tdiv b)

/-- Arithmetic on 32-bit integers: the exact result wraps around. The quotient of the least integer
by minus one does not: it is missing, as a quotient by zero is. -/
def wrapping? (op : Operator) (a b : Int32) : Option Int32 :=
  if op = div ∧ a = Int32.minValue ∧ b = -1 then none
  else (op.onIntegers? a.toInt b.toInt).map Int32.ofInt

private theorem toInt_eq_zero_iff {b : Int32} : b.toInt = 0 ↔ b = 0 := by
  rw [← Int32.toInt_inj]
  rfl

/-- A quotient that exists is the exact one. -/
theorem toInt_div_of_hasQuotient {a b : Int32} (h : HasQuotient a b) :
    (a / b).toInt = a.toInt.tdiv b.toInt := by
  -- the least integer has no quotient by minus one, and any other has one that fits
  by_cases ha : a = Int32.minValue
  · have hb : b ≠ -1 := fun hb => h.2 ⟨ha, hb⟩
    exact Int32.toInt_div_of_ne_right a b hb
  · exact Int32.toInt_div_of_ne_left a b ha

/-- The operators compute exactly and wrap around. -/
theorem onInts_eq_wrapping? (op : Operator) (a b : Int32) : op.onInts a b = op.wrapping? a b := by
  cases op with
  | add => simp [onInts, wrapping?, onIntegers?]
  | sub => simp [onInts, wrapping?, onIntegers?]
  | mul => simp [onInts, wrapping?, onIntegers?]
  | div =>
    by_cases h : HasQuotient a b
    · have hzero : b.toInt ≠ 0 := fun hb => h.1 (toInt_eq_zero_iff.1 hb)
      have hfits : ¬ (a = Int32.minValue ∧ b = -1) := h.2
      simp only [onInts, if_pos h, wrapping?, hfits, and_false, if_false, onIntegers?, if_neg hzero,
        Option.map_some]
      rw [← toInt_div_of_hasQuotient h, Int32.ofInt_toInt]
    · simp only [onInts, if_neg h, wrapping?]
      split
      · rfl
      · next hfits =>
        -- the only quotient missing beside the one by zero has been dealt with
        have hb : b.toInt = 0 := by
          rw [toInt_eq_zero_iff]
          by_contra hb
          exact h ⟨hb, fun hmin => hfits ⟨trivial, hmin⟩⟩
        simp [onIntegers?, hb]

/-- The integer has 32 bits. -/
def Fits (n : Int) : Prop := Int32.minValue.toInt ≤ n ∧ n ≤ Int32.maxValue.toInt

instance (n : Int) : Decidable (Fits n) := inferInstanceAs (Decidable (_ ∧ _))

/-- An exact result that has 32 bits is what the operators compute. -/
theorem toInt_of_onInts {op : Operator} {a b v : Int32} (h : op.onInts a b = some v) :
    ∃ n, op.onIntegers? a.toInt b.toInt = some n ∧ (Fits n → v.toInt = n) := by
  rw [onInts_eq_wrapping?, wrapping?] at h
  split at h
  · cases h
  · obtain ⟨n, hn, rfl⟩ := Option.map_eq_some_iff.1 h
    exact ⟨n, hn, fun ⟨hlow, hhigh⟩ => Int32.toInt_ofInt_of_le hlow (Int.lt_add_one_of_le hhigh)⟩

end DeskCalc.Operator
