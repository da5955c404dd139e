import DeskCalc.Decimal.Fixed
import DeskCalc.Lexeme

/-!
# Digits and their value

The digits that write a number are read as that number. A magnitude with a fixed number of places is
written as digits, a point and as many digits as there are places; without the point these are the
digits of the magnitude counted in units of the last place.

Main statements: `Lexeme.digitsValue_toDigits` and `Magnitude.exists_digits_of_fixed`.
-/

namespace DeskCalc

namespace Lexeme

theorem digitsValue_toDigits (n : Nat) : digitsValue (Nat.toDigits 10 n) = n :=
  Nat.ofDigitChars_ten_toDigits

/-- Digits in front of others count by the place of the first of those. -/
private theorem digitsValue_append (digits more : List Char) :
    digitsValue (digits ++ more) = digitsValue digits * Nat.pow 10 more.length + digitsValue more := by
  have hshift := @Nat.ofDigitChars_eq_ofDigitChars_zero more (digitsValue digits)
  calc digitsValue (digits ++ more)
      = Nat.ofDigitChars 10 more (digitsValue digits) := Nat.ofDigitChars_append 0
    _ = digitsValue digits * Nat.pow 10 more.length + digitsValue more := by
        rw [hshift, Nat.mul_comm]
        rfl

/-- Zeros in front make no difference. -/
private theorem digitsValue_replicate_append (k : Nat) (digits : List Char) :
    digitsValue (List.replicate k '0' ++ digits) = digitsValue digits := by
  have hzeros : digitsValue (List.replicate k '0') = 0 := Nat.ofDigitChars_replicate_zero
  rw [digitsValue_append, hzeros, Nat.zero_mul, Nat.zero_add]

end Lexeme

namespace Magnitude

open Lexeme

/-- The magnitude in units of the last of a number of places, rounded. -/
def inPlaces (places : Nat) (x : Magnitude) : Nat :=
  roundDiv (x.numerator * Nat.pow 10 places) x.denominator

/-- A number that has no more digits than wanted is written with exactly as many. -/
private theorem padded_digits {width n : Nat} (hwidth : 0 < width) (hn : n < Nat.pow 10 width) :
    (padded width n).toList.length = width ∧ (∀ c ∈ (padded width n).toList, c.isDigit) ∧
      digitsValue (padded width n).toList = n := by
  have htext : (padded width n).toList =
      List.replicate (width - n.repr.length) '0' ++ Nat.toDigits 10 n := by
    simp [padded]
  -- there is room for the digits, so the zeros fill up what is left
  have hlength : n.repr.length ≤ width := (Nat.length_repr_le_iff hwidth).2 hn
  refine ⟨?_, ?_, ?_⟩
  · have hdigits : (Nat.toDigits 10 n).length = n.repr.length := by
      rw [← Nat.toList_repr, String.length_toList]
    rw [htext, List.length_append, List.length_replicate, hdigits]
    omega
  · intro c hc
    rw [htext, List.mem_append] at hc
    rcases hc with hc | hc
    · rw [List.eq_of_mem_replicate hc]
      rfl
    · exact Nat.isDigit_of_mem_toDigits (by decide) (by decide) hc
  · rw [htext, digitsValue_replicate_append, digitsValue_toDigits]

/-- A magnitude with places is written as its digits in units of the last place, with a point in
front of the places. -/
theorem exists_digits_of_fixed {places : Nat} (hplaces : 0 < places) (x : Magnitude) :
    ∃ whole fraction, (x.fixed places).toList = whole ++ '.' :: fraction ∧ whole ≠ [] ∧
      (∀ c ∈ whole, c.isDigit) ∧ (∀ c ∈ fraction, c.isDigit) ∧ fraction.length = places ∧
      digitsValue (whole ++ fraction) = x.inPlaces places := by
  have hpos : 0 < Nat.pow 10 places := Nat.pow_pos (by decide)
  -- the places are the remainder, which has no more digits than there are places
  obtain ⟨hlength, hfraction, hvalue⟩ :=
    padded_digits hplaces (Nat.mod_lt (x.inPlaces places) hpos)
  refine ⟨Nat.toDigits 10 (x.inPlaces places / Nat.pow 10 places),
    (padded places (x.inPlaces places % Nat.pow 10 places)).toList, ?_, Nat.toDigits_ne_nil, ?_,
    hfraction, hlength, ?_⟩
  · simp [fixed, inPlaces]
  · intro c hc
    exact Nat.isDigit_of_mem_toDigits (by decide) (by decide) hc
  · -- quotient and remainder make up the magnitude
    rw [digitsValue_append, hlength, hvalue, digitsValue_toDigits, Nat.mul_comm,
      Nat.div_add_mod]

end Magnitude

end DeskCalc
