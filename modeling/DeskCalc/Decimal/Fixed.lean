import DeskCalc.Decimal.Single

/-!
# Decimal text with a fixed number of places

A magnitude is written with exactly the places asked for, rounded once from its exact value; a
value half way between two neighbours goes to the even one.

Main statements: `roundDiv_mul_le` and `le_roundDiv_mul` — a rounded quotient is within half a unit
of the exact one; `even_roundDiv_of_tie` — a tie goes to the even neighbour.
-/

namespace DeskCalc

/-- The natural number nearest to `num / den`; a tie goes to the even one. -/
def roundDiv (num den : Nat) : Nat :=
  let down := num / den
  let twice := 2 * (num % den)
  if twice < den ∨ (twice = den ∧ down % 2 = 0) then down else down + 1

/-- A rounded quotient is at most half a unit too large. -/
theorem roundDiv_mul_le (num : Nat) {den : Nat} (h : 0 < den) :
    2 * (roundDiv num den * den) ≤ 2 * num + den := by
  have hdiv := Nat.div_add_mod num den
  have hmod := Nat.mod_lt num h
  unfold roundDiv
  dsimp only
  rw [Nat.mul_comm _ den]
  split
  · omega
  · rw [Nat.mul_add]
    omega

/-- A rounded quotient is at most half a unit too small. -/
theorem le_roundDiv_mul (num : Nat) {den : Nat} (h : 0 < den) :
    2 * num ≤ 2 * (roundDiv num den * den) + den := by
  have hdiv := Nat.div_add_mod num den
  have hmod := Nat.mod_lt num h
  unfold roundDiv
  dsimp only
  rw [Nat.mul_comm _ den]
  split
  · omega
  · rw [Nat.mul_add]
    omega

/-- A tie goes to the even neighbour. -/
theorem even_roundDiv_of_tie {num den : Nat} (h : 2 * (num % den) = den) :
    roundDiv num den % 2 = 0 := by
  unfold roundDiv
  dsimp only
  split <;> omega

namespace Magnitude

/-- The decimal digits of `n`, with zeros in front to make at least `width` of them. -/
def padded (width n : Nat) : String :=
  let digits := toString n
  String.ofList (List.replicate (width - digits.length) '0') ++ digits

/-- The magnitude with exactly `places` digits behind the point. -/
def fixed (places : Nat) (x : Magnitude) : String :=
  let scaled := roundDiv (x.numerator * Nat.pow 10 places) x.denominator
  toString (scaled / Nat.pow 10 places) ++ "." ++ padded places (scaled % Nat.pow 10 places)

end Magnitude

end DeskCalc
