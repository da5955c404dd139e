/-!
# The exact value of a single-precision number

A single-precision number is not a number, infinite, or a whole multiple of a power of two. The
decimal texts of a number are computed from this exact form.

Main statement: `Magnitude.denominator_pos` — a magnitude is a quotient of natural numbers with a
positive denominator.
-/

namespace DeskCalc

/-- The number `significand * 2 ^ exponent`. -/
structure Magnitude where
  significand : Nat
  exponent : Int
deriving DecidableEq, Inhabited

namespace Magnitude

/-- The numerator of the magnitude as a quotient of natural numbers. -/
def numerator (x : Magnitude) : Nat := x.significand * Nat.pow 2 x.exponent.toNat

/-- The denominator of the magnitude as a quotient of natural numbers. -/
def denominator (x : Magnitude) : Nat := Nat.pow 2 (-x.exponent).toNat

theorem denominator_pos (x : Magnitude) : 0 < x.denominator := Nat.pow_pos (by decide)

end Magnitude

/-- What a single-precision number stands for. -/
inductive Single where
  | notANumber
  | infinite (negative : Bool)
  | finite (negative : Bool) (magnitude : Magnitude)
deriving DecidableEq, Inhabited

namespace Single

/-- How many bits hold the fraction of a number. -/
def fractionBits : Nat := 23

/-- The exponent of the last place of the numbers nearest to zero. -/
def leastExponent : Int := -149

/-- Read the parts of a number off its bits: a sign, eight exponent bits and the fraction. -/
def ofFloat32 (x : Float32) : Single :=
  let bits := x.toBits.toNat
  let negative := bits / Nat.pow 2 31 % 2 == 1
  let biased : Nat := bits / Nat.pow 2 fractionBits % Nat.pow 2 8
  let fraction : Nat := bits % Nat.pow 2 fractionBits
  if biased = 255 then
    if fraction = 0 then .infinite negative else .notANumber
  else if biased = 0 then
    -- the smallest numbers have no leading bit of their own
    .finite negative ⟨fraction, leastExponent⟩
  else .finite negative ⟨Nat.pow 2 fractionBits + fraction, biased - 1 + leastExponent⟩

/-- The text of a number, given how to write a finite magnitude. A sign is written for zero and
infinity as well. -/
def text (write : Magnitude → String) : Single → String
  | notANumber => "NaN"
  | infinite negative => signed negative "inf"
  | finite negative magnitude => signed negative (write magnitude)
where
  /-- A minus in front of a negative number. -/
  signed (negative : Bool) (s : String) : String := if negative then "-" ++ s else s

end Single

end DeskCalc
