import DeskCalc.Decimal.Single

/-!
# The shortest decimal text of a number

Of the decimals that a single-precision reader rounds to a given number, one with the fewest
digits is written, and among those the nearest to the number; of two that are equally near, the
larger. Whether the point is written or an exponent is a matter of style.

The search tries one digit, then two, and so on. On each grid of decimals only the two neighbours
of the number need be tried: the decimals that round to it form an interval around it.

Main statement: `Interval.nearest?_isSome_iff` — a grid is taken as soon as one of the two
neighbours lies in the interval.
-/

namespace DeskCalc

/-- The decimal `value * 10 ^ exponent`. -/
structure Decimal where
  value : Nat
  exponent : Int
deriving DecidableEq, Inhabited

namespace Decimal

/-- The decimal over a common denominator with magnitudes of exponent `binary`. -/
def scaled (d : Decimal) (binary : Int) : Nat :=
  d.value * Nat.pow 10 d.exponent.toNat * Nat.pow 2 (-binary).toNat

end Decimal

/-! ## The decimals that round to a number -/

/-- A number and the ends of the interval of reals that round to it, all three as multiples of
`2 ^ exponent`. -/
structure Interval where
  low : Nat
  middle : Nat
  high : Nat
  exponent : Int
  /-- Whether the ends round to the number as well. -/
  closed : Bool
deriving DecidableEq, Inhabited

namespace Interval

/-- The interval of a positive single-precision number. It reaches half a place to both sides,
but down from a power of two only a quarter, since the numbers below lie twice as close. The ends
belong to the number with the even significand. -/
def ofMagnitude (x : Magnitude) : Interval :=
  let below :=
    if x.significand = Nat.pow 2 Single.fractionBits ∧ Single.leastExponent < x.exponent then 1
    else 2
  { low := 4 * x.significand - below
    middle := 4 * x.significand
    high := 4 * x.significand + 2
    exponent := x.exponent - 2
    closed := x.significand % 2 = 0 }

/-- A multiple of `2 ^ exponent` over a common denominator with decimals of exponent `ten`. -/
def scaled (i : Interval) (multiple : Nat) (ten : Int) : Nat :=
  multiple * Nat.pow 2 i.exponent.toNat * Nat.pow 10 (-ten).toNat

/-- Whether the decimal rounds to the number. -/
def admits (i : Interval) (d : Decimal) : Bool :=
  let point := d.scaled i.exponent
  let low := i.scaled i.low d.exponent
  let high := i.scaled i.high d.exponent
  (low < point || (i.closed && low = point)) && (point < high || (i.closed && point = high))

/-- The greatest multiple of `10 ^ ten` that is not above the number. -/
def floor (i : Interval) (ten : Int) : Decimal :=
  ⟨i.scaled i.middle ten / (Nat.pow 10 ten.toNat * Nat.pow 2 (-i.exponent).toNat), ten⟩

/-- The exponent of the leading decimal digit of the number. -/
def leadingExponent (i : Interval) : Int :=
  -- enough places for the number to have a digit before the point
  let places := (toString (Nat.pow 2 (-i.exponent).toNat)).length
  ((toString (i.floor (-places)).value).length : Int) - 1 - places

/-- The nearest multiple of `10 ^ ten` that rounds to the number, if one does. -/
def nearest? (i : Interval) (ten : Int) : Option Decimal :=
  let down := i.floor ten
  let up := { down with value := down.value + 1 }
  match i.admits down, i.admits up with
  | true, true =>
    if 2 * i.scaled i.middle ten < down.scaled i.exponent + up.scaled i.exponent then some down
    else some up
  | true, false => some down
  | false, true => some up
  | false, false => none

/-- A grid is taken as soon as one of the two neighbours of the number lies in the interval. -/
theorem nearest?_isSome_iff {i : Interval} {ten : Int} :
    (i.nearest? ten).isSome ↔
      i.admits (i.floor ten) ∨ i.admits { i.floor ten with value := (i.floor ten).value + 1 } := by
  unfold nearest?
  dsimp only
  split <;> simp_all
  split <;> simp

end Interval

/-! ## Text -/

/-- The most significant digits that a single-precision number can need. -/
def maxSingleDigits : Nat := 9

/-- A decimal with the fewest digits that reads back as the positive number `x`. -/
def Magnitude.shortest (x : Magnitude) : Decimal :=
  let i := Interval.ofMagnitude x
  let grids := (List.range maxSingleDigits).map fun behind : Nat => i.leadingExponent - behind
  (grids.findSome? i.nearest?).getD (i.floor (i.leadingExponent - maxSingleDigits))

/-- Which decimals are written with a point and no exponent: those whose leading digit stands for
at least `10 ^ least` and less than `10 ^ bound`. -/
structure PointRange where
  least : Int
  bound : Int
deriving DecidableEq, Inhabited

/-- A decimal with its point: at least one digit stands on either side. -/
def pointed (digits : List Char) (leading : Int) : String :=
  if leading < 0 then
    "0." ++ String.ofList (List.replicate (-leading - 1).toNat '0' ++ digits)
  else
    let whole := leading.toNat + 1
    let padded := digits ++ List.replicate (whole - digits.length) '0'
    let behind := padded.drop whole
    String.ofList (padded.take whole ++ '.' :: if behind.isEmpty then ['0'] else behind)

/-- A decimal with an exponent: a point follows the first digit if there are more. -/
def exponential (digits : List Char) (leading : Int) : String :=
  let mantissa :=
    match digits with
    | first :: second :: more => first :: '.' :: second :: more
    | short => short
  String.ofList mantissa ++ "e" ++ toString leading

/-- The shortest text of a magnitude, with a point where `range` says so. -/
def Magnitude.shortestText (range : PointRange) (x : Magnitude) : String :=
  if x.significand = 0 then pointed ['0'] 0
  else
    let d := x.shortest
    let written := (toString d.value).toList
    let leading := d.exponent + written.length - 1
    -- a carry into a new digit leaves a zero at the end
    let digits := (written.reverse.dropWhile (· = '0')).reverse
    if range.least ≤ leading ∧ leading < range.bound then pointed digits leading
    else exponential digits leading

end DeskCalc
