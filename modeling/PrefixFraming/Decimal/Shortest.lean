import PrefixFraming.Decimal

/-!
# The shortest decimal of a double

A double stands for all reals that round to it, and any decimal among those reads back as the same
double. `shortest` picks the one with the fewest digits, and of several the nearest to the double's
exact value, the even one when two are equally near.

The exact value is a fraction, and so are the ends of the interval; all comparisons are made between
natural numbers. Of the decimals with `n` digits only the two neighbours of the exact value matter:
if any of them lies in the interval, a neighbour does. Seventeen digits always suffice.
-/

namespace PrefixFraming.Decimal

/-- The leading bit of a mantissa, which the encoding of a double leaves out. -/
def hiddenBit : Nat := 0x10000000000000

/-- The exponent of the smallest doubles, which have no leading bit. -/
def leastExponent : Int := -1074

/-- A positive double's exact value and the reals that round to it, as numerators over one
denominator. -/
structure Interval where
  /-- The numerator of the lower end. -/
  lower : Nat
  /-- The numerator of the exact value. -/
  exact : Nat
  /-- The numerator of the upper end. -/
  upper : Nat
  /-- The common denominator. -/
  denominator : Nat
  /-- Whether the ends themselves round to the double. -/
  closed : Bool

namespace Interval

/-- The interval of the double `mantissa * 2 ^ exponent`. The gap below a power of two is half the
gap above it, unless the double is the smallest of its kind. -/
def ofBinary (mantissa : Nat) (exponent : Int) : Interval :=
  let below := if mantissa = hiddenBit && exponent != leastExponent then 1 else 2
  { lower := (4 * mantissa - below) <<< exponent.toNat
    exact := (4 * mantissa) <<< exponent.toNat
    upper := (4 * mantissa + 2) <<< exponent.toNat
    denominator := 4 <<< (-exponent).toNat
    closed := mantissa % 2 = 0 }

/-- Whether `x / denominator` lies in the interval. -/
def contains (i : Interval) (x : Nat) : Bool :=
  if i.closed then i.lower ≤ x && x ≤ i.upper else i.lower < x && x < i.upper

/-- The power of ten of the exact value's first digit. -/
def leadingExponent (i : Interval) : Int :=
  if i.denominator ≤ i.exact then
    (Nat.toDigits 10 (i.exact / i.denominator)).length - 1
  else
    -(Nat.toDigits 10 ((i.denominator - 1) / i.exact)).length

/-- The interval measured in units of `10 ^ g`. -/
def inUnits (i : Interval) (g : Int) : Interval :=
  let up := Nat.pow 10 (-g).toNat
  { i with
    lower := i.lower * up
    exact := i.exact * up
    upper := i.upper * up
    denominator := i.denominator * Nat.pow 10 g.toNat }

/-- The whole number in the interval that is nearest to the exact value, if its two neighbours
hold one. -/
def nearestWhole? (i : Interval) : Option Nat :=
  let floor := i.exact / i.denominator
  let down := i.exact - floor * i.denominator
  let up := i.denominator - down
  match i.contains (floor * i.denominator), i.contains ((floor + 1) * i.denominator) with
  | true, true =>
    if down < up || down = up && floor % 2 = 0 then some floor else some (floor + 1)
  | true, false => some floor
  | false, true => some (floor + 1)
  | false, false => none

/-- The first of some grids on which the interval holds a point, and that point: `whole * 10 ^ g`
is given as `(whole, g)`. -/
def firstHit? (i : Interval) (grids : List Int) : Option (Nat × Int) :=
  grids.findSome? fun g => (i.inUnits g).nearestWhole?.map fun whole => (whole, g)

end Interval

/-- The digits of `whole * 10 ^ g`, without the zeros at their end. -/
def ofWhole (negative : Bool) (whole : Nat) (g : Int) : Decimal :=
  let digits := (Nat.toDigits 10 whole).map fun c => c.toNat - '0'.toNat
  let kept := (digits.reverse.dropWhile (· = 0)).reverse
  { negative
    digits := if kept.isEmpty then [0] else kept
    exponent := if kept.isEmpty then 0 else g + (digits.length - 1) }

/-- The shortest decimal of a finite double. -/
def shortest (x : Float) : Decimal :=
  let negative := x.toBits >>> 63 = 1
  let biased := (x.toBits >>> 52 &&& 0x7ff).toNat
  let fraction := (x.toBits &&& 0xfffffffffffff).toNat
  let mantissa := if biased = 0 then fraction else hiddenBit + fraction
  let exponent := if biased = 0 then leastExponent else leastExponent + biased - 1
  if mantissa = 0 then ofWhole negative 0 0
  else
    let i := Interval.ofBinary mantissa exponent
    let grids := (List.range 17).map fun (n : Nat) => i.leadingExponent - n
    let (whole, g) := (i.firstHit? grids).getD (0, 0)
    ofWhole negative whole g

end PrefixFraming.Decimal
