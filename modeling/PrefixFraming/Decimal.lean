/-!
# Decimals

A decimal in scientific form, and the one way this library writes it: without an exponent while the
first digit stands near the point, and with a signed exponent otherwise.
-/

namespace PrefixFraming

/-- A number in scientific form: its digits, of which the first stands before the point, times a
power of ten. -/
structure Decimal where
  /-- Whether a minus sign stands in front; zero has a sign too. -/
  negative : Bool
  /-- The significant digits. -/
  digits : List Nat
  /-- The power of ten of the first digit. -/
  exponent : Int
deriving DecidableEq

namespace Decimal

/-- The exponents that are written without an exponent mark. -/
def isPlain (exponent : Int) : Bool := -5 ≤ exponent && exponent ≤ 15

/-- The exponent after its mark: always a sign, then as many digits as it needs. -/
def renderExponent (exponent : Int) : List Char :=
  let sign := if exponent < 0 then '-' else '+'
  'e' :: sign :: Nat.toDigits 10 exponent.natAbs

/-- The digits with a point after the first `whole` of them; a side of the point that is left
without digits gets a zero. -/
def renderPlain (digits : List Char) (whole : Int) : List Char :=
  if whole ≤ 0 then ['0', '.'] ++ List.replicate whole.natAbs '0' ++ digits
  else
    let before := digits.take whole.toNat ++ List.replicate (whole.toNat - digits.length) '0'
    let after := digits.drop whole.toNat
    before ++ '.' :: (if after.isEmpty then ['0'] else after)

/-- The digits with a point after the first, which is left out when no digit follows it. -/
def renderScientific (digits : List Char) (exponent : Int) : List Char :=
  match digits with
  | [] => []
  | [d] => d :: renderExponent exponent
  | d :: rest => d :: '.' :: (rest ++ renderExponent exponent)

/-- The number as text. -/
def render (x : Decimal) : String :=
  let digits := x.digits.map Nat.digitChar
  let body :=
    if isPlain x.exponent then renderPlain digits (x.exponent + 1)
    else renderScientific digits x.exponent
  String.ofList (if x.negative then '-' :: body else body)

end Decimal

end PrefixFraming
