import PrefixFraming.Decimal.Shortest
import PrefixFraming.Json.Token

/-!
# Numbers

A number is a sign, digits, and perhaps a fraction and an exponent. Its digits are gathered into a
significand of 64 bits for as long as they fit; those that no longer fit only move the point. A
number written without point and exponent whose digits all fit is an integer, any other is a float.

A float's value is found with one multiplication or division by a power of ten, which rounds once
more than the exact value of the digits would: the value is part of messages, and those show it.

All of this is how `serde_json` reads numbers when none of its features is turned on that would have
it keep their digits or round only once.
-/

namespace PrefixFraming.Json

/-- What a number stands for. -/
inductive Number where
  /-- An integer that fits into 64 bits, with or without a sign. -/
  | integer (value : Int)
  /-- Any other number, rounded to a double. -/
  | float (value : Float)

/-- The number as messages name it. -/
def Number.found : Number → Found
  | .integer value => .integer value
  | .float value => .float (Decimal.shortest value)

namespace Number

/-- Whether a number may begin with `c`. -/
def isStart (c : Char) : Bool := c = '-' || c.isDigit

/-- The value of a decimal digit. -/
def digit (c : Char) : Nat := c.toNat - '0'.toNat

/-- Appends digits to `n` for as long as the value stays below `bound`; also returns the digits that
were left over. -/
def gather (bound : Nat) (n : Nat) : List Char → Nat × List Char
  | [] => (n, [])
  | c :: digits =>
    if 10 * n + digit c < bound then gather bound (10 * n + digit c) digits
    else (n, c :: digits)

/-- Significands stay below this bound. -/
def significandBound : Nat := UInt64.size

/-- Exponents stay below this bound, the least number that has no signed 32-bit form. -/
def exponentBound : Nat := 0x80000000

/-! ## Values of floats -/

/-- The double nearest to a power of ten. -/
def powerOfTen (k : Nat) : Float := Float.ofScientific 1 false k

/-- Divides by `10 ^ 308` while the exponent lies below the powers of ten that a double can hold.
Three divisions bring any significand to zero. -/
def lift : Nat → Float → Int → Float × Int
  | 0, _, _ => (0, 0)
  | more + 1, x, e =>
    if -308 ≤ e then (x, e)
    else if x == 0 then (x, 0)
    else lift more (x / powerOfTen 308) (e + 308)

/-- The double for `significand * 10 ^ exponent`, if it is not too large. -/
def scale? (significand : Nat) (exponent : Int) : Option Float :=
  let x := significand.toUInt64.toFloat
  if 308 < exponent then
    if x == 0 then some x else none
  else
    let (x, e) := lift 3 x exponent
    if 0 ≤ e then
      let y := x * powerOfTen e.toNat
      if y.isInf then none else some y
    else some (x / powerOfTen (-e).toNat)

/-- The number with its sign. -/
def signed (negative : Bool) (x : Float) : Number := .float (if negative then -x else x)

/-- The float whose digits end in front of `text`. -/
def floatAt (negative : Bool) (significand : Nat) (exponent : Int) (text : List Char) :
    Reading Number :=
  match scale? significand exponent with
  | some x => .ok (signed negative x, text)
  | none => .error (.here .numberOutOfRange text)

/-! ## Reading -/

/-- Splits the digits off the head of a text. -/
def spanDigits (text : List Char) : List Char × List Char :=
  (text.takeWhile Char.isDigit, text.dropWhile Char.isDigit)

/-- Takes a sign off the head of an exponent; without one the exponent is not negative. -/
def exponentSign : List Char → Bool × List Char
  | '-' :: text => (true, text)
  | '+' :: text => (false, text)
  | text => (false, text)

/-- Reads an exponent from behind its mark and moves the point by it. One too large to gather makes
the number zero, or puts it out of range if it is positive and the number is not zero. -/
def readExponent (negative : Bool) (significand : Nat) (point : Int) (text : List Char) :
    Reading Number :=
  let (down, text) := exponentSign text
  match text with
  | [] => .error (.here .endInValue [])
  | c :: _ =>
    if !c.isDigit then .error (.next .badNumber text)
    else
      let (digits, rest) := spanDigits text
      match gather exponentBound 0 digits with
      | (e, []) =>
        floatAt negative significand (if down then point - e else point + e) rest
      | (_, _ :: unread) =>
        if significand != 0 && !down then .error (.here .numberOutOfRange (unread ++ rest))
        else .ok (signed negative 0, rest)

/-- The float that ends in front of `text` or is continued there by an exponent. -/
def readScale (negative : Bool) (significand : Nat) (point : Int) : List Char → Reading Number
  | 'e' :: text => readExponent negative significand point text
  | 'E' :: text => readExponent negative significand point text
  | text => floatAt negative significand point text

/-- Reads a fraction from behind its point. -/
def readFraction (negative : Bool) (significand : Nat) (point : Int) (text : List Char) :
    Reading Number :=
  let (digits, rest) := spanDigits text
  match digits, rest with
  | [], [] => .error (.next .endInValue [])
  | [], rest => .error (.next .badNumber rest)
  | digits, rest =>
    let (significand, unread) := gather significandBound significand digits
    readScale negative significand (point - (digits.length - unread.length : Nat)) rest

/-- The number without point and exponent that has this sign and significand. Zero with a minus sign
and integers below the 64-bit range are floats. -/
def ofDigits (negative : Bool) (significand : Nat) : Number :=
  if !negative then .integer significand
  else if 0 < significand && significand ≤ 0x8000000000000000 then .integer (-significand)
  else signed true significand.toUInt64.toFloat

/-- Reads what follows the integer digits of a number, of which `overflow` no longer fitted. -/
def readTail (negative : Bool) (significand overflow : Nat) : List Char → Reading Number
  | '.' :: text => readFraction negative significand overflow text
  | 'e' :: text => readExponent negative significand overflow text
  | 'E' :: text => readExponent negative significand overflow text
  | text =>
    if overflow = 0 then .ok (ofDigits negative significand, text)
    else floatAt negative significand overflow text

/-- Reads a number from behind its sign: digits, of which only a lone first one may be zero, and
their tail. -/
def readMagnitude (negative : Bool) : List Char → Reading Number
  | [] => .error (.here .endInValue [])
  | '0' :: text =>
    match text with
    | c :: _ =>
      if c.isDigit then .error (.next .badNumber text) else readTail negative 0 0 text
    | [] => readTail negative 0 0 text
  | c :: text =>
    if !c.isDigit then .error (.next .badNumber (c :: text))
    else
      let (digits, rest) := spanDigits (c :: text)
      let (significand, unread) := gather significandBound 0 digits
      readTail negative significand unread.length rest

/-- Reads a number. -/
def read : List Char → Reading Number
  | '-' :: text => readMagnitude true text
  | text => readMagnitude false text

end Number

end PrefixFraming.Json
