/-!
# Quoted text

How bytes and strings are shown inside double quotes. Line feed, carriage return, tab, NUL, the
backslash and the double quote have a short escape each. Of the others, a byte outside printable
ASCII is written with two hexadecimal digits, and a control character in braces.
-/

namespace PrefixFraming.Quoted

/-- The character after the backslash, for a character that has a short escape. -/
def shortEscape? : Char → Option Char
  | '\n' => some 'n'
  | '\r' => some 'r'
  | '\t' => some 't'
  | '\x00' => some '0'
  | '\\' => some '\\'
  | '"' => some '"'
  | _ => none

/-- The control characters of ASCII and of the block that follows it. -/
def isControl (c : Char) : Bool :=
  c.toNat < 0x20 || 0x7f ≤ c.toNat && c.toNat < 0xa0

/-- One byte between quotes. -/
def byte (b : UInt8) : List Char :=
  let c := Char.ofNat b.toNat
  match shortEscape? c with
  | some e => ['\\', e]
  | none =>
    if 0x20 ≤ b && b ≤ 0x7e then [c]
    else ['\\', 'x', Nat.digitChar (b.toNat / 16), Nat.digitChar (b.toNat % 16)]

/-- One character between quotes. -/
def char (c : Char) : List Char :=
  match shortEscape? c with
  | some e => ['\\', e]
  | none =>
    if isControl c then ['\\', 'u', '{'] ++ Nat.toDigits 16 c.toNat ++ ['}']
    else [c]

/-- Bytes in quotes, marked as bytes by the letter in front. -/
def bytes (bs : List UInt8) : String :=
  String.ofList ('b' :: '"' :: (bs.flatMap byte ++ ['"']))

/-- A string in quotes. -/
def string (s : String) : String :=
  String.ofList ('"' :: (s.toList.flatMap char ++ ['"']))

end PrefixFraming.Quoted
