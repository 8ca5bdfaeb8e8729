import PrefixFraming.Json.Error

/-!
# Blanks, words and strings

The parts of a document that are read character by character. Each reader takes the text in front of
it and returns what it read together with the text that follows, or a fault.

A string is read from behind its opening quote up to and including the closing one. An escape is
read on its own by `escape`, which says how many characters it takes up, so that reading goes on
with a shorter text whatever the escape was.

Blanks, words, escapes and the characters that a string cannot hold are those of JSON. Which fault a
text has that is none of these, and in front of which byte, follows `serde_json`, which reads a text
once from left to right and stops at the first fault.
-/

namespace PrefixFraming.Json

/-- What a reader of `α` makes of a text: a value and the text that follows, or a fault. -/
abbrev Reading (α : Type) := Except Fault (α × List Char)

/-- The characters that may stand between tokens. -/
def isBlank (c : Char) : Bool := c = ' ' || c = '\n' || c = '\t' || c = '\r'

/-- The text from its first character that is not blank. -/
def skipBlanks (text : List Char) : List Char := text.dropWhile isBlank

/-- Reads the rest of a word that its first letter has announced. -/
def readWord : List Char → List Char → Except Fault (List Char)
  | [], text => .ok text
  | _ :: _, [] => .error (.here .endInValue [])
  | w :: word, c :: text =>
    if c = w then readWord word text else .error (.next .wordExpected (c :: text))

/-! ## Strings -/

/-- The value of a hexadecimal digit in either case. -/
def hexDigit? (c : Char) : Option Nat :=
  if '0' ≤ c && c ≤ '9' then some (c.toNat - '0'.toNat)
  else if 'a' ≤ c && c ≤ 'f' then some (c.toNat - 'a'.toNat + 10)
  else if 'A' ≤ c && c ≤ 'F' then some (c.toNat - 'A'.toNat + 10)
  else none

/-- The number that four hexadecimal digits at the head of a text spell. -/
def hexUnit? : List Char → Option Nat
  | a :: b :: c :: d :: _ => do
    let a ← hexDigit? a
    let b ← hexDigit? b
    let c ← hexDigit? c
    let d ← hexDigit? d
    some (((a * 16 + b) * 16 + c) * 16 + d)
  | _ => none

/-- Four bytes make a hexadecimal unit: with fewer left the string has no end, and four others are
read before they are refused. -/
def hexUnit (text : List Char) : Except Fault Nat :=
  match hexUnit? text with
  | some unit => .ok unit
  | none =>
    if byteCount text < 4 then .error (.here .endInString [])
    else .error ⟨.badEscape, byteCount text - 4⟩

/-- Whether a unit is the first half of a surrogate pair. -/
def isLeadSurrogate (unit : Nat) : Bool := 0xd800 ≤ unit && unit ≤ 0xdbff

/-- Whether a unit is the second half of a surrogate pair. -/
def isTrailSurrogate (unit : Nat) : Bool := 0xdc00 ≤ unit && unit ≤ 0xdfff

/-- The character that a surrogate pair stands for. -/
def pairChar (lead trail : Nat) : Char :=
  Char.ofNat (0x10000 + (lead - 0xd800) * 0x400 + (trail - 0xdc00))

/-- What a single character after the backslash stands for. -/
def simpleEscape? : Char → Option Char
  | '"' => some '"'
  | '\\' => some '\\'
  | '/' => some '/'
  | 'b' => some '\x08'
  | 'f' => some '\x0c'
  | 'n' => some '\n'
  | 'r' => some '\r'
  | 't' => some '\t'
  | _ => none

/-- The second half of a surrogate pair, behind the digits of the first: another escape, whose
digits are a trailing surrogate. -/
def trailEscape (lead : Nat) : List Char → Except Fault Char
  | [] => .error (.here .endInString [])
  | '\\' :: [] => .error (.here .endInString [])
  | '\\' :: 'u' :: text => do
    let trail ← hexUnit text
    if isTrailSurrogate trail then .ok (pairChar lead trail)
    else .error (.here .loneSurrogate (text.drop 4))
  | '\\' :: text => .error (.next .surrogatePairExpected text)
  | text => .error (.next .surrogatePairExpected text)

/-- What the escape behind a backslash stands for, and how many characters it takes up. -/
def escape : List Char → Except Fault (Char × Nat)
  | [] => .error (.here .endInString [])
  | 'u' :: text => do
    let unit ← hexUnit text
    if isTrailSurrogate unit then .error (.here .loneSurrogate (text.drop 4))
    else if isLeadSurrogate unit then do
      let c ← trailEscape unit (text.drop 4)
      .ok (c, 11)
    else .ok (Char.ofNat unit, 5)
  | c :: text =>
    match simpleEscape? c with
    | some x => .ok (x, 1)
    | none => .error (.next .badEscape (c :: text))

/-- Reads a string up to its closing quote, behind characters that have been read already and are
kept in reverse. -/
def readStringOnto (read : List Char) : List Char → Reading (List Char)
  | [] => .error (.here .endInString [])
  | '"' :: text => .ok (read.reverse, text)
  | '\\' :: text =>
    match escape text with
    | .ok (c, length) => readStringOnto (c :: read) (text.drop length)
    | .error fault => .error fault
  | c :: text =>
    if c < ' ' then .error (.next .controlCharacter (c :: text))
    else readStringOnto (c :: read) text
termination_by text => text.length
decreasing_by
  · simp only [List.length_cons, List.length_drop]
    omega
  · simp only [List.length_cons]
    omega

/-- Reads a string from behind its opening quote. -/
def readString (text : List Char) : Reading String :=
  match readStringOnto [] text with
  | .ok (cs, rest) => .ok (String.ofList cs, rest)
  | .error fault => .error fault

end PrefixFraming.Json
