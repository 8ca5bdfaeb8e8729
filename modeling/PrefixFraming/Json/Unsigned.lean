import PrefixFraming.Json.Number

/-!
# Unsigned numbers

The values of a configuration are unsigned numbers of a given width. `readUnsigned` reads one;
whatever else stands in its place is a fault that names what was found.

This is the reading of `serde` for such numbers on top of `serde_json`: an integer is given if it
fits the type and is a wrong value otherwise, a float never is one, and a value of another type is
read as far as it takes to name it.
-/

namespace PrefixFraming.Json

/-- A type of unsigned numbers. -/
structure Width where
  /-- The type's name in messages. -/
  name : String
  /-- The least number that the type cannot hold. -/
  bound : Nat

/-- Numbers of 32 bits. -/
def Width.word : Width := ⟨"u32", UInt32.size⟩

/-- Numbers of 64 bits that count or size things in memory. -/
def Width.size : Width := ⟨"usize", UInt64.size⟩

/-- The fault of a text where another type was expected. A scalar is read before it is refused, a
list or an object is refused at its bracket. -/
def wrongType (expected : String) (text : List Char) : Fault :=
  let refuse (found : Found) (rest : List Char) : Fault := .here (.wrongType found expected) rest
  let word (letters : List Char) (found : Found) (rest : List Char) : Fault :=
    match readWord letters rest with
    | .ok rest => refuse found rest
    | .error fault => fault
  match text with
  | 'n' :: rest => word ['u', 'l', 'l'] .null rest
  | 't' :: rest => word ['r', 'u', 'e'] (.boolean true) rest
  | 'f' :: rest => word ['a', 'l', 's', 'e'] (.boolean false) rest
  | '"' :: rest =>
    match readString rest with
    | .ok (s, rest) => refuse (.string s) rest
    | .error fault => fault
  | '[' :: _ => refuse .sequence text
  | '{' :: _ => refuse .map text
  | c :: _ =>
    if Number.isStart c then
      match Number.read text with
      | .ok (number, rest) => refuse number.found rest
      | .error fault => fault
    else .next .valueExpected text
  | [] => .next .endInValue []

/-- Reads an unsigned number of the given width. -/
def readUnsigned (width : Width) (text : List Char) : Reading Nat :=
  match skipBlanks text with
  | [] => .error (.next .endInValue [])
  | c :: text =>
    if Number.isStart c then
      match Number.read (c :: text) with
      | .ok (.integer value, rest) =>
        if 0 ≤ value && value < width.bound then .ok (value.toNat, rest)
        else .error (.here (.wrongValue (.integer value) width.name) rest)
      | .ok (number, rest) => .error (.here (.wrongType number.found width.name) rest)
      | .error fault => .error fault
    else .error (wrongType width.name (c :: text))

end PrefixFraming.Json
