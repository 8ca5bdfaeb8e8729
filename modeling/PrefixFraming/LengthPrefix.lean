/-!
# Length prefixes

Every frame on the wire opens with the length of its payload: four bytes, least significant first.
`encode` writes a length and `decode?` reads one from a buffer that holds all four bytes. A stream
hands over its bytes piecemeal, so a prefix can also arrive a byte at a time: `Partial` holds the
part that has arrived and `Partial.push` takes the next byte, which is shifted into place.
-/

namespace PrefixFraming

namespace LengthPrefix

/-- The number of bytes in a length prefix. -/
def size : Nat := 4

/-- The bytes of a length, least significant first. -/
def encode (length : UInt32) : List UInt8 :=
  [length.toUInt8, (length >>> 8).toUInt8, (length >>> 16).toUInt8, (length >>> 24).toUInt8]

/-- The number that four bytes spell in base 256, least significant first. -/
def value (b₀ b₁ b₂ b₃ : UInt8) : UInt32 :=
  b₀.toUInt32 + 256 * b₁.toUInt32 + 65536 * b₂.toUInt32 + 16777216 * b₃.toUInt32

/-- The length at the head of a buffer, if the buffer holds a whole prefix; what follows the prefix
does not matter. -/
def decode? : List UInt8 → Option UInt32
  | b₀ :: b₁ :: b₂ :: b₃ :: _ => some (value b₀ b₁ b₂ b₃)
  | _ => none

/-- The part of a length prefix that has arrived so far. -/
structure Partial where
  /-- How many bytes have arrived. -/
  collected : Nat
  /-- The arrived bytes in their places; the places still to come are zero. -/
  accumulated : UInt32
deriving DecidableEq

namespace Partial

/-- No byte of the prefix has arrived. -/
def empty : Partial := ⟨0, 0⟩

/-- A prefix of which all bytes have arrived. -/
def whole (length : UInt32) : Partial := ⟨size, length⟩

/-- The next byte goes to the lowest place that is still free. -/
def push (p : Partial) (b : UInt8) : Partial :=
  ⟨p.collected + 1, p.accumulated ||| b.toUInt32 <<< (8 * p.collected).toUInt32⟩

/-- Takes bytes one by one until the prefix is whole or the bytes run out, and counts them. -/
def collect (p : Partial) : List UInt8 → Partial × Nat
  | [] => (p, 0)
  | b :: rest =>
    if p.collected < size then
      let (q, taken) := (p.push b).collect rest
      (q, taken + 1)
    else (p, 0)

/-- What `collect` does; a prefix that lies whole at the head of the buffer is read in one go. -/
def take (p : Partial) (buffer : List UInt8) : Partial × Nat :=
  if p.collected = 0 then
    match decode? buffer with
    | some length => (whole length, size)
    | none => p.collect buffer
  else p.collect buffer

/-- The arrived bytes as they stood on the wire. -/
def bytes (p : Partial) : List UInt8 := (encode p.accumulated).take p.collected

end Partial

end LengthPrefix

end PrefixFraming
