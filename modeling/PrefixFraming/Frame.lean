import PrefixFraming.LengthPrefix
import PrefixFraming.Quoted

/-!
# Frames

A frame is a payload together with its place in the order of delivery. On the wire only the payload
travels, behind its length (`wire`); the decoder assigns the sequence number.
-/

namespace PrefixFraming

/-- A payload and its place in the order of delivery. -/
structure Frame where
  /-- The number of frames that the same decoder delivered before this one. -/
  sequence : UInt64
  /-- The bytes between this frame's length prefix and the next one. -/
  payload : List UInt8
deriving DecidableEq

namespace Frame

/-- The payload's length in bytes. -/
def size (f : Frame) : Nat := f.payload.length

/-- A frame of length zero has no payload bytes. -/
def isEmpty (f : Frame) : Bool := f.payload.isEmpty

/-- The bytes that carry a payload: its length prefix, then the payload itself. -/
def wire (payload : List UInt8) : List UInt8 :=
  LengthPrefix.encode (UInt32.ofNat payload.length) ++ payload

/-- The frame as text, with its payload in quotes. -/
def render (f : Frame) : String :=
  let payload := Quoted.bytes f.payload
  s!"Frame \x7b sequence: {f.sequence}, payload: {payload} \x7d"

end Frame

end PrefixFraming
