import PrefixFraming.LengthPrefix

/-!
# Whole streams

What a stream of frames means when all of it is at hand: `parse` cuts it into payloads and says what
is left at the end. This is the plain reading of the format, which keeps no state and knows nothing
of chunks.
-/

namespace PrefixFraming.Stream

/-- What is left of a stream behind its last whole frame. -/
inductive Leftover where
  /-- Too few bytes for a length prefix, perhaps none. -/
  | header (bytes : List UInt8)
  /-- An accepted length and too few bytes for the payload. -/
  | body (declared : UInt32) (bytes : List UInt8)
  /-- A length above the maximum, whatever follows it. -/
  | rejected (declared : UInt32)
deriving DecidableEq

/-- The payloads of a stream and what is left behind them. -/
structure Parsed where
  /-- The payloads, in order. -/
  payloads : List (List UInt8)
  /-- What is left. -/
  leftover : Leftover
deriving DecidableEq

/-- A buffer from which a length can be read holds a whole prefix. -/
theorem size_le_of_decode? {buffer : List UInt8} {length : UInt32}
    (h : LengthPrefix.decode? buffer = some length) : LengthPrefix.size ≤ buffer.length := by
  match buffer with
  | _ :: _ :: _ :: _ :: rest => simp [LengthPrefix.size]
  | [] | [_] | [_, _] | [_, _, _] => simp [LengthPrefix.decode?] at h

/-- Cuts a stream into payloads of at most `max` bytes. -/
def parse (max : UInt32) (stream : List UInt8) : Parsed :=
  match _prefixed : LengthPrefix.decode? stream with
  | none => ⟨[], .header stream⟩
  | some declared =>
    if max < declared then ⟨[], .rejected declared⟩
    else
      let rest := stream.drop LengthPrefix.size
      if rest.length < declared.toNat then ⟨[], .body declared rest⟩
      else
        let parsed := parse max (rest.drop declared.toNat)
        ⟨rest.take declared.toNat :: parsed.payloads, parsed.leftover⟩
termination_by stream.length
decreasing_by
  have hsize := size_le_of_decode? _prefixed
  simp only [LengthPrefix.size, List.length_drop] at hsize ⊢
  omega

end PrefixFraming.Stream
