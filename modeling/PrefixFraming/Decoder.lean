import PrefixFraming.Config
import PrefixFraming.Sink

/-!
# The incremental decoder

A decoder takes a stream in chunks, cut anywhere, and hands every frame to a sink as soon as its
last byte has arrived. Between chunks it holds the frame in progress: either the part of its length
prefix that has arrived (`Phase.header`), or its declared length and the part of its payload
(`Phase.body`).

`feed` takes a chunk to its end in steps. A step serves one phase: it completes the prefix, or the
payload, or uses up the chunk. A prefix whose length exceeds the maximum fails the step, and a frame
that the sink refuses fails the delivery. Either failure ends the feed at once and poisons the
decoder, because the rest of the chunk is lost and with it the place in the stream: from then on
every feed is refused.
-/

namespace PrefixFraming

/-- Running totals of one decoder. -/
structure Stats where
  /-- The number of frames offered to a sink. -/
  frames : UInt64
  /-- The number of payload bytes in those frames. -/
  payloadBytes : UInt64
  /-- The number of bytes taken from chunks, length prefixes included. -/
  consumed : UInt64
  /-- The length of the longest payload among those frames. -/
  largest : UInt32
deriving DecidableEq

namespace Stats

/-- Nothing has been counted. -/
def zero : Stats := ⟨0, 0, 0, 0⟩

/-- Counts bytes taken from a chunk. -/
def consume (s : Stats) (n : Nat) : Stats := { s with consumed := s.consumed + UInt64.ofNat n }

/-- Counts a frame whose payload has `n` bytes. -/
def countFrame (s : Stats) (n : Nat) : Stats :=
  { s with
    frames := s.frames + 1
    payloadBytes := s.payloadBytes + UInt64.ofNat n
    largest := max s.largest (UInt32.ofNat n) }

end Stats

/-- The part of the frame in progress that has arrived. -/
inductive Phase where
  /-- Some bytes of the length prefix. -/
  | header (collected : LengthPrefix.Partial)
  /-- The declared length and some bytes of the payload. -/
  | body (declared : UInt32) (filled : Array UInt8)
deriving DecidableEq

/-- No frame is in progress. -/
def Phase.idle : Phase := .header .empty

/-- A decoder of one stream. -/
structure Decoder where
  /-- The frame in progress. -/
  phase : Phase
  /-- The largest payload length to accept. -/
  maxFrameSize : UInt32
  /-- Whether an earlier feed failed. -/
  poisoned : Bool
  /-- What has been taken and delivered so far. -/
  stats : Stats
deriving DecidableEq

/-- A declared length is refused if it exceeds the maximum. -/
def checkLength (declared max : UInt32) : Except Error Unit :=
  if max < declared then .error (.frameTooLarge declared max) else .ok ()

namespace Decoder

/-- A decoder at the start of a stream. -/
def fresh (maxFrameSize : UInt32) : Decoder := ⟨.idle, maxFrameSize, false, .zero⟩

/-- A decoder at the start of a stream with the settings of a configuration. -/
def ofConfig (c : Config) : Decoder := fresh c.maxFrameSize

/-! ## The frame in progress -/

/-- No frame is in progress. -/
def isIdle (d : Decoder) : Bool :=
  match d.phase with
  | .header p => p.collected = 0
  | .body _ _ => false

/-- The number of bytes held: of the length prefix until it is complete, of the payload then. -/
def buffered (d : Decoder) : Nat :=
  match d.phase with
  | .header p => p.collected
  | .body _ filled => filled.size

/-- The declared length of the frame in progress, once it is known and accepted. -/
def pending? (d : Decoder) : Option UInt32 :=
  match d.phase with
  | .header _ => none
  | .body declared _ => some declared

/-- The bytes held, as they stood on the wire. -/
def held (d : Decoder) : List UInt8 :=
  match d.phase with
  | .header p => p.bytes
  | .body declared filled => LengthPrefix.encode declared ++ filled.toList

/-! ## Steps -/

/-- Begins the payload behind a complete length prefix; a length above the maximum poisons. -/
def startBody (d : Decoder) (declared : UInt32) : Decoder × Except Error Unit :=
  match checkLength declared d.maxFrameSize with
  | .error e => ({ d with poisoned := true }, .error e)
  | .ok () => ({ d with phase := .body declared #[] }, .ok ())

/-- Takes bytes off the head of a chunk for the phase the decoder is in, and says how many. Bytes of
a length prefix that is refused count as taken. -/
def step (d : Decoder) (chunk : List UInt8) : Decoder × Except Error Nat :=
  match d with
  | ⟨.header p, maxFrameSize, poisoned, stats⟩ =>
    let (p, taken) := p.take chunk
    let d : Decoder := ⟨.header p, maxFrameSize, poisoned, stats.consume taken⟩
    if p.collected = LengthPrefix.size then
      match d.startBody p.accumulated with
      | (d, .error e) => (d, .error e)
      | (d, .ok ()) => (d, .ok taken)
    else (d, .ok taken)
  | ⟨.body declared filled, maxFrameSize, poisoned, stats⟩ =>
    let part := chunk.take (declared.toNat - filled.size)
    (⟨.body declared (filled ++ part), maxFrameSize, poisoned, stats.consume part.length⟩,
      .ok part.length)

/-- Takes out the payload of the frame in progress if it is complete. -/
def takeCompleted (d : Decoder) : Decoder × Option (List UInt8) :=
  match d with
  | ⟨.header p, maxFrameSize, poisoned, stats⟩ =>
    (⟨.header p, maxFrameSize, poisoned, stats⟩, none)
  | ⟨.body declared filled, maxFrameSize, poisoned, stats⟩ =>
    if filled.size = declared.toNat then
      (⟨.idle, maxFrameSize, poisoned, stats⟩, some filled.toList)
    else (⟨.body declared filled, maxFrameSize, poisoned, stats⟩, none)

/-- Offers a payload to a sink as the next frame. The frame is counted whether the sink takes it or
not; a refusal poisons. -/
def deliver {σ : Type} (d : Decoder) (sink : Sink σ) (s : σ) (payload : List UInt8) :
    Decoder × σ × Except Error Unit :=
  let frame : Frame := ⟨d.stats.frames, payload⟩
  let d := { d with stats := d.stats.countFrame payload.length }
  match sink s frame with
  | (s, .ok ()) => (d, s, .ok ())
  | (s, .error e) => ({ d with poisoned := true }, s, .error e)

/-! ## Feeding -/

/-- What becomes of a decoder and a sink when a chunk is fed. -/
structure Fed (σ : Type) where
  /-- The decoder afterwards. -/
  decoder : Decoder
  /-- The sink's state afterwards. -/
  sink : σ
  /-- How many frames the sink took, or what ended the feed. -/
  result : Except Error Nat

/-- Steps through a chunk, delivering each frame right after the step that completes it; a payload
of length zero is complete as soon as its prefix is. `delivered` frames were delivered before. Each
step takes at least a byte, so as many steps as the chunk has bytes are enough. -/
def drain {σ : Type} (sink : Sink σ) : Nat → Decoder → σ → Nat → List UInt8 → Fed σ
  | 0, d, s, delivered, _ => ⟨d, s, .ok delivered⟩
  | _ + 1, d, s, delivered, [] => ⟨d, s, .ok delivered⟩
  | steps + 1, d, s, delivered, b :: rest =>
    match d.step (b :: rest) with
    | (d, .error e) => ⟨d, s, .error e⟩
    | (d, .ok taken) =>
      match d.takeCompleted with
      | (d, none) => drain sink steps d s delivered ((b :: rest).drop taken)
      | (d, some payload) =>
        match d.deliver sink s payload with
        | (d, s, .error e) => ⟨d, s, .error e⟩
        | (d, s, .ok ()) => drain sink steps d s (delivered + 1) ((b :: rest).drop taken)

/-- Feeds one chunk. A poisoned decoder refuses it and stays as it is. -/
def feed {σ : Type} (d : Decoder) (sink : Sink σ) (s : σ) (chunk : List UInt8) : Fed σ :=
  if d.poisoned then ⟨d, s, .error .poisoned⟩
  else drain sink chunk.length d s 0 chunk

/-- Feeds chunks in order up to the first that fails, and counts the frames of all together. -/
def feedAll {σ : Type} (d : Decoder) (sink : Sink σ) (s : σ) : List (List UInt8) → Fed σ
  | [] => ⟨d, s, .ok 0⟩
  | chunk :: chunks =>
    match d.feed sink s chunk with
    | ⟨d, s, .error e⟩ => ⟨d, s, .error e⟩
    | ⟨d, s, .ok n⟩ =>
      let fed := feedAll d sink s chunks
      ⟨fed.decoder, fed.sink, fed.result.map (n + ·)⟩

/-- Feeds one chunk and returns the frames it completes; they are lost if the feed fails. -/
def push (d : Decoder) (chunk : List UInt8) : Decoder × Except Error (Array Frame) :=
  match d.feed Sink.collect #[] chunk with
  | ⟨d, frames, .ok _⟩ => (d, .ok frames)
  | ⟨d, _, .error e⟩ => (d, .error e)

end Decoder

end PrefixFraming
