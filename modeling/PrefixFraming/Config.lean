import PrefixFraming.Error

/-!
# Configurations

What a decoder and the reader that drives it can be told: the largest payload to accept and the size
of the buffer for one read. Any pair of values is a configuration; `validate` says whether it can be
used to read.
-/

namespace PrefixFraming

/-- The settings of a decoder and of the reader that drives it. -/
structure Config where
  /-- The largest payload length to accept. -/
  maxFrameSize : UInt32
  /-- The number of bytes that one read can take from the source. -/
  readBufferSize : UInt64
deriving DecidableEq

namespace Config

/-- The largest payload length that is accepted when nothing else is said: 16 MiB. -/
def defaultMaxFrameSize : UInt32 := 16 * 1024 * 1024

/-- The read buffer's size when nothing else is said: 64 KiB. -/
def defaultReadBufferSize : UInt64 := 64 * 1024

/-- The configuration when nothing is said. -/
def default : Config := ⟨defaultMaxFrameSize, defaultReadBufferSize⟩

instance : Inhabited Config := ⟨default⟩

/-- Changes the largest payload length. -/
def withMaxFrameSize (c : Config) (n : UInt32) : Config := { c with maxFrameSize := n }

/-- Changes the read buffer's size. -/
def withReadBufferSize (c : Config) (n : UInt64) : Config := { c with readBufferSize := n }

/-- A configuration is usable if its read buffer can take a byte. -/
def validate (c : Config) : Except Error Unit :=
  if c.readBufferSize = 0 then .error (.config "read_buffer_size must be greater than 0")
  else .ok ()

/-- The configuration as text. -/
def render (c : Config) : String :=
  s!"DecoderConfig \x7b max_frame_size: {c.maxFrameSize}, read_buffer_size: {c.readBufferSize} \x7d"

end Config

end PrefixFraming
