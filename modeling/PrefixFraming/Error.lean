import PrefixFraming.Json.Error

/-!
# Errors

Everything that can go wrong between a source of bytes and the consumer of its frames, as causes.
`Error.message` is the one place where they are put into words.
-/

namespace PrefixFraming

/-- What kind of failure an input or output operation reports. -/
inductive IoKind where
  | notFound
  | permissionDenied
  | connectionRefused
  | connectionReset
  | connectionAborted
  | notConnected
  | brokenPipe
  | wouldBlock
  | invalidData
  | timedOut
  | interrupted
  | unexpectedEof
  | other
deriving DecidableEq

/-- The description of a failure of which nothing but the kind is known. -/
def IoKind.description : IoKind → String
  | .notFound => "entity not found"
  | .permissionDenied => "permission denied"
  | .connectionRefused => "connection refused"
  | .connectionReset => "connection reset"
  | .connectionAborted => "connection aborted"
  | .notConnected => "not connected"
  | .brokenPipe => "broken pipe"
  | .wouldBlock => "operation would block"
  | .invalidData => "invalid data"
  | .timedOut => "timed out"
  | .interrupted => "operation interrupted"
  | .unexpectedEof => "unexpected end of file"
  | .other => "other error"

/-- A failed input or output operation. -/
structure IoError where
  /-- The kind of failure. -/
  kind : IoKind
  /-- What the operation says about it, if it says more than the kind. -/
  detail : Option String
deriving DecidableEq

/-- The failure in words: its own, or those of its kind. -/
def IoError.message (e : IoError) : String := e.detail.getD e.kind.description

/-- What can go wrong between a source of bytes and the consumer of its frames. -/
inductive Error where
  /-- The source failed. -/
  | io (cause : IoError)
  /-- A configuration document is not well formed. -/
  | json (cause : Json.Error)
  /-- A configuration is well formed but unusable. -/
  | config (reason : String)
  /-- A length prefix announces more than the maximum. -/
  | frameTooLarge (declared max : UInt32)
  /-- The decoder failed earlier. -/
  | poisoned
  /-- The source ended inside a frame of which some bytes are held. -/
  | truncatedStream (buffered : Nat)
  /-- Nobody receives from the channel any more. -/
  | sinkClosed
  /-- No frame arrived before the deadline. -/
  | timeout
deriving DecidableEq

namespace Error

/-- The error in words. -/
def message : Error → String
  | .io cause => "I/O error: " ++ cause.message
  | .json cause => "JSON error: " ++ cause.message
  | .config reason => "Invalid configuration: " ++ reason
  | .frameTooLarge declared max => s!"Frame size {declared} exceeds maximum {max}"
  | .poisoned => "Decoder is poisoned by an earlier error"
  | .truncatedStream buffered => s!"Stream ended mid-frame with {buffered} bytes buffered"
  | .sinkClosed => "Frame sink closed"
  | .timeout => "Timed out waiting for frame"

/-- The words of the error behind this one, if this one only passes it on. -/
def source? : Error → Option String
  | .io cause => some cause.message
  | .json cause => some cause.message
  | _ => none

end Error

end PrefixFraming
