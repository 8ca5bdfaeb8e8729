import PrefixFraming.Error
import PrefixFraming.Frame

/-!
# Sinks

A sink is where a decoder hands its frames, one at a time, as soon as each is complete. It has a
state of its own, and it can refuse a frame with an error.
-/

namespace PrefixFraming

/-- A consumer of frames: from its state and a frame to its new state and whether it takes the
frame. -/
abbrev Sink (σ : Type) := σ → Frame → σ × Except Error Unit

namespace Sink

/-- Takes every frame and keeps it. -/
def collect : Sink (Array Frame) := fun frames f => (frames.push f, .ok ())

/-- Keeps every frame it is offered, but takes only the first `n` and refuses the next with `e`. -/
def collectUpTo (n : Nat) (e : Error) : Sink (Array Frame) := fun frames f =>
  (frames.push f, if frames.size < n then .ok () else .error e)

/-- A sink that works on the first half of a state. -/
def onFirst {σ τ : Type} (sink : Sink σ) : Sink (σ × τ) := fun (s, t) f =>
  let (s, result) := sink s f
  ((s, t), result)

/-- A sink that works on the second half of a state. -/
def onSecond {σ τ : Type} (sink : Sink τ) : Sink (σ × τ) := fun (s, t) f =>
  let (t, result) := sink t f
  ((s, t), result)

end Sink

end PrefixFraming
