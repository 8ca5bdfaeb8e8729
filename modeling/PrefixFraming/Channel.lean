import PrefixFraming.Sink

/-!
# Channels

A channel carries frames from any number of sinks to one receiver, in the order in which they were
sent and without a bound on how many wait. It stays open for sending while its receiver listens. A
receiver that closes the channel can still take what waits in it; a receiver that is dropped takes
the waiting frames with it.

Nothing more can come out of a channel once it is empty and either its receiver has stopped
listening or its last sink is gone. Until then an empty channel is merely pending.

The queue is the unbounded `mpsc` channel of `tokio`, and the definitions follow what its
documentation says. Sending never waits, and fails exactly when the receiver has been closed or
dropped (`send`). Frames come out in the order in which they went in (`tryReceive`). Closing keeps
what waits (`close`), dropping the receiver discards it (`dropReceiver`). A receive that finds
nothing and is given up has taken nothing: a pending `poll` leaves the queue as it is.
-/

namespace PrefixFraming

/-- What the receiver of a channel has done. -/
inductive Receiver where
  /-- It takes frames, and more can be sent to it. -/
  | listening
  /-- It takes what has been sent, but nothing more can be sent to it. -/
  | closed
  /-- It is gone. -/
  | dropped
deriving DecidableEq

/-- A queue of frames between sinks and a receiver. -/
structure Channel where
  /-- The frames that have been sent and not yet received. -/
  queue : Std.Queue Frame
  /-- The number of sinks that can still send. -/
  sinks : Nat
  /-- The state of the receiving end. -/
  receiver : Receiver

namespace Channel

/-- An empty channel with one sink. -/
def new : Channel := ⟨.empty, 1, .listening⟩

/-- The frames that have been sent and not yet received, oldest first. -/
def queued (c : Channel) : List Frame := c.queue.dList ++ c.queue.eList.reverse

/-- Whether sending is refused because the receiver no longer listens. -/
def isClosed (c : Channel) : Bool := c.receiver ≠ .listening

/-- Sends a frame through one of the sinks. -/
def send : Sink Channel := fun c f =>
  if c.isClosed then (c, .error .sinkClosed)
  else ({ c with queue := c.queue.enqueue f }, .ok ())

/-- Makes another sink. -/
def addSink (c : Channel) : Channel := { c with sinks := c.sinks + 1 }

/-- Drops one of the sinks; what it has sent stays. -/
def dropSink (c : Channel) : Channel := { c with sinks := c.sinks - 1 }

/-- The receiver stops listening and keeps what has been sent; one that is gone stays so. -/
def close (c : Channel) : Channel :=
  { c with receiver := if c.receiver = .dropped then .dropped else .closed }

/-- The receiver goes away, and what has been sent with it. -/
def dropReceiver (c : Channel) : Channel := { c with queue := .empty, receiver := .dropped }

/-- A frame that is sent queues up behind the others, unless the channel is closed. -/
theorem queued_send (c : Channel) (f : Frame) :
    (c.send f).1.queued = if c.isClosed then c.queued else c.queued ++ [f] := by
  unfold send
  split <;> simp [queued, Std.Queue.enqueue]

/-- Whether no frame can be sent any more, for want of a receiver or of a sink. -/
def isFinished (c : Channel) : Bool := c.isClosed || c.sinks = 0

/-- Takes the oldest frame if there is one. -/
def tryReceive (c : Channel) : Channel × Option Frame :=
  match c.queue.dequeue? with
  | some (f, queue) => ({ c with queue }, some f)
  | none => (c, none)

/-- Receiving takes the head of the queue. -/
theorem tryReceive_queued (c : Channel) :
    (c.tryReceive.2, c.tryReceive.1.queued) = (c.queued.head?, c.queued.tail) := by
  obtain ⟨⟨back, front⟩, sinks, receiver⟩ := c
  cases front with
  | cons f rest => simp [tryReceive, queued, Std.Queue.dequeue?]
  | nil =>
    cases hback : back.reverse with
    | nil => simp [tryReceive, queued, Std.Queue.dequeue?, hback]
    | cons f rest => simp [tryReceive, queued, Std.Queue.dequeue?, hback]

/-- What a receiver that is ready to wait learns at once. -/
inductive Polled where
  /-- The oldest frame. -/
  | frame (f : Frame)
  /-- Nothing yet. -/
  | pending
  /-- Nothing now or ever. -/
  | ended
deriving DecidableEq

/-- Takes the oldest frame, or tells why there is none. -/
def poll (c : Channel) : Channel × Polled :=
  match c.tryReceive with
  | (c, some f) => (c, .frame f)
  | (c, none) => (c, if c.isFinished then .ended else .pending)

end Channel

end PrefixFraming
