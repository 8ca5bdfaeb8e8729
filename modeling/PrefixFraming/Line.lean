import PrefixFraming.Task

/-!
# Lines

A line is a channel with the work that goes on behind it: sends that wait for their time, and
perhaps a task that reads. Every such piece of work holds a sink, so the channel does not end before
the work does.

Work is due at a time of the clock, and `settle` does all that is due: a deferred send sends its
frame and drops its sink, and the task reads on.

A deferred send is a task of `tokio` as well: it sleeps until its time, sends through a clone of a
sink, and drops the clone. The library does not say in which order work is done that is due at the
same time. Here deferred sends go first, in the order in which they were deferred.
-/

namespace PrefixFraming

/-- A frame to be sent at a time of the clock, through a sink of its own. -/
structure DeferredSend where
  /-- The time to send it at. -/
  due : Nat
  /-- The frame to send. -/
  frame : Frame

/-- A channel and the work behind it. -/
structure Line where
  /-- What the work sends to. -/
  channel : Channel
  /-- The sends that wait for their time. -/
  deferred : List DeferredSend
  /-- The task that forwards to the channel, if there is one. -/
  task : Option Task

namespace Line

/-- A channel with one sink and no work behind it. -/
def new : Line := ⟨.new, [], none⟩

/-- A channel whose only sink belongs to a reader that is about to start. -/
def reading (now : Nat) (reader : Reader) : Line := ⟨.new, [], some (.resumes now reader)⟩

/-- Defers a send to a later time, through a new sink. -/
def defer (l : Line) (due : Nat) (f : Frame) : Line :=
  { l with channel := l.channel.addSink, deferred := l.deferred ++ [⟨due, f⟩] }

/-- The times at which the line has something to do. -/
def dues (l : Line) : List Nat :=
  l.deferred.map DeferredSend.due ++ (l.task.map Task.dues).getD []

/-- A measure of what the line still has to do. -/
def work (l : Line) : Nat := l.deferred.length + (l.task.map Task.work).getD 0

/-- Does a deferred send; a refusal is nobody's concern. -/
def sendDeferred (channel : Channel) (d : DeferredSend) : Channel :=
  (channel.send d.frame).1.dropSink

/-- Does all that is due. -/
def settle (now : Nat) (l : Line) : Line :=
  let channel := (l.deferred.filter (·.due ≤ now)).foldl sendDeferred l.channel
  let deferred := l.deferred.filter (now < ·.due)
  match l.task with
  | none => ⟨channel, deferred, none⟩
  | some task =>
    let (channel, task) := task.settle now channel
    ⟨channel, deferred, some task⟩

/-- Doing what is due never makes more work. -/
theorem work_settle_le (now : Nat) (l : Line) : (l.settle now).work ≤ l.work := by
  have hdeferred : (l.deferred.filter (now < ·.due)).length ≤ l.deferred.length :=
    List.length_filter_le _ _
  unfold settle work
  cases l.task with
  | none => simpa using hdeferred
  | some task => exact Nat.add_le_add hdeferred (Task.work_settle_le now _ task)

/-- A line with something due has less to do afterwards. -/
theorem work_settle_lt {now : Nat} {l : Line} (h : now ∈ l.dues) :
    (l.settle now).work < l.work := by
  have hdeferred : (l.deferred.filter (now < ·.due)).length ≤ l.deferred.length :=
    List.length_filter_le _ _
  rcases List.mem_append.mp h with hsend | htask
  · -- A deferred send is due, and it is not kept.
    obtain ⟨d, hd, rfl⟩ := List.mem_map.mp hsend
    have hlt : (l.deferred.filter (d.due < ·.due)).length < l.deferred.length :=
      List.length_filter_lt_length_iff_exists.mpr ⟨d, hd, by simp⟩
    unfold settle work
    cases l.task with
    | none => simpa using hlt
    | some task => exact Nat.add_lt_add_of_lt_of_le hlt (Task.work_settle_le _ _ task)
  · -- The task is due.
    unfold settle work
    cases hl : l.task with
    | none => simp [hl] at htask
    | some task =>
      exact Nat.add_lt_add_of_le_of_lt hdeferred (Task.work_settle_lt _ (by simpa [hl] using htask))

end Line

end PrefixFraming
