import PrefixFraming.Line

/-!
# The clock

All lines share one clock. It stands still while nobody waits. A wait is over as soon as a check on
the lines succeeds, which may be at once, and then nothing else happens. Otherwise all lines do what
is due, and for as long as the check still fails the clock jumps to the next time at which a line
has something to do, or to the limit of the wait if that comes first or at the same time.

Every jump leaves less to do, so a wait comes to an end: with the check's answer, at its limit, or,
if it has none, when nothing can happen any more.

This is the paused clock of a `tokio` runtime on one thread, as the documentation of `tokio::time`
describes it. Time passes only when no task can go on, and then the clock advances to the next timer
(`await`). A wait with a limit is a `timeout`: it asks for the answer before it looks at the limit,
so that an answer at hand counts even if the limit is zero (`waitFor`), and at the limit it gives up
what it waited for, which in the case of a receive has taken nothing (`receiveWithin`). The library
does not say what comes first of a limit and work that is due at the same time; here the limit does.
-/

namespace PrefixFraming

/-- Lines that share a clock. -/
structure Timeline where
  /-- The milliseconds that have passed. -/
  now : Nat
  /-- The lines, numbered from zero in the order in which they were added. -/
  lines : List Line

namespace Timeline

/-- No time has passed and there are no lines. -/
def start : Timeline := ⟨0, []⟩

/-- The times at which a line has something to do. -/
def dues (t : Timeline) : List Nat := t.lines.flatMap Line.dues

/-- A measure of what all lines still have to do. -/
def work (t : Timeline) : Nat := t.lines.foldr (fun l n => l.work + n) 0

/-- All lines do what is due. -/
def settle (t : Timeline) : Timeline := { t with lines := t.lines.map (Line.settle t.now) }

/-- Moves the clock and has all lines do what is due then. -/
def jump (t : Timeline) (time : Nat) : Timeline := settle { t with now := time }

/-- If one line has less to do after a change and no line has more, all together have less. -/
theorem sum_work_lt {change : Line → Line} {lines : List Line}
    (hle : ∀ l, (change l).work ≤ l.work) {l : Line} (hl : l ∈ lines)
    (hlt : (change l).work < l.work) :
    (lines.map change).foldr (fun l n => l.work + n) 0 < lines.foldr (fun l n => l.work + n) 0 := by
  induction lines with
  | nil => cases hl
  | cons head rest ih =>
    have hrest : (rest.map change).foldr (fun l n => l.work + n) 0 ≤
        rest.foldr (fun l n => l.work + n) 0 := by
      clear ih hl
      induction rest with
      | nil => exact Nat.le_refl _
      | cons x xs ih => exact Nat.add_le_add (hle x) ih
    rcases List.mem_cons.mp hl with rfl | hl
    · exact Nat.add_lt_add_of_lt_of_le hlt hrest
    · exact Nat.add_lt_add_of_le_of_lt (hle head) (ih hl)

/-- A jump to a time at which a line has something to do leaves less to do. -/
theorem work_jump_lt {t : Timeline} {due : Nat} (h : due ∈ t.dues) :
    (t.jump due).work < t.work := by
  obtain ⟨l, hl, hdue⟩ := List.mem_flatMap.mp h
  exact sum_work_lt (Line.work_settle_le due) hl (Line.work_settle_lt hdue)

/-! ## Waiting -/

/-- Whether a time comes before the limit of a wait, if it has one. -/
def isBefore (time : Nat) : Option Nat → Bool
  | none => true
  | some limit => time < limit

/-- Moves the clock to the limit of a wait that has failed; without a limit it stays. -/
def expire (t : Timeline) (limit : Option Nat) : Timeline := { t with now := limit.getD t.now }

/-- Jumps from due time to due time until the check succeeds or the limit is reached. -/
def await {α : Type} (check : Timeline → Option (Timeline × α)) (limit : Option Nat)
    (t : Timeline) : Timeline × Option α :=
  match check t with
  | some (t, a) => (t, some a)
  | none =>
    match _next : t.dues.min? with
    | none => (t.expire limit, none)
    | some due =>
      if isBefore due limit then await check limit (t.jump due) else (t.expire limit, none)
termination_by t.work
decreasing_by exact work_jump_lt (List.min?_mem _next)

/-- Waits until the check succeeds. The answer is `none` when the limit is reached first, or when
there is no limit and nothing can happen any more. -/
def waitFor {α : Type} (check : Timeline → Option (Timeline × α)) (limit : Option Nat)
    (t : Timeline) : Timeline × Option α :=
  match check t with
  | some (t, a) => (t, some a)
  | none => if limit = some t.now then (t, none) else await check limit t.settle

/-- Lets some milliseconds pass. -/
def sleep (t : Timeline) (ms : Nat) : Timeline :=
  (t.waitFor (fun _ => (none : Option (Timeline × Unit))) (some (t.now + ms))).1

/-- What a wait of a reader does to a state that includes the lines. -/
def pause {τ : Type} (ms : Nat) (state : Timeline × τ) : Timeline × τ :=
  (state.1.sleep ms, state.2)

/-! ## Lines by number -/

/-- Adds a line; its number is the number of lines before it. -/
def addLine (t : Timeline) (l : Line) : Timeline := { t with lines := t.lines ++ [l] }

/-- Opens a channel with one sink. -/
def openChannel (t : Timeline) : Timeline := t.addLine .new

/-- Starts a reader that forwards its frames to a new channel. It has not read anything yet. -/
def spawn (t : Timeline) (source : Source) (c : Config) : Except Error Timeline :=
  match Reader.ofConfig source c with
  | .error e => .error e
  | .ok reader => .ok (t.addLine (.reading t.now reader))

/-- Changes the channel of a line. -/
def modifyChannel (t : Timeline) (i : Nat) (change : Channel → Channel) : Timeline :=
  { t with lines := t.lines.modify i fun l => { l with channel := change l.channel } }

/-- Defers a send to a line's channel until some milliseconds have passed. -/
def sendLater (t : Timeline) (i : Nat) (ms : Nat) (f : Frame) : Timeline :=
  { t with lines := t.lines.modify i fun l => l.defer (t.now + ms) f }

/-- The channel of a line. -/
def channel? (t : Timeline) (i : Nat) : Option Channel := t.lines[i]?.map Line.channel

/-- The task of a line. -/
def task? (t : Timeline) (i : Nat) : Option Task := t.lines[i]?.bind Line.task

/-- Sends to the channel of a line; where there is no line nobody receives. -/
def sendTo (i : Nat) : Sink Timeline := fun t f =>
  match t.channel? i with
  | none => (t, .error .sinkClosed)
  | some c =>
    let (c, result) := c.send f
    (t.modifyChannel i fun _ => c, result)

/-- Takes the oldest frame that waits in a line's channel. -/
def tryReceive (t : Timeline) (i : Nat) : Timeline × Option Frame :=
  match t.channel? i with
  | none => (t, none)
  | some c =>
    let (c, f) := c.tryReceive
    (t.modifyChannel i fun _ => c, f)

/-- Receives from a line's channel what can be had at once: a frame, or nothing for good. -/
def poll (i : Nat) (t : Timeline) : Option (Timeline × Option Frame) :=
  match t.channel? i with
  | none => none
  | some c =>
    match c.poll with
    | (c, .frame f) => some (t.modifyChannel i fun _ => c, some f)
    | (_, .ended) => some (t, none)
    | (_, .pending) => none

/-- Waits for the next frame on a line, or for its end. -/
def receive (t : Timeline) (i : Nat) : Timeline × Option (Option Frame) := t.waitFor (poll i) none

/-- Waits for the next frame on a line, or for its end, but only so many milliseconds. -/
def receiveWithin (t : Timeline) (i : Nat) (ms : Nat) : Timeline × Except Error (Option Frame) :=
  match t.waitFor (poll i) (some (t.now + ms)) with
  | (t, some answer) => (t, .ok answer)
  | (t, none) => (t, .error .timeout)

/-- Waits for the end of a line's task. -/
def join (t : Timeline) (i : Nat) : Timeline × Option (Except Error Stats) :=
  t.waitFor (fun t => (t.task? i).bind Task.result? |>.map fun result => (t, result)) none

end Timeline

end PrefixFraming
