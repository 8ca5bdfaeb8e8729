import PrefixFraming.Channel
import PrefixFraming.Reader

/-!
# Tasks

A task is a reader that works by itself: it forwards what it decodes to a channel, of which it holds
a sink. `settle` does what is due at a time of the clock. The reader reads on until its source makes
it wait again, or to the end of its stream, where it leaves its result and drops the sink. Whatever
it does, it has less to do afterwards.

Such a reader is a task that `tokio` spawns. The runtime has one thread, so that nothing comes
between the steps that a task makes from one wait to the next: `settle` takes them as one. A task
that has ended has dropped what it held, and keeps its result for whoever joins it.
-/

namespace PrefixFraming

/-- A reader that works by itself and sends its frames to a channel. -/
inductive Task where
  /-- Reads on as soon as the clock has come to `due`. -/
  | resumes (due : Nat) (reader : Reader)
  /-- Waits for a source that is never ready again. -/
  | hanging (reader : Reader)
  /-- Has read to the end of its stream or to an error. -/
  | ended (result : Except Error Stats)

namespace Task

/-- The times at which the task has something to do. -/
def dues : Task → List Nat
  | .resumes due _ => [due]
  | _ => []

/-- What the task left when it ended. -/
def result? : Task → Option (Except Error Stats)
  | .ended result => some result
  | _ => none

/-- A measure of what the task still has to do. -/
def work : Task → Nat
  | .resumes _ reader => reader.source.size + 1
  | _ => 0

/-- Lets the task do what is due. -/
def settle (now : Nat) (channel : Channel) : Task → Channel × Task
  | .resumes due reader =>
    if due ≤ now then
      match reader.advance Channel.send channel with
      | ⟨reader, channel, .waiting ms⟩ => (channel, .resumes (now + ms) reader)
      | ⟨reader, channel, .hanging⟩ => (channel, .hanging reader)
      | ⟨_, channel, .ended result⟩ => (channel.dropSink, .ended result)
    else (channel, .resumes due reader)
  | .hanging reader => (channel, .hanging reader)
  | .ended result => (channel, .ended result)

/-- Doing what is due never makes more work. -/
theorem work_settle_le (now : Nat) (channel : Channel) (task : Task) :
    (task.settle now channel).2.work ≤ task.work := by
  cases task with
  | resumes due reader =>
    simp only [settle]
    split
    · split
      · rename_i hreached
        have hlt := @Reader.size_advance_lt _ reader Channel.send channel
        simp only [hreached, Reader.Standing.waiting.injEq, forall_eq'] at hlt
        exact Nat.succ_le_succ (Nat.le_of_lt hlt)
      · exact Nat.zero_le _
      · exact Nat.zero_le _
    · exact Nat.le_refl _
  | hanging reader => exact Nat.le_refl _
  | ended result => exact Nat.le_refl _

/-- A task with something due has less to do afterwards. -/
theorem work_settle_lt {now : Nat} (channel : Channel) {task : Task} (h : now ∈ task.dues) :
    (task.settle now channel).2.work < task.work := by
  cases task with
  | resumes due reader =>
    obtain rfl : now = due := by simpa [dues] using h
    simp only [settle, Nat.le_refl, if_true]
    split
    · rename_i hreached
      have hlt := @Reader.size_advance_lt _ reader Channel.send channel
      simp only [hreached, Reader.Standing.waiting.injEq, forall_eq'] at hlt
      exact Nat.succ_lt_succ hlt
    · exact Nat.succ_pos _
    · exact Nat.succ_pos _
  | hanging reader => simp [dues] at h
  | ended result => simp [dues] at h

end Task

end PrefixFraming
