import PrefixFraming.Proofs.Forwarding
import Mathlib.Data.List.Basic

/-!
# How a channel ends

A receiver that finds nothing in the queue either has to wait or has come to the end. It has come to
the end if nothing can follow: the channel has been shut, or nobody has a sink any more. The channel
decides this by a count of its sinks. That the count is right is the invariant of this module: it is
the number of sinks in the hands of the user and of those that the work behind the line holds, one
for each deferred send and one for a task that has not ended (`Line.Counts`). Work gives its sinks
back when it is done (`Line.Counts.settle`), and the user cannot use a sink without having one
(`Possible`).

An end is final. When the queue is empty and the channel is shut, nothing is accepted any more; when
the queue is empty and there is no sink, there is nobody who could send, and nobody who could make a
sink. Both last (`Line.Touched.over`), and so whoever receives finds the same end again.
-/

namespace PrefixFraming

open Sink (Log)

namespace Channel

variable {c c' : Channel}

/-- A poll brings a frame exactly if it is the oldest in the queue. -/
theorem poll_eq_frame_iff (c : Channel) (f : Frame) :
    c.poll.2 = .frame f ↔ c.queued.head? = some f := by
  rcases c.poll_eq with ⟨c', g, htake, hpoll⟩ | ⟨hempty, hpoll⟩
  · rw [hpoll, (tryReceive_some htake).1, List.head?_cons, Polled.frame.injEq, Option.some.injEq]
  · rw [hpoll, hempty]
    refine ⟨fun h => ?_, fun h => ?_⟩
    · dsimp only at h
      split_ifs at h
    · cases h

/-- A poll finds the end exactly if the queue is empty and nobody can send. -/
theorem poll_eq_ended_iff (c : Channel) :
    c.poll.2 = .ended ↔ c.queued = [] ∧ c.isFinished = true := by
  refine ⟨queued_of_ended, ?_⟩
  rintro ⟨hempty, hfinished⟩
  rcases c.poll_eq with ⟨c', g, htake, -⟩ | ⟨-, hpoll⟩
  · rw [(tryReceive_some htake).1] at hempty
    cases hempty
  · rw [hpoll, if_pos hfinished]

/-- A poll finds nothing yet exactly if the queue is empty and somebody can send. -/
theorem poll_eq_pending_iff (c : Channel) :
    c.poll.2 = .pending ↔ c.queued = [] ∧ c.isFinished = false := by
  refine ⟨queued_of_pending, ?_⟩
  rintro ⟨hempty, hfinished⟩
  rcases c.poll_eq with ⟨c', g, htake, -⟩ | ⟨-, hpoll⟩
  · rw [(tryReceive_some htake).1] at hempty
    cases hempty
  · rw [hpoll, hfinished]
    rfl

/-- Sending does not change the number of sinks. -/
theorem sinks_send (c : Channel) (f : Frame) : (c.send f).1.sinks = c.sinks := by
  unfold send
  split_ifs <;> rfl

/-- A channel is as closed as one whose receiver has done the same. -/
theorem isClosed_of_receiver (h : c'.receiver = c.receiver) : c'.isClosed = c.isClosed := by
  unfold isClosed
  rw [h]

end Channel

/-! ## Counting sinks -/

/-- The number of sinks that a task holds. -/
def Task.sinks : Task → ℕ
  | .resumes _ _ => 1
  | .hanging _ => 1
  | .ended _ => 0

/-- A task that ends gives its sink back. -/
theorem Task.sinks_settle {c : Channel} {n : ℕ} (now : ℕ) (task : Task)
    (h : c.sinks = n + task.sinks) :
    (task.settle now c).1.sinks = n + (task.settle now c).2.sinks := by
  cases task with
  | resumes due reader =>
    rw [settle]
    split_ifs with hdue
    · -- What it sends on the way does not change the count.
      have hkeeps : Channel.send.Keeps fun c' => c'.sinks = n + 1 :=
        fun c' f hc' => (c'.sinks_send f).trans hc'
      have hadvance := Reader.advance_keeps hkeeps reader c h
      generalize reader.advance Channel.send c = progress at hadvance ⊢
      obtain ⟨reader', c', result | ms | _⟩ := progress
      · have hcount : c'.sinks = n + 1 := hadvance
        show c'.sinks - 1 = n
        omega
      · exact hadvance
      · exact hadvance
    · exact h
  | hanging reader => exact h
  | ended result => exact h

namespace Line

/-- The number of sinks that the work behind a line holds: one for each deferred send, and one for a
task that has not ended. -/
def workingSinks (l : Line) : ℕ := l.deferred.length + (l.task.map Task.sinks).getD 0

/-- The channel has counted its sinks, of which `n` are not held by the work behind the line. -/
def Counts (n : ℕ) (l : Line) : Prop := l.channel.sinks = n + l.workingSinks

variable {n : ℕ} {l : Line}

/-- A deferred send holds a sink. -/
theorem workingSinks_defer (l : Line) (due : ℕ) (f : Frame) :
    (l.defer due f).workingSinks = l.workingSinks + 1 := by
  show (l.deferred ++ [_]).length + _ = l.deferred.length + _ + 1
  rw [List.length_append, List.length_singleton]
  exact Nat.add_right_comm _ _ _

/-- Deferred sends that are done give their sinks back. -/
theorem sinks_sendDeferred (deferred : List DeferredSend) (c : Channel) :
    (deferred.foldl sendDeferred c).sinks = c.sinks - deferred.length := by
  induction deferred generalizing c with
  | nil => rfl
  | cons d deferred ih =>
    have hone : (sendDeferred c d).sinks = c.sinks - 1 := by
      rw [← c.sinks_send d.frame]
      rfl
    rw [List.foldl_cons, ih, hone, List.length_cons]
    omega

/-- What is due now and what is due later are all deferred sends. -/
theorem length_due_add_length_later (now : ℕ) (deferred : List DeferredSend) :
    (deferred.filter (·.due ≤ now)).length + (deferred.filter (now < ·.due)).length =
      deferred.length := by
  have hlater : (deferred.filter fun d => !decide (d.due ≤ now)) =
      deferred.filter (now < ·.due) := by
    refine List.filter_congr fun d _ => ?_
    rw [← decide_not]
    exact decide_eq_decide.mpr Nat.not_le
  rw [← hlater]
  exact (List.length_eq_length_filter_add fun d : DeferredSend => d.due ≤ now).symm

/-- Doing what is due keeps the count right. -/
theorem Counts.settle (h : l.Counts n) (now : ℕ) : (l.settle now).Counts n := by
  obtain ⟨c, deferred, task⟩ := l
  have hsplit := length_due_add_length_later now deferred
  have hsent := sinks_sendDeferred (deferred.filter (·.due ≤ now)) c
  cases task with
  | none =>
    have hcount : c.sinks = n + (deferred.length + 0) := h
    show ((deferred.filter (·.due ≤ now)).foldl sendDeferred c).sinks =
      n + ((deferred.filter (now < ·.due)).length + 0)
    omega
  | some task =>
    have hcount : c.sinks = n + (deferred.length + task.sinks) := h
    -- When the deferred sends are done, the task's sink is still there.
    have hbefore : ((deferred.filter (·.due ≤ now)).foldl sendDeferred c).sinks =
        n + (deferred.filter (now < ·.due)).length + task.sinks := by
      omega
    have hafter := task.sinks_settle now hbefore
    rw [Nat.add_assoc] at hafter
    exact hafter

/-- Doing what is due at some times keeps the count right. -/
theorem Counts.settleAt (h : l.Counts n) (times : List ℕ) : (l.settleAt times).Counts n := by
  induction times generalizing l with
  | nil => exact h
  | cons now times ih => exact ih (h.settle now)

end Line

/-! ## Sinks in the hands of the user -/

namespace Timeline

/-- How many sinks of a channel the user has after a step, if there were `n` before. -/
def Step.sinksAfter (i n : ℕ) : Step → ℕ
  | .addSink j => if j = i then n + 1 else n
  | .dropSink j => if j = i then n - 1 else n
  | _ => n

/-- How many sinks of a channel the user has after a session, if there were `n` before. -/
def userSinks (i n : ℕ) (steps : List Step) : ℕ := steps.foldl (Step.sinksAfter i) n

/-- Whoever uses a sink of the channel has one: the user begins with `n` of them. -/
def Possible (i : ℕ) : ℕ → List Step → Prop
  | _, [] => True
  | n, step :: steps => (step.UsesSink i → 0 < n) ∧ Possible i (step.sinksAfter i n) steps

/-- A step that uses no sink leaves the user with as many as before. -/
theorem Step.sinksAfter_of_not_usesSink {i : ℕ} {step : Step} (h : ¬ step.UsesSink i) (n : ℕ) :
    step.sinksAfter i n = n := by
  cases step with
  | addSink j => exact if_neg h
  | dropSink j => exact if_neg h
  | _ => rfl

end Timeline

namespace Line

open Timeline (Step)

variable {i n : ℕ} {l l' : Line} {step : Step} {log : Log} {learned : Channel.Polled}

/-- A step that uses no sink keeps the count right. -/
theorem Touched.counts (h : l.Touched i step log learned l') (hl : l.Counts n)
    (hsink : ¬ step.UsesSink i) : l'.Counts n := by
  cases h with
  | addSink => exact absurd rfl hsink
  | dropSink => exact absurd rfl hsink
  | send f => exact absurd rfl hsink
  | sendLater ms due f => exact absurd rfl hsink
  | close => exact hl
  | dropReceiver => exact hl
  | settled times => exact hl.settleAt times
  | taken times receives taken =>
    exact (Channel.tryReceive_some taken).2.2.trans (hl.settleAt times)
  | ended times receives ended => exact hl.settleAt times

/-- A step that does not shut the channel leaves it as closed as it was. -/
theorem Touched.isClosed_eq (h : l.Touched i step log learned l') (hshut : ¬ step.Shuts i) :
    l'.channel.isClosed = l.channel.isClosed := by
  cases h with
  | addSink => rfl
  | dropSink => rfl
  | send f => exact Channel.isClosed_of_receiver (l.channel.took_send f).receiver
  | sendLater ms due f => rfl
  | close => exact absurd rfl hshut
  | dropReceiver => exact absurd rfl hshut
  | settled times => exact Channel.isClosed_of_receiver (l.took_settleAt times).receiver
  | taken times receives taken =>
    have hreceiver := (l.took_settleAt times).receiver
    exact Channel.isClosed_of_receiver ((Channel.tryReceive_some taken).2.1.trans hreceiver)
  | ended times receives ended =>
    exact Channel.isClosed_of_receiver (l.took_settleAt times).receiver

/-- All frames that are offered to a channel in a step are refused if it is closed, and are taken if
it is not. -/
theorem Touched.answered (h : l.Touched i step log learned l') :
    ∀ entry ∈ log, entry.2 = if l.channel.isClosed then .error .sinkClosed else .ok () := by
  cases h with
  | send f => exact (l.channel.took_send f).answered
  | settled times => exact (l.took_settleAt times).answered
  | taken times => exact (l.took_settleAt times).answered
  | ended times => exact (l.took_settleAt times).answered
  | _ => exact List.forall_mem_nil _

end Line

namespace Timeline

variable {t : Timeline} {i n : ℕ} {l : Line}

/-- Whatever possible step is done, the count stays right. -/
theorem perform_counts (h : t.lines[i]? = some l) (hl : l.Counts n) {step : Step}
    (hpossible : step.UsesSink i → 0 < n) :
    ∃ l', (t.perform step).1.lines[i]? = some l' ∧ l'.Counts (step.sinksAfter i n) := by
  by_cases hsink : step.UsesSink i
  · -- The user has a sink, and the step is about this channel.
    have hpos := hpossible hsink
    have hcount : l.channel.sinks = n + l.workingSinks := hl
    cases step with
    | addSink j =>
      obtain rfl : j = i := hsink
      refine ⟨_, line_modifyChannel h j Channel.addSink, ?_⟩
      rw [if_pos rfl, Step.sinksAfter, if_pos rfl]
      show l.channel.sinks + 1 = n + 1 + l.workingSinks
      omega
    | dropSink j =>
      obtain rfl : j = i := hsink
      refine ⟨_, line_modifyChannel h j Channel.dropSink, ?_⟩
      rw [if_pos rfl, Step.sinksAfter, if_pos rfl]
      show l.channel.sinks - 1 = n - 1 + l.workingSinks
      omega
    | send j f =>
      obtain rfl : j = i := hsink
      rw [perform, sendTo_of_line h]
      refine ⟨_, line_modifyChannel h j _, ?_⟩
      rw [if_pos rfl]
      exact (l.channel.sinks_send f).trans hcount
    | sendLater j ms f =>
      obtain rfl : j = i := hsink
      refine ⟨l.defer (t.now + ms) f, ?_, ?_⟩
      · rw [perform, sendLater, List.getElem?_modify, h]
        exact congrArg some (if_pos rfl)
      · show l.channel.sinks + 1 = n + (l.defer (t.now + ms) f).workingSinks
        rw [Line.workingSinks_defer]
        omega
    | _ => exact absurd hsink id
  · obtain ⟨l', hl', htouched⟩ := perform_touched h step
    rw [Step.sinksAfter_of_not_usesSink hsink]
    exact ⟨l', hl', htouched.counts hl hsink⟩

/-- A step that shuts a channel closes it. -/
theorem perform_isClosed (h : t.lines[i]? = some l) (step : Step) :
    ∃ l', (t.perform step).1.lines[i]? = some l' ∧
      (l'.channel.isClosed = true ↔ l.channel.isClosed = true ∨ step.Shuts i) := by
  by_cases hshut : step.Shuts i
  · cases step with
    | close j =>
      obtain rfl : j = i := hshut
      refine ⟨_, line_modifyChannel h j Channel.close, ?_⟩
      rw [if_pos rfl]
      exact iff_of_true l.channel.isClosed_close (.inr rfl)
    | dropReceiver j =>
      obtain rfl : j = i := hshut
      refine ⟨_, line_modifyChannel h j Channel.dropReceiver, ?_⟩
      rw [if_pos rfl]
      exact iff_of_true rfl (.inr rfl)
    | _ => exact absurd hshut id
  · obtain ⟨l', hl', htouched⟩ := perform_touched h step
    refine ⟨l', hl', ?_⟩
    rw [htouched.isClosed_eq hshut]
    exact (or_iff_left hshut).symm

/-- In any session the count stays right, and the channel is closed exactly if it was closed before
or a step has shut it. -/
theorem performAll_counts (h : t.lines[i]? = some l) (hl : l.Counts n) {steps : List Step}
    (hpossible : Possible i n steps) :
    ∃ l', (t.performAll steps).lines[i]? = some l' ∧ l'.Counts (userSinks i n steps) ∧
      (l'.channel.isClosed = true ↔
        l.channel.isClosed = true ∨ ∃ step ∈ steps, step.Shuts i) := by
  induction steps generalizing t l n with
  | nil => exact ⟨l, h, hl, by simp⟩
  | cons step steps ih =>
    obtain ⟨hstep, hothers⟩ := hpossible
    obtain ⟨l₁, hl₁, hcounts⟩ := perform_counts h hl hstep
    obtain ⟨l₂, hl₂, hclosed⟩ := perform_isClosed h step
    obtain rfl : l₁ = l₂ := Option.some.inj (hl₁.symm.trans hl₂)
    obtain ⟨l', hl', hcounts', hclosed'⟩ := ih hl₁ hcounts hothers
    refine ⟨l', hl', hcounts', ?_⟩
    simp only [hclosed', hclosed, List.mem_cons, exists_eq_or_imp, or_assoc]

end Timeline

/-! ## Ends -/

/-- Nobody can send to a channel that is closed. -/
theorem Channel.isFinished_of_closed {c : Channel} (h : c.isClosed = true) :
    c.isFinished = true := by
  rw [isFinished, h]
  rfl

namespace Line

open Timeline (Step)

variable {i n : ℕ} {l l' : Line} {step : Step} {log : Log} {learned : Channel.Polled}

/-- If the count is right, nobody can send exactly if the channel is closed or nobody has a sink. -/
theorem Counts.isFinished_iff (h : l.Counts n) :
    l.channel.isFinished = true ↔ l.channel.isClosed = true ∨ n + l.workingSinks = 0 := by
  rw [Channel.isFinished, Bool.or_eq_true, decide_eq_true_eq, show l.channel.sinks = _ from h]

/-- A line whose work holds no sink has nothing to do. -/
theorem settle_of_idle (h : l.workingSinks = 0) (now : ℕ) :
    l.settle now = l ∧ l.sends now = [] := by
  obtain ⟨c, deferred, task⟩ := l
  unfold workingSinks at h
  obtain ⟨hdeferred, htask⟩ := Nat.add_eq_zero_iff.mp h
  obtain rfl : deferred = [] := List.length_eq_zero_iff.mp hdeferred
  cases task with
  | none => exact ⟨rfl, rfl⟩
  | some task =>
    cases task with
    | resumes due reader => cases htask
    | hanging reader => cases htask
    | ended result => exact ⟨rfl, rfl⟩

/-- A line whose work holds no sink stays as it is. -/
theorem settleAt_of_idle (h : l.workingSinks = 0) (times : List ℕ) :
    l.settleAt times = l ∧ l.sendsAt times = [] := by
  induction times with
  | nil => exact ⟨rfl, rfl⟩
  | cons now times ih =>
    obtain ⟨hsame, hnothing⟩ := settle_of_idle h now
    obtain ⟨hlater, hnothing'⟩ := ih
    constructor
    · show (l.settle now).settleAt times = l
      rw [hsame, hlater]
    · rw [sendsAt, hsame, hnothing, hnothing', List.append_nil]

/-- The channel has come to its end: its queue is empty, and nobody can send. -/
structure Over (n : ℕ) (l : Line) : Prop where
  /-- The channel has counted its sinks. -/
  counts : l.Counts n
  /-- No frame is left. -/
  empty : l.channel.queued = []
  /-- No frame can come. -/
  finished : l.channel.isFinished = true

/-- As long as the user has a sink, only a closed channel is at its end. -/
theorem Over.closed_of_pos (h : l.Over n) (hpos : 0 < n) : l.channel.isClosed = true := by
  rcases h.counts.isFinished_iff.mp h.finished with hclosed | hnone
  · exact hclosed
  · omega

/-- What takes nothing keeps the end of a closed channel. -/
theorem Over.of_took (h : l.Over n) (hclosed : l.channel.isClosed = true) {c : Channel}
    (htook : l.channel.Took log c) :
    log.accepted = [] ∧ c.queued = [] ∧ c.isFinished = true := by
  have hnothing := htook.accepted_of_closed hclosed
  refine ⟨hnothing, ?_, ?_⟩
  · rw [htook.queued, hnothing, h.empty]
    rfl
  · refine Channel.isFinished_of_closed ?_
    rw [Channel.isClosed_of_receiver htook.receiver, hclosed]

/-- What becomes due behind the end of a channel sends nothing that is accepted. -/
theorem Over.settleAt (h : l.Over n) (times : List ℕ) :
    (l.sendsAt times).accepted = [] ∧ (l.settleAt times).channel.queued = [] ∧
      (l.settleAt times).channel.isFinished = true := by
  rcases h.counts.isFinished_iff.mp h.finished with hclosed | hnone
  · exact h.of_took hclosed (l.took_settleAt times)
  · obtain ⟨hsame, hnothing⟩ := settleAt_of_idle (Nat.add_eq_zero_iff.mp hnone).2 times
    rw [hsame, hnothing]
    exact ⟨rfl, h.empty, h.finished⟩

/-- The end of a channel is final: in a possible step nothing is accepted and nothing handed out,
and the channel is still at its end. -/
theorem Touched.over (h : l.Touched i step log learned l') (hl : l.Over n)
    (hpossible : step.UsesSink i → 0 < n) :
    log.accepted = [] ∧ learned.frames = [] ∧ l'.channel.queued = [] ∧
      l'.channel.isFinished = true := by
  cases h with
  | addSink =>
    have hclosed := hl.closed_of_pos (hpossible rfl)
    exact ⟨rfl, rfl, hl.empty, Channel.isFinished_of_closed hclosed⟩
  | dropSink =>
    have hclosed := hl.closed_of_pos (hpossible rfl)
    exact ⟨rfl, rfl, hl.empty, Channel.isFinished_of_closed hclosed⟩
  | send f =>
    have hclosed := hl.closed_of_pos (hpossible rfl)
    obtain ⟨hnothing, hempty, hfinished⟩ := hl.of_took hclosed (l.channel.took_send f)
    exact ⟨hnothing, rfl, hempty, hfinished⟩
  | sendLater ms due f =>
    have hclosed := hl.closed_of_pos (hpossible rfl)
    exact ⟨rfl, rfl, hl.empty, Channel.isFinished_of_closed hclosed⟩
  | close => exact ⟨rfl, rfl, hl.empty, Channel.isFinished_of_closed l.channel.isClosed_close⟩
  | dropReceiver => exact ⟨rfl, rfl, rfl, Channel.isFinished_of_closed rfl⟩
  | settled times =>
    obtain ⟨hnothing, hempty, hfinished⟩ := hl.settleAt times
    exact ⟨hnothing, rfl, hempty, hfinished⟩
  | taken times receives taken =>
    -- There is no frame to take.
    have hempty := (hl.settleAt times).2.1
    rw [(Channel.tryReceive_some taken).1] at hempty
    cases hempty
  | ended times receives ended =>
    obtain ⟨hnothing, hempty, hfinished⟩ := hl.settleAt times
    exact ⟨hnothing, rfl, hempty, hfinished⟩

end Line

namespace Timeline

variable {t : Timeline} {i n : ℕ} {l : Line}

/-- A possible step leaves a channel at its end. -/
theorem perform_over (h : t.lines[i]? = some l) (hl : l.Over n) {step : Step}
    (hpossible : step.UsesSink i → 0 < n) :
    ∃ l', (t.perform step).1.lines[i]? = some l' ∧ l'.Over (step.sinksAfter i n) ∧
      (t.sentBy i step).accepted = [] ∧ (step.learned i (t.perform step).2).frames = [] := by
  obtain ⟨l', hl', hcounts⟩ := perform_counts h hl.counts hpossible
  obtain ⟨l₁, hl₁, htouched⟩ := perform_touched h step
  obtain rfl : l' = l₁ := Option.some.inj (hl'.symm.trans hl₁)
  obtain ⟨hnothing, hframes, hempty, hfinished⟩ := htouched.over hl hpossible
  exact ⟨l', hl', ⟨hcounts, hempty, hfinished⟩, hnothing, hframes⟩

/-- A possible session leaves a channel at its end. -/
theorem performAll_over (h : t.lines[i]? = some l) (hl : l.Over n) {steps : List Step}
    (hpossible : Possible i n steps) :
    ∃ l', (t.performAll steps).lines[i]? = some l' ∧ l'.Over (userSinks i n steps) ∧
      (t.sent i steps).accepted = [] ∧ t.handed i steps = [] := by
  induction steps generalizing t l n with
  | nil => exact ⟨l, h, hl, rfl, rfl⟩
  | cons step steps ih =>
    obtain ⟨hstep, hothers⟩ := hpossible
    obtain ⟨l₁, hl₁, hover, hnothing, hframes⟩ := perform_over h hl hstep
    obtain ⟨l', hl', hover', hnothing', hframes'⟩ := ih hl₁ hover hothers
    refine ⟨l', hl', hover', ?_, ?_⟩
    · rw [sent, Log.accepted_append, hnothing, hnothing']
      rfl
    · rw [handed, hframes, hframes']
      rfl

/-! ## What a session shows of an end -/

/-- The number of sinks that the work behind a line holds. -/
def workingSinks (t : Timeline) (i : ℕ) : ℕ := (t.lines[i]?.map Line.workingSinks).getD 0

/-- What a channel shows, if the steps that have shut it and its live sinks are all that matters:
`shut` says whether there is such a step, and `live` is the number of sinks. -/
structure Decides (shut : Prop) (live : ℕ) (i : ℕ) (t : Timeline) : Prop where
  /-- A poll brings the oldest frame in the queue. -/
  frame : ∀ f, (t.perform (.poll i)).2 = .received (some f) ↔ (t.queued i).head? = some f
  /-- A poll finds the end if the queue is empty and no frame can come. -/
  ended : (t.perform (.poll i)).2 = .received none ↔ t.queued i = [] ∧ (shut ∨ live = 0)
  /-- A poll finds nothing yet if the queue is empty and a frame can come. -/
  pending : (t.perform (.poll i)).2 = .pending ↔ t.queued i = [] ∧ ¬ shut ∧ 0 < live
  /-- The sinks find the channel closed if it has been shut. -/
  closed : (t.channel? i).map Channel.isClosed = some true ↔ shut
  /-- A send fails if the channel has been shut. -/
  refused : ∀ f, (t.perform (.send i f)).2 = .sent (.error .sinkClosed) ↔ shut
  /-- A send succeeds if the channel has not been shut. -/
  accepted : ∀ f, (t.perform (.send i f)).2 = .sent (.ok ()) ↔ ¬ shut
  /-- In any step, all that is sent to the channel, by whomever, is refused if the channel has been
  shut before, and is accepted otherwise. -/
  answered : ∀ step, ∀ entry ∈ t.sentBy i step,
    (entry.2 = .error .sinkClosed ↔ shut) ∧ (entry.2 = .ok () ↔ ¬ shut)

/-- Whoever receives from the channel, and however, finds its end. -/
structure Ended (i : ℕ) (t : Timeline) : Prop where
  /-- A poll finds the end. -/
  poll : (t.perform (.poll i)).2 = .received none
  /-- Waiting for a frame finds the end. -/
  receive : (t.perform (.receive i)).2 = .received none
  /-- Waiting for some time does not take too long. -/
  receiveWithin : ∀ ms, (t.perform (.receiveWithin i ms)).2 = .received none
  /-- A try brings nothing. -/
  tryReceive : (t.perform (.tryReceive i)).2 = .tried none

/-- A poll of a channel at its end. -/
theorem poll_of_over (h : t.lines[i]? = some l) (hempty : l.channel.queued = [])
    (hfinished : l.channel.isFinished = true) : poll i t = some (t, none) := by
  have hended := l.channel.poll_eq_ended_iff.mpr ⟨hempty, hfinished⟩
  rw [poll, channel?_of_line h]
  dsimp only
  rcases hpoll : l.channel.poll with ⟨c, polled⟩
  rw [hpoll] at hended
  obtain rfl : polled = .ended := hended
  rfl

/-- A channel at its end shows it, however one asks. -/
theorem ended_of_over (h : t.lines[i]? = some l) (hl : l.Over n) : Ended i t := by
  have hpoll : ∀ times, poll i (t.settleAt times) = some (t.settleAt times, none) := by
    intro times
    obtain ⟨-, hempty, hfinished⟩ := hl.settleAt times
    exact poll_of_over (line_settleAt h times) hempty hfinished
  constructor
  · rw [perform, poll_of_over h hl.empty hl.finished]
  · rw [perform_receive, hpoll]
  · intro ms
    rw [perform_receiveWithin, hpoll]
  · rw [perform, tryReceive, channel?_of_line h]
    dsimp only
    rcases htake : l.channel.tryReceive with ⟨c, _ | f⟩
    · rfl
    · have hempty := hl.empty
      rw [(Channel.tryReceive_some htake).1] at hempty
      cases hempty

/-- What a poll answers. -/
theorem answer_poll (h : t.lines[i]? = some l) :
    (t.perform (.poll i)).2 =
      match l.channel.poll.2 with
      | .frame f => .received (some f)
      | .ended => .received none
      | .pending => .pending := by
  rw [perform, poll, channel?_of_line h]
  dsimp only
  rcases l.channel.poll with ⟨c, f | _ | _⟩ <;> rfl

/-- What a send answers. -/
theorem answer_send (h : t.lines[i]? = some l) (f : Frame) :
    (t.perform (.send i f)).2 =
      .sent (if l.channel.isClosed then .error .sinkClosed else .ok ()) := by
  have hanswered := (l.channel.took_send f).answered
  rw [List.forall_mem_singleton] at hanswered
  rw [perform, sendTo_of_line h, ← hanswered]

/-- If the count of sinks is right, and the channel is closed exactly if it has been shut, then this
is all that matters. -/
theorem decides_of_line (h : t.lines[i]? = some l) (hl : l.Counts n) {shut : Prop}
    (hshut : l.channel.isClosed = true ↔ shut) : Decides shut (n + t.workingSinks i) i t := by
  have hworking : t.workingSinks i = l.workingSinks := by
    rw [workingSinks, h]
    rfl
  have hfinished : l.channel.isFinished = true ↔ shut ∨ n + t.workingSinks i = 0 := by
    rw [hl.isFinished_iff, hshut, hworking]
  have hopen : l.channel.isFinished = false ↔ ¬ shut ∧ 0 < n + t.workingSinks i := by
    rw [← Bool.not_eq_true, hfinished, not_or, Nat.pos_iff_ne_zero]
  have hsent : ∀ result : Except Error Unit,
      (result = if l.channel.isClosed then .error .sinkClosed else .ok ()) →
        (result = .error .sinkClosed ↔ shut) ∧ (result = .ok () ↔ ¬ shut) := by
    rintro result rfl
    rw [← hshut]
    cases l.channel.isClosed <;> simp
  have hsend : ∀ f result, (t.perform (.send i f)).2 = .sent result ↔
      (if l.channel.isClosed then .error .sinkClosed else .ok ()) = result := by
    intro f result
    rw [answer_send h, Answer.sent.injEq]
  constructor
  · intro f
    rw [answer_poll h, queued_of_line h, ← l.channel.poll_eq_frame_iff]
    rcases l.channel.poll.2 with g | _ | _ <;> simp
  · rw [answer_poll h, queued_of_line h, ← hfinished, ← l.channel.poll_eq_ended_iff]
    rcases l.channel.poll.2 with g | _ | _ <;> simp
  · rw [answer_poll h, queued_of_line h, ← hopen, ← l.channel.poll_eq_pending_iff]
    rcases l.channel.poll.2 with g | _ | _ <;> simp
  · rw [channel?_of_line h, Option.map_some, Option.some.injEq, hshut]
  · intro f
    rw [hsend f]
    exact (hsent _ rfl).1
  · intro f
    rw [hsend f]
    exact (hsent _ rfl).2
  · intro step entry hentry
    obtain ⟨l', -, htouched⟩ := perform_touched h step
    exact hsent entry.2 (htouched.answered entry hentry)

/-- A receiver that has found the end of a channel has found it at its end. -/
theorem over_of_received_none (h : t.lines[i]? = some l) (hl : l.Counts n) {step : Step}
    (hstep : step.receiver? = some i) (hanswer : (t.perform step).2 = .received none) :
    ∃ l', (t.perform step).1.lines[i]? = some l' ∧ l'.Over n := by
  obtain ⟨l', hl', htouched⟩ := perform_touched h step
  rw [learned_of_receiver hstep, if_pos rfl, hanswer] at htouched
  generalize t.sentBy i step = log at htouched
  refine ⟨l', hl', ?_⟩
  cases htouched with
  | ended times receives ended =>
    obtain ⟨hempty, hfinished⟩ := Channel.queued_of_ended ended
    exact ⟨hl.settleAt times, hempty, hfinished⟩

/-- A line begins with one sink in the hands of the user, or with one that belongs to its task. -/
theorem line_of_opened {t₁ : Timeline}
    (h : t₁ = t.openChannel ∧ n = 1 ∨ (∃ source c, t.spawn source c = .ok t₁) ∧ n = 0) :
    ∃ l, t₁.lines[t.lines.length]? = some l ∧ l.Counts n ∧ l.channel.isClosed = false := by
  rcases h with ⟨rfl, rfl⟩ | ⟨⟨source, c, hspawn⟩, rfl⟩
  · exact ⟨.new, List.getElem?_concat_length, rfl, rfl⟩
  · rw [spawn] at hspawn
    split at hspawn
    · cases hspawn
    · cases hspawn
      exact ⟨_, List.getElem?_concat_length, rfl, rfl⟩

/-- The end of a channel is exact and final. Take any channel, opened by a user, who has then one
sink, or for a reader, whose task has the only one; and any session from then on in which the user
never uses a sink without having one. A deferred send has a sink of its own until it is done, and a
task until it ends. Then a poll brings the oldest frame in the queue if there is one; it finds the
end if there is none and a step has shut the channel or no sink is left; and it finds nothing yet
otherwise. What is sent is refused if a step has shut the channel before, by closing it or dropping
its receiver, and is accepted otherwise; and this, but not the number of sinks, is also when the
sinks find the channel closed, so that it never opens again. Once a receiver has found the end,
whatever follows, no frame is accepted or handed out any more, and whoever receives, and however,
finds the end again: no wait takes too long, and a try brings nothing. -/
theorem end_is_exact_and_final {t₁ : Timeline}
    (hopened : t₁ = t.openChannel ∧ n = 1 ∨ (∃ source c, t.spawn source c = .ok t₁) ∧ n = 0)
    (steps : List Step) (hpossible : Possible t.lines.length n steps) :
    let i := t.lines.length
    let t' := t₁.performAll steps
    Decides (∃ step ∈ steps, step.Shuts i) (userSinks i n steps + t'.workingSinks i) i t' ∧
      ∀ step, step.receiver? = some i → (t'.perform step).2 = .received none →
        ∀ later, Possible i (userSinks i n steps) later →
          let u := (t'.perform step).1
          (u.sent i later).accepted = [] ∧ u.handed i later = [] ∧
            Ended i (u.performAll later) := by
  intro i t'
  obtain ⟨l, hl, hcounts, hopen⟩ := line_of_opened hopened
  obtain ⟨l', hl', hcounts', hclosed⟩ := performAll_counts hl hcounts hpossible
  have hshut : l'.channel.isClosed = true ↔ ∃ step ∈ steps, step.Shuts i := by
    rw [hclosed, hopen]
    exact or_iff_right Bool.false_ne_true
  refine ⟨decides_of_line hl' hcounts' hshut, ?_⟩
  intro step hstep hanswer later hlater u
  obtain ⟨l₁, hl₁, hover⟩ := over_of_received_none hl' hcounts' hstep hanswer
  obtain ⟨l₂, hl₂, hover', hnothing, hframes⟩ := performAll_over hl₁ hover hlater
  exact ⟨hnothing, hframes, ended_of_over hl₂ hover'⟩

/-- The user defers a send and drops the only other sink: the channel is pending until the frame has
been sent, and has come to its end when the frame has been received. -/
theorem end_is_exact_and_final_deferred :
    let f : Frame := ⟨0, [7]⟩
    let before : List Step := [.sendLater 0 5 f, .dropSink 0]
    let steps : List Step := before ++ [.elapse 5, .tryReceive 0]
    let waiting := start.openChannel.performAll before
    let t := start.openChannel.performAll steps
    let later : List Step := [.tryReceive 0, .sleep 3, .close 0]
    (Possible 0 1 before ∧ Possible 0 1 steps) ∧ (waiting.perform (.poll 0)).2 = .pending ∧
      start.openChannel.handed 0 steps = [f] ∧ (t.perform (.poll 0)).2 = .received none ∧
        Ended 0 ((t.perform (.poll 0)).1.performAll later) := by
  intro f before steps waiting t later
  have hbefore : Possible 0 1 before := by simp [before, Possible, Step.sinksAfter]
  have hsteps : Possible 0 1 steps := by simp [steps, before, Possible, Step.sinksAfter,
    Step.UsesSink]
  have hlater : Possible 0 (userSinks 0 1 steps) later := by simp [later, Possible, Step.UsesSink]
  have hopened : start.openChannel = start.openChannel ∧ 1 = 1 ∨
      (∃ source c, start.spawn source c = .ok start.openChannel) ∧ 1 = 0 := .inl ⟨rfl, rfl⟩
  obtain ⟨hdecides, -⟩ := end_is_exact_and_final (t := start) hopened before hbefore
  obtain ⟨-, hfinal⟩ := end_is_exact_and_final (t := start) hopened steps hsteps
  have hpending := hdecides.pending.mpr ⟨rfl, by simp [before, Step.Shuts], by decide⟩
  obtain ⟨-, -, hended⟩ := hfinal (.poll 0) rfl rfl later hlater
  exact ⟨⟨hbefore, hsteps⟩, hpending, rfl, rfl, hended⟩

end Timeline

end PrefixFraming
