import PrefixFraming.Proofs.Waiting

/-!
# Sessions

Whoever uses the lines of a clock does so step by step: opening channels and starting readers,
sending through sinks, receiving with and without waiting, letting time pass. A session is a
sequence of such steps, in any order, and `perform` is what one of them does.

A session is watched from one line at a time. What happens to the line in a step, what it sends
meanwhile and what its receiver learns is one of a few things (`Line.Touched`, `perform_touched`),
and every invariant of a session is read off from these.
-/

namespace PrefixFraming

open Sink (Log)
open Channel (Polled)

/-- The frames that a receiver is handed with what it learns. -/
def Channel.Polled.frames : Polled → List Frame
  | .frame f => [f]
  | _ => []

namespace Channel

variable {c c' : Channel} {f : Frame}

/-- A receiver that finds a frame takes the oldest one and changes nothing else. -/
theorem tryReceive_some (h : c.tryReceive = (c', some f)) :
    c.queued = f :: c'.queued ∧ c'.receiver = c.receiver ∧ c'.sinks = c.sinks := by
  have hqueued := c.tryReceive_queued
  rw [h, Prod.mk.injEq] at hqueued
  refine ⟨?_, ?_⟩
  · obtain ⟨rest, hrest⟩ := List.head?_eq_some_iff.mp hqueued.1.symm
    rw [hqueued.2, hrest, List.tail_cons]
  · rw [tryReceive] at h
    split at h <;> cases h
    exact ⟨rfl, rfl⟩

/-- A receiver that finds nothing changes nothing. -/
theorem tryReceive_none (h : c.tryReceive = (c', none)) : c' = c ∧ c.queued = [] := by
  have hqueued := c.tryReceive_queued
  rw [h, Prod.mk.injEq] at hqueued
  refine ⟨?_, List.head?_eq_none_iff.mp hqueued.1.symm⟩
  rw [tryReceive] at h
  split at h <;> cases h
  rfl

/-- A poll takes a frame if there is one, and otherwise tells whether one can come. -/
theorem poll_eq (c : Channel) :
    (∃ c' f, c.tryReceive = (c', some f) ∧ c.poll = (c', .frame f)) ∨
      (c.queued = [] ∧ c.poll = (c, if c.isFinished then .ended else .pending)) := by
  rw [poll]
  rcases htake : c.tryReceive with ⟨c', _ | f⟩
  · obtain ⟨rfl, hempty⟩ := tryReceive_none htake
    exact .inr ⟨hempty, rfl⟩
  · exact .inl ⟨c', f, rfl, rfl⟩

/-- A poll that brings a frame takes it as a try does. -/
theorem tryReceive_of_poll (h : c.poll = (c', .frame f)) : c.tryReceive = (c', some f) := by
  rcases c.poll_eq with ⟨c₁, f₁, htake, hpoll⟩ | ⟨-, hpoll⟩
  · rw [hpoll] at h
    cases h
    exact htake
  · rw [hpoll] at h
    split_ifs at h <;> cases h

/-- A poll that finds nothing yet finds an empty queue. -/
theorem queued_of_pending (h : c.poll.2 = .pending) : c.queued = [] ∧ c.isFinished = false := by
  rcases c.poll_eq with ⟨c₁, f₁, -, hpoll⟩ | ⟨hempty, hpoll⟩
  · rw [hpoll] at h
    cases h
  · rw [hpoll] at h
    refine ⟨hempty, Bool.eq_false_iff.mpr fun hfinished => ?_⟩
    rw [if_pos hfinished] at h
    cases h

/-- A poll that finds an end finds an empty queue and nobody who can send. -/
theorem queued_of_ended (h : c.poll.2 = .ended) : c.queued = [] ∧ c.isFinished = true := by
  rcases c.poll_eq with ⟨c₁, f₁, -, hpoll⟩ | ⟨hempty, hpoll⟩
  · rw [hpoll] at h
    cases h
  · rw [hpoll] at h
    refine ⟨hempty, ?_⟩
    by_contra hfinished
    rw [if_neg hfinished] at h
    cases h

end Channel

namespace Timeline

/-! ## Steps -/

/-- Something to do with the lines, which are told apart by their numbers. -/
inductive Step where
  /-- Opens a channel with one sink. -/
  | openChannel
  /-- Starts a reader that forwards its frames to a new channel. -/
  | spawn (source : Source) (c : Config)
  /-- Makes another sink. -/
  | addSink (i : ℕ)
  /-- Drops a sink. -/
  | dropSink (i : ℕ)
  /-- Sends a frame through a sink. -/
  | send (i : ℕ) (f : Frame)
  /-- Sends a frame through a new sink when some milliseconds have passed. -/
  | sendLater (i ms : ℕ) (f : Frame)
  /-- The receiver stops listening. -/
  | close (i : ℕ)
  /-- The receiver goes away. -/
  | dropReceiver (i : ℕ)
  /-- Takes a frame if one is there. -/
  | tryReceive (i : ℕ)
  /-- Takes a frame if one is there, and learns otherwise whether one can come. -/
  | poll (i : ℕ)
  /-- Waits for a frame or the end of the channel. -/
  | receive (i : ℕ)
  /-- Waits for a frame or the end of the channel, but only so many milliseconds. -/
  | receiveWithin (i ms : ℕ)
  /-- Waits some milliseconds. -/
  | sleep (ms : ℕ)
  /-- Is busy with other things for some milliseconds, behind which the lines do at once all that
  has become due. -/
  | elapse (ms : ℕ)
  /-- Waits for the end of a task. -/
  | join (i : ℕ)

/-- What comes of a step. -/
inductive Answer where
  /-- The step is done. -/
  | done
  /-- The channel takes the frame or refuses it. -/
  | sent (result : Except Error Unit)
  /-- A frame was there, or not. -/
  | tried (f : Option Frame)
  /-- A frame has come, or none can come any more. -/
  | received (f : Option Frame)
  /-- No frame is there, but one can come. -/
  | pending
  /-- The step has failed. -/
  | failed (e : Error)
  /-- The task has ended with a result. -/
  | joined (result : Except Error Stats)
  /-- Nothing can happen any more that would end the wait. -/
  | stuck

/-- What a wait for the end of a task looks for. -/
def checkTask (i : ℕ) (t : Timeline) : Option (Timeline × Except Error Stats) :=
  ((t.task? i).bind Task.result?).map fun result => (t, result)

/-- Does a step. -/
def perform (t : Timeline) : Step → Timeline × Answer
  | .openChannel => (t.openChannel, .done)
  | .spawn source c =>
    match t.spawn source c with
    | .ok t => (t, .done)
    | .error e => (t, .failed e)
  | .addSink i => (t.modifyChannel i Channel.addSink, .done)
  | .dropSink i => (t.modifyChannel i Channel.dropSink, .done)
  | .send i f =>
    let (t, result) := sendTo i t f
    (t, .sent result)
  | .sendLater i ms f => (t.sendLater i ms f, .done)
  | .close i => (t.modifyChannel i Channel.close, .done)
  | .dropReceiver i => (t.modifyChannel i Channel.dropReceiver, .done)
  | .tryReceive i =>
    let (t, f) := t.tryReceive i
    (t, .tried f)
  | .poll i =>
    match poll i t with
    | some (t, f) => (t, .received f)
    | none => (t, .pending)
  | .receive i =>
    match t.receive i with
    | (t, some f) => (t, .received f)
    | (t, none) => (t, .stuck)
  | .receiveWithin i ms =>
    match t.receiveWithin i ms with
    | (t, .ok f) => (t, .received f)
    | (t, .error e) => (t, .failed e)
  | .sleep ms => (t.sleep ms, .done)
  | .elapse ms => (t.jump (t.now + ms), .done)
  | .join i =>
    match t.join i with
    | (t, some result) => (t, .joined result)
    | (t, none) => (t, .stuck)

/-- Does some steps, one after the other. -/
def performAll (t : Timeline) : List Step → Timeline
  | [] => t
  | step :: steps => (t.perform step).1.performAll steps

/-! ## What a session shows of a line -/

/-- The times at which the lines do what is due in the course of a step. -/
def times (t : Timeline) : Step → List ℕ
  | .receive i => waitTimes (poll i) none t
  | .receiveWithin i ms => waitTimes (poll i) (some (t.now + ms)) t
  | .sleep ms => waitTimes (fun _ => (none : Option (Timeline × Unit))) (some (t.now + ms)) t
  | .elapse ms => [t.now + ms]
  | .join i => waitTimes (checkTask i) none t
  | _ => []

/-- The frames that are offered to the channel of a line in the course of a step, with the channel's
answers. -/
def sentBy (i : ℕ) (t : Timeline) (step : Step) : Log :=
  match step with
  | .send j f => if j = i then [(f, (sendTo i t f).2)] else []
  | step => (t.lines[i]?.map (Line.sendsAt (t.times step))).getD []

/-- The frames that are offered to the channel of a line in a session, in the order in which they
are sent, with the channel's answers. -/
def sent (i : ℕ) (t : Timeline) : List Step → Log
  | [] => []
  | step :: steps => t.sentBy i step ++ (t.perform step).1.sent i steps

/-- The channel that a step receives from. -/
def Step.receiver? : Step → Option ℕ
  | .tryReceive i => some i
  | .poll i => some i
  | .receive i => some i
  | .receiveWithin i _ => some i
  | _ => none

/-- What an answer tells a receiver. A try that finds no frame says no more than that, and nor does
a wait that takes too long. -/
def Answer.learned : Answer → Polled
  | .tried (some f) => .frame f
  | .received (some f) => .frame f
  | .received none => .ended
  | _ => .pending

/-- What the receiver of a channel learns from a step and its answer. -/
def Step.learned (i : ℕ) (step : Step) (answer : Answer) : Polled :=
  if step.receiver? = some i then answer.learned else .pending

/-- The frames that the receiver of a channel is handed in a session, in order. -/
def handed (i : ℕ) (t : Timeline) : List Step → List Frame
  | [] => []
  | step :: steps =>
    (step.learned i (t.perform step).2).frames ++ (t.perform step).1.handed i steps

/-- A session can be cut in two. -/
theorem performAll_append (t : Timeline) (before after : List Step) :
    t.performAll (before ++ after) = (t.performAll before).performAll after := by
  induction before generalizing t with
  | nil => rfl
  | cons step before ih => exact ih (t.perform step).1

/-- What is sent in a session is what is sent in its first part, and then in its second. -/
theorem sent_append (i : ℕ) (t : Timeline) (before after : List Step) :
    t.sent i (before ++ after) = t.sent i before ++ (t.performAll before).sent i after := by
  induction before generalizing t with
  | nil => rfl
  | cons step before ih =>
    rw [List.cons_append, sent, ih, sent, List.append_assoc]
    rfl

/-- Receiving is the lines at the times of the wait, and then a poll. -/
theorem perform_receive (t : Timeline) (i : ℕ) :
    t.perform (.receive i) =
      match poll i (t.settleAt (t.times (.receive i))) with
      | some (u, f) => (u, .received f)
      | none => ((t.settleAt (t.times (.receive i))).expire none, .stuck) := by
  rw [perform, receive, waitFor_eq, times]
  rcases poll i (t.settleAt (waitTimes (poll i) none t)) with _ | ⟨u, f⟩ <;> rfl

/-- Receiving for some milliseconds is the lines at the times of the wait, and then a poll. -/
theorem perform_receiveWithin (t : Timeline) (i ms : ℕ) :
    t.perform (.receiveWithin i ms) =
      match poll i (t.settleAt (t.times (.receiveWithin i ms))) with
      | some (u, f) => (u, .received f)
      | none =>
        ((t.settleAt (t.times (.receiveWithin i ms))).expire (some (t.now + ms)),
          .failed .timeout) := by
  rw [perform, receiveWithin, waitFor_eq, times]
  rcases poll i (t.settleAt (waitTimes (poll i) (some (t.now + ms)) t)) with _ | ⟨u, f⟩ <;> rfl

/-- Waiting for the end of a task is the lines at the times of the wait, and then a look at the
task. -/
theorem perform_join (t : Timeline) (i : ℕ) :
    t.perform (.join i) =
      match checkTask i (t.settleAt (t.times (.join i))) with
      | some (u, result) => (u, .joined result)
      | none => ((t.settleAt (t.times (.join i))).expire none, .stuck) := by
  have hjoin : t.join i = t.waitFor (checkTask i) none := rfl
  rw [perform, hjoin, waitFor_eq, times]
  rcases checkTask i (t.settleAt (waitTimes (checkTask i) none t)) with _ | ⟨u, result⟩ <;> rfl

/-- Sleeping is the lines at the times of the wait. -/
theorem perform_sleep (t : Timeline) (ms : ℕ) :
    t.perform (.sleep ms) =
      ((t.settleAt (t.times (.sleep ms))).expire (some (t.now + ms)), .done) := by
  rw [perform, sleep, waitFor_eq, times]

end Timeline

/-! ## What a step does to a line -/

namespace Line

open Timeline (Step)

/-- What a step can do to the line with the number `i`: the frames that are offered to its channel
meanwhile, with the answers, what its receiver learns, and the line afterwards. -/
inductive Touched (i : ℕ) (l : Line) : Step → Log → Polled → Line → Prop where
  /-- A sink is made. -/
  | addSink : Touched i l (.addSink i) [] .pending { l with channel := l.channel.addSink }
  /-- A sink is dropped. -/
  | dropSink : Touched i l (.dropSink i) [] .pending { l with channel := l.channel.dropSink }
  /-- A frame is sent. -/
  | send (f : Frame) :
      Touched i l (.send i f) [(f, (l.channel.send f).2)] .pending
        { l with channel := (l.channel.send f).1 }
  /-- A send is deferred. -/
  | sendLater (ms due : ℕ) (f : Frame) :
      Touched i l (.sendLater i ms f) [] .pending (l.defer due f)
  /-- The receiver stops listening. -/
  | close : Touched i l (.close i) [] .pending { l with channel := l.channel.close }
  /-- The receiver goes away. -/
  | dropReceiver :
      Touched i l (.dropReceiver i) [] .pending { l with channel := l.channel.dropReceiver }
  /-- The line does what is due at some times, perhaps none, and the receiver learns nothing. -/
  | settled {step : Step} (times : List ℕ) :
      Touched i l step (l.sendsAt times) .pending (l.settleAt times)
  /-- The line does what is due at some times, perhaps none, and then the receiver takes a frame. -/
  | taken {step : Step} (times : List ℕ) {c : Channel} {f : Frame}
      (receives : step.receiver? = some i)
      (taken : (l.settleAt times).channel.tryReceive = (c, some f)) :
      Touched i l step (l.sendsAt times) (.frame f) { l.settleAt times with channel := c }
  /-- The line does what is due at some times, perhaps none, and then the receiver learns that
  nothing comes any more. -/
  | ended {step : Step} (times : List ℕ) (receives : step.receiver? = some i)
      (ended : (l.settleAt times).channel.poll.2 = .ended) :
      Touched i l step (l.sendsAt times) .ended (l.settleAt times)

end Line

namespace Timeline

variable {t : Timeline} {i j : ℕ} {l : Line}

/-- Changing the channel of a line leaves the other lines alone. -/
theorem line_modifyChannel (h : t.lines[i]? = some l) (j : ℕ) (change : Channel → Channel) :
    (t.modifyChannel j change).lines[i]? =
      some (if j = i then { l with channel := change l.channel } else l) := by
  rw [modifyChannel, List.getElem?_modify, h]
  split_ifs <;> rfl

/-- Adding a line leaves the others alone. -/
theorem line_addLine (h : t.lines[i]? = some l) (new : Line) :
    (t.addLine new).lines[i]? = some l := by
  rw [addLine, List.getElem?_append_left (List.getElem?_eq_some_iff.mp h).1, h]

/-- A line during a wait. -/
theorem line_settleAt (h : t.lines[i]? = some l) (times : List ℕ) :
    (t.settleAt times).lines[i]? = some (l.settleAt times) := by
  rw [lines_settleAt, List.getElem?_map, h, Option.map_some]

/-- The channel of a line. -/
theorem channel?_of_line (h : t.lines[i]? = some l) : t.channel? i = some l.channel := by
  rw [channel?, h, Option.map_some]

/-- Only the receiver of a channel learns something from receiving. -/
theorem learned_of_receiver {step : Step} (h : step.receiver? = some j) (answer : Answer) :
    step.learned i answer = if j = i then answer.learned else .pending := by
  simp only [Step.learned, h, Option.some.injEq]

/-- What polling a channel does to a line. -/
theorem line_poll (h : t.lines[i]? = some l) (j : ℕ) :
    match poll j t with
    | some (t', some f) =>
      ∃ c, t'.lines[i]? = some (if j = i then { l with channel := c } else l) ∧
        (j = i → l.channel.tryReceive = (c, some f))
    | some (t', none) => t' = t ∧ (j = i → l.channel.poll.2 = .ended)
    | none => j = i → l.channel.poll.2 = .pending := by
  rw [poll]
  rcases hj : t.channel? j with _ | c
  · rintro rfl
    rw [channel?_of_line h] at hj
    cases hj
  · -- If the polled channel is that of the line, it is known.
    have hsame : j = i → c = l.channel := by
      rintro rfl
      rw [channel?_of_line h] at hj
      exact (Option.some.inj hj).symm
    dsimp only
    rcases hpoll : c.poll with ⟨c', f | _ | _⟩
    · refine ⟨c', line_modifyChannel h j fun _ => c', fun hji => ?_⟩
      rw [← hsame hji]
      exact Channel.tryReceive_of_poll hpoll
    · exact fun hji => by rw [← hsame hji, hpoll]
    · exact ⟨rfl, fun hji => by rw [← hsame hji, hpoll]⟩

/-- A step that polls a channel after the lines have done what is due at some times. -/
theorem touched_of_poll (h : t.lines[i]? = some l) {step : Step} (hstep : step.receiver? = some j)
    (times : List ℕ) {t' : Timeline} {answer : Answer}
    (hpoll : match poll j (t.settleAt times) with
      | some (u, f) => t' = u ∧ answer = .received f
      | none => t'.lines = (t.settleAt times).lines ∧ answer.learned = .pending) :
    ∃ l', t'.lines[i]? = some l' ∧
      l.Touched i step (l.sendsAt times) (step.learned i answer) l' := by
  have hline := line_poll (line_settleAt h times) j
  rw [learned_of_receiver hstep]
  generalize poll j (t.settleAt times) = polled at hpoll hline
  match polled with
  | some (u, some f) =>
    obtain ⟨rfl, rfl⟩ := hpoll
    obtain ⟨c, hc, htake⟩ := hline
    split_ifs at hc ⊢ with hji
    · exact ⟨_, hc, .taken times (hji ▸ hstep) (htake hji)⟩
    · exact ⟨_, hc, .settled times⟩
  | some (u, none) =>
    obtain ⟨rfl, rfl⟩ := hpoll
    obtain ⟨rfl, hended⟩ := hline
    refine ⟨_, line_settleAt h times, ?_⟩
    split_ifs with hji
    · exact .ended times (hji ▸ hstep) (hended hji)
    · exact .settled times
  | none =>
    obtain ⟨hlines, hanswer⟩ := hpoll
    refine ⟨_, hlines ▸ line_settleAt h times, ?_⟩
    rw [hanswer, ite_self]
    exact .settled times

/-- What trying to receive from a channel does to a line. -/
theorem touched_of_tryReceive (h : t.lines[i]? = some l) (j : ℕ) :
    ∃ l', (t.tryReceive j).1.lines[i]? = some l' ∧
      l.Touched i (.tryReceive j) []
        ((Step.tryReceive j).learned i (.tried (t.tryReceive j).2)) l' := by
  rw [learned_of_receiver rfl, tryReceive]
  rcases hj : t.channel? j with _ | c
  · refine ⟨l, h, ?_⟩
    dsimp only [Answer.learned]
    rw [ite_self]
    exact .settled []
  · refine ⟨_, line_modifyChannel h j fun _ => c.tryReceive.1, ?_⟩
    dsimp only
    split_ifs with hji
    · subst hji
      obtain rfl : l.channel = c := Option.some.inj ((channel?_of_line h).symm.trans hj)
      rcases htake : l.channel.tryReceive with ⟨c', _ | f⟩
      · obtain ⟨rfl, -⟩ := Channel.tryReceive_none htake
        exact .settled []
      · exact .taken [] rfl htake
    · exact .settled []

/-- What is sent in the course of a step that does not send itself. -/
theorem sentBy_of_line (h : t.lines[i]? = some l) (step : Step) (hstep : ∀ j f, step ≠ .send j f) :
    t.sentBy i step = l.sendsAt (t.times step) := by
  cases step with
  | send j f => exact absurd rfl (hstep j f)
  | _ => simp only [sentBy, h, Option.map_some, Option.getD_some]

/-- A step that changes the channel of one line and sends nothing. -/
theorem touched_of_modifyChannel (h : t.lines[i]? = some l) {step : Step}
    {change : Channel → Channel}
    (hchange : j = i → l.Touched i step [] .pending { l with channel := change l.channel }) :
    ∃ l', (t.modifyChannel j change).lines[i]? = some l' ∧ l.Touched i step [] .pending l' := by
  refine ⟨_, line_modifyChannel h j change, ?_⟩
  split_ifs with hji
  · exact hchange hji
  · exact .settled []

/-- Sending to the channel of a line. -/
theorem sendTo_of_line (h : t.lines[i]? = some l) (f : Frame) :
    sendTo i t f = (t.modifyChannel i fun _ => (l.channel.send f).1, (l.channel.send f).2) := by
  rw [sendTo, channel?_of_line h]

/-- What sending to a channel does to a line. -/
theorem touched_of_sendTo (h : t.lines[i]? = some l) (j : ℕ) (f : Frame) :
    ∃ l', (sendTo j t f).1.lines[i]? = some l' ∧
      l.Touched i (.send j f) (t.sentBy i (.send j f)) .pending l' := by
  rw [sentBy]
  by_cases hji : j = i
  · subst hji
    rw [if_pos rfl, sendTo_of_line h]
    refine ⟨_, line_modifyChannel h j _, ?_⟩
    rw [if_pos rfl]
    exact .send f
  · rw [if_neg hji, sendTo]
    rcases t.channel? j with _ | c
    · exact ⟨l, h, .settled []⟩
    · refine ⟨_, line_modifyChannel h j _, ?_⟩
      rw [if_neg hji]
      exact .settled []

/-- Deferring a send. -/
theorem touched_of_sendLater (h : t.lines[i]? = some l) (j ms : ℕ) (f : Frame) :
    ∃ l', (t.sendLater j ms f).lines[i]? = some l' ∧
      l.Touched i (.sendLater j ms f) [] .pending l' := by
  rw [sendLater, List.getElem?_modify, h]
  refine ⟨_, rfl, ?_⟩
  dsimp only
  split_ifs with hji
  · subst hji
    exact .sendLater ms (t.now + ms) f
  · exact .settled []

/-- A step that only waits. -/
theorem touched_of_wait (h : t.lines[i]? = some l) (step : Step) (times : List ℕ) {t' : Timeline}
    (ht' : t'.lines = (t.settleAt times).lines) :
    ∃ l', t'.lines[i]? = some l' ∧ l.Touched i step (l.sendsAt times) .pending l' :=
  ⟨l.settleAt times, by rw [ht', line_settleAt h], .settled times⟩

/-- Looking for the end of a task changes nothing. -/
theorem eq_of_checkTask {u : Timeline} {result : Except Error Stats}
    (h : checkTask i t = some (u, result)) : u = t := by
  rw [checkTask, Option.map_eq_some_iff] at h
  obtain ⟨_, -, hu⟩ := h
  exact (Prod.mk.inj hu).1.symm

/-- Whatever step is done, it touches each line in one of the ways above. -/
theorem perform_touched (h : t.lines[i]? = some l) (step : Step) :
    ∃ l', (t.perform step).1.lines[i]? = some l' ∧
      l.Touched i step (t.sentBy i step) (step.learned i (t.perform step).2) l' := by
  have hsent := sentBy_of_line h step
  cases step with
  | openChannel =>
    rw [hsent (by simp)]
    exact ⟨l, line_addLine h .new, .settled []⟩
  | spawn source c =>
    rw [hsent (by simp), perform, spawn]
    rcases Reader.ofConfig source c with _ | reader
    · exact ⟨l, h, .settled []⟩
    · exact ⟨l, line_addLine h _, .settled []⟩
  | addSink j =>
    rw [hsent (by simp)]
    exact touched_of_modifyChannel h fun hji => hji ▸ .addSink
  | dropSink j =>
    rw [hsent (by simp)]
    exact touched_of_modifyChannel h fun hji => hji ▸ .dropSink
  | send j f => exact touched_of_sendTo h j f
  | sendLater j ms f =>
    rw [hsent (by simp)]
    exact touched_of_sendLater h j ms f
  | close j =>
    rw [hsent (by simp)]
    exact touched_of_modifyChannel h fun hji => hji ▸ .close
  | dropReceiver j =>
    rw [hsent (by simp)]
    exact touched_of_modifyChannel h fun hji => hji ▸ .dropReceiver
  | tryReceive j =>
    rw [hsent (by simp)]
    exact touched_of_tryReceive h j
  | poll j =>
    rw [hsent (by simp)]
    refine touched_of_poll h rfl [] ?_
    rw [perform, settleAt, List.foldl_nil]
    rcases poll j t with _ | ⟨u, f⟩ <;> exact ⟨rfl, rfl⟩
  | receive j =>
    rw [hsent (by simp), perform_receive]
    refine touched_of_poll h rfl _ ?_
    rcases poll j (t.settleAt (t.times (.receive j))) with _ | ⟨u, f⟩ <;> exact ⟨rfl, rfl⟩
  | receiveWithin j ms =>
    rw [hsent (by simp), perform_receiveWithin]
    refine touched_of_poll h rfl _ ?_
    rcases poll j (t.settleAt (t.times (.receiveWithin j ms))) with _ | ⟨u, f⟩ <;> exact ⟨rfl, rfl⟩
  | sleep ms =>
    rw [hsent (by simp), perform_sleep]
    exact touched_of_wait h _ _ rfl
  | elapse ms =>
    rw [hsent (by simp)]
    exact touched_of_wait h _ _ rfl
  | join j =>
    rw [hsent (by simp), perform_join]
    rcases hended : checkTask j (t.settleAt (t.times (.join j))) with _ | ⟨u, result⟩
    · exact touched_of_wait h _ _ rfl
    · obtain rfl := eq_of_checkTask hended
      exact touched_of_wait h _ _ rfl

end Timeline

end PrefixFraming
