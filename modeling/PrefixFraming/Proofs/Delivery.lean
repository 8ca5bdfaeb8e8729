import PrefixFraming.Proofs.Session

/-!
# Delivery

A channel hands out the frames that it has accepted, all of them, once, and in the order in which
they were sent. At every moment of a session the accepted frames are the frames handed out and then
those in the queue, whoever has sent them: the user of a sink, a deferred send, or a task. Only a
receiver that is dropped takes frames with it.

One step keeps this balance whatever it does to the line (`Line.Touched.balance`), and by induction
so does a session (`performAll_balance`). The steps that could be suspected of losing a frame are
looked at one by one (`queued_of_quiet`).
-/

namespace PrefixFraming

open Sink (Log)

/-- What was in the queue of a line and what is accepted in a step is what is handed out in it and
what is in the queue afterwards. -/
theorem Line.Touched.balance {i : ℕ} {l l' : Line} {step : Timeline.Step} {log : Log}
    {learned : Channel.Polled} (h : l.Touched i step log learned l')
    (hkept : step ≠ .dropReceiver i) :
    l.channel.queued ++ log.accepted = learned.frames ++ l'.channel.queued := by
  cases h with
  | addSink => exact List.append_nil _
  | dropSink => exact List.append_nil _
  | send f => exact (l.channel.took_send f).queued.symm
  | sendLater ms due f => exact List.append_nil _
  | close => exact List.append_nil _
  | dropReceiver => exact absurd rfl hkept
  | settled times => exact (l.took_settleAt times).queued.symm
  | taken times receives taken =>
    rw [← (l.took_settleAt times).queued, (Channel.tryReceive_some taken).1]
    rfl
  | ended times receives ended => exact (l.took_settleAt times).queued.symm

namespace Timeline

variable {t : Timeline} {i : ℕ} {l : Line}

/-- What was in the queue of a line and what is accepted in a session is what is handed out in it
and what is in the queue afterwards. -/
theorem performAll_balance (h : t.lines[i]? = some l) {steps : List Step}
    (hkept : .dropReceiver i ∉ steps) :
    ∃ l', (t.performAll steps).lines[i]? = some l' ∧
      l.channel.queued ++ (t.sent i steps).accepted = t.handed i steps ++ l'.channel.queued := by
  induction steps generalizing t l with
  | nil => exact ⟨l, h, List.append_nil _⟩
  | cons step steps ih =>
    obtain ⟨hfirst, hrest⟩ := not_or.mp (List.mem_cons.not.mp hkept)
    obtain ⟨l₁, hl₁, htouched⟩ := perform_touched h step
    obtain ⟨l', hl', hbalance⟩ := ih hl₁ hrest
    refine ⟨l', hl', ?_⟩
    rw [sent, handed, Log.accepted_append, ← List.append_assoc, htouched.balance (Ne.symm hfirst),
      List.append_assoc, hbalance, List.append_assoc]

/-! ## Steps that leave the queue alone -/

/-- A step with an answer that leaves the queue as it is and hands out nothing: a send that is
refused, a receive that takes too long, a poll that finds nothing yet, and closing the channel or
dropping a sink. -/
inductive Quiet (i : ℕ) : Step → Answer → Prop where
  /-- A send is refused. -/
  | refused (f : Frame) (e : Error) : Quiet i (.send i f) (.sent (.error e))
  /-- A receive takes too long. -/
  | timedOut (ms : ℕ) : Quiet i (.receiveWithin i ms) (.failed .timeout)
  /-- A poll finds nothing yet. -/
  | pending : Quiet i (.poll i) .pending
  /-- The receiver stops listening. -/
  | close : Quiet i (.close i) .done
  /-- A sink is dropped. -/
  | dropSink : Quiet i (.dropSink i) .done

/-- A receive that takes too long finds an empty queue, from its beginning to its end. -/
theorem queued_of_timedOut (h : t.lines[i]? = some l) {ms : ℕ} {e : Error}
    (hanswer : (t.perform (.receiveWithin i ms)).2 = .failed e) :
    ∃ l', (t.perform (.receiveWithin i ms)).1.lines[i]? = some l' ∧ l'.channel.queued = [] ∧
      l.channel.queued = [] := by
  have hline := line_settleAt h (t.times (.receiveWithin i ms))
  have hpoll := line_poll hline i
  rw [perform_receiveWithin] at hanswer ⊢
  generalize poll i (t.settleAt (t.times (.receiveWithin i ms))) = polled at hpoll hanswer ⊢
  match polled with
  | none =>
    have hempty := (Channel.queued_of_pending (hpoll rfl)).1
    have htook := (l.took_settleAt (t.times (.receiveWithin i ms))).queued
    rw [hempty] at htook
    exact ⟨_, hline, hempty, (List.append_eq_nil_iff.mp htook.symm).1⟩
  | some (u, f) => cases hanswer

/-- An answer that brings nothing hands nothing out. -/
theorem frames_of_learned_pending {answer : Answer} (h : answer.learned = .pending) (i : ℕ)
    (step : Step) : (step.learned i answer).frames = [] := by
  rw [Step.learned, h, ite_self]
  rfl

/-- A quiet step leaves the queue as it is and hands out nothing. -/
theorem queued_of_quiet (h : t.lines[i]? = some l) {step : Step}
    (hquiet : Quiet i step (t.perform step).2) :
    ∃ l', (t.perform step).1.lines[i]? = some l' ∧ l'.channel.queued = l.channel.queued ∧
      (step.learned i (t.perform step).2).frames = [] := by
  generalize hanswer : (t.perform step).2 = answer at hquiet ⊢
  cases hquiet with
  | refused f e =>
    rw [perform, sendTo_of_line h] at hanswer ⊢
    have hqueued := (l.channel.took_send f).queued
    rw [Answer.sent.inj hanswer] at hqueued
    refine ⟨_, line_modifyChannel h i _, ?_, frames_of_learned_pending rfl i _⟩
    rw [if_pos rfl]
    exact hqueued.trans (List.append_nil _)
  | timedOut ms =>
    obtain ⟨l', hl', hafter, hbefore⟩ := queued_of_timedOut h hanswer
    exact ⟨l', hl', hafter.trans hbefore.symm, frames_of_learned_pending rfl i _⟩
  | pending =>
    rw [perform] at hanswer ⊢
    rcases hpoll : poll i t with _ | ⟨u, f⟩
    · exact ⟨l, h, rfl, frames_of_learned_pending rfl i _⟩
    · rw [hpoll] at hanswer
      cases hanswer
  | close =>
    refine ⟨_, line_modifyChannel h i _, ?_, frames_of_learned_pending rfl i _⟩
    rw [if_pos rfl]
    rfl
  | dropSink =>
    refine ⟨_, line_modifyChannel h i _, ?_, frames_of_learned_pending rfl i _⟩
    rw [if_pos rfl]
    rfl

/-! ## A channel from its beginning -/

/-- A channel begins alone or as that of a reader. -/
theorem line_of_created {t₁ : Timeline}
    (h : t₁ = t.openChannel ∨ ∃ source c, t.spawn source c = .ok t₁) :
    ∃ l, t₁.lines[t.lines.length]? = some l ∧ l.channel = .new := by
  rcases h with rfl | ⟨source, c, hspawn⟩
  · exact ⟨.new, List.getElem?_concat_length, rfl⟩
  · rw [spawn] at hspawn
    split at hspawn
    · cases hspawn
    · cases hspawn
      exact ⟨_, List.getElem?_concat_length, rfl⟩

/-- A channel delivers what it accepts, in order, without loss and without duplication. Take any
channel, opened at any time alone or for a reader, and any session from then on in which its
receiver is not dropped. All frames that the channel has accepted, in the order in which they were
sent, are the frames that its receiver has been handed, in order, and then its queue. Each further
step, too, leaves in the queue what was there and what is accepted meanwhile, without what it hands
out. In particular a send that is refused, a receive that takes too long, a poll that finds nothing
yet, closing the channel and dropping a sink leave the queue alone and hand out nothing. -/
theorem accepted_eq_handed_append_queued {t₁ : Timeline}
    (hcreated : t₁ = t.openChannel ∨ ∃ source c, t.spawn source c = .ok t₁) (steps : List Step)
    (hkept : .dropReceiver t.lines.length ∉ steps) :
    let i := t.lines.length
    let t' := t₁.performAll steps
    ∃ c, t'.channel? i = some c ∧
      (t₁.sent i steps).accepted = t₁.handed i steps ++ c.queued ∧
      ∀ step, step ≠ .dropReceiver i →
        let frames := (step.learned i (t'.perform step).2).frames
        ∃ c', (t'.perform step).1.channel? i = some c' ∧
          c.queued ++ (t'.sentBy i step).accepted = frames ++ c'.queued ∧
          (Quiet i step (t'.perform step).2 → c'.queued = c.queued ∧ frames = []) := by
  intro i t'
  obtain ⟨l, hl, hnew⟩ := line_of_created hcreated
  obtain ⟨l', hl', hbalance⟩ := performAll_balance hl hkept
  rw [hnew] at hbalance
  refine ⟨l'.channel, channel?_of_line hl', hbalance, fun step hstep => ?_⟩
  obtain ⟨l'', hl'', htouched⟩ := perform_touched hl' step
  refine ⟨l''.channel, channel?_of_line hl'', htouched.balance hstep, fun hquiet => ?_⟩
  obtain ⟨l₁, hl₁, hqueued, hframes⟩ := queued_of_quiet hl' hquiet
  obtain rfl := Option.some.inj (hl''.symm.trans hl₁)
  exact ⟨hqueued, hframes⟩

/-- Two sinks of one channel, of which the last sends after the channel has been closed. -/
theorem accepted_eq_handed_append_queued_closed :
    let f : Frame := ⟨0, [7]⟩
    let g : Frame := ⟨1, []⟩
    let steps : List Step := [.send 0 f, .addSink 0, .send 0 g, .tryReceive 0, .close 0, .send 0 f]
    .dropReceiver 0 ∉ steps ∧
      (start.openChannel.sent 0 steps).accepted = [f, g] ∧ start.openChannel.handed 0 steps = [f] ∧
        ∃ c, (start.openChannel.performAll steps).channel? 0 = some c ∧ c.queued = [g] := by
  intro f g steps
  have hkept : .dropReceiver 0 ∉ steps := by simp [steps]
  obtain ⟨c, hc, hbalance, -⟩ :=
    accepted_eq_handed_append_queued (t := start) (.inl rfl) steps hkept
  refine ⟨hkept, rfl, rfl, c, hc, ?_⟩
  exact (List.cons.inj hbalance).2.symm

end Timeline

end PrefixFraming
