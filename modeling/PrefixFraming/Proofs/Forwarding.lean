import PrefixFraming.Proofs.Delivery
import PrefixFraming.Proofs.Offering

/-!
# Forwarding is reading

A task that forwards the frames of a source to a channel does what a reader does that runs over the
source inline and collects the frames, however its work is mixed with what the receiver does.

What the task has still to do is told by the outcome of its reader (`Reader.Owes`). As long as the
receiver listens, the frames that the task has sent and those that it owes are the frames of the
inline run (`Line.Forwards`). From the moment on at which the receiver stops listening no frame is
accepted any more, and all that is left of the task is its result: the first frame that it still
owes is refused and ends it, and if there is none it ends as it would have ended anyway
(`Line.Shut`). Both are kept by every step that leaves the task's only sink to the task.
-/

namespace PrefixFraming

open Sink (Log)

variable {sent frames : List Frame} {result : Except Error Stats}

/-! ## Channels that listen and channels that do not -/

namespace Channel

/-- A channel that listens to one sink goes on to do so. -/
theorem keeps_listening : Channel.send.logging.Keeps fun s : Log × Channel =>
    s.2.receiver = .listening ∧ s.2.sinks = 1 := by
  rintro ⟨log, c⟩ f ⟨hlistening, hsinks⟩
  dsimp only [Sink.logging, send]
  split_ifs <;> exact ⟨hlistening, hsinks⟩

/-- Sending to a channel that listens is collecting. -/
theorem collect_of_listening (sent : List Frame) (s : Log × Channel) (f : Frame)
    (hs : s.2.receiver = .listening ∧ s.2.sinks = 1) :
    Sink.collect (sent ++ s.1.accepted).toArray f =
      ((sent ++ (Channel.send.logging s f).1.1.accepted).toArray,
        (Channel.send.logging s f).2) := by
  have hopen : s.2.isClosed = false := by simp [isClosed, hs.1]
  simp [Sink.collect, Sink.logging, send, hopen, Log.accepted]

/-- A channel that does not listen goes on not to. -/
theorem keeps_closed : Channel.send.logging.Keeps fun s : Log × Channel => s.2.isClosed = true := by
  rintro ⟨log, c⟩ f hclosed
  dsimp only [Sink.logging, send]
  rwa [if_pos hclosed]

/-- A receiver that closes does not listen. -/
theorem isClosed_close (c : Channel) : c.close.isClosed = true := by
  dsimp only [close, isClosed]
  split_ifs <;> rfl

/-- Sending to a channel that does not listen is refused. -/
theorem refuse_of_closed (s : Log × Channel) (f : Frame) (hs : s.2.isClosed = true) :
    Sink.refuse .sinkClosed () f = ((), (Channel.send.logging s f).2) := by
  simp [Sink.refuse, Sink.logging, send, hs]

/-- A channel that does not listen accepts nothing. -/
theorem Took.accepted_of_closed {c c' : Channel} {log : Log} (h : c.Took log c')
    (hclosed : c.isClosed = true) : log.accepted = [] := by
  have hanswered := h.answered
  rw [if_pos hclosed] at hanswered
  exact Log.accepted_of_error hanswered

end Channel

/-! ## What a reader owes -/

namespace Reader

/-- The reader can go on, and when it has read to the end, a sink that has collected the frames
`sent` before will have collected `frames`, and the result will be `result`. -/
structure Owes (r : Reader) (sent frames : List Frame) (result : Except Error Stats) : Prop where
  /-- The reader can go on. -/
  working : r.Working
  /-- The frames that will have been collected. -/
  collected : (outcome r.decoder Sink.collect sent.toArray r.stretch).sink = frames.toArray
  /-- The result of the reading. -/
  result : (outcome r.decoder Sink.collect sent.toArray r.stretch).result = result

variable {r : Reader}

/-- The frames that will have been collected are those sent before and those offered from now on. -/
theorem Owes.eq_append (h : r.Owes sent frames result) :
    frames = sent ++ r.decoder.offered Sink.collect sent.toArray r.stretch.bytes := by
  have hcollected := h.collected
  dsimp only [outcome] at hcollected
  rw [Decoder.feed_collect] at hcollected
  simpa using (congrArg Array.toList hcollected).symm

/-- If all frames are refused from now on, the reading ends with the refusal of the next frame, or
as it would have ended anyway if there is none. -/
theorem Owes.refused (h : r.Owes sent frames result) (e : Error) :
    (outcome r.decoder (Sink.refuse e) () r.stretch).result =
      if sent.length < frames.length then .error e else result := by
  rw [outcome_refuse h.working.ready Sink.collect_accepts sent.toArray, h.eq_append, h.result,
    List.length_append]
  rcases r.decoder.offered Sink.collect sent.toArray r.stretch.bytes with _ | ⟨f, more⟩
  · exact (if_neg (Nat.lt_irrefl _)).symm
  · exact (if_pos (Nat.lt_add_of_pos_right (Nat.succ_pos _))).symm

end Reader

/-! ## The line of a task -/

namespace Line

/-- The line of a task whose receiver listens. The task holds the only sink. It has sent the frames
`sent`, and still owes what is missing of `frames` and `result`, or it has sent all and has ended.
-/
inductive Forwards (frames : List Frame) (result : Except Error Stats) :
    List Frame → Line → Prop where
  /-- The task has still to read. -/
  | running {c : Channel} {due : ℕ} {r : Reader} {sent : List Frame}
      (listening : c.receiver = .listening) (sinks : c.sinks = 1)
      (owes : r.Owes sent frames result) :
      Forwards frames result sent ⟨c, [], some (.resumes due r)⟩
  /-- The task has ended. -/
  | ended {c : Channel} (listening : c.receiver = .listening) :
      Forwards frames result frames ⟨c, [], some (.ended result)⟩

/-- The line of a task whose receiver does not listen any more. The task ends or has ended with
`result`, and whatever it sends until then is refused. -/
inductive Shut (result : Except Error Stats) : Line → Prop where
  /-- The task has still to read. -/
  | running {c : Channel} {due : ℕ} {r : Reader} (closed : c.isClosed = true) (working : r.Working)
      (owes : (Reader.outcome r.decoder (Sink.refuse .sinkClosed) () r.stretch).result = result) :
      Shut result ⟨c, [], some (.resumes due r)⟩
  /-- The task has ended. -/
  | ended {c : Channel} (closed : c.isClosed = true) : Shut result ⟨c, [], some (.ended result)⟩

variable {i : ℕ} {l l' : Line}

/-- Doing what is due the task forwards frames that it owes, and may end. -/
theorem Forwards.settle (h : Forwards frames result sent l) (now : ℕ) :
    Forwards frames result (sent ++ (l.sends now).accepted) (l.settle now) := by
  cases h with
  | @running c due r sent listening sinks owes =>
    rw [sends_alone, settle_alone]
    by_cases hdue : due ≤ now
    · have hadvance := owes.working.advance_outcome_of_keeps
        (fun s : Log × Channel => (sent ++ s.1.accepted).toArray) Channel.keeps_listening
        (Channel.collect_of_listening sent) (t := ([], c)) ⟨listening, sinks⟩
      have hsettle := Task.settle_due hdue ([], c) r
      have hsame : (sent ++ Log.accepted []).toArray = sent.toArray :=
        congrArg List.toArray (List.append_nil sent)
      dsimp only at hadvance hsettle
      rw [Task.sends, if_pos hdue, hsettle]
      rw [hsame] at hadvance
      have hcollected := owes.collected
      have hresult := owes.result
      generalize r.advance Channel.send.logging ([], c) = progress at hadvance ⊢
      obtain ⟨r', ⟨log, c'⟩, result' | ms | _⟩ := progress
      · obtain ⟨⟨listening', -⟩, houtcome⟩ := hadvance
        rw [houtcome] at hcollected hresult
        obtain rfl : frames = sent ++ log.accepted := by simpa using hcollected.symm
        obtain rfl : result' = result := hresult
        exact .ended listening'
      · obtain ⟨⟨listening', sinks'⟩, hworking, houtcome⟩ := hadvance
        rw [houtcome] at hcollected hresult
        exact .running listening' sinks' ⟨hworking, hcollected, hresult⟩
      · exact hadvance.elim
    · rw [Task.sends, if_neg hdue, Task.settle, if_neg hdue]
      exact (List.append_nil sent).symm ▸ .running listening sinks owes
  | ended listening => exact (List.append_nil sent).symm ▸ .ended listening

/-- Doing what is due the task sends nothing that is accepted, and may end. -/
theorem Shut.settle (h : Shut result l) (now : ℕ) : Shut result (l.settle now) := by
  cases h with
  | @running c due r closed working owes =>
    rw [settle_alone]
    by_cases hdue : due ≤ now
    · have hadvance := working.advance_outcome_of_keeps (fun _ : Log × Channel => ())
        Channel.keeps_closed Channel.refuse_of_closed (t := ([], c)) closed
      have hsettle := Task.settle_due hdue ([], c) r
      dsimp only at hadvance hsettle
      rw [hsettle]
      generalize r.advance Channel.send.logging ([], c) = progress at hadvance ⊢
      obtain ⟨r', ⟨log, c'⟩, result' | ms | _⟩ := progress
      · obtain ⟨closed', houtcome⟩ := hadvance
        rw [houtcome] at owes
        obtain rfl : result' = result := owes
        exact .ended closed'
      · obtain ⟨closed', hworking, houtcome⟩ := hadvance
        rw [houtcome] at owes
        exact .running closed' hworking owes
      · exact hadvance.elim
    · rw [Task.settle, if_neg hdue]
      exact .running closed working owes
  | ended closed => exact .ended closed

/-- Doing what is due at some times the task forwards frames that it owes, and may end. -/
theorem Forwards.settleAt (h : Forwards frames result sent l) (times : List ℕ) :
    Forwards frames result (sent ++ (l.sendsAt times).accepted) (l.settleAt times) := by
  induction times generalizing sent l with
  | nil => exact (List.append_nil sent).symm ▸ h
  | cons now times ih =>
    rw [sendsAt, Log.accepted_append, ← List.append_assoc]
    exact ih (h.settle now)

/-- Doing what is due at some times the task sends nothing that is accepted, and may end. -/
theorem Shut.settleAt (h : Shut result l) (times : List ℕ) : Shut result (l.settleAt times) := by
  induction times generalizing l with
  | nil => exact h
  | cons now times ih => exact ih (h.settle now)

/-- What the receiver takes does not matter. -/
theorem Forwards.taken (h : Forwards frames result sent l) {c : Channel} {f : Frame}
    (htaken : l.channel.tryReceive = (c, some f)) :
    Forwards frames result sent { l with channel := c } := by
  obtain ⟨-, hreceiver, hsinks⟩ := Channel.tryReceive_some htaken
  cases h with
  | running listening sinks owes =>
    exact .running (hreceiver.trans listening) (hsinks.trans sinks) owes
  | ended listening => exact .ended (hreceiver.trans listening)

/-- What the receiver does does not matter as long as it does not listen. -/
theorem Shut.withChannel (h : Shut result l) {c : Channel} (hclosed : c.isClosed = true) :
    Shut result { l with channel := c } := by
  cases h with
  | running closed working owes => exact .running hclosed working owes
  | ended closed => exact .ended hclosed

/-- The receiver does not listen. -/
theorem Shut.closed (h : Shut result l) : l.channel.isClosed = true := by
  cases h with
  | running closed working owes => exact closed
  | ended closed => exact closed

/-- When the receiver stops listening the task ends with the refusal of the next frame, if it still
owes one. -/
theorem Forwards.shut (h : Forwards frames result sent l) {c : Channel}
    (hclosed : c.isClosed = true) :
    Shut (if sent.length < frames.length then .error .sinkClosed else result)
      { l with channel := c } := by
  cases h with
  | running listening sinks owes => exact .running hclosed owes.working (owes.refused .sinkClosed)
  | ended listening =>
    rw [if_neg (Nat.lt_irrefl _)]
    exact .ended hclosed

/-- The task has ended, or has still to read. -/
theorem Forwards.task (h : Forwards frames result sent l) :
    l.task = some (.ended result) ∨ ∃ due r, l.task = some (.resumes due r) := by
  cases h with
  | @running c due r => exact .inr ⟨due, r, rfl⟩
  | ended => exact .inl rfl

/-- The task has ended, or has still to read. -/
theorem Shut.task (h : Shut result l) :
    l.task = some (.ended result) ∨ ∃ due r, l.task = some (.resumes due r) := by
  cases h with
  | @running c due r => exact .inr ⟨due, r, rfl⟩
  | ended => exact .inl rfl

/-- A task that has ended has sent all frames. -/
theorem Forwards.finished (h : Forwards frames result sent l) {result' : Except Error Stats}
    (hended : l.task.bind Task.result? = some result') : result' = result ∧ sent = frames := by
  cases h with
  | running => cases hended
  | ended => exact ⟨(Option.some.inj hended).symm, rfl⟩

/-- What is sent is a first part of all frames. -/
theorem Forwards.eq_take (h : Forwards frames result sent l) : sent = frames.take sent.length := by
  cases h with
  | running listening sinks owes =>
    rw [owes.eq_append, List.take_left]
  | ended listening => exact (List.take_length).symm

end Line

/-! ## Steps -/

namespace Timeline

/-- The step uses a sink of a channel. -/
def Step.UsesSink (i : ℕ) : Step → Prop
  | .addSink j => j = i
  | .dropSink j => j = i
  | .send j _ => j = i
  | .sendLater j _ _ => j = i
  | _ => False

/-- With the step the receiver of a channel stops listening. -/
def Step.Shuts (i : ℕ) : Step → Prop
  | .close j => j = i
  | .dropReceiver j => j = i
  | _ => False

end Timeline

namespace Line

open Timeline (Step)

variable {i : ℕ} {l l' : Line} {step : Step} {log : Log} {learned : Channel.Polled}

/-- A step that leaves the sink to the task and the receiver listening is one of forwarding. -/
theorem Touched.forwards (h : l.Touched i step log learned l') (hl : Forwards frames result sent l)
    (hsink : ¬ step.UsesSink i) (hshut : ¬ step.Shuts i) :
    Forwards frames result (sent ++ log.accepted) l' := by
  cases h with
  | addSink => exact absurd rfl hsink
  | dropSink => exact absurd rfl hsink
  | send f => exact absurd rfl hsink
  | sendLater ms due f => exact absurd rfl hsink
  | close => exact absurd rfl hshut
  | dropReceiver => exact absurd rfl hshut
  | settled times => exact hl.settleAt times
  | taken times receives taken => exact (hl.settleAt times).taken taken
  | ended times receives ended => exact hl.settleAt times

/-- A receiver that listens learns that nothing comes any more only when the task has ended and no
frame is left in the queue. -/
theorem Touched.ended_of_forwards (h : l.Touched i step log .ended l')
    (hl : Forwards frames result sent l) :
    l'.task = some (.ended result) ∧ sent ++ log.accepted = frames ∧ l'.channel.queued = [] := by
  cases h with
  | ended times receives ended =>
    obtain ⟨hempty, hfinished⟩ := Channel.queued_of_ended ended
    have hsettled := hl.settleAt times
    generalize l.settleAt times = l₁ at hempty hfinished hsettled ⊢
    generalize hsent : sent ++ (l.sendsAt times).accepted = sent₁ at hsettled ⊢
    cases hsettled with
    | running listening sinks owes =>
      simp [Channel.isFinished, Channel.isClosed, listening, sinks] at hfinished
    | ended listening => exact ⟨rfl, rfl, hempty⟩

/-- A channel that does not listen accepts nothing. -/
theorem Touched.accepted_of_closed (h : l.Touched i step log learned l')
    (hl : l.channel.isClosed = true) : log.accepted = [] := by
  cases h with
  | send f => exact (l.channel.took_send f).accepted_of_closed hl
  | settled times => exact (l.took_settleAt times).accepted_of_closed hl
  | taken times => exact (l.took_settleAt times).accepted_of_closed hl
  | ended times => exact (l.took_settleAt times).accepted_of_closed hl
  | _ => rfl

/-- A step that leaves the sink to the task does not make the receiver listen again. -/
theorem Touched.shut (h : l.Touched i step log learned l') (hl : Shut result l)
    (hsink : ¬ step.UsesSink i) : Shut result l' := by
  cases h with
  | addSink => exact absurd rfl hsink
  | dropSink => exact absurd rfl hsink
  | send f => exact absurd rfl hsink
  | sendLater ms due f => exact absurd rfl hsink
  | close => exact hl.withChannel l.channel.isClosed_close
  | dropReceiver => exact hl.withChannel rfl
  | settled times => exact hl.settleAt times
  | taken times receives taken =>
    refine (hl.settleAt times).withChannel ?_
    rw [Channel.isClosed, (Channel.tryReceive_some taken).2.1, ← Channel.isClosed]
    exact (hl.settleAt times).closed
  | ended times receives ended => exact hl.settleAt times

end Line

/-! ## Sessions -/

namespace Timeline

variable {t : Timeline} {i : ℕ} {l : Line}

/-- As long as nobody uses its sink and its receiver listens, a task forwards. -/
theorem performAll_forwards (h : t.lines[i]? = some l) (hl : l.Forwards frames result sent)
    {steps : List Step} (hsteps : ∀ step ∈ steps, ¬ step.UsesSink i ∧ ¬ step.Shuts i) :
    ∃ l', (t.performAll steps).lines[i]? = some l' ∧
      l'.Forwards frames result (sent ++ (t.sent i steps).accepted) := by
  induction steps generalizing t l sent with
  | nil => exact ⟨l, h, (List.append_nil sent).symm ▸ hl⟩
  | cons step steps ih =>
    obtain ⟨⟨hsink, hshut⟩, hrest⟩ := List.forall_mem_cons.mp hsteps
    obtain ⟨l₁, hl₁, htouched⟩ := perform_touched h step
    obtain ⟨l', hl', hforwards⟩ := ih hl₁ (htouched.forwards hl hsink hshut) hrest
    refine ⟨l', hl', ?_⟩
    rw [Timeline.sent, Log.accepted_append, ← List.append_assoc]
    exact hforwards

/-- As long as nobody uses its sink, a task whose receiver does not listen any more sends nothing
that is accepted. -/
theorem performAll_shut (h : t.lines[i]? = some l) (hl : l.Shut result) {steps : List Step}
    (hsteps : ∀ step ∈ steps, ¬ step.UsesSink i) :
    ∃ l', (t.performAll steps).lines[i]? = some l' ∧ l'.Shut result ∧
      (t.sent i steps).accepted = [] := by
  induction steps generalizing t l with
  | nil => exact ⟨l, h, hl, rfl⟩
  | cons step steps ih =>
    obtain ⟨hsink, hrest⟩ := List.forall_mem_cons.mp hsteps
    obtain ⟨l₁, hl₁, htouched⟩ := perform_touched h step
    obtain ⟨l', hl', hshut, hnothing⟩ := ih hl₁ (htouched.shut hl hsink) hrest
    refine ⟨l', hl', hshut, ?_⟩
    rw [Timeline.sent, Log.accepted_append, htouched.accepted_of_closed hl.closed, hnothing]
    rfl

/-- A wait for a task that has ended or has still to read ends with the task's end. -/
theorem perform_join_of_task (h : t.lines[i]? = some l) {result : Except Error Stats}
    (htask : (l.settleAt (t.times (.join i))).task = some (.ended result) ∨
      ∃ due r, (l.settleAt (t.times (.join i))).task = some (.resumes due r)) :
    t.perform (.join i) = (t.settleAt (t.times (.join i)), .joined result) ∧
      (l.settleAt (t.times (.join i))).task = some (.ended result) := by
  have hline := line_settleAt h (t.times (.join i))
  have hcheck : checkTask i (t.settleAt (t.times (.join i))) =
      ((l.settleAt (t.times (.join i))).task.bind Task.result?).map fun result =>
        (t.settleAt (t.times (.join i)), result) := by
    rw [checkTask, task?, hline]
    rfl
  rw [perform_join, hcheck]
  rcases htask with hended | ⟨due, r, hresumes⟩
  · rw [hended]
    exact ⟨rfl, rfl⟩
  · -- The lines have nothing left to do, but the task has.
    rw [hresumes] at hcheck
    have hdues : (t.settleAt (t.times (.join i))).dues = [] := dues_of_waitTimes hcheck
    have hdue : due ∈ (t.settleAt (t.times (.join i))).dues := by
      refine List.mem_flatMap.mpr ⟨_, List.mem_of_getElem? hline, List.mem_append_right _ ?_⟩
      rw [hresumes]
      exact List.mem_singleton_self due
    rw [hdues] at hdue
    cases hdue

/-! ## A spawned reader -/

/-- The frames that wait in a channel. -/
def queued (t : Timeline) (i : ℕ) : List Frame := ((t.channel? i).map Channel.queued).getD []

/-- What the task of a line has ended with, if it has ended. -/
def result? (t : Timeline) (i : ℕ) : Option (Except Error Stats) := (t.task? i).bind Task.result?

/-- A session with the line of a task whose receiver listens, beside an inline run that collects
`frames` and ends with `result`. -/
structure Mirrors (frames : List Frame) (result : Except Error Stats) (i : ℕ) (t : Timeline)
    (steps : List Step) : Prop where
  /-- The frames received and those in the queue are those that the task has sent, and these are
  the first of all. -/
  received : t.handed i steps ++ (t.performAll steps).queued i =
    frames.take (t.sent i steps).accepted.length
  /-- A task that has ended has ended with the result of the inline run, and has sent all frames. -/
  finished : ∀ result', (t.performAll steps).result? i = some result' →
    result' = result ∧ t.handed i steps ++ (t.performAll steps).queued i = frames ∧
      (t.sent i steps).accepted.length = frames.length
  /-- A wait for the task ends with the result of the inline run, and then all frames are received
  or in the queue. -/
  joined : ((t.performAll steps).perform (.join i)).2 = .joined result ∧
    t.handed i steps ++ ((t.performAll steps).perform (.join i)).1.queued i = frames
  /-- The receiver learns that nothing comes any more only when the task has ended and all frames
  have been received. -/
  ended : ∀ step, step.receiver? = some i →
    ((t.performAll steps).perform step).2 = .received none →
      ((t.performAll steps).perform step).1.result? i = some result ∧ t.handed i steps = frames

/-- A session with the line of a task whose receiver listens for the steps `before` and stops
listening with the first step of `after`, beside an inline run that collects `frames` and ends with
`result`. -/
structure Cut (frames : List Frame) (result : Except Error Stats) (i : ℕ) (t : Timeline)
    (before after : List Step) : Prop where
  /-- No further frame is accepted. -/
  sent : (t.sent i (before ++ after)).accepted = (t.sent i before).accepted
  /-- A wait for the task ends with a refusal if not all frames had been sent, and with the result
  of the inline run otherwise. -/
  joined : ((t.performAll (before ++ after)).perform (.join i)).2 =
    .joined (if (t.sent i before).accepted.length < frames.length then .error .sinkClosed
      else result)
  /-- A receiver that is still there has received the frames that had been sent, up to those in the
  queue. -/
  received : .dropReceiver i ∉ after →
    t.handed i (before ++ after) ++ (t.performAll (before ++ after)).queued i =
      frames.take (t.sent i before).accepted.length
  /-- As many further receives as there are frames in the queue bring these frames. -/
  drained : ∀ takes : List Step, (∀ step ∈ takes, step.receiver? = some i) →
    takes.length = ((t.performAll (before ++ after)).queued i).length →
      (t.performAll (before ++ after)).handed i takes =
        (t.performAll (before ++ after)).queued i

/-- The queue of a line. -/
theorem queued_of_line (h : t.lines[i]? = some l) : t.queued i = l.channel.queued := by
  rw [queued, channel?_of_line h]
  rfl

/-- The result of the task of a line. -/
theorem result?_of_line (h : t.lines[i]? = some l) : t.result? i = l.task.bind Task.result? := by
  rw [result?, task?, h]
  rfl

/-- A poll that finds frames in the queue brings one. -/
theorem poll_of_queued (h : t.lines[i]? = some l) (hne : l.channel.queued ≠ []) :
    ∃ u f, poll i t = some (u, some f) := by
  rw [poll, channel?_of_line h]
  dsimp only
  rcases l.channel.poll_eq with ⟨c, f, -, hpoll⟩ | ⟨hempty, -⟩
  · rw [hpoll]
    exact ⟨_, f, rfl⟩
  · exact absurd hempty hne

/-- A receiver that finds frames in the queue is handed one, however it asks. -/
theorem frames_of_receive (h : t.lines[i]? = some l) (hne : l.channel.queued ≠ []) {step : Step}
    (hstep : step.receiver? = some i) :
    (step.learned i (t.perform step).2).frames.length = 1 := by
  -- What is sent during a wait does not take anything out of the queue.
  have hlater : ∀ times, (l.settleAt times).channel.queued ≠ [] := fun times hempty => by
    rw [(l.took_settleAt times).queued] at hempty
    exact hne (List.append_eq_nil_iff.mp hempty).1
  rw [learned_of_receiver hstep, if_pos rfl]
  cases step with
  | tryReceive j =>
    obtain rfl : j = i := Option.some.inj hstep
    rw [perform, tryReceive, channel?_of_line h]
    dsimp only
    rcases htake : l.channel.tryReceive with ⟨c, _ | f⟩
    · exact absurd (Channel.tryReceive_none htake).2 hne
    · rfl
  | poll j =>
    obtain rfl : j = i := Option.some.inj hstep
    obtain ⟨u, f, hpoll⟩ := poll_of_queued h hne
    rw [perform, hpoll]
    rfl
  | receive j =>
    obtain rfl : j = i := Option.some.inj hstep
    obtain ⟨u, f, hpoll⟩ := poll_of_queued (line_settleAt h (t.times (.receive j))) (hlater _)
    rw [perform_receive, hpoll]
    rfl
  | receiveWithin j ms =>
    obtain rfl : j = i := Option.some.inj hstep
    obtain ⟨u, f, hpoll⟩ :=
      poll_of_queued (line_settleAt h (t.times (.receiveWithin j ms))) (hlater _)
    rw [perform_receiveWithin, hpoll]
    rfl
  | _ => cases hstep

/-- As many receives as there are frames in the queue bring one frame each. -/
theorem length_handed (h : t.lines[i]? = some l) {takes : List Step}
    (htakes : ∀ step ∈ takes, step.receiver? = some i)
    (hlength : takes.length ≤ l.channel.queued.length) :
    (t.handed i takes).length = takes.length := by
  induction takes generalizing t l with
  | nil => rfl
  | cons step takes ih =>
    obtain ⟨hstep, hrest⟩ := List.forall_mem_cons.mp htakes
    obtain ⟨l₁, hl₁, htouched⟩ := perform_touched h step
    have hne : l.channel.queued ≠ [] := by
      rintro hempty
      rw [hempty] at hlength
      cases hlength
    have hone := frames_of_receive h hne hstep
    have hkept : step ≠ .dropReceiver i := by
      rintro rfl
      cases hstep
    have hbalance := congrArg List.length (htouched.balance hkept)
    rw [List.length_append, List.length_append, hone] at hbalance
    rw [List.length_cons] at hlength
    rw [handed, List.length_append, hone, ih hl₁ hrest (by omega), List.length_cons, Nat.add_comm]

/-- As many receives as there are frames in the queue bring these frames. -/
theorem handed_eq_queued (h : t.lines[i]? = some l) {takes : List Step}
    (htakes : ∀ step ∈ takes, step.receiver? = some i)
    (hlength : takes.length = l.channel.queued.length) :
    t.handed i takes = l.channel.queued := by
  have hkept : .dropReceiver i ∉ takes := fun hmem => by cases htakes _ hmem
  obtain ⟨l', -, hbalance⟩ := performAll_balance h hkept
  refine (List.append_inj_left hbalance ?_).symm
  rw [length_handed h htakes hlength.le, hlength]

/-- The session of a task whose receiver listens. -/
theorem mirrors_of_forwards (h : t.lines[i]? = some l) (hl : l.Forwards frames result [])
    (hempty : l.channel.queued = []) {steps : List Step}
    (hsteps : ∀ step ∈ steps, ¬ step.UsesSink i ∧ ¬ step.Shuts i) :
    Mirrors frames result i t steps := by
  have hkept : .dropReceiver i ∉ steps := fun hmem => (hsteps _ hmem).2 rfl
  obtain ⟨l', hl', hforwards⟩ := performAll_forwards h hl hsteps
  obtain ⟨l₁, hl₁, hbalance⟩ := performAll_balance h hkept
  obtain rfl : l₁ = l' := Option.some.inj (hl₁.symm.trans hl')
  rw [hempty] at hbalance
  rw [List.nil_append] at hbalance hforwards
  constructor
  · rw [queued_of_line hl', ← hbalance]
    exact hforwards.eq_take
  · intro result' hended
    rw [result?_of_line hl'] at hended
    obtain ⟨hresult, hall⟩ := hforwards.finished hended
    rw [queued_of_line hl', ← hbalance, hall]
    exact ⟨hresult, rfl, rfl⟩
  · -- The wait lets the task send what it still owes.
    obtain ⟨hjoin, hended⟩ := perform_join_of_task hl' (hforwards.settleAt _).task
    have hall := ((hforwards.settleAt _).finished (congrArg (·.bind Task.result?) hended)).2
    rw [hjoin]
    refine ⟨rfl, ?_⟩
    rw [queued_of_line (line_settleAt hl' _), (l₁.took_settleAt _).queued, ← List.append_assoc,
      ← hbalance, hall]
  · intro step hstep hanswer
    obtain ⟨l₂, hl₂, htouched⟩ := perform_touched hl' step
    have hlearned : step.learned i ((t.performAll steps).perform step).2 = .ended := by
      rw [learned_of_receiver hstep, if_pos rfl, hanswer]
      rfl
    rw [hlearned] at htouched
    obtain ⟨hended, hall, hqueue⟩ := htouched.ended_of_forwards hforwards
    refine ⟨by rw [result?_of_line hl₂, hended]; rfl, ?_⟩
    -- Nothing came in the step, and nothing was in the queue before it.
    have hkept : step ≠ .dropReceiver i := by
      rintro rfl
      cases hstep
    have hnothing := htouched.balance hkept
    rw [hqueue] at hnothing
    obtain ⟨hbefore, hmeanwhile⟩ := List.append_eq_nil_iff.mp hnothing
    rw [hmeanwhile, List.append_nil] at hall
    rw [← hall, hbalance, hbefore, List.append_nil]

/-- When the receiver stops listening nothing is sent, and what the task owes is its result. -/
theorem perform_shuts (h : t.lines[i]? = some l) (hl : l.Forwards frames result sent) {shut : Step}
    (hshut : shut.Shuts i) :
    ∃ l', (t.perform shut).1.lines[i]? = some l' ∧
      l'.Shut (if sent.length < frames.length then .error .sinkClosed else result) ∧
      t.sentBy i shut = [] := by
  cases shut with
  | close j =>
    obtain rfl : j = i := hshut
    refine ⟨_, line_modifyChannel h j _, ?_, sentBy_of_line h _ (by simp)⟩
    rw [if_pos rfl]
    exact hl.shut l.channel.isClosed_close
  | dropReceiver j =>
    obtain rfl : j = i := hshut
    refine ⟨_, line_modifyChannel h j _, ?_, sentBy_of_line h _ (by simp)⟩
    rw [if_pos rfl]
    exact hl.shut rfl
  | _ => exact hshut.elim

/-- The session of a task whose receiver stops listening. -/
theorem cut_of_forwards (h : t.lines[i]? = some l) (hl : l.Forwards frames result [])
    (hempty : l.channel.queued = []) {before after : List Step}
    (hbefore : ∀ step ∈ before, ¬ step.UsesSink i ∧ ¬ step.Shuts i) {shut : Step}
    (hshut : shut.Shuts i) (hafter : ∀ step ∈ after, ¬ step.UsesSink i) :
    Cut frames result i t before (shut :: after) := by
  obtain ⟨l₁, hl₁, hforwards⟩ := performAll_forwards h hl hbefore
  obtain ⟨l₂, hl₂, hshut₂, hnothing₂⟩ := perform_shuts hl₁ hforwards hshut
  obtain ⟨l₃, hl₃, hshut₃, hnothing₃⟩ := performAll_shut hl₂ hshut₂ hafter
  rw [List.nil_append] at hforwards hshut₃
  have hline : (t.performAll (before ++ shut :: after)).lines[i]? = some l₃ := by
    rw [performAll_append]
    exact hl₃
  have hsent : (t.sent i (before ++ shut :: after)).accepted = (t.sent i before).accepted := by
    rw [sent_append, Timeline.sent, hnothing₂, List.nil_append, Log.accepted_append, hnothing₃,
      List.append_nil]
  refine ⟨hsent, ?_, fun hkept => ?_, fun takes htakes hlength => ?_⟩
  · rw [(perform_join_of_task hline (hshut₃.settleAt _).task).1]
  · have hkept' : .dropReceiver i ∉ before ++ shut :: after := by
      rw [List.mem_append, not_or]
      exact ⟨fun hmem => (hbefore _ hmem).2 rfl, hkept⟩
    obtain ⟨l', hl', hbalance⟩ := performAll_balance h hkept'
    obtain rfl : l' = l₃ := Option.some.inj (hl'.symm.trans hline)
    rw [hempty, List.nil_append, hsent] at hbalance
    rw [queued_of_line hline, ← hbalance]
    exact hforwards.eq_take
  · rw [queued_of_line hline] at hlength ⊢
    exact handed_eq_queued hline htakes hlength

/-- A reader that has not begun owes what its inline run comes to. -/
theorem forwards_of_run {source : Source} {c : Config} (hbuffer : c.readBufferSize ≠ 0)
    (hhang : Source.Item.hang ∉ source.items) (now : ℕ) :
    let inline := (Reader.withSettings source c).run (fun _ => id) Sink.collect #[]
    ∃ result, inline.2.2 = some result ∧
      (Line.reading now (Reader.withSettings source c)).Forwards inline.2.1.toList result [] := by
  have hworking := (Reader.reachable_withSettings source c hbuffer).working rfl hhang
  obtain ⟨-, hsink, hresult⟩ := hworking.run_outcome (Sink.projects_self Sink.collect)
    (fun _ => id) (fun _ _ => rfl) #[]
  exact ⟨_, hresult, .running rfl rfl ⟨hworking, hsink.symm, rfl⟩⟩

/-- A reader that is spawned comes to what it comes to inline, whatever its receiver does meanwhile.
Take a reader with a buffer that has room, over a source that never hangs. It can be spawned at any
time, and it can also be run inline with a sink that collects its frames; that run has a result.
Take any session of the spawned reader, in which its receiver receives in any way, with any waits,
and in which other lines do what they like. As long as the receiver listens the session mirrors the
inline run: the frames received and those in the queue are the first of the inline run, and all of
them once the task has ended, with the same result; and the receiver learns of an end only then.
When the receiver is closed or dropped after any such session, whatever follows, no further frame is
accepted, the task ends with a refusal if not all frames had been sent and with the same result
otherwise, and a receiver that is only closed still receives what had been sent. -/
theorem spawned_mirrors_inline (t : Timeline) {source : Source} {c : Config}
    (hbuffer : c.readBufferSize ≠ 0) (hhang : Source.Item.hang ∉ source.items) :
    ∃ r t₁ result, Reader.ofConfig source c = .ok r ∧ t.spawn source c = .ok t₁ ∧
      let inline := r.run (fun _ => id) Sink.collect #[]
      let frames := inline.2.1.toList
      let i := t.lines.length
      inline.2.2 = some result ∧
        ∀ before, (∀ step ∈ before, ¬ step.UsesSink i ∧ ¬ step.Shuts i) →
          Mirrors frames result i t₁ before ∧
            ∀ shut after, shut.Shuts i → (∀ step ∈ after, ¬ step.UsesSink i) →
              Cut frames result i t₁ before (shut :: after) := by
  obtain ⟨result, hresult, hforwards⟩ := forwards_of_run hbuffer hhang t.now
  have hreader : Reader.ofConfig source c = .ok (Reader.withSettings source c) := by
    rw [Reader.ofConfig, Config.validate, if_neg hbuffer]
  have hspawn : t.spawn source c =
      .ok (t.addLine (.reading t.now (Reader.withSettings source c))) := by
    rw [spawn, hreader]
  have hline : (t.addLine (.reading t.now (Reader.withSettings source c))).lines[t.lines.length]? =
      some (.reading t.now (Reader.withSettings source c)) := List.getElem?_concat_length
  refine ⟨_, _, result, hreader, hspawn, hresult, fun before hbefore => ⟨?_, ?_⟩⟩
  · exact mirrors_of_forwards hline hforwards rfl hbefore
  · exact fun shut after hshut hafter => cut_of_forwards hline hforwards rfl hbefore hshut hafter

/-- A reader of two frames with a delay between them, whose task is waited for at once, and whose
channel is closed at once. -/
theorem spawned_mirrors_inline_closed :
    let source : Source := .ofItems [.data [1, 0, 0, 0, 7, 2], .delay 30, .data [0, 0, 0, 8, 9]]
    let c : Config := ⟨16, 64⟩
    c.readBufferSize ≠ 0 ∧ Source.Item.hang ∉ source.items ∧
      ∃ t₁, start.spawn source c = .ok t₁ ∧
        (t₁.perform (.join 0)).2 = .joined (.ok ⟨2, 3, 11, 2⟩) ∧
        (t₁.perform (.join 0)).1.queued 0 = [⟨0, [7]⟩, ⟨1, [8, 9]⟩] ∧
        ((t₁.perform (.close 0)).1.perform (.join 0)).2 = .joined (.error .sinkClosed) := by
  intro source c
  have hbuffer : c.readBufferSize ≠ 0 := by decide
  have hhang : Source.Item.hang ∉ source.items := by decide
  obtain ⟨r, t₁, result, hreader, hspawn, hresult, hsessions⟩ :=
    spawned_mirrors_inline start hbuffer hhang
  obtain ⟨hmirrors, hcut⟩ := hsessions [] (List.forall_mem_nil _)
  -- The inline run, as one feed.
  obtain rfl : Reader.withSettings source c = r := Except.ok.inj hreader
  have hworking := (Reader.reachable_withSettings source c hbuffer).working rfl hhang
  obtain ⟨-, hframes, hstats⟩ := hworking.run_outcome (Sink.projects_self Sink.collect)
    (fun _ => id) (fun _ _ => rfl) #[]
  have hframes' : ((Reader.withSettings source c).run (fun _ => id) Sink.collect #[]).2.1 =
      #[⟨0, [7]⟩, ⟨1, [8, 9]⟩] := hframes
  obtain rfl : result = .ok ⟨2, 3, 11, 2⟩ := Option.some.inj (hresult.symm.trans hstats)
  have hclosed := (hcut (.close 0) [] rfl (List.forall_mem_nil _)).joined
  rw [hframes'] at hmirrors hclosed
  exact ⟨hbuffer, hhang, t₁, hspawn, hmirrors.joined.1, hmirrors.joined.2, hclosed⟩

end Timeline

end PrefixFraming
