import PrefixFraming.Timeline
import PrefixFraming.Proofs.Logging

/-!
# What happens during a wait

While somebody waits, the lines do what is due, at one time of the clock after the other, and
nothing else happens. `waitTimes` lists these times, by the recursion of the wait itself, and a wait
is the lines at these times and then the answer of the check (`waitFor_eq`).

What a line sends meanwhile is told by a channel that keeps a log (`Line.sends`). The channel takes
what it accepts to the end of its queue and does nothing else with it (`Channel.Took`), whether the
frames come from deferred sends or from a task (`Line.took_settleAt`).
-/

namespace PrefixFraming

variable {α : Type}

open Sink (Log)

/-! ## The times of a wait -/

namespace Line

/-- Does what is due at each of some times, one after the other. -/
def settleAt (times : List ℕ) (l : Line) : Line := times.foldl (fun l now => l.settle now) l

end Line

namespace Timeline

/-- Moves the clock to each of some times, one after the other, and has all lines do what is due
then. -/
def settleAt (times : List ℕ) (t : Timeline) : Timeline := times.foldl jump t

/-- The times to which the clock jumps until the check succeeds or the limit is reached. -/
def awaitTimes (check : Timeline → Option (Timeline × α)) (limit : Option ℕ) (t : Timeline) :
    List ℕ :=
  match check t with
  | some _ => []
  | none =>
    match _next : t.dues.min? with
    | none => []
    | some due => if isBefore due limit then due :: awaitTimes check limit (t.jump due) else []
termination_by t.work
decreasing_by exact work_jump_lt (List.min?_mem _next)

/-- The times at which the lines do what is due during a wait. Nothing happens if the check succeeds
at once or the limit has come. -/
def waitTimes (check : Timeline → Option (Timeline × α)) (limit : Option ℕ) (t : Timeline) :
    List ℕ :=
  match check t with
  | some _ => []
  | none => if limit = some t.now then [] else t.now :: awaitTimes check limit t.settle

/-- Each line does what is due at each of the times. -/
theorem lines_settleAt (times : List ℕ) (t : Timeline) :
    (t.settleAt times).lines = t.lines.map (Line.settleAt times) := by
  induction times generalizing t with
  | nil => exact (List.map_id t.lines).symm
  | cons now times ih =>
    have hrest := ih (t.jump now)
    rw [jump, settle, List.map_map] at hrest
    exact hrest

section awaitTimes

variable {check : Timeline → Option (Timeline × α)} {limit : Option ℕ} {t : Timeline}

/-- There is nothing to wait for when the check succeeds. -/
theorem awaitTimes_of_success {answer : Timeline × α} (hcheck : check t = some answer) :
    awaitTimes check limit t = [] := by
  rw [awaitTimes, hcheck]

/-- A wait stops when nothing is due before its limit. -/
theorem awaitTimes_of_stop (hcheck : check t = none)
    (hstop : ∀ due, t.dues.min? = some due → isBefore due limit = false) :
    awaitTimes check limit t = [] := by
  rw [awaitTimes, hcheck]
  dsimp only
  split
  · rfl
  · rename_i due hdue
    rw [hstop due hdue]
    rfl

/-- A wait goes on with the first time at which something is due before its limit. -/
theorem awaitTimes_of_next {due : ℕ} (hcheck : check t = none) (hdue : t.dues.min? = some due)
    (hbefore : isBefore due limit = true) :
    awaitTimes check limit t = due :: awaitTimes check limit (t.jump due) := by
  rw [awaitTimes, hcheck]
  dsimp only
  split <;> simp_all

end awaitTimes

/-- A wait is the lines at its times and then the answer of the check, behind its first moment. -/
theorem await_eq (check : Timeline → Option (Timeline × α)) (limit : Option ℕ) (t : Timeline) :
    await check limit t =
      match check (t.settleAt (awaitTimes check limit t)) with
      | some (t', a) => (t', some a)
      | none => ((t.settleAt (awaitTimes check limit t)).expire limit, none) := by
  fun_induction await check limit t with
  | case1 t t' a hcheck =>
    rw [awaitTimes_of_success hcheck, settleAt, List.foldl_nil, hcheck]
  | case2 t hcheck hdues =>
    rw [awaitTimes_of_stop hcheck (by simp [hdues]), settleAt, List.foldl_nil, hcheck]
  | case3 t hcheck due hdue hbefore ih =>
    rw [ih, awaitTimes_of_next hcheck hdue hbefore]
    rfl
  | case4 t hcheck due hdue hbefore =>
    rw [awaitTimes_of_stop hcheck (by simpa [hdue] using hbefore), settleAt, List.foldl_nil, hcheck]

/-- A wait is the lines at its times and then the answer of the check. -/
theorem waitFor_eq (check : Timeline → Option (Timeline × α)) (limit : Option ℕ) (t : Timeline) :
    t.waitFor check limit =
      match check (t.settleAt (waitTimes check limit t)) with
      | some (t', a) => (t', some a)
      | none => ((t.settleAt (waitTimes check limit t)).expire limit, none) := by
  rcases hcheck : check t with _ | ⟨t', a⟩
  · rw [waitFor, waitTimes, hcheck]
    dsimp only
    split_ifs with hlimit
    · subst hlimit
      rw [settleAt, List.foldl_nil, hcheck]
      rfl
    · exact await_eq check limit t.settle
  · rw [waitFor, waitTimes, hcheck, settleAt, List.foldl_nil, hcheck]

/-- A wait without a limit fails only when the lines have nothing left to do, behind its first
moment. -/
theorem dues_of_awaitTimes {check : Timeline → Option (Timeline × α)} {t : Timeline}
    (hfails : check (t.settleAt (awaitTimes check none t)) = none) :
    (t.settleAt (awaitTimes check none t)).dues = [] := by
  fun_induction await check none t with
  | case1 t t' a hcheck =>
    rw [awaitTimes_of_success hcheck, settleAt, List.foldl_nil, hcheck] at hfails
    cases hfails
  | case2 t hcheck hdues =>
    rw [awaitTimes_of_stop hcheck (by simp [hdues])]
    exact List.min?_eq_none_iff.mp hdues
  | case3 t hcheck due hdue hbefore ih =>
    rw [awaitTimes_of_next hcheck hdue hbefore] at hfails ⊢
    exact ih hfails
  | case4 t hcheck due hdue hbefore => exact absurd rfl hbefore

/-- A wait without a limit fails only when the lines have nothing left to do. -/
theorem dues_of_waitTimes {check : Timeline → Option (Timeline × α)} {t : Timeline}
    (hfails : check (t.settleAt (waitTimes check none t)) = none) :
    (t.settleAt (waitTimes check none t)).dues = [] := by
  rcases hcheck : check t with _ | answer
  · have htimes : waitTimes check none t = t.now :: awaitTimes check none t.settle := by
      rw [waitTimes, hcheck]
      exact if_neg (Option.some_ne_none _).symm
    rw [htimes] at hfails ⊢
    exact dues_of_awaitTimes hfails
  · rw [waitTimes, hcheck, settleAt, List.foldl_nil, hcheck] at hfails
    cases hfails

end Timeline

/-! ## What is sent meanwhile -/

namespace Channel

/-- A channel has been offered the frames of a log. It has taken them to the end of its queue if its
receiver listens, and has refused them all otherwise. Its sinks may have changed. -/
structure Took (c : Channel) (log : Log) (c' : Channel) : Prop where
  /-- The receiver does nothing. -/
  receiver : c'.receiver = c.receiver
  /-- What is accepted queues up behind the rest. -/
  queued : c'.queued = c.queued ++ log.accepted
  /-- All answers are the same. -/
  answered : ∀ entry ∈ log, entry.2 = if c.isClosed then .error .sinkClosed else .ok ()

variable {c c₁ c₂ : Channel} {log more : Log}

/-- Nothing is offered. -/
theorem Took.refl (c : Channel) : c.Took [] c :=
  ⟨rfl, (List.append_nil _).symm, List.forall_mem_nil _⟩

/-- Some frames are offered, and then others. -/
theorem Took.trans (h : c.Took log c₁) (hmore : c₁.Took more c₂) : c.Took (log ++ more) c₂ := by
  have hclosed : c₁.isClosed = c.isClosed := by rw [isClosed, h.receiver, isClosed]
  refine ⟨hmore.receiver.trans h.receiver, ?_, ?_⟩
  · rw [hmore.queued, h.queued, Log.accepted_append, List.append_assoc]
  · intro entry hentry
    rcases List.mem_append.mp hentry with hlog | hmore'
    · exact h.answered entry hlog
    · rw [hmore.answered entry hmore', hclosed]

/-- One frame is offered. -/
theorem took_send (c : Channel) (f : Frame) : c.Took [(f, (c.send f).2)] (c.send f).1 := by
  refine ⟨?_, ?_, ?_⟩
  · unfold send
    split_ifs <;> rfl
  · rw [queued_send]
    unfold send
    split_ifs <;> simp [Log.accepted]
  · rw [List.forall_mem_singleton]
    unfold send
    split_ifs <;> rfl

/-- The sinks do not matter. -/
theorem Took.dropSink (h : c.Took log c₁) : c.Took log c₁.dropSink :=
  ⟨h.receiver, h.queued, h.answered⟩

/-- A channel with a log goes on to take frames. -/
theorem Took.keeps_send (c : Channel) : Channel.send.logging.Keeps fun t => c.Took t.1 t.2 :=
  fun t f h => h.trans (t.2.took_send f)

end Channel

/-- What a log holds after a task has done what is due, the frames that it forwards and the
channel's answers behind what is there. -/
def Task.sends (now : ℕ) (sent : Log × Channel) : Task → Log
  | .resumes due reader =>
    if due ≤ now then (reader.advance Channel.send.logging sent).sink.1 else sent.1
  | _ => sent.1

/-- A task that has come to its time reads on with the log, without a difference to the channel. -/
theorem Task.settle_due {due now : ℕ} (h : due ≤ now) (sent : Log × Channel) (reader : Reader) :
    (Task.resumes due reader).settle now sent.2 =
      match reader.advance Channel.send.logging sent with
      | ⟨reader, sent, .waiting ms⟩ => (sent.2, .resumes (now + ms) reader)
      | ⟨reader, sent, .hanging⟩ => (sent.2, .hanging reader)
      | ⟨_, sent, .ended result⟩ => (sent.2.dropSink, .ended result) := by
  rw [settle, if_pos h, Reader.advance_mapSink (Sink.logging_projects Channel.send)]
  generalize reader.advance Channel.send.logging sent = progress
  obtain ⟨reader', sent', _ | _ | _⟩ := progress <;> rfl

namespace Line

/-- Does a deferred send and writes down its frame with the channel's answer. -/
def logDeferred (sent : Log × Channel) (d : DeferredSend) : Log × Channel :=
  let sent := (Channel.send.logging sent d.frame).1
  (sent.1, sent.2.dropSink)

/-- What a line sends when it does what is due, with the channel's answers. -/
def sends (now : ℕ) (l : Line) : Log :=
  let sent := (l.deferred.filter (·.due ≤ now)).foldl logDeferred ([], l.channel)
  match l.task with
  | none => sent.1
  | some task => task.sends now sent

/-- What a line sends when it does what is due at each of some times. -/
def sendsAt : List ℕ → Line → Log
  | [], _ => []
  | now :: times, l => l.sends now ++ sendsAt times (l.settle now)

/-- A line without deferred sends only has its task to attend to. -/
theorem settle_alone (now : ℕ) (c : Channel) (task : Task) :
    settle now ⟨c, [], some task⟩ = ⟨(task.settle now c).1, [], some (task.settle now c).2⟩ :=
  rfl

/-- A line without deferred sends only sends what its task forwards. -/
theorem sends_alone (now : ℕ) (c : Channel) (task : Task) :
    sends now ⟨c, [], some task⟩ = task.sends now ([], c) :=
  rfl

/-- The deferred sends are offered to the channel. -/
theorem took_logDeferred {c : Channel} (deferred : List DeferredSend) (sent : Log × Channel)
    (h : c.Took sent.1 sent.2) :
    (deferred.foldl logDeferred sent).2 = deferred.foldl sendDeferred sent.2 ∧
      c.Took (deferred.foldl logDeferred sent).1 (deferred.foldl logDeferred sent).2 := by
  induction deferred generalizing sent with
  | nil => exact ⟨rfl, h⟩
  | cons d deferred ih =>
    exact ih (logDeferred sent d) (Channel.Took.keeps_send c sent d.frame h).dropSink

/-- What a task forwards is offered to the channel. -/
theorem took_task {c : Channel} (now : ℕ) (sent : Log × Channel) (task : Task)
    (h : c.Took sent.1 sent.2) : c.Took (task.sends now sent) (task.settle now sent.2).1 := by
  cases task with
  | resumes due reader =>
    rw [Task.sends]
    split_ifs with hdue
    · have hkeeps := Reader.advance_keeps (Channel.Took.keeps_send c) reader sent h
      rw [Task.settle_due hdue]
      generalize reader.advance Channel.send.logging sent = progress at hkeeps ⊢
      obtain ⟨reader', sent', _ | _ | _⟩ := progress
      · exact hkeeps.dropSink
      · exact hkeeps
      · exact hkeeps
    · rw [Task.settle, if_neg hdue]
      exact h
  | hanging reader => exact h
  | ended result => exact h

/-- What a line sends is offered to its channel. -/
theorem took_settle (now : ℕ) (l : Line) : l.channel.Took (l.sends now) (l.settle now).channel := by
  obtain ⟨hsame, htook⟩ :=
    took_logDeferred (l.deferred.filter (·.due ≤ now)) ([], l.channel) (.refl _)
  rw [sends, settle]
  rcases l.task with _ | task
  · rw [hsame] at htook
    exact htook
  · rw [← hsame]
    exact took_task now _ task htook

/-- What a line sends at some times is offered to its channel. -/
theorem took_settleAt (times : List ℕ) (l : Line) :
    l.channel.Took (l.sendsAt times) (l.settleAt times).channel := by
  induction times generalizing l with
  | nil => exact .refl _
  | cons now times ih => exact (took_settle now l).trans (ih (l.settle now))

end Line

end PrefixFraming
