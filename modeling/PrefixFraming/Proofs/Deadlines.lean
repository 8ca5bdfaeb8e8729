import PrefixFraming.Proofs.Ending

/-!
# Deadlines

A receiver that waits for some milliseconds comes back with a frame, with the end of the channel, or
with nothing when its time is up. Two kinds of events can call it back: a frame enters the queue, or
the last sink disappears. Nobody does anything while it waits, so the events are known when the wait
begins. `Timeline.future` lists the times at which the lines do what is due from then on, to the end
of all work, and `Timeline.events` lists what happens on a line at these times. Neither knows of a
deadline or a receiver.

The first event decides if it comes before the deadline, and the deadline decides otherwise
(`Decided`, `waitFor_decided`). This is shown along the jumps of the wait: at each of them either
nothing happens on the line, and the receiver goes on waiting (`Line.Awaited`), or the first thing
that happens is what a poll finds (`Line.Awaited.settle`).

A wait that has taken too long has done what a sleep does. It leaves the receiver as it was: nothing
is in the queue, and the next frame that is accepted is the next that is handed out
(`head?_accepted_iff`).
-/

namespace PrefixFraming

open Sink (Log)

/-! ## Times to come -/

/-- A source that makes somebody wait does so for some time. -/
theorem Source.pos_of_poll_later {s rest : Source} {capacity ms : ℕ}
    (h : s.poll capacity = .later ms rest) : 0 < ms := by
  obtain ⟨items, reads⟩ := s
  rw [poll] at h
  fun_induction pollItems capacity reads items with
  | case5 more ih => exact ih h
  | case6 more ih => exact ih h
  | case7 => cases h; exact Nat.succ_pos _
  | _ => cases h

namespace Reader

variable {σ : Type} {r r' : Reader} {sink : Sink σ} {s s' : σ} {ms : ℕ}

/-- A reader that has to wait for a read has to wait for some time. -/
theorem pos_of_attempt_later (h : r.attempt sink s = .later ms r' s') : 0 < ms := by
  have hattempted := attempted r sink s
  rw [h] at hattempted
  cases hattempted with
  | later hready hpoll => exact Source.pos_of_poll_later hpoll

/-- A reader that waits does so for some time. -/
theorem pos_of_waiting (h : (r.advance sink s).standing = .waiting ms) : 0 < ms := by
  fun_induction advance r sink s with
  | case1 r s r' s' n hdone ih => exact ih h
  | case4 r s ms r' s' hlater =>
    cases h
    exact pos_of_attempt_later hlater
  | _ => cases h

end Reader

/-- What a task has to do after it has done what is due lies in the future. -/
theorem Task.lt_of_mem_dues_settle {now due : ℕ} (c : Channel) {task : Task}
    (h : due ∈ (task.settle now c).2.dues) : now < due := by
  cases task with
  | resumes later reader =>
    rw [settle] at h
    split_ifs at h with hdue
    · split at h
      · -- The reader has come to its next wait.
        rename_i ms hreached
        have hpos : 0 < ms := reader.pos_of_waiting (congrArg Reader.Progress.standing hreached)
        obtain rfl : due = now + ms := List.mem_singleton.mp h
        exact Nat.lt_add_of_pos_right hpos
      · cases h
      · cases h
    · obtain rfl : due = later := List.mem_singleton.mp h
      exact Nat.not_le.mp hdue
  | hanging reader => cases h
  | ended result => cases h

namespace Line

/-- What a line has to do after it has done what is due lies in the future. -/
theorem lt_of_mem_dues_settle {now due : ℕ} {l : Line} (h : due ∈ (l.settle now).dues) :
    now < due := by
  have hdeferred : ∀ deferred : List DeferredSend,
      due ∈ (deferred.filter (now < ·.due)).map DeferredSend.due → now < due := by
    intro deferred hdue
    obtain ⟨d, hd, rfl⟩ := List.mem_map.mp hdue
    exact of_decide_eq_true (List.mem_filter.mp hd).2
  obtain ⟨c, deferred, task⟩ := l
  cases task with
  | none =>
    have hdue : due ∈ (deferred.filter (now < ·.due)).map DeferredSend.due ++ [] := h
    rw [List.append_nil] at hdue
    exact hdeferred deferred hdue
  | some task =>
    rcases List.mem_append.mp h with hsend | htask
    · exact hdeferred deferred hsend
    · exact Task.lt_of_mem_dues_settle _ htask

end Line

namespace Timeline

variable {t : Timeline} {i n : ℕ} {l : Line}

/-- What the lines have to do after they have done what is due lies in the future. -/
theorem lt_of_mem_dues_jump {time due : ℕ} (h : due ∈ (t.jump time).dues) : time < due := by
  obtain ⟨l, hl, hdue⟩ := List.mem_flatMap.mp h
  obtain ⟨l', -, rfl⟩ := List.mem_map.mp hl
  exact Line.lt_of_mem_dues_settle hdue

/-- The times at which the lines have something to do, one after the other to the end of all
work. -/
def dueTimes (t : Timeline) : List ℕ :=
  match _next : t.dues.min? with
  | none => []
  | some due => due :: dueTimes (t.jump due)
termination_by t.work
decreasing_by exact work_jump_lt (List.min?_mem _next)

/-- Nothing is due. -/
theorem dueTimes_of_done (h : t.dues.min? = none) : t.dueTimes = [] := by
  rw [dueTimes]
  split <;> simp_all

/-- What is due next is done next. -/
theorem dueTimes_of_due {due : ℕ} (h : t.dues.min? = some due) :
    t.dueTimes = due :: (t.jump due).dueTimes := by
  rw [dueTimes]
  split <;> simp_all

/-- The times at which the lines do what is due from now on. -/
def future (t : Timeline) : List ℕ := t.now :: t.settle.dueTimes

/-- What is never due before a time is not done before it. -/
theorem le_of_mem_dueTimes {bound time : ℕ} (hbound : ∀ due ∈ t.dues, bound ≤ due)
    (h : time ∈ t.dueTimes) : bound ≤ time := by
  fun_induction dueTimes t with
  | case1 t hdues => cases h
  | case2 t due hdue ih =>
    have hle : bound ≤ due := hbound due (List.min?_mem hdue)
    rcases List.mem_cons.mp h with rfl | hlater
    · exact hle
    · exact ih (fun later hdue' => hle.trans (lt_of_mem_dues_jump hdue').le) hlater

/-- The lines do what is due at one time after the other. -/
theorem dueTimes_pairwise (t : Timeline) : t.dueTimes.Pairwise (· < ·) := by
  fun_induction dueTimes t with
  | case1 t hdues => exact .nil
  | case2 t due hdue ih =>
    -- Behind a jump, all that is due is due later.
    refine .cons (fun later hlater => ?_) ih
    exact le_of_mem_dueTimes (fun _ hdue' => lt_of_mem_dues_jump hdue') hlater

/-- At these times all work is done. -/
theorem dues_settleAt_dueTimes (t : Timeline) : (t.settleAt t.dueTimes).dues = [] := by
  fun_induction dueTimes t with
  | case1 t hdues => exact List.min?_eq_none_iff.mp hdues
  | case2 t due hdue ih => exact ih

/-- The times from now on are in order. -/
theorem future_pairwise (t : Timeline) : t.future.Pairwise (· < ·) := by
  have hsettled : ∀ due ∈ t.settle.dues, t.now + 1 ≤ due := fun _ hdue => lt_of_mem_dues_jump hdue
  exact .cons (fun later hlater => le_of_mem_dueTimes hsettled hlater) t.settle.dueTimes_pairwise

/-- Behind the times from now on there is nothing left to do. -/
theorem dues_settleAt_future (t : Timeline) : (t.settleAt t.future).dues = [] :=
  dues_settleAt_dueTimes t.settle

/-- None of the times from now on is past. -/
theorem le_of_mem_future {time : ℕ} (h : time ∈ t.future) : t.now ≤ time := by
  rcases List.mem_cons.mp h with rfl | hlater
  · exact le_rfl
  · exact ((List.pairwise_cons.mp t.future_pairwise).1 time hlater).le

end Timeline

/-! ## Events -/

namespace Line

variable {n : ℕ} {l : Line}

/-- What happens on a line when it does what is due at one time, if `n` sinks are not held by its
work: the frames that enter the queue, and then `none` if the last sink disappears. -/
def happens (n now : ℕ) (l : Line) : List (Option Frame) :=
  (l.sends now).accepted.map some ++
    if 0 < n + l.workingSinks ∧ n + (l.settle now).workingSinks = 0 then [none] else []

/-- What happens on a line when it does what is due at some times, with the times. -/
def events (n : ℕ) : List ℕ → Line → List (ℕ × Option Frame)
  | [], _ => []
  | now :: times, l => (l.happens n now).map (Prod.mk now) ++ events n times (l.settle now)

/-- Everything happens at one of the times. -/
theorem mem_of_mem_events {times : List ℕ} {event : ℕ × Option Frame}
    (h : event ∈ l.events n times) : event.1 ∈ times := by
  induction times generalizing l with
  | nil => cases h
  | cons now times ih =>
    rcases List.mem_append.mp h with hnow | hlater
    · obtain ⟨result, -, rfl⟩ := List.mem_map.mp hnow
      exact List.mem_cons_self
    · exact List.mem_cons_of_mem now (ih hlater)

/-- Things happen in the order of the times. -/
theorem events_pairwise {times : List ℕ} (h : times.Pairwise (· < ·)) (l : Line) :
    (l.events n times).Pairwise fun before after => before.1 ≤ after.1 := by
  induction times generalizing l with
  | nil => exact .nil
  | cons now times ih =>
    obtain ⟨hnow, hlater⟩ := List.pairwise_cons.mp h
    refine List.pairwise_append.mpr ⟨?_, ih hlater _, ?_⟩
    · exact List.pairwise_map.mpr (List.pairwise_of_forall fun _ _ => le_rfl)
    · intro before hbefore after hafter
      obtain ⟨result, -, rfl⟩ := List.mem_map.mp hbefore
      exact (hnow _ (mem_of_mem_events hafter)).le

/-- A receiver has to wait: nothing is in the queue, but the channel is open and somebody has a
sink. -/
structure Awaited (n : ℕ) (l : Line) : Prop where
  /-- The channel has counted its sinks. -/
  counts : l.Counts n
  /-- No frame is there. -/
  empty : l.channel.queued = []
  /-- The receiver listens. -/
  listening : l.channel.isClosed = false
  /-- Somebody has a sink. -/
  alive : 0 < n + l.workingSinks

/-- A poll finds nothing yet. -/
theorem Awaited.pending (h : l.Awaited n) : l.channel.poll.2 = .pending := by
  refine l.channel.poll_eq_pending_iff.mpr ⟨h.empty, Bool.eq_false_iff.mpr fun hfinished => ?_⟩
  rcases h.counts.isFinished_iff.mp hfinished with hclosed | hnone
  · rw [h.listening] at hclosed
    cases hclosed
  · exact h.alive.ne' hnone

/-- If a poll finds nothing yet, a receiver has to wait. -/
theorem Counts.awaited (h : l.Counts n) (hpending : l.channel.poll.2 = .pending) :
    l.Awaited n := by
  obtain ⟨hempty, hfinished⟩ := Channel.queued_of_pending hpending
  have hneither := h.isFinished_iff.not.mp (Bool.eq_false_iff.mp hfinished)
  obtain ⟨hopen, halive⟩ := not_or.mp hneither
  exact ⟨h, hempty, Bool.eq_false_iff.mpr hopen, Nat.pos_of_ne_zero halive⟩

/-- When a line does what is due, either nothing happens and the receiver has to wait on, or it
finds the first thing that happens. -/
theorem Awaited.settle (h : l.Awaited n) (now : ℕ) :
    l.happens n now = [] ∧ (l.settle now).Awaited n ∨
      ∃ result, (l.happens n now).head? = some result ∧
        (l.settle now).channel.poll.2 = result.elim .ended .frame := by
  have htook := l.took_settle now
  have hqueued : (l.settle now).channel.queued = (l.sends now).accepted := by
    rw [htook.queued, h.empty, List.nil_append]
  have hclosed : (l.settle now).channel.isClosed = false := by
    rw [Channel.isClosed_of_receiver htook.receiver, h.listening]
  rw [happens]
  -- If the last sink has sent a frame, the frame comes before the end.
  cases haccepted : (l.sends now).accepted with
  | cons f rest =>
    refine .inr ⟨some f, rfl, ?_⟩
    refine (Channel.poll_eq_frame_iff _ f).mpr ?_
    rw [hqueued, haccepted, List.head?_cons]
  | nil =>
    rw [haccepted] at hqueued
    by_cases hgone : n + (l.settle now).workingSinks = 0
    · refine .inr ⟨none, ?_, ?_⟩
      · rw [if_pos ⟨h.alive, hgone⟩]
        rfl
      · have hfinished := (h.counts.settle now).isFinished_iff.mpr (.inr hgone)
        exact (Channel.poll_eq_ended_iff _).mpr ⟨hqueued, hfinished⟩
    · refine .inl ⟨?_, h.counts.settle now, hqueued, hclosed, Nat.pos_of_ne_zero hgone⟩
      rw [if_neg fun hlast => hgone hlast.2]
      rfl

end Line

/-! ## Waiting for the first event -/

namespace Timeline

variable {t : Timeline} {i n limit : ℕ} {l : Line}

/-- What happens on a line from now on, if `n` sinks are not held by its work. -/
def events (t : Timeline) (i n : ℕ) : List (ℕ × Option Frame) :=
  (t.lines[i]?.map (Line.events n t.future)).getD []

/-- The events of a line. -/
theorem events_of_line (h : t.lines[i]? = some l) (n : ℕ) :
    t.events i n = l.events n t.future := by
  rw [events, h]
  rfl

/-- Events are in order, and none of them is past. -/
theorem events_ordered (t : Timeline) (i n : ℕ) :
    ((t.events i n).Pairwise fun before after => before.1 ≤ after.1) ∧
      ∀ event ∈ t.events i n, t.now ≤ event.1 := by
  rw [events]
  cases t.lines[i]? with
  | none => exact ⟨.nil, List.forall_mem_nil _⟩
  | some l =>
    refine ⟨l.events_pairwise t.future_pairwise, fun event hevent => ?_⟩
    exact le_of_mem_future (Line.mem_of_mem_events hevent)

/-- How a wait up to a limit ends if these are the events of its line. -/
inductive Decided (events : List (ℕ × Option Frame)) (limit : ℕ) :
    Timeline × Option (Option Frame) → Prop where
  /-- The first event comes before the limit. -/
  | called {u : Timeline} {time : ℕ} {result : Option Frame}
      (first : events.head? = some (time, result)) (before : time < limit) (clock : u.now = time) :
      Decided events limit (u, some result)
  /-- No event comes before the limit. -/
  | expired {u : Timeline} (late : ∀ event ∈ events, limit ≤ event.1) (clock : u.now = limit) :
      Decided events limit (u, none)

/-- A wait finds something at some time exactly if that is the first event and comes before the
limit. -/
theorem Decided.found_iff {events : List (ℕ × Option Frame)}
    {outcome : Timeline × Option (Option Frame)} (h : Decided events limit outcome)
    {result : Option Frame} {time : ℕ} :
    outcome.2 = some result ∧ outcome.1.now = time ↔
      events.head? = some (time, result) ∧ time < limit := by
  cases h with
  | called hfirst hbefore hclock =>
    rw [hfirst, hclock, Option.some.injEq, Option.some.injEq, Prod.mk.injEq]
    constructor
    · rintro ⟨rfl, rfl⟩
      exact ⟨⟨rfl, rfl⟩, hbefore⟩
    · rintro ⟨⟨rfl, rfl⟩, -⟩
      exact ⟨rfl, rfl⟩
  | expired hlate hclock =>
    refine iff_of_false (fun hfound => by cases hfound.1) ?_
    rintro ⟨hfirst, hbefore⟩
    exact absurd (hlate _ (List.mem_of_head? hfirst)) (Nat.not_le.mpr hbefore)

/-- A wait fails exactly if no event comes before the limit. -/
theorem Decided.fails_iff {events : List (ℕ × Option Frame)}
    {outcome : Timeline × Option (Option Frame)} (h : Decided events limit outcome) :
    outcome.2 = none ↔ ∀ event ∈ events, limit ≤ event.1 := by
  cases h with
  | called hfirst hbefore hclock =>
    refine iff_of_false (Option.some_ne_none _) fun hlate => ?_
    exact absurd (hlate _ (List.mem_of_head? hfirst)) (Nat.not_le.mpr hbefore)
  | expired hlate hclock => exact iff_of_true rfl hlate

/-- Polling a line that a receiver has to wait for. -/
theorem poll_of_awaited (h : t.lines[i]? = some l) (hl : l.Awaited n) : poll i t = none := by
  rw [poll, channel?_of_line h]
  dsimp only
  have hpending := hl.pending
  rcases hpoll : l.channel.poll with ⟨c, polled⟩
  rw [hpoll] at hpending
  obtain rfl : polled = .pending := hpending
  rfl

/-- Polling a line on which something has happened brings it, and takes no time. -/
theorem poll_of_happened (h : t.lines[i]? = some l) {result : Option Frame}
    (hresult : l.channel.poll.2 = result.elim .ended .frame) :
    ∃ u, poll i t = some (u, result) ∧ u.now = t.now := by
  rw [poll, channel?_of_line h]
  dsimp only
  rcases hpoll : l.channel.poll with ⟨c, polled⟩
  rw [hpoll] at hresult
  obtain rfl : polled = result.elim .ended .frame := hresult
  cases result with
  | none => exact ⟨t, rfl, rfl⟩
  | some f => exact ⟨_, rfl, rfl⟩

/-- A jump to a time before the limit is decided by what happens at that time, and if nothing
happens, by what happens later. -/
theorem decided_of_jump {time : ℕ} (h : t.lines[i]? = some l) (hl : l.Awaited n)
    (hbefore : time < limit)
    (hlater : (l.settle time).Awaited n →
      Decided ((l.settle time).events n (t.jump time).dueTimes) limit
        (await (poll i) (some limit) (t.jump time))) :
    Decided (l.events n (time :: (t.jump time).dueTimes)) limit
      (await (poll i) (some limit) (t.jump time)) := by
  have hline : (t.jump time).lines[i]? = some (l.settle time) := line_settleAt h [time]
  rw [Line.events]
  rcases hl.settle time with ⟨hnothing, hstill⟩ | ⟨result, hfirst, hpoll⟩
  · rw [hnothing]
    exact hlater hstill
  · obtain ⟨u, hu, hclock⟩ := poll_of_happened hline hpoll
    have hawait : await (poll i) (some limit) (t.jump time) = (u, some result) := by
      rw [await, hu]
    rw [hawait]
    refine .called ?_ hbefore hclock
    rw [List.head?_append, List.head?_map, hfirst]
    rfl

/-- A wait is decided by the events behind its first moment. -/
theorem await_decided (h : t.lines[i]? = some l) (hl : l.Awaited n) (limit : ℕ) :
    Decided (l.events n t.dueTimes) limit (await (poll i) (some limit) t) := by
  fun_induction await (poll i) (some limit) t generalizing l with
  | case1 t u result hcheck =>
    rw [poll_of_awaited h hl] at hcheck
    cases hcheck
  | case2 t hcheck hdues =>
    rw [dueTimes_of_done hdues]
    exact .expired (List.forall_mem_nil _) rfl
  | case3 t hcheck due hdue hbefore ih =>
    rw [dueTimes_of_due hdue]
    exact decided_of_jump h hl (of_decide_eq_true hbefore) (ih (line_settleAt h [due]))
  | case4 t hcheck due hdue hbefore =>
    -- What is due next comes too late, and so does everything behind it.
    have hlate : limit ≤ due := Nat.not_lt.mp fun hlt => hbefore (decide_eq_true hlt)
    refine .expired (fun event hevent => ?_) rfl
    refine hlate.trans (le_of_mem_dueTimes (fun later hlater => ?_) (Line.mem_of_mem_events hevent))
    exact (List.min?_eq_some_iff.mp hdue).2 later hlater

/-- A wait is decided by the first event from now on or by its limit. -/
theorem waitFor_decided (h : t.lines[i]? = some l) (hl : l.Awaited n) (ms : ℕ) :
    Decided (t.events i n) (t.now + ms) (t.waitFor (poll i) (some (t.now + ms))) := by
  rw [waitFor, poll_of_awaited h hl, events_of_line h]
  dsimp only
  split_ifs with hnow
  · -- The time is up at once, and nothing happens before now.
    have hclock : t.now = t.now + ms := (Option.some.inj hnow).symm
    refine .expired (fun event hevent => ?_) hclock
    rw [← hclock]
    exact le_of_mem_future (Line.mem_of_mem_events hevent)
  · have hpos : t.now < t.now + ms := by
      refine Nat.lt_add_of_pos_right (Nat.pos_of_ne_zero fun hzero => hnow ?_)
      rw [hzero, Nat.add_zero]
    exact decided_of_jump h hl hpos fun hstill =>
      await_decided (line_settleAt h [t.now]) hstill (t.now + ms)

/-! ## A wait that takes too long -/

/-- A wait that fails is as long as one that has nothing to look for, behind its first moment. -/
theorem awaitTimes_of_fails {α : Type} {check : Timeline → Option (Timeline × α)}
    {limit : Option ℕ} (hfails : check (t.settleAt (awaitTimes check limit t)) = none) :
    awaitTimes check limit t =
      awaitTimes (fun _ => (none : Option (Timeline × Unit))) limit t := by
  fun_induction await check limit t with
  | case1 t u a hcheck =>
    rw [awaitTimes_of_success hcheck, settleAt, List.foldl_nil, hcheck] at hfails
    cases hfails
  | case2 t hcheck hdues =>
    have hstop : ∀ due, t.dues.min? = some due → isBefore due limit = false := by simp [hdues]
    rw [awaitTimes_of_stop hcheck hstop, awaitTimes_of_stop rfl hstop]
  | case3 t hcheck due hdue hbefore ih =>
    rw [awaitTimes_of_next hcheck hdue hbefore] at hfails ⊢
    rw [awaitTimes_of_next rfl hdue hbefore, ih hfails]
  | case4 t hcheck due hdue hbefore =>
    have hstop : ∀ due, t.dues.min? = some due → isBefore due limit = false := by
      simpa [hdue] using hbefore
    rw [awaitTimes_of_stop hcheck hstop, awaitTimes_of_stop rfl hstop]

/-- A wait that fails is as long as one that has nothing to look for. -/
theorem waitTimes_of_fails {α : Type} {check : Timeline → Option (Timeline × α)}
    {limit : Option ℕ} (hfails : check (t.settleAt (waitTimes check limit t)) = none) :
    waitTimes check limit t =
      waitTimes (fun _ => (none : Option (Timeline × Unit))) limit t := by
  rcases hcheck : check t with _ | answer
  · rw [waitTimes, hcheck] at hfails ⊢
    dsimp only at hfails ⊢
    rw [waitTimes]
    split_ifs at hfails ⊢ with hnow
    · rfl
    · have hlater : check (t.settle.settleAt (awaitTimes check limit t.settle)) = none := hfails
      rw [awaitTimes_of_fails hlater]
  · rw [waitTimes, hcheck, settleAt, List.foldl_nil, hcheck] at hfails
    cases hfails

/-- A receive that takes too long does what a sleep does. -/
theorem perform_of_timedOut {ms : ℕ} {e : Error}
    (hanswer : (t.perform (.receiveWithin i ms)).2 = .failed e) :
    t.perform (.receiveWithin i ms) = (t.sleep ms, .failed .timeout) := by
  have hsleep := congrArg Prod.fst (t.perform_sleep ms)
  rw [perform_receiveWithin] at hanswer ⊢
  rcases hpoll : poll i (t.settleAt (t.times (.receiveWithin i ms))) with _ | ⟨u, f⟩
  · have htimes : t.times (.receiveWithin i ms) = t.times (.sleep ms) := waitTimes_of_fails hpoll
    rw [htimes]
    exact Prod.ext hsleep.symm rfl
  · rw [hpoll] at hanswer
    cases hanswer

/-- A receiver that polls after the lines have done what is due at some times, and is not handed a
frame, leaves none in the queue. -/
theorem queued_of_polled (h : t.lines[i]? = some l) (times : List ℕ) {t' : Timeline}
    {answer : Answer}
    (hpoll : match poll i (t.settleAt times) with
      | some (u, f) => t' = u ∧ answer = .received f
      | none => t'.lines = (t.settleAt times).lines)
    (hnothing : answer.learned.frames = []) : t'.queued i = [] := by
  have hsettled := line_settleAt h times
  have hline := line_poll hsettled i
  generalize poll i (t.settleAt times) = polled at hpoll hline
  match polled with
  | some (u, some f) =>
    obtain ⟨-, rfl⟩ := hpoll
    cases hnothing
  | some (u, none) =>
    obtain ⟨rfl, -⟩ := hpoll
    obtain ⟨rfl, hended⟩ := hline
    rw [queued_of_line hsettled]
    exact (Channel.queued_of_ended (hended rfl)).1
  | none =>
    rw [← hpoll] at hsettled
    rw [queued_of_line hsettled]
    exact (Channel.queued_of_pending (hline rfl)).1

/-- A receiver that is not handed a frame, however it asks, leaves none in the queue. -/
theorem queued_of_nothing_handed (h : t.lines[i]? = some l) {step : Step}
    (hstep : step.receiver? = some i)
    (hnothing : (step.learned i (t.perform step).2).frames = []) :
    (t.perform step).1.queued i = [] := by
  rw [learned_of_receiver hstep, if_pos rfl] at hnothing
  cases step with
  | tryReceive j =>
    obtain rfl : j = i := Option.some.inj hstep
    rw [perform, tryReceive, channel?_of_line h] at hnothing ⊢
    dsimp only at hnothing ⊢
    rcases htake : l.channel.tryReceive with ⟨c, _ | f⟩
    · obtain ⟨rfl, hempty⟩ := Channel.tryReceive_none htake
      rw [queued_of_line (line_modifyChannel h j _), if_pos rfl, hempty]
    · rw [htake] at hnothing
      cases hnothing
  | poll j =>
    obtain rfl : j = i := Option.some.inj hstep
    refine queued_of_polled h [] ?_ hnothing
    rw [perform, settleAt, List.foldl_nil]
    rcases poll j t with _ | ⟨u, f⟩ <;> simp
  | receive j =>
    obtain rfl : j = i := Option.some.inj hstep
    refine queued_of_polled h (t.times (.receive j)) ?_ hnothing
    rw [perform_receive]
    rcases poll j (t.settleAt (t.times (.receive j))) with _ | ⟨u, f⟩
    · rfl
    · exact ⟨rfl, rfl⟩
  | receiveWithin j ms =>
    obtain rfl : j = i := Option.some.inj hstep
    refine queued_of_polled h (t.times (.receiveWithin j ms)) ?_ hnothing
    rw [perform_receiveWithin]
    rcases poll j (t.settleAt (t.times (.receiveWithin j ms))) with _ | ⟨u, f⟩
    · rfl
    · exact ⟨rfl, rfl⟩
  | _ => cases hstep

/-- Whoever receives from a channel whose queue was empty, when nothing has been handed out since,
is handed a frame exactly if it is the first that has been accepted since then. -/
theorem head?_accepted_iff (h : t.lines[i]? = some l) (hempty : l.channel.queued = [])
    {later : List Step} (hkept : .dropReceiver i ∉ later) (hnothing : t.handed i later = [])
    {step : Step} (hstep : step.receiver? = some i) (f : Frame) :
    step.learned i ((t.performAll later).perform step).2 = .frame f ↔
      (t.sent i (later ++ [step])).accepted.head? = some f := by
  obtain ⟨l₁, hl₁, hbefore⟩ := performAll_balance h hkept
  obtain ⟨l₂, hl₂, htouched⟩ := perform_touched hl₁ step
  have hother : step ≠ .dropReceiver i := by
    rintro rfl
    cases hstep
  -- All that has been accepted is what the step hands out and what it leaves in the queue.
  have haccepted : (t.sent i (later ++ [step])).accepted =
      (step.learned i ((t.performAll later).perform step).2).frames ++ l₂.channel.queued := by
    rw [hempty, hnothing, List.nil_append, List.nil_append] at hbefore
    calc (t.sent i (later ++ [step])).accepted
        = (t.sent i later).accepted ++ ((t.performAll later).sentBy i step).accepted := by
          rw [sent_append, Log.accepted_append, sent, sent, List.append_nil]
      _ = l₁.channel.queued ++ ((t.performAll later).sentBy i step).accepted := by rw [hbefore]
      _ = _ := htouched.balance hother
  have hleft := queued_of_nothing_handed hl₁ hstep
  rw [queued_of_line hl₂] at hleft
  rw [haccepted]
  generalize step.learned i ((t.performAll later).perform step).2 = learned at hleft ⊢
  cases learned with
  | frame g => simp [Channel.Polled.frames]
  | pending => simp [Channel.Polled.frames, hleft rfl]
  | ended => simp [Channel.Polled.frames, hleft rfl]

/-! ## What a deadline decides -/

/-- What a receive with a deadline comes to, if a step has shut the channel or not, `live` sinks are
left, and `events` is what happens from now on. -/
structure DecidesWithin (shut : Prop) (live : ℕ) (events : List (ℕ × Option Frame)) (i ms : ℕ)
    (t : Timeline) : Prop where
  /-- The events are in the order of their times. -/
  ordered : events.Pairwise fun before after => before.1 ≤ after.1
  /-- No event is past. -/
  coming : ∀ event ∈ events, t.now ≤ event.1
  /-- A frame that is in the queue is handed out at once. -/
  queued : ∀ f, (t.queued i).head? = some f →
    t.perform (.receiveWithin i ms) = ((t.tryReceive i).1, .received (some f))
  /-- An end that has come is found at once. -/
  ended : t.queued i = [] → shut ∨ live = 0 →
    t.perform (.receiveWithin i ms) = (t, .received none)
  /-- Otherwise what is received is what happens first, at the time at which it happens, if that is
  before the deadline. -/
  received : t.queued i = [] → ¬ shut → 0 < live → ∀ result time,
    (t.perform (.receiveWithin i ms)).2 = .received result ∧
        (t.perform (.receiveWithin i ms)).1.now = time ↔
      events.head? = some (time, result) ∧ time < t.now + ms
  /-- Otherwise the receive takes too long exactly if nothing happens before the deadline. -/
  timedOut : t.queued i = [] → ¬ shut → 0 < live →
    ((t.perform (.receiveWithin i ms)).2 = .failed .timeout ↔
      ∀ event ∈ events, t.now + ms ≤ event.1)
  /-- A receive that takes too long ends at the deadline, and is no more than a sleep. -/
  slept : (t.perform (.receiveWithin i ms)).2 = .failed .timeout →
    (t.perform (.receiveWithin i ms)).1.now = t.now + ms ∧
      (t.perform (.receiveWithin i ms)).1 = t.sleep ms

/-- A channel on which nothing has come yet, as its receiver finds it. -/
structure Silent (i : ℕ) (t : Timeline) : Prop where
  /-- No frame is in the queue. -/
  empty : t.queued i = []
  /-- A poll finds nothing yet, and no end. -/
  pending : (t.perform (.poll i)).2 = .pending
  /-- A send succeeds. -/
  accepted : ∀ f, (t.perform (.send i f)).2 = .sent (.ok ())
  /-- Whatever follows, the next receive, of whatever kind, hands out the first frame that has been
  accepted until then, and it hands out none if there is none. -/
  next : ∀ later, .dropReceiver i ∉ later → t.handed i later = [] →
    ∀ step, step.receiver? = some i → ∀ f,
      step.learned i ((t.performAll later).perform step).2 = .frame f ↔
        (t.sent i (later ++ [step])).accepted.head? = some f

/-- What a receive with a deadline brings is what the wait finds. -/
theorem perform_of_waitFor (t : Timeline) (i ms : ℕ) :
    t.perform (.receiveWithin i ms) =
      match t.waitFor (poll i) (some (t.now + ms)) with
      | (u, some result) => (u, .received result)
      | (u, none) => (u, .failed .timeout) := by
  rw [perform, receiveWithin]
  rcases t.waitFor (poll i) (some (t.now + ms)) with ⟨u, _ | result⟩ <;> rfl

/-- What a poll finds is received at once, and nothing else happens. -/
theorem perform_of_poll {u : Timeline} {result : Option Frame} (h : poll i t = some (u, result))
    (ms : ℕ) : t.perform (.receiveWithin i ms) = (u, .received result) := by
  rw [perform_of_waitFor, waitFor, h]

/-- A poll of a channel with a frame in its queue is a try. -/
theorem poll_of_head (h : t.lines[i]? = some l) {f : Frame}
    (hhead : l.channel.queued.head? = some f) : poll i t = some ((t.tryReceive i).1, some f) := by
  rw [poll, tryReceive, channel?_of_line h]
  dsimp only
  rcases l.channel.poll_eq with ⟨c, g, htake, hpoll⟩ | ⟨hempty, -⟩
  · rw [(Channel.tryReceive_some htake).1] at hhead
    obtain rfl : g = f := Option.some.inj hhead
    rw [hpoll, htake]
  · rw [hempty] at hhead
    cases hhead

/-- If the count of sinks is right, and the channel is closed exactly if it has been shut, then this
and the events are all that matters. -/
theorem decidesWithin_of_line (h : t.lines[i]? = some l) (hl : l.Counts n) {shut : Prop}
    (hshut : l.channel.isClosed = true ↔ shut) (ms : ℕ) :
    DecidesWithin shut (n + t.workingSinks i) (t.events i n) i ms t := by
  have hworking : t.workingSinks i = l.workingSinks := by
    rw [workingSinks, h]
    rfl
  rw [hworking]
  have hwaits : t.queued i = [] → ¬ shut → 0 < n + l.workingSinks →
      Decided (t.events i n) (t.now + ms) (t.waitFor (poll i) (some (t.now + ms))) := by
    intro hempty hopen halive
    rw [queued_of_line h] at hempty
    rw [← hshut, Bool.not_eq_true] at hopen
    exact waitFor_decided h ⟨hl, hempty, hopen, halive⟩ ms
  constructor
  · exact (t.events_ordered i n).1
  · exact (t.events_ordered i n).2
  · intro f hhead
    rw [queued_of_line h] at hhead
    exact perform_of_poll (poll_of_head h hhead) ms
  · intro hempty hend
    rw [queued_of_line h] at hempty
    rw [← hshut] at hend
    exact perform_of_poll (poll_of_over h hempty (hl.isFinished_iff.mpr hend)) ms
  · intro hempty hopen halive result time
    rw [← (hwaits hempty hopen halive).found_iff, perform_of_waitFor]
    rcases t.waitFor (poll i) (some (t.now + ms)) with ⟨u, _ | found⟩ <;> simp
  · intro hempty hopen halive
    rw [← (hwaits hempty hopen halive).fails_iff, perform_of_waitFor]
    rcases t.waitFor (poll i) (some (t.now + ms)) with ⟨u, _ | found⟩ <;> simp
  · intro hanswer
    rw [perform_of_timedOut hanswer]
    exact ⟨congrArg (·.1.now) (t.perform_sleep ms), rfl⟩

/-- A receive that has taken too long leaves the channel as it was. -/
theorem silent_of_timedOut (h : t.lines[i]? = some l) (hl : l.Counts n) {ms : ℕ} {e : Error}
    (hanswer : (t.perform (.receiveWithin i ms)).2 = .failed e) :
    Silent i (t.perform (.receiveWithin i ms)).1 := by
  have hline := line_settleAt h (t.times (.receiveWithin i ms))
  have hpoll := line_poll hline i
  rw [perform_receiveWithin] at hanswer ⊢
  rcases hpolled : poll i (t.settleAt (t.times (.receiveWithin i ms))) with _ | ⟨u, f⟩
  · rw [hpolled] at hpoll
    have hawaited := (hl.settleAt _).awaited (hpoll rfl)
    have hopen : (l.settleAt _).channel.isClosed = true ↔ False :=
      iff_of_false (Bool.eq_false_iff.mp hawaited.listening) id
    generalize hu : (t.settleAt (t.times (.receiveWithin i ms))).expire (some (t.now + ms)) = u
    have hline' : u.lines[i]? = some (l.settleAt (t.times (.receiveWithin i ms))) := hu ▸ hline
    have hdecides := decides_of_line hline' hawaited.counts hopen
    have hempty := (queued_of_line hline').trans hawaited.empty
    have halive : 0 < n + u.workingSinks i := by
      rw [workingSinks, hline']
      exact hawaited.alive
    constructor
    · exact hempty
    · exact hdecides.pending.mpr ⟨hempty, id, halive⟩
    · exact fun f => (hdecides.accepted f).mpr id
    · intro later hkept hnothing step hstep f
      exact head?_accepted_iff hline' hawaited.empty hkept hnothing hstep f
  · rw [hpolled] at hanswer
    cases hanswer

/-- A deadline decides, and tells a frame, the end of the channel and silence apart. Take any
channel, opened by a user, who has then one sink, or for a reader, whose task has the only one; and
any session from then on in which the user never uses a sink without having one. A frame in the
queue is handed out at once, and an end that has come is found at once, even if no time is given.
Otherwise, the work behind the lines goes on, for as long as nobody does anything else, at the times
of `future`: frames enter the queue and sinks disappear. What happens first, a frame or that the
last sink disappears, is what is received, at the time at which it happens, if that is before the
deadline; and the receive takes too long, up to the deadline, exactly if nothing happens before it.
Then no frame is in the queue, the channel can be used as before, and whatever follows, the next
receive that hands out a frame hands out the first frame that has been accepted since then. -/
theorem deadline_decides {t₁ : Timeline}
    (hopened : t₁ = t.openChannel ∧ n = 1 ∨ (∃ source c, t.spawn source c = .ok t₁) ∧ n = 0)
    (steps : List Step) (hpossible : Possible t.lines.length n steps) (ms : ℕ) :
    let i := t.lines.length
    let t' := t₁.performAll steps
    let user := userSinks i n steps
    let events := t'.events i user
    (t'.settleAt t'.future).dues = [] ∧
      DecidesWithin (∃ step ∈ steps, step.Shuts i) (user + t'.workingSinks i) events i ms t' ∧
        ((t'.perform (.receiveWithin i ms)).2 = .failed .timeout →
          Silent i (t'.perform (.receiveWithin i ms)).1) := by
  intro i t' user events
  obtain ⟨l, hl, hcounts, hopen⟩ := line_of_opened hopened
  obtain ⟨l', hl', hcounts', hclosed⟩ := performAll_counts hl hcounts hpossible
  have hshut : l'.channel.isClosed = true ↔ ∃ step ∈ steps, step.Shuts i := by
    rw [hclosed, hopen]
    exact or_iff_right Bool.false_ne_true
  exact ⟨t'.dues_settleAt_future, decidesWithin_of_line hl' hcounts' hshut ms,
    silent_of_timedOut hl' hcounts'⟩

/-- The user defers a send and drops the only other sink, and a reader works beside the channel: a
deadline before the send finds nothing, and the channel can still be used; a deadline behind it
finds the frame. -/
theorem deadline_decides_deferred :
    let f : Frame := ⟨0, [7]⟩
    let source : Source := .ofItems [.delay 3, .data [1, 0, 0, 0, 9], .delay 4]
    let steps : List Step := [.spawn source .default, .sendLater 0 7 f, .dropSink 0]
    let t := start.openChannel.performAll steps
    let early := t.perform (.receiveWithin 0 6)
    let late := t.perform (.receiveWithin 0 8)
    Possible 0 1 steps ∧ t.events 0 0 = [(7, some f), (7, none)] ∧
      early.2 = .failed .timeout ∧ early.1.now = 6 ∧ Silent 0 early.1 ∧
        late.2 = .received (some f) ∧ late.1.now = 7 := by
  intro f source steps t early late
  have hopened : start.openChannel = start.openChannel ∧ 1 = 1 ∨
      (∃ source c, start.spawn source c = .ok start.openChannel) ∧ 1 = 0 := .inl ⟨rfl, rfl⟩
  have hpossible : Possible 0 1 steps := by simp [steps, Possible, Step.sinksAfter, Step.UsesSink]
  have hevents : t.events 0 0 = [(7, some f), (7, none)] := by decide +kernel
  have hopen : ¬ ∃ step ∈ steps, step.Shuts 0 := by simp [steps, Step.Shuts]
  have halive : 0 < userSinks 0 1 steps + t.workingSinks 0 := by decide +kernel
  obtain ⟨-, hearly, hsilent⟩ := deadline_decides (t := start) hopened steps hpossible 6
  obtain ⟨-, hlate, -⟩ := deadline_decides (t := start) hopened steps hpossible 8
  have hnow : t.now = 0 := by decide +kernel
  have hnone : early.2 = .failed .timeout := by
    refine (hearly.timedOut rfl hopen halive).mpr fun event hevent => ?_
    have hmem : event ∈ [(7, some f), (7, none)] := hevents ▸ hevent
    have htime : event.1 = 7 := by
      simp only [List.mem_cons, List.not_mem_nil, or_false] at hmem
      rcases hmem with rfl | rfl <;> rfl
    rw [htime, hnow]
    decide
  obtain ⟨hreceived, hclock⟩ := (hlate.received rfl hopen halive (some f) 7).mpr (by
    refine ⟨congrArg List.head? hevents, ?_⟩
    rw [hnow]
    decide)
  exact ⟨hpossible, hevents, hnone, (hearly.slept hnone).1, hsilent hnone, hreceived, hclock⟩

end Timeline

end PrefixFraming
