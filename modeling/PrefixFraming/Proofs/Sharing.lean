import PrefixFraming.Proofs.Forwarding
import PrefixFraming.Proofs.Parsing
import PrefixFraming.Proofs.Poisoning

/-!
# Decoders that share a channel

Several decoders, each with its own stream, send to one channel while its receiver takes frames and
perhaps stops listening at some point. None of them notices the others. What a decoder shows is what
it shows by itself, with a sink that takes every frame as long as the receiver listens and with one
that refuses every frame from then on.

The proof looks at one feed in either state of the channel (`serves_listening`, `serves_resting`).
A channel that listens answers every frame in the same way, whatever is in its queue, so that the
feed cannot tell it from a collection; and likewise for a channel that does not listen. What the
other decoders and the receiver do between two feeds leaves the state of the channel as it is, so
the turns of one decoder, taken out of a history of all, are those it has by itself
(`Shared.turns_of_moves`). What is left is about a single decoder: what its turns with a private
sink look like.
-/

namespace PrefixFraming

open Sink (Log)

/-- The call that a feed comes to if nobody receives: every frame is refused. -/
def Call.refusing (chunk : List UInt8) : Call := ⟨Unit, Sink.refuse .sinkClosed, (), chunk⟩

/-! ## Private sinks -/

namespace Decoder

variable {σ : Type} {d : Decoder}

/-- A sink that gives the same answer to all frames has only that answer in its log. -/
theorem turn_answers (d : Decoder) (c : Call) {answer : Except Error Unit}
    (hanswer : ∀ s f, (c.sink s f).2 = answer) : ∀ entry ∈ (d.turn c).log, entry.2 = answer := by
  have hkeeps : c.sink.logging.Keeps fun s => ∀ entry ∈ s.1, entry.2 = answer := by
    intro s f hs entry hentry
    rcases List.mem_append.mp hentry with hbefore | hlast
    · exact hs entry hbefore
    · rw [List.mem_singleton.mp hlast]
      exact hanswer s.2 f
  exact feed_keeps hkeeps d ([], c.state) c.chunk (List.forall_mem_nil _)

/-- A sink that takes all frames takes those that it is offered. -/
theorem accepted_of_pushing (d : Decoder) (chunk : List UInt8) :
    (d.turn (.pushing chunk)).log.accepted = d.offered Sink.collect #[] chunk := by
  rw [Log.accepted_of_ok (d.turn_answers (.pushing chunk) fun _ _ => rfl)]
  exact d.turn_offered (.pushing chunk)

/-- A sink that refuses all frames takes none. -/
theorem accepted_of_refusing (d : Decoder) (chunk : List UInt8) :
    (d.turn (.refusing chunk)).log.accepted = [] :=
  Log.accepted_of_error (d.turn_answers (.refusing chunk) fun _ _ => rfl)

/-- What is accepted in feeds to a sink that takes everything is what is handed out. -/
theorem accepted_of_turns_pushing (d : Decoder) (chunks : List (List UInt8)) :
    (d.turns (chunks.map Call.pushing)).flatMap (fun turn => turn.log.accepted) =
      d.handed (chunks.map Call.pushing) := by
  induction chunks generalizing d with
  | nil => rfl
  | cons chunk chunks ih =>
    rw [List.map_cons, turns, List.flatMap_cons, ih, accepted_of_pushing, turn_after]
    rfl

/-- Nothing is accepted in feeds to a sink that refuses everything. -/
theorem accepted_of_turns_refusing (d : Decoder) (chunks : List (List UInt8)) :
    (d.turns (chunks.map Call.refusing)).flatMap (fun turn => turn.log.accepted) = [] := by
  induction chunks generalizing d with
  | nil => rfl
  | cons chunk chunks ih =>
    rw [List.map_cons, turns, List.flatMap_cons, ih, accepted_of_refusing]
    rfl

/-- A feed to a sink that refuses every frame either ends with the refusal of the first or comes to
no frame, and then does not end with a refusal. -/
theorem Takes.refused_first {s : Unit} {chunk : List UInt8} {frames : List Frame} {fed : Fed Unit}
    (h : Takes (Sink.refuse .sinkClosed) d s chunk frames fed) :
    (fed.result = .error .sinkClosed ∧ frames.length = 1) ∨
      (fed.result ≠ .error .sinkClosed ∧ frames = []) := by
  induction h with
  | nil => exact .inr ⟨by simp, rfl⟩
  | kept ready held more ih => exact ih
  | accepted ready wire allowed taken more ih => cases taken
  | refused ready wire allowed refusal =>
    cases refusal
    exact .inl ⟨rfl, rfl⟩
  | rejected => exact .inr ⟨by simp, rfl⟩

/-- A sink that takes every frame is not blamed for a failure. -/
theorem Ready.feed_ne_sinkClosed (hd : d.Ready) (chunk : List UInt8) :
    (d.feed Sink.collect #[] chunk).result ≠ .error .sinkClosed := by
  obtain ⟨-, -, hresult⟩ := (hd.takes Sink.collect #[] chunk).parses Sink.collect_accepts
  rw [hresult, Stream.Parsed.result]
  split <;> simp

/-- What a feed to a sink that refuses every frame comes to, in terms of the frames that the chunk
completes: without one the sink does not matter, and the first one poisons the decoder and is
counted. -/
theorem Ready.feed_refuse (hd : d.Ready) (chunk : List UInt8) :
    let fed := d.feed (Sink.refuse .sinkClosed) () chunk
    let alone := d.feed Sink.collect #[] chunk
    (fed.result = .error .sinkClosed ↔ d.offered Sink.collect #[] chunk ≠ []) ∧
      (fed.result = .error .sinkClosed →
        fed.decoder.poisoned = true ∧ fed.decoder.stats.frames = d.stats.frames + 1) ∧
      (d.offered Sink.collect #[] chunk = [] →
        fed.decoder = alone.decoder ∧ fed.result = alone.result) := by
  intro fed alone
  have htakes : Takes (Sink.refuse .sinkClosed) d () chunk
      (d.offered (Sink.refuse .sinkClosed) () chunk) fed := hd.takes _ () chunk
  have hoffer := hd.feed_offer Sink.collect_accepts #[] (Sink.refuse .sinkClosed) () chunk
  refine ⟨?_, ?_, ?_⟩
  · rcases hframes : d.offered Sink.collect #[] chunk with _ | ⟨f, frames⟩
    · rw [hframes] at hoffer
      have hsame : fed.result = alone.result := congrArg Fed.result hoffer
      rw [hsame]
      exact iff_of_false (hd.feed_ne_sinkClosed chunk) fun hne => hne rfl
    · rw [hframes] at hoffer
      exact iff_of_true hoffer.2 (List.cons_ne_nil f frames)
  · intro hrefused
    refine ⟨(htakes.error_failed hrefused).poisoned_eq, ?_⟩
    rcases htakes.refused_first with ⟨-, hone⟩ | ⟨hnot, -⟩
    · rw [htakes.frames_counted, hone]
      rfl
    · exact absurd hrefused hnot
  · intro hnone
    rw [hnone] at hoffer
    exact ⟨congrArg Fed.decoder hoffer, congrArg Fed.result hoffer⟩

/-- As long as a decoder is not poisoned, feeds to a sink that refuses every frame do not count
one. -/
theorem Ready.frames_of_refusing (hd : d.Ready) (chunks : List (List UInt8))
    (hfree : (d.afterCalls (chunks.map Call.refusing)).poisoned = false) :
    (d.afterCalls (chunks.map Call.refusing)).stats.frames = d.stats.frames := by
  induction chunks generalizing d with
  | nil => rfl
  | cons chunk chunks ih =>
    have htakes : Takes (Sink.refuse .sinkClosed) d () chunk
        (d.offered (Sink.refuse .sinkClosed) () chunk) (d.call (.refusing chunk)) :=
      hd.takes _ () chunk
    rw [List.map_cons, afterCalls] at hfree ⊢
    rcases hresult : (d.call (.refusing chunk)).result with e | n
    · -- After a failure the decoder stays poisoned.
      have hpoisoned := (htakes.error_failed hresult).poisoned_eq
      rw [afterCalls_of_poisoned hpoisoned, hpoisoned] at hfree
      cases hfree
    · rw [ih (htakes.ok_ready hresult).1 hfree, htakes.frames_counted]
      rcases htakes.refused_first with ⟨hrefused, -⟩ | ⟨-, hnone⟩
      · rw [hresult] at hrefused
        cases hrefused
      · rw [hnone]
        exact UInt64.add_zero _

/-- A decoder that is not poisoned after feeds to a sink that refuses every frame counts the frames
that it handed out before them. -/
theorem frames_of_pushing_refusing (max : UInt32) (early late : List (List UInt8))
    (hfree : ((fresh max).afterCalls
      (early.map Call.pushing ++ late.map Call.refusing)).poisoned = false) :
    ((fresh max).afterCalls (early.map Call.pushing ++ late.map Call.refusing)).stats.frames =
      UInt64.ofNat ((fresh max).handed (early.map Call.pushing)).length := by
  obtain ⟨-, hcounted⟩ := (ready_fresh max).sequence_handed (early.map Call.pushing)
  have hzero : (fresh max).stats.frames = 0 := rfl
  rw [hzero, UInt64.zero_add] at hcounted
  rw [afterCalls_append] at hfree ⊢
  rcases (ready_fresh max).afterCalls_ready_or_failed (early.map Call.pushing) with hready | hfailed
  · rw [hready.frames_of_refusing late hfree, hcounted]
  · rw [afterCalls_of_poisoned hfailed.poisoned_eq, hfailed.poisoned_eq] at hfree
    cases hfree

end Decoder

/-! ## Moves -/

/-- Decoders that send to one channel, and the lines, of which the channel's is one. -/
structure Shared (n : ℕ) where
  /-- The lines. -/
  timeline : Timeline
  /-- The decoders. -/
  decoders : Fin n → Decoder

/-- Something that happens to decoders that share a channel. -/
inductive Move (n : ℕ) where
  /-- A chunk is fed to a decoder. -/
  | feed (k : Fin n) (chunk : List UInt8)
  /-- Something is done with the lines: the receiver takes a frame, or waits, or stops listening. -/
  | perform (step : Timeline.Step)

namespace Move

variable {n : ℕ}

/-- The move uses a sink of the channel for something else than a feed. -/
def UsesSink (i : ℕ) : Move n → Prop
  | .feed _ _ => False
  | .perform step => step.UsesSink i

/-- With the move the receiver of the channel stops listening. -/
def Shuts (i : ℕ) : Move n → Prop
  | .feed _ _ => False
  | .perform step => step.Shuts i

/-- The chunk that is fed to a decoder, if the move feeds it. -/
def chunk? (k : Fin n) : Move n → Option (List UInt8)
  | .feed j chunk => if j = k then some chunk else none
  | .perform _ => none

end Move

namespace Shared

variable {n : ℕ} {α : Type} {i : ℕ} {s : Shared n} {moves : List (Move n)}

/-- The entries with a label, in order. -/
def only (k : Fin n) (entries : List (Fin n × α)) : List α :=
  (entries.filter fun entry => entry.1 = k).map Prod.snd

/-- The chunks that are fed to a decoder, in order. -/
def fedTo (k : Fin n) (moves : List (Move n)) : List (List UInt8) := moves.filterMap (Move.chunk? k)

/-- A channel that has just been opened, with a sink for each decoder, and the decoders. -/
def start (t : Timeline) (maxima : Fin n → UInt32) : Shared n :=
  ⟨t.openChannel.performAll (List.replicate n (.addSink t.lines.length)),
    fun k => .fresh (maxima k)⟩

/-- Makes a move. The line with the number `i` is that of the channel. -/
def move (i : ℕ) (s : Shared n) : Move n → Shared n
  | .feed k chunk =>
    let fed := (s.decoders k).feed (Timeline.sendTo i) s.timeline chunk
    ⟨fed.sink, Function.update s.decoders k fed.decoder⟩
  | .perform step => ⟨(s.timeline.perform step).1, s.decoders⟩

/-- Makes some moves, one after the other. -/
def moveAll (i : ℕ) (s : Shared n) : List (Move n) → Shared n
  | [] => s
  | m :: moves => (s.move i m).moveAll i moves

/-- What a move shows of a decoder, if it feeds one. -/
def shownBy (i : ℕ) (s : Shared n) : Move n → List (Fin n × Turn Decoder ℕ)
  | .feed k chunk => [(k, (s.decoders k).turn ⟨Timeline, Timeline.sendTo i, s.timeline, chunk⟩)]
  | .perform _ => []

/-- What moves show of all decoders, in order. -/
def shown (i : ℕ) (s : Shared n) : List (Move n) → List (Fin n × Turn Decoder ℕ)
  | [] => []
  | m :: moves => s.shownBy i m ++ (s.move i m).shown i moves

/-- The frames that the channel accepts, in order, each with the decoder that has sent it. -/
def accepted (i : ℕ) (s : Shared n) (moves : List (Move n)) : List (Fin n × Frame) :=
  (s.shown i moves).flatMap fun entry => entry.2.log.accepted.map (Prod.mk entry.1)

/-- The frames that the receiver is handed with a move. -/
def handedBy (i : ℕ) (s : Shared n) : Move n → List Frame
  | .feed _ _ => []
  | .perform step => (step.learned i (s.timeline.perform step).2).frames

/-- The frames that the receiver is handed, in order. -/
def handed (i : ℕ) (s : Shared n) : List (Move n) → List Frame
  | [] => []
  | m :: moves => s.handedBy i m ++ (s.move i m).handed i moves

end Shared

/-! ## The line of the channel -/

namespace Line

variable {i : ℕ} {c : Channel} {l' : Line} {step : Timeline.Step} {log : Log}
  {learned : Channel.Polled}

/-- A line without any work behind its channel does nothing at any time. -/
theorem settleAt_bare (c : Channel) (times : List ℕ) :
    settleAt times ⟨c, [], none⟩ = ⟨c, [], none⟩ ∧ sendsAt times ⟨c, [], none⟩ = [] := by
  induction times with
  | nil => exact ⟨rfl, rfl⟩
  | cons now times ih => exact ih

/-- A step that uses no sink sends nothing through a channel without any work behind it. It changes
the receiver only if it makes it stop listening, and never makes it listen again. -/
theorem Touched.of_bare (h : Touched i ⟨c, [], none⟩ step log learned l')
    (hsink : ¬ step.UsesSink i) :
    log = [] ∧ ∃ c', l' = ⟨c', [], none⟩ ∧ (¬ step.Shuts i → c'.receiver = c.receiver) ∧
      (c.isClosed = true → c'.isClosed = true) := by
  cases h with
  | addSink => exact absurd rfl hsink
  | dropSink => exact absurd rfl hsink
  | send f => exact absurd rfl hsink
  | sendLater ms due f => exact absurd rfl hsink
  | close => exact ⟨rfl, _, rfl, fun hshut => absurd rfl hshut, fun _ => c.isClosed_close⟩
  | dropReceiver => exact ⟨rfl, _, rfl, fun hshut => absurd rfl hshut, fun _ => rfl⟩
  | settled times =>
    obtain ⟨hsettled, hnothing⟩ := settleAt_bare c times
    rw [hsettled]
    exact ⟨hnothing, c, rfl, fun _ => rfl, id⟩
  | @taken _ times c' f receives taken =>
    obtain ⟨hsettled, hnothing⟩ := settleAt_bare c times
    rw [hsettled] at taken ⊢
    have hreceiver := (Channel.tryReceive_some taken).2.1
    refine ⟨hnothing, c', rfl, fun _ => hreceiver, fun hclosed => ?_⟩
    rw [Channel.isClosed, hreceiver]
    exact hclosed
  | ended times receives ended =>
    obtain ⟨hsettled, hnothing⟩ := settleAt_bare c times
    rw [hsettled]
    exact ⟨hnothing, c, rfl, fun _ => rfl, id⟩

end Line

namespace Timeline

variable {t : Timeline} {i : ℕ} {c : Channel} {step : Step}

/-- A line is a channel that listens, without any work behind it. -/
def Listens (i : ℕ) (t : Timeline) : Prop :=
  ∃ c, t.lines[i]? = some ⟨c, [], none⟩ ∧ c.receiver = .listening

/-- A line is a channel that does not listen, without any work behind it. -/
def Rests (i : ℕ) (t : Timeline) : Prop :=
  ∃ c, t.lines[i]? = some ⟨c, [], none⟩ ∧ c.isClosed = true

/-- A channel without any work behind it takes what is sent. -/
theorem sendTo_bare (h : t.lines[i]? = some ⟨c, [], none⟩) (f : Frame) :
    ∃ c', (sendTo i t f).1.lines[i]? = some ⟨c', [], none⟩ ∧
      c.Took [(f, (sendTo i t f).2)] c' := by
  rw [sendTo_of_line h]
  refine ⟨(c.send f).1, ?_, c.took_send f⟩
  rw [line_modifyChannel h, if_pos rfl]

/-- Putting the channel of a line where it is changes nothing. -/
theorem modifyChannel_self (h : t.lines[i]? = some ⟨c, [], none⟩) :
    (t.modifyChannel i fun _ => c) = t := by
  obtain ⟨now, lines⟩ := t
  rw [modifyChannel, Timeline.mk.injEq]
  refine ⟨rfl, List.ext_getElem? fun j => ?_⟩
  rw [List.getElem?_modify]
  split_ifs with hij
  · rw [← hij]
    dsimp only at h
    rw [h]
    rfl
  · exact Option.map_id'

/-- A channel that does not listen refuses every frame, and nothing changes. -/
theorem sendTo_of_rests (h : t.Rests i) (f : Frame) : sendTo i t f = (t, .error .sinkClosed) := by
  obtain ⟨c, hc, hclosed⟩ := h
  have hsend : c.send f = (c, .error .sinkClosed) := by rw [Channel.send, if_pos hclosed]
  rw [sendTo_of_line hc, hsend, modifyChannel_self hc]

/-- A channel that listens takes every frame, and goes on to listen. -/
theorem sendTo_of_listens (h : t.Listens i) (f : Frame) :
    (sendTo i t f).1.Listens i ∧ (sendTo i t f).2 = .ok () := by
  obtain ⟨c, hc, hlistening⟩ := h
  obtain ⟨c', hc', htook⟩ := sendTo_bare hc f
  have hopen : c.isClosed = false := by simp [Channel.isClosed, hlistening]
  have hanswer := htook.answered _ (List.mem_singleton_self _)
  rw [hopen] at hanswer
  exact ⟨⟨c', hc', htook.receiver.trans hlistening⟩, hanswer⟩

/-- A channel goes on to listen while nobody uses its sinks and its receiver does not stop. -/
theorem Listens.perform (h : t.Listens i) (hsink : ¬ step.UsesSink i) (hshut : ¬ step.Shuts i) :
    (t.perform step).1.Listens i := by
  obtain ⟨c, hc, hlistening⟩ := h
  obtain ⟨l', hl', htouched⟩ := perform_touched hc step
  obtain ⟨-, c', rfl, hreceiver, -⟩ := htouched.of_bare hsink
  exact ⟨c', hl', (hreceiver hshut).trans hlistening⟩

/-- A channel that does not listen does not begin to. -/
theorem Rests.perform (h : t.Rests i) (hsink : ¬ step.UsesSink i) :
    (t.perform step).1.Rests i := by
  obtain ⟨c, hc, hclosed⟩ := h
  obtain ⟨l', hl', htouched⟩ := perform_touched hc step
  obtain ⟨-, c', rfl, -, hclosed'⟩ := htouched.of_bare hsink
  exact ⟨c', hl', hclosed' hclosed⟩

/-- When its receiver stops, a channel does not listen any more. -/
theorem Listens.shut (h : t.Listens i) (hshut : step.Shuts i) : (t.perform step).1.Rests i := by
  obtain ⟨c, hc, -⟩ := h
  cases step with
  | close j =>
    obtain rfl : j = i := hshut
    refine ⟨c.close, ?_, c.isClosed_close⟩
    rw [Timeline.perform, line_modifyChannel hc, if_pos rfl]
  | dropReceiver j =>
    obtain rfl : j = i := hshut
    refine ⟨c.dropReceiver, ?_, rfl⟩
    rw [Timeline.perform, line_modifyChannel hc, if_pos rfl]
  | _ => exact hshut.elim

/-- Making sinks leaves a channel that listens empty and listening. -/
theorem listens_of_addSinks (h : t.lines[i]? = some ⟨c, [], none⟩)
    (hlistening : c.receiver = .listening) (hempty : c.queued = []) (n : ℕ) :
    ∃ c', (t.performAll (List.replicate n (.addSink i))).lines[i]? = some ⟨c', [], none⟩ ∧
      c'.receiver = .listening ∧ c'.queued = [] := by
  induction n generalizing t c with
  | zero => exact ⟨c, h, hlistening, hempty⟩
  | succ n ih =>
    have hline : (t.perform (.addSink i)).1.lines[i]? = some ⟨c.addSink, [], none⟩ := by
      rw [Timeline.perform, line_modifyChannel h, if_pos rfl]
    exact ih hline hlistening hempty

end Timeline

/-! ## One feed -/

/-- As long as the lines are in certain states, a feed to the channel shows what a call with a
private sink shows, and leaves the lines in such a state. -/
structure Serves (i : ℕ) (Inv : Timeline → Prop) (call : List UInt8 → Call) : Prop where
  /-- The feed shows what the call shows. -/
  turn : ∀ {t}, Inv t → ∀ (d : Decoder) (chunk : List UInt8),
    d.turn ⟨Timeline, Timeline.sendTo i, t, chunk⟩ = d.turn (call chunk)
  /-- The lines stay in such a state. -/
  keeps : (Timeline.sendTo i).Keeps Inv

/-- A channel that listens serves as a collection. -/
theorem serves_listening (i : ℕ) : Serves i (Timeline.Listens i) Call.pushing where
  turn := by
    intro t ht d chunk
    have hkeeps : (Timeline.sendTo i).logging.Keeps fun s => s.2.Listens i :=
      fun s f hs => (Timeline.sendTo_of_listens hs f).1
    have hview : ∀ (s : Log × Timeline) f, s.2.Listens i →
        Sink.collect.logging (s.1, s.1.accepted.toArray) f =
          ((((Timeline.sendTo i).logging s f).1.1,
            ((Timeline.sendTo i).logging s f).1.1.accepted.toArray),
            ((Timeline.sendTo i).logging s f).2) := by
      intro s f hs
      have hanswer := (Timeline.sendTo_of_listens hs f).2
      simp [Sink.logging, Sink.collect, hanswer, Log.accepted]
    have hfeed : d.feed Sink.collect.logging ([], #[]) chunk =
        (d.feed (Timeline.sendTo i).logging ([], t) chunk).mapSink
          fun s => (s.1, s.1.accepted.toArray) :=
      Decoder.feed_of_keeps (fun s : Log × Timeline => (s.1, s.1.accepted.toArray)) hkeeps hview d
        (t := ([], t)) ht chunk
    rw [Decoder.turn, Decoder.turn, Call.pushing]
    dsimp only
    rw [hfeed]
    rfl
  keeps := fun t f ht => (Timeline.sendTo_of_listens ht f).1

/-- A channel that does not listen serves as a sink that refuses every frame. -/
theorem serves_resting (i : ℕ) : Serves i (Timeline.Rests i) Call.refusing where
  turn := by
    intro t ht d chunk
    have hkeeps : (Timeline.sendTo i).logging.Keeps fun s => s.2.Rests i := by
      intro s f hs
      dsimp only [Sink.logging]
      rw [Timeline.sendTo_of_rests hs f]
      exact hs
    have hview : ∀ (s : Log × Timeline) f, s.2.Rests i →
        (Sink.refuse .sinkClosed).logging (s.1, ()) f =
          ((((Timeline.sendTo i).logging s f).1.1, ()), ((Timeline.sendTo i).logging s f).2) := by
      intro s f hs
      dsimp only [Sink.logging]
      rw [Timeline.sendTo_of_rests hs f]
      rfl
    have hfeed : d.feed (Sink.refuse .sinkClosed).logging ([], ()) chunk =
        (d.feed (Timeline.sendTo i).logging ([], t) chunk).mapSink fun s => (s.1, ()) :=
      Decoder.feed_of_keeps (fun s : Log × Timeline => (s.1, ())) hkeeps hview d (t := ([], t)) ht
        chunk
    rw [Decoder.turn, Decoder.turn, Call.refusing]
    dsimp only
    rw [hfeed]
    rfl
  keeps := by
    intro t f ht
    rw [Timeline.sendTo_of_rests ht f]
    exact ht

/-- A feed to a channel that does not listen leaves the lines alone. -/
theorem feed_of_rests {i : ℕ} {t : Timeline} (ht : t.Rests i) (d : Decoder) (chunk : List UInt8) :
    d.feed (Timeline.sendTo i) t chunk =
      ⟨(d.feed (Sink.refuse .sinkClosed) () chunk).decoder, t,
        (d.feed (Sink.refuse .sinkClosed) () chunk).result⟩ := by
  have hkeeps : (Timeline.sendTo i).Keeps (· = t) := by
    rintro _ f rfl
    rw [Timeline.sendTo_of_rests ht f]
  have hview : ∀ (u : Timeline) f, u = t →
      Sink.refuse .sinkClosed () f = ((), (Timeline.sendTo i u f).2) := by
    rintro _ f rfl
    rw [Timeline.sendTo_of_rests ht f]
    rfl
  have hfeed : d.feed (Sink.refuse .sinkClosed) () chunk =
      (d.feed (Timeline.sendTo i) t chunk).mapSink fun _ => () :=
    Decoder.feed_of_keeps (fun _ => ()) hkeeps hview d rfl chunk
  have hsame : (d.feed (Timeline.sendTo i) t chunk).sink = t :=
    Decoder.feed_keeps hkeeps d t chunk rfl
  rw [hfeed, Decoder.Fed.mapSink]
  generalize d.feed (Timeline.sendTo i) t chunk = fed at hsame
  obtain ⟨d', u, result⟩ := fed
  obtain rfl : u = t := hsame
  rfl

/-- A feed puts what is accepted of it at the end of the channel's queue. -/
theorem queued_of_feed {i : ℕ} {t : Timeline} {c : Channel}
    (h : t.lines[i]? = some ⟨c, [], none⟩) (d : Decoder) (chunk : List UInt8) :
    ∃ c', (d.feed (Timeline.sendTo i) t chunk).sink.lines[i]? = some ⟨c', [], none⟩ ∧
      c'.queued =
        c.queued ++ (d.turn ⟨Timeline, Timeline.sendTo i, t, chunk⟩).log.accepted := by
  have hkeeps : (Timeline.sendTo i).logging.Keeps fun s =>
      ∃ c', s.2.lines[i]? = some ⟨c', [], none⟩ ∧ c'.queued = c.queued ++ s.1.accepted := by
    rintro s f ⟨c₁, hc₁, hqueued⟩
    obtain ⟨c₂, hc₂, htook⟩ := Timeline.sendTo_bare hc₁ f
    refine ⟨c₂, hc₂, ?_⟩
    rw [htook.queued, hqueued, List.append_assoc, ← Log.accepted_append]
    rfl
  have hplain := Decoder.feed_mapSink (Sink.logging_projects (Timeline.sendTo i)) d ([], t) chunk
  dsimp only at hplain
  rw [hplain]
  exact Decoder.feed_keeps hkeeps d ([], t) chunk ⟨c, h, (List.append_nil _).symm⟩

/-! ## Any number of moves -/

namespace Shared

variable {n : ℕ} {α : Type} {i : ℕ} {s : Shared n} {moves before rest : List (Move n)}

/-- The entries with a label in two lists. -/
theorem only_append (k : Fin n) (xs ys : List (Fin n × α)) :
    only k (xs ++ ys) = only k xs ++ only k ys := by
  rw [only, List.filter_append, List.map_append]
  rfl

/-- The entries of a list in which all have the same label. -/
theorem only_map (k j : Fin n) (xs : List α) :
    only k (xs.map (Prod.mk j)) = if j = k then xs else [] := by
  rw [only, List.filter_map, List.map_map]
  split_ifs with hjk
  · simp [Function.comp_def, hjk]
  · simp [Function.comp_def, hjk]

/-- The accepted frames of a decoder are those of its turns. -/
theorem only_accepted (k : Fin n) (i : ℕ) (s : Shared n) (moves : List (Move n)) :
    only k (s.accepted i moves) =
      (only k (s.shown i moves)).flatMap fun turn => turn.log.accepted := by
  rw [accepted]
  induction s.shown i moves with
  | nil => rfl
  | cons entry shown ih =>
    have hsplit : only k (entry :: shown) = (if entry.1 = k then [entry.2] else []) ++
        only k shown := by
      rw [← List.singleton_append, only_append]
      exact congrArg (· ++ _) (only_map k entry.1 [entry.2])
    rw [List.flatMap_cons, only_append, ih, only_map, hsplit, List.flatMap_append]
    split_ifs with hk
    · rw [List.flatMap_singleton]
    · rfl

/-- A sequence of moves can be cut in two. -/
theorem moveAll_append (i : ℕ) (s : Shared n) (before after : List (Move n)) :
    s.moveAll i (before ++ after) = (s.moveAll i before).moveAll i after := by
  induction before generalizing s with
  | nil => rfl
  | cons m before ih => exact ih (s.move i m)

/-- What a sequence of moves shows can be cut in two. -/
theorem shown_append (i : ℕ) (s : Shared n) (before after : List (Move n)) :
    s.shown i (before ++ after) = s.shown i before ++ (s.moveAll i before).shown i after := by
  induction before generalizing s with
  | nil => rfl
  | cons m before ih =>
    rw [List.cons_append, shown, shown, ih, List.append_assoc]
    rfl

/-- A feed changes the decoder that it feeds. -/
theorem decoder_of_feed (i : ℕ) (s : Shared n) (k : Fin n) (chunk : List UInt8) :
    (s.move i (.feed k chunk)).decoders k =
      ((s.decoders k).feed (Timeline.sendTo i) s.timeline chunk).decoder :=
  Function.update_self k _ _

/-- A feed leaves the other decoders alone. -/
theorem decoder_of_other {j k : Fin n} (h : k ≠ j) (chunk : List UInt8) :
    (s.move i (.feed j chunk)).decoders k = s.decoders k :=
  Function.update_of_ne h _ _

/-- As long as the channel serves as a private sink of each decoder, what a decoder shows among the
others is what it shows by itself. -/
theorem turns_of_serves {Inv : Timeline → Prop} {call : List UInt8 → Call}
    (hserves : Serves i Inv call) (hinv : Inv s.timeline)
    (hsteps : ∀ step, .perform step ∈ moves → ∀ t, Inv t → Inv (t.perform step).1) :
    Inv (s.moveAll i moves).timeline ∧ ∀ k,
      (s.moveAll i moves).decoders k = (s.decoders k).afterCalls ((fedTo k moves).map call) ∧
        only k (s.shown i moves) = (s.decoders k).turns ((fedTo k moves).map call) := by
  induction moves generalizing s with
  | nil => exact ⟨hinv, fun k => ⟨rfl, rfl⟩⟩
  | cons m moves ih =>
    have hrest := fun step hstep => hsteps step (List.mem_cons_of_mem m hstep)
    cases m with
    | feed j chunk =>
      have hinv' : Inv (s.move i (.feed j chunk)).timeline :=
        Decoder.feed_keeps hserves.keeps (s.decoders j) s.timeline chunk hinv
      have hturn := hserves.turn hinv (s.decoders j) chunk
      have hdecoder : ((s.decoders j).feed (Timeline.sendTo i) s.timeline chunk).decoder =
          ((s.decoders j).call (call chunk)).decoder := by
        have hafter := congrArg Turn.after hturn
        rw [Decoder.turn_after, Decoder.turn_after] at hafter
        exact hafter
      obtain ⟨hinv'', hdecoders⟩ := ih hinv' hrest
      refine ⟨hinv'', fun k => ?_⟩
      obtain ⟨hstate, hturns⟩ := hdecoders k
      by_cases hjk : j = k
      · -- The feed is the first of this decoder.
        subst hjk
        have hfed : fedTo j (.feed j chunk :: moves) = chunk :: fedTo j moves := by
          simp [fedTo, Move.chunk?]
        have hmoved : (s.move i (.feed j chunk)).decoders j =
            ((s.decoders j).call (call chunk)).decoder := by
          rw [decoder_of_feed, hdecoder]
        have hshown : only j (s.shownBy i (.feed j chunk)) =
            [(s.decoders j).turn (call chunk)] := by
          rw [shownBy, hturn]
          exact (only_map j j [_]).trans (if_pos rfl)
        rw [hmoved] at hstate hturns
        rw [moveAll, shown, only_append, hfed, List.map_cons, Decoder.afterCalls, Decoder.turns,
          Decoder.turn_after, hstate, hturns, hshown]
        exact ⟨rfl, rfl⟩
      · have hfed : fedTo k (.feed j chunk :: moves) = fedTo k moves := by
          simp [fedTo, Move.chunk?, hjk]
        have hmoved : (s.move i (.feed j chunk)).decoders k = s.decoders k :=
          decoder_of_other (Ne.symm hjk) chunk
        have hshown : only k (s.shownBy i (.feed j chunk)) = [] :=
          (only_map k j [_]).trans (if_neg hjk)
        rw [hmoved] at hstate hturns
        rw [moveAll, shown, only_append, hfed, hstate, hturns, hshown]
        exact ⟨rfl, rfl⟩
    | perform step =>
      obtain ⟨hinv'', hdecoders⟩ :=
        ih (s := s.move i (.perform step)) (hsteps step List.mem_cons_self _ hinv) hrest
      exact ⟨hinv'', hdecoders⟩

/-- The channel hands out what it accepts, in order: what was in its queue and what is accepted is
what is handed out and what is in the queue afterwards. -/
theorem handed_append_queued {c : Channel} (h : s.timeline.lines[i]? = some ⟨c, [], none⟩)
    (hmoves : ∀ m ∈ moves, ¬ m.UsesSink i ∧ m ≠ .perform (.dropReceiver i)) :
    ∃ c', (s.moveAll i moves).timeline.lines[i]? = some ⟨c', [], none⟩ ∧
      c.queued ++ (s.accepted i moves).map Prod.snd = s.handed i moves ++ c'.queued := by
  induction moves generalizing s c with
  | nil => exact ⟨c, h, List.append_nil _⟩
  | cons m moves ih =>
    obtain ⟨⟨hsink, hkept⟩, hrest⟩ := List.forall_mem_cons.mp hmoves
    -- The move puts what is accepted behind the queue or takes what is handed out off its head.
    have hmove : ∃ c₁, (s.move i m).timeline.lines[i]? = some ⟨c₁, [], none⟩ ∧
        c.queued ++ ((s.shownBy i m).flatMap fun entry => entry.2.log.accepted) =
          s.handedBy i m ++ c₁.queued := by
      cases m with
      | feed k chunk =>
        obtain ⟨c₁, hc₁, hqueued⟩ := queued_of_feed h (s.decoders k) chunk
        refine ⟨c₁, hc₁, ?_⟩
        rw [shownBy, List.flatMap_singleton, hqueued]
        rfl
      | perform step =>
        obtain ⟨l', hl', htouched⟩ := Timeline.perform_touched h step
        obtain ⟨hnothing, c₁, rfl, -⟩ := htouched.of_bare hsink
        have hbalance := htouched.balance fun hdrop => hkept (congrArg Move.perform hdrop)
        rw [hnothing] at hbalance
        exact ⟨c₁, hl', hbalance⟩
    obtain ⟨c₁, hc₁, hfirst⟩ := hmove
    obtain ⟨c', hc', hothers⟩ := ih hc₁ hrest
    refine ⟨c', hc', ?_⟩
    have hlabels : (s.accepted i (m :: moves)).map Prod.snd =
        ((s.shownBy i m).flatMap fun entry => entry.2.log.accepted) ++
          ((s.move i m).accepted i moves).map Prod.snd := by
      rw [accepted, shown, List.flatMap_append, List.map_append, List.map_flatMap]
      simp [accepted, Function.comp_def]
    rw [hlabels, ← List.append_assoc, hfirst, List.append_assoc, hothers, handed,
      List.append_assoc]

/-! ## Isolation -/

/-- A sequence of moves from one with which the receiver stops listening shows of each decoder what
it shows by itself with a sink that refuses every frame. -/
theorem turns_of_rest (hlistens : s.timeline.Listens i) (hrest : ∀ m ∈ rest, ¬ m.UsesSink i)
    (hshut : ∀ m ∈ rest.head?, m.Shuts i) :
    (rest ≠ [] → (s.moveAll i rest).timeline.Rests i) ∧ ∀ k,
      (s.moveAll i rest).decoders k =
          (s.decoders k).afterCalls ((fedTo k rest).map Call.refusing) ∧
        only k (s.shown i rest) = (s.decoders k).turns ((fedTo k rest).map Call.refusing) := by
  cases rest with
  | nil => exact ⟨fun hne => absurd rfl hne, fun k => ⟨rfl, rfl⟩⟩
  | cons m after =>
    have hfirst : m.Shuts i := hshut m rfl
    cases m with
    | feed k chunk => exact hfirst.elim
    | perform step =>
      have hsteps : ∀ step, .perform step ∈ after → ∀ t : Timeline, t.Rests i →
          (t.perform step).1.Rests i :=
        fun step hstep t ht => ht.perform (hrest _ (List.mem_cons_of_mem _ hstep))
      obtain ⟨hrests, hdecoders⟩ := turns_of_serves (s := s.move i (.perform step))
        (serves_resting i) (hlistens.shut hfirst) hsteps
      exact ⟨fun _ => hrests, hdecoders⟩

/-- What moves show of each decoder if the receiver stops listening at some point: what it shows by
itself with a sink that takes every frame until then and refuses every frame from then on. -/
theorem turns_of_moves (hlistens : s.timeline.Listens i)
    (hbefore : ∀ m ∈ before, ¬ m.UsesSink i ∧ ¬ m.Shuts i) (hrest : ∀ m ∈ rest, ¬ m.UsesSink i)
    (hshut : ∀ m ∈ rest.head?, m.Shuts i) :
    (rest ≠ [] → (s.moveAll i (before ++ rest)).timeline.Rests i) ∧ ∀ k,
      let calls := (fedTo k before).map Call.pushing ++ (fedTo k rest).map Call.refusing
      (s.moveAll i (before ++ rest)).decoders k = (s.decoders k).afterCalls calls ∧
        only k (s.shown i (before ++ rest)) = (s.decoders k).turns calls := by
  have hsteps : ∀ step, .perform step ∈ before → ∀ t : Timeline, t.Listens i →
      (t.perform step).1.Listens i :=
    fun step hstep t ht => ht.perform (hbefore _ hstep).1 (hbefore _ hstep).2
  obtain ⟨hlistens', hdecoders⟩ := turns_of_serves (serves_listening i) hlistens hsteps
  obtain ⟨hrests, hdecoders'⟩ := turns_of_rest hlistens' hrest hshut
  rw [moveAll_append, shown_append]
  refine ⟨hrests, fun k => ?_⟩
  obtain ⟨hstate, hturns⟩ := hdecoders k
  obtain ⟨hstate', hturns'⟩ := hdecoders' k
  dsimp only
  rw [only_append, hstate', hturns', hturns, hstate, Decoder.turns_append,
    Decoder.afterCalls_append]
  exact ⟨rfl, rfl⟩

/-- Decoders with these maxima share a channel with a receiver that listens during the moves
`before`. If there are moves in `rest`, it stops listening with the first of them. -/
structure Isolated (maxima : Fin n → UInt32) (i : ℕ) (s : Shared n) (before rest : List (Move n)) :
    Prop where
  /-- What a decoder shows at each turn, and what becomes of it, is what it shows by itself and what
  becomes of it by itself, with a sink that takes every frame or refuses every frame. -/
  alone : ∀ k,
    let calls := (fedTo k before).map Call.pushing ++ (fedTo k rest).map Call.refusing
    (s.moveAll i (before ++ rest)).decoders k = (Decoder.fresh (maxima k)).afterCalls calls ∧
      only k (s.shown i (before ++ rest)) = (Decoder.fresh (maxima k)).turns calls
  /-- The frames that the channel accepts from a decoder are those that it delivers by itself from
  the chunks that come in time, numbered from zero. -/
  accepted : ∀ k,
    let frames := only k (s.accepted i (before ++ rest))
    frames = (Decoder.fresh (maxima k)).handed ((fedTo k before).map Call.pushing) ∧
      frames.map Frame.sequence = (List.range frames.length).map UInt64.ofNat ∧
      (frames.length ≤ 2 ^ 64 →
        frames.map (fun f => f.sequence.toNat) = List.range frames.length)
  /-- The receiver is handed the accepted frames in order, up to those in the queue, if it is still
  there. -/
  received : .perform (.dropReceiver i) ∉ rest →
    (s.accepted i (before ++ rest)).map Prod.snd =
      s.handed i (before ++ rest) ++ (s.moveAll i (before ++ rest)).timeline.queued i
  /-- A feed that comes too late ends with a refusal exactly if it would by itself complete a frame
  and the decoder is not poisoned. The decoder is then poisoned, and counts one frame more than the
  channel has accepted from it. If it would complete no frame the feed does what it does otherwise.
  Nothing else changes. -/
  late : ∀ a k chunk b, rest = a ++ .feed k chunk :: b →
    let now := s.moveAll i (before ++ a)
    let d := now.decoders k
    let fed := d.feed (Timeline.sendTo i) now.timeline chunk
    let alone := d.feed Sink.collect #[] chunk
    let completed := d.offered Sink.collect #[] chunk
    (fed.result = .error .sinkClosed ↔ d.poisoned = false ∧ completed ≠ []) ∧
      (fed.result = .error .sinkClosed →
        fed.decoder.poisoned = true ∧
          fed.decoder.stats.frames =
            UInt64.ofNat ((only k (s.accepted i (before ++ rest))).length + 1)) ∧
      (completed = [] → fed.decoder = alone.decoder ∧ fed.result = alone.result) ∧
      now.move i (.feed k chunk) =
        ⟨now.timeline, Function.update now.decoders k fed.decoder⟩

/-- A feed to a channel that does not listen changes its decoder at most. -/
theorem move_feed_of_rests (h : s.timeline.Rests i) (k : Fin n) (chunk : List UInt8) :
    s.move i (.feed k chunk) =
      ⟨s.timeline, Function.update s.decoders k
        ((s.decoders k).feed (Timeline.sendTo i) s.timeline chunk).decoder⟩ := by
  rw [move, feed_of_rests h]

/-- A feed of a decoder that has failed or is ready to a channel that does not listen. -/
theorem late_feed {t : Timeline} (ht : t.Rests i) {d : Decoder} (hd : d.Ready ∨ d.Failed)
    (chunk : List UInt8) :
    let fed := d.feed (Timeline.sendTo i) t chunk
    let alone := d.feed Sink.collect #[] chunk
    let completed := d.offered Sink.collect #[] chunk
    (fed.result = .error .sinkClosed ↔ d.poisoned = false ∧ completed ≠ []) ∧
      (fed.result = .error .sinkClosed →
        fed.decoder.poisoned = true ∧ fed.decoder.stats.frames = d.stats.frames + 1) ∧
      (completed = [] → fed.decoder = alone.decoder ∧ fed.result = alone.result) := by
  intro fed alone completed
  have hfed : fed = ⟨(d.feed (Sink.refuse .sinkClosed) () chunk).decoder, t,
      (d.feed (Sink.refuse .sinkClosed) () chunk).result⟩ := feed_of_rests ht d chunk
  rw [hfed]
  rcases hd with hready | hfailed
  · obtain ⟨hiff, hcounted, hsame⟩ := hready.feed_refuse chunk
    refine ⟨?_, hcounted, hsame⟩
    rw [hready.poisoned_eq, eq_self, true_and]
    exact hiff
  · have hpoisoned := hfailed.poisoned_eq
    have halone : alone = ⟨d, #[], .error .poisoned⟩ :=
      Decoder.feed_of_poisoned hpoisoned Sink.collect #[] chunk
    rw [Decoder.feed_of_poisoned hpoisoned, halone, hpoisoned]
    simp

/-- Decoders that share a channel stay isolated. Open a channel on any lines, and give each of some
decoders a sink of it. Feed them chunks in any order, while the receiver takes frames in any way,
with any waits, and perhaps closes the channel or goes away at some point, and nobody else sends
anything. The channel accepts the frames of each decoder that it delivers by itself from the chunks
that come before that point, in order and numbered from zero, and mixes them only with those of the
others. A feed behind that point fails exactly if it would complete a frame; it then poisons its
decoder, and nothing else. -/
theorem sharing_isolates (t : Timeline) (maxima : Fin n → UInt32)
    (hbefore : ∀ m ∈ before, ¬ m.UsesSink t.lines.length ∧ ¬ m.Shuts t.lines.length)
    (hrest : ∀ m ∈ rest, ¬ m.UsesSink t.lines.length)
    (hshut : ∀ m ∈ rest.head?, m.Shuts t.lines.length) :
    Isolated maxima t.lines.length (start t maxima) before rest := by
  obtain ⟨c, hc, hlistening, hempty⟩ := Timeline.listens_of_addSinks (t := t.openChannel)
    List.getElem?_concat_length rfl rfl n
  have hline : (start t maxima).timeline.lines[t.lines.length]? = some ⟨c, [], none⟩ := hc
  have hlistens : (start t maxima).timeline.Listens t.lines.length := ⟨c, hline, hlistening⟩
  obtain ⟨-, halone⟩ := turns_of_moves hlistens hbefore hrest hshut
  have haccepted : ∀ k, only k ((start t maxima).accepted t.lines.length (before ++ rest)) =
      (Decoder.fresh (maxima k)).handed ((fedTo k before).map Call.pushing) := by
    intro k
    rw [only_accepted, (halone k).2, Decoder.turns_append, List.flatMap_append,
      Decoder.accepted_of_turns_pushing, Decoder.accepted_of_turns_refusing, List.append_nil]
    rfl
  constructor
  · exact halone
  · intro k frames
    have hnumbers := ((Decoder.ready_fresh (maxima k)).sequence_handed
      ((fedTo k before).map Call.pushing)).1
    have hzero : (Decoder.fresh (maxima k)).stats.frames = 0 := rfl
    rw [← haccepted k, hzero] at hnumbers
    refine ⟨haccepted k, ?_, fun hroom => ?_⟩
    · rw [hnumbers]
      exact List.map_congr_left fun j _ => UInt64.zero_add _
    · rw [Decoder.toNat_sequences hnumbers (by simpa using hroom), List.range_eq_range']
      rfl
  · intro hkept
    have hmoves : ∀ m ∈ before ++ rest, ¬ m.UsesSink t.lines.length ∧
        m ≠ .perform (.dropReceiver t.lines.length) := by
      intro m hm
      rcases List.mem_append.mp hm with hm | hm
      · refine ⟨(hbefore m hm).1, ?_⟩
        rintro rfl
        exact (hbefore _ hm).2 rfl
      · refine ⟨hrest m hm, ?_⟩
        rintro rfl
        exact hkept hm
    obtain ⟨c', hc', hbalance⟩ := handed_append_queued hline hmoves
    rw [hempty, List.nil_append] at hbalance
    rw [hbalance, Timeline.queued_of_line hc']
  · rintro a k chunk b rfl now d fed alone completed
    -- The feed is not the first move of the rest, so the channel does not listen any more.
    obtain ⟨m, a, rfl⟩ : ∃ m a', a = m :: a' := by
      cases a with
      | nil => exact (hshut _ rfl).elim
      | cons m a => exact ⟨m, a, rfl⟩
    have hshut' : ∀ m' ∈ (m :: a).head?, m'.Shuts t.lines.length := hshut
    obtain ⟨hrests, hdecoders⟩ := turns_of_moves hlistens hbefore
      (fun m' hm' => hrest m' (List.mem_append_left _ hm')) hshut'
    have hd : d = (Decoder.fresh (maxima k)).afterCalls
        ((fedTo k before).map Call.pushing ++ (fedTo k (m :: a)).map Call.refusing) :=
      (hdecoders k).1
    have hready : d.Ready ∨ d.Failed := by
      rw [hd]
      exact (Decoder.ready_fresh (maxima k)).afterCalls_ready_or_failed _
    have hnow : now.timeline.Rests t.lines.length := hrests (List.cons_ne_nil m a)
    obtain ⟨hiff, hcounted, hsame⟩ := late_feed hnow hready chunk
    refine ⟨hiff, fun hrefused => ?_, hsame, ?_⟩
    · obtain ⟨hpoisoned, hframes⟩ := hcounted hrefused
      have hfree := (hiff.mp hrefused).1
      rw [hd] at hfree
      have hbefore := Decoder.frames_of_pushing_refusing _ _ _ hfree
      rw [← hd] at hbefore
      refine ⟨hpoisoned, ?_⟩
      rw [haccepted k, UInt64.ofNat_add, ← hbefore]
      exact hframes
    · exact move_feed_of_rests hnow k chunk

/-- Two decoders with a maximum of 4. Both deliver a frame, and one of them is in the middle of a
second when the channel is closed. The other, in the middle of a length prefix, takes another byte
of it, and then the first is fed the rest of its frame. -/
theorem sharing_isolates_closed_mid_frame :
    let maxima : Fin 2 → UInt32 := fun _ => 4
    let s := start Timeline.start maxima
    let before : List (Move 2) := [.feed 0 [1, 0, 0, 0, 7, 2, 0], .feed 1 [1, 0, 0, 0],
      .perform (.tryReceive 0), .feed 1 [8, 3]]
    let a : List (Move 2) := [.perform (.close 0), .feed 1 [0]]
    let rest := a ++ [.feed 0 [0, 0, 5, 6]]
    let now := s.moveAll 0 (before ++ a)
    let fed := (now.decoders 0).feed (Timeline.sendTo 0) now.timeline [0, 0, 5, 6]
    (∀ m ∈ before, ¬ m.UsesSink 0 ∧ ¬ m.Shuts 0) ∧ (∀ m ∈ rest, ¬ m.UsesSink 0) ∧
      (∀ m ∈ rest.head?, m.Shuts 0) ∧
      only 0 (s.accepted 0 (before ++ rest)) = [⟨0, [7]⟩] ∧
      only 1 (s.accepted 0 (before ++ rest)) = [⟨0, [8]⟩] ∧
      fed.result = .error .sinkClosed ∧ fed.decoder.poisoned = true ∧
      fed.decoder.stats.frames = 2 ∧
      ((s.moveAll 0 (before ++ rest)).decoders 1).held = [3, 0] := by
  intro maxima s before a rest now fed
  have hbefore : ∀ m ∈ before, ¬ m.UsesSink 0 ∧ ¬ m.Shuts 0 := by
    simp [before, Move.UsesSink, Move.Shuts, Timeline.Step.UsesSink, Timeline.Step.Shuts]
  have hrest : ∀ m ∈ rest, ¬ m.UsesSink 0 := by
    simp [rest, a, Move.UsesSink, Timeline.Step.UsesSink]
  have hshut : ∀ m ∈ rest.head?, m.Shuts 0 := by
    simp [rest, a, Move.Shuts, Timeline.Step.Shuts]
  have hisolated : Isolated maxima 0 s before rest :=
    sharing_isolates Timeline.start maxima hbefore hrest hshut
  obtain ⟨hiff, hcounted, -⟩ := hisolated.late a 0 [0, 0, 5, 6] [] rfl
  have hrefused : fed.result = .error .sinkClosed := hiff.mpr ⟨rfl, by decide⟩
  obtain ⟨hpoisoned, hframes⟩ := hcounted hrefused
  have haccepted : only 0 (s.accepted 0 (before ++ rest)) = [⟨0, [7]⟩] :=
    (hisolated.accepted 0).1
  have haccepted' : only 1 (s.accepted 0 (before ++ rest)) = [⟨0, [8]⟩] :=
    (hisolated.accepted 1).1
  have hother := congrArg Decoder.held (hisolated.alone 1).1
  rw [haccepted] at hframes
  exact ⟨hbefore, hrest, hshut, haccepted, haccepted', hrefused, hpoisoned, hframes, hother⟩

end Shared

end PrefixFraming
