import PrefixFraming.Proofs.Reading

/-!
# What a sink is asked and what it answers

A sink that keeps a log (`Sink.logging`) writes down every frame it is offered together with its
answer, and does otherwise what the sink itself does. A feed that fails says in its log why
(`Takes.failed`): either no frame is to blame and the decoder holds the prefix of a length above the
maximum, or the last frame was refused, and the error is the sink's own.

What no frame can undo (`Sink.Keeps`) a feed does not undo either, and nor does reading, however far
it goes (`advance_keeps`). Where a sink works on a part of its state, reading on works on that part
(`advance_mapSink`), and comes to what one feed of the stretch comes to, even if the sink does so
only in states that it does not leave (`Working.advance_outcome_of_keeps`).
-/

namespace PrefixFraming

variable {σ τ : Type}

namespace Sink

/-- Frames with the answers that a sink gave to them, in the order in which they were offered. -/
abbrev Log := List (Frame × Except Error Unit)

/-- The frames of a log that the sink took. -/
def Log.accepted (log : Log) : List Frame :=
  (log.filter fun entry => entry.2 matches .ok ()).map Prod.fst

/-- A sink that also writes down every frame it is offered, with its answer. -/
def logging (sink : Sink σ) : Sink (Log × σ) := fun (log, s) f =>
  ((log ++ [(f, (sink s f).2)], (sink s f).1), (sink s f).2)

/-- What two logs accept, the one behind the other accepts. -/
@[simp]
theorem Log.accepted_append (log more : Log) :
    (log ++ more : Log).accepted = log.accepted ++ more.accepted := by
  simp [accepted]

/-- If all frames of a log are taken, these are the accepted ones. -/
theorem Log.accepted_of_ok {log : Log} (h : ∀ entry ∈ log, entry.2 = .ok ()) :
    log.accepted = log.map Prod.fst := by
  rw [accepted, List.filter_eq_self.mpr]
  intro entry hentry
  simp [h entry hentry]

/-- If all frames of a log are refused, none is accepted. -/
theorem Log.accepted_of_error {log : Log} {e : Error} (h : ∀ entry ∈ log, entry.2 = .error e) :
    log.accepted = [] := by
  rw [accepted, List.map_eq_nil_iff, List.filter_eq_nil_iff]
  intro entry hentry
  simp [h entry hentry]

/-- Without its log a logging sink is the sink itself. -/
theorem logging_projects (sink : Sink σ) : Projects Prod.snd sink.logging sink :=
  fun _ _ => rfl

/-- The frames of a log are those that a recording sink writes down. -/
theorem logging_projects_recording (sink : Sink σ) :
    Projects (Prod.map (List.map Prod.fst) id) sink.logging sink.recording := by
  intro t f
  simp [recording, logging]

/-- No frame takes the sink out of the states that `P` holds of. -/
def Keeps (P : σ → Prop) (sink : Sink σ) : Prop := ∀ s f, P s → P (sink s f).1

/-- The sink on the states that it keeps to. -/
def Keeps.restrict {P : σ → Prop} {sink : Sink σ} (h : sink.Keeps P) : Sink {s // P s} := fun s f =>
  (⟨(sink s f).1, h s f s.property⟩, (sink s f).2)

/-- On the states that it keeps to a sink is the sink itself. -/
theorem Keeps.restrict_projects {P : σ → Prop} {sink : Sink σ} (h : sink.Keeps P) :
    Projects Subtype.val h.restrict sink :=
  fun _ _ => rfl

end Sink

namespace Decoder

/-- How a decoder comes to fail, and with which error. -/
inductive FailedWith (d : Decoder) (log : Sink.Log) : Error → Prop where
  /-- It holds the prefix of a length above the maximum. -/
  | tooLarge {declared : UInt32} (exceeds : d.maxFrameSize < declared)
      (held : d.held = LengthPrefix.encode declared) :
      FailedWith d log (.frameTooLarge declared d.maxFrameSize)
  /-- The sink refused the last frame it was offered, with this error. -/
  | refused {before : Sink.Log} {f : Frame} {e : Error} (last : log = before ++ [(f, .error e)]) :
      FailedWith d log e

/-- A feed that fails leaves the decoder poisoned and says in the log why. -/
theorem Takes.failed {sink : Sink σ} {d : Decoder} {t : Sink.Log × σ} {chunk : List UInt8}
    {frames : List Frame} {fed : Fed (Sink.Log × σ)} (h : Takes sink.logging d t chunk frames fed)
    {e : Error} (herror : fed.result = .error e) :
    fed.decoder.poisoned = true ∧ FailedWith fed.decoder fed.sink.1 e := by
  induction h with
  | nil => cases herror
  | kept ready held more ih => exact ih herror
  | accepted ready wire allowed taken more ih => exact ih (Fed.after_eq_error_iff.mp herror)
  | @refused d t t' b rest payload e ready wire allowed refusal =>
    cases herror
    obtain ⟨hstate, hanswer⟩ := Prod.mk.inj refusal
    have hlast : t'.1 = t.1 ++ [(⟨d.stats.frames, payload⟩, .error e)] := by
      rw [← hstate, ← hanswer]
    exact ⟨rfl, .refused hlast⟩
  | rejected ready wire exceeds =>
    cases herror
    exact ⟨rfl, .tooLarge exceeds (LengthPrefix.Partial.bytes_of_complete rfl)⟩

/-- A feed that succeeds logs no refusal. -/
theorem Takes.accepted_all {sink : Sink σ} {d : Decoder} {t : Sink.Log × σ} {chunk : List UInt8}
    {frames : List Frame} {fed : Fed (Sink.Log × σ)} (h : Takes sink.logging d t chunk frames fed)
    {n : ℕ} (hok : fed.result = .ok n) (hlog : ∀ entry ∈ t.1, entry.2 = .ok ()) :
    ∀ entry ∈ fed.sink.1, entry.2 = .ok () := by
  induction h generalizing n with
  | nil => exact hlog
  | kept ready held more ih => exact ih hok hlog
  | accepted ready wire allowed taken more ih =>
    obtain ⟨k, hk, -⟩ := Fed.after_eq_ok_iff.mp hok
    obtain ⟨hstate, hanswer⟩ := Prod.mk.inj taken
    refine ih hk ?_
    rw [← hstate, hanswer]
    simpa [or_imp, forall_and] using hlog
  | refused => cases hok
  | rejected => cases hok

/-- What no frame can undo, no feed can undo. -/
theorem drain_keeps {P : σ → Prop} {sink : Sink σ} (hkeeps : sink.Keeps P) (steps : ℕ) (d : Decoder)
    (s : σ) (n : ℕ) (chunk : List UInt8) (hs : P s) : P (drain sink steps d s n chunk).sink := by
  induction steps generalizing d s n chunk with
  | zero => exact hs
  | succ steps ih =>
    cases chunk with
    | nil => exact hs
    | cons b rest =>
      rw [drain]
      rcases d.step (b :: rest) with ⟨d₁, _ | taken⟩
      · exact hs
      · rcases htake : d₁.takeCompleted with ⟨d₂, _ | payload⟩
        · simp only [htake]
          exact ih d₂ s n _ hs
        · -- The sink is offered a frame, which it may take or refuse.
          have hnext := hkeeps s ⟨d₂.stats.frames, payload⟩ hs
          simp only [htake, deliver]
          rcases hanswer : sink s ⟨d₂.stats.frames, payload⟩ with ⟨s', _ | _⟩
          · rw [hanswer] at hnext
            exact hnext
          · rw [hanswer] at hnext
            exact ih _ s' (n + 1) _ hnext

/-- What no frame can undo, no feed can undo. -/
theorem feed_keeps {P : σ → Prop} {sink : Sink σ} (hkeeps : sink.Keeps P) (d : Decoder) (s : σ)
    (chunk : List UInt8) (hs : P s) : P (d.feed sink s chunk).sink := by
  rw [feed]
  split_ifs
  · exact hs
  · exact drain_keeps hkeeps _ _ _ _ _ hs

/-- A feed works on the part of a sink's state that `view` shows, provided that the sink does so as
long as it keeps to certain states, and is in one. -/
theorem feed_of_keeps {P : τ → Prop} (view : τ → σ) {whole : Sink τ} {part : Sink σ}
    (hkeeps : whole.Keeps P)
    (hview : ∀ t f, P t → part (view t) f = (view (whole t f).1, (whole t f).2)) (d : Decoder)
    {t : τ} (ht : P t) (chunk : List UInt8) :
    d.feed part (view t) chunk = (d.feed whole t chunk).mapSink view := by
  -- On the states in question both sinks are parts of the restricted one.
  have hpart : Sink.Projects (fun t : {t // P t} => view t) hkeeps.restrict part :=
    fun t f => hview t f t.property
  have hfeed := feed_mapSink hpart d ⟨t, ht⟩ chunk
  have hwhole := feed_mapSink hkeeps.restrict_projects d ⟨t, ht⟩ chunk
  dsimp only at hfeed hwhole
  rw [hfeed, hwhole]
  rfl

end Decoder

namespace Reader

/-- A try at a read, seen through a view of the sink's state. -/
def Attempt.mapSink (view : τ → σ) : Attempt τ → Attempt σ
  | .done r t result => .done r (view t) result
  | .later ms r t => .later ms r (view t)
  | .never r t => .never r (view t)

/-- Reading on until the first wait, seen through a view of the sink's state. -/
def Progress.mapSink (view : τ → σ) (progress : Progress τ) : Progress σ :=
  ⟨progress.reader, view progress.sink, progress.standing⟩

/-- A try at a read for a part of a state is a part of the try. -/
theorem attempt_mapSink {view : τ → σ} {whole : Sink τ} {part : Sink σ}
    (h : Sink.Projects view whole part) (r : Reader) (t : τ) :
    r.attempt part (view t) = (r.attempt whole t).mapSink view := by
  obtain ⟨source, d, capacity⟩ := r
  simp only [attempt]
  split_ifs
  · rfl
  · rcases source.poll capacity with ⟨_ | ⟨_ | ⟨b, chunk⟩⟩, rest⟩ | ⟨ms, rest⟩ | _
    · rfl
    · rfl
    · dsimp only
      rw [Decoder.feed_mapSink h]
      rcases d.feed whole t (b :: chunk) with ⟨d', t', _ | _⟩ <;> rfl
    · rfl
    · rfl

/-- Reading on for a part of a state is a part of the reading on. -/
theorem advance_mapSink {view : τ → σ} {whole : Sink τ} {part : Sink σ}
    (h : Sink.Projects view whole part) (r : Reader) (t : τ) :
    r.advance part (view t) = (r.advance whole t).mapSink view := by
  have htry := attempt_mapSink h r t
  fun_induction advance r whole t with
  | case1 r t r' t' n hdone ih =>
    rw [hdone, Attempt.mapSink] at htry
    rw [advance, htry]
    exact ih (attempt_mapSink h r' t')
  | case2 r t r' t' hdone =>
    rw [hdone, Attempt.mapSink] at htry
    rw [advance, htry]
    rfl
  | case3 r t r' t' e hdone =>
    rw [hdone, Attempt.mapSink] at htry
    rw [advance, htry]
    rfl
  | case4 r t ms r' t' hlater =>
    rw [hlater, Attempt.mapSink] at htry
    rw [advance, htry]
    rfl
  | case5 r t r' t' hnever =>
    rw [hnever, Attempt.mapSink] at htry
    rw [advance, htry]
    rfl

/-- The reader and the sink's state that a try at a read leaves behind. -/
def Attempt.left : Attempt σ → Reader × σ
  | .done r s _ => (r, s)
  | .later _ r s => (r, s)
  | .never r s => (r, s)

/-- What no frame can undo, no try at a read can undo. -/
theorem attempt_keeps {P : σ → Prop} {sink : Sink σ} (hkeeps : sink.Keeps P) (r : Reader) (s : σ)
    (hs : P s) : P (r.attempt sink s).left.2 := by
  have hattempted := r.attempted sink s
  generalize r.attempt sink s = tried at hattempted ⊢
  cases hattempted with
  | fed => exact Decoder.feed_keeps hkeeps _ _ _ hs
  | failed => exact Decoder.feed_keeps hkeeps _ _ _ hs
  | _ => exact hs

/-- What no frame can undo, reading on until the first wait cannot undo. -/
theorem advance_keeps {P : σ → Prop} {sink : Sink σ} (hkeeps : sink.Keeps P) (r : Reader) (s : σ)
    (hs : P s) : P (r.advance sink s).sink := by
  have hstep := attempt_keeps hkeeps r s hs
  fun_induction advance r sink s with
  | case1 r s r' s' n hdone ih =>
    rw [hdone] at hstep
    exact ih hstep (attempt_keeps hkeeps r' s' hstep)
  | case2 r s r' s' hdone =>
    rw [hdone] at hstep
    exact hstep
  | case3 r s r' s' e hdone =>
    rw [hdone] at hstep
    exact hstep
  | case4 r s ms r' s' hlater =>
    rw [hlater] at hstep
    exact hstep
  | case5 r s r' s' hnever =>
    rw [hnever] at hstep
    exact hstep

/-- Reading on until the first wait keeps what the reading comes to for a part of the sink's state,
provided that the sink works on that part as long as it keeps to certain states, and is in one. -/
theorem Working.advance_outcome_of_keeps {P : τ → Prop} (view : τ → σ) {whole : Sink τ}
    {part : Sink σ} (hkeeps : whole.Keeps P)
    (hview : ∀ t f, P t → part (view t) f = (view (whole t f).1, (whole t f).2)) {r : Reader}
    (hr : r.Working) {t : τ} (ht : P t) :
    match r.advance whole t with
    | ⟨r', t', .ended result⟩ =>
      P t' ∧ outcome r.decoder part (view t) r.stretch = ⟨r'.decoder, view t', result⟩
    | ⟨r', t', .waiting _⟩ =>
      P t' ∧ r'.Working ∧
        outcome r.decoder part (view t) r.stretch = outcome r'.decoder part (view t') r'.stretch
    | ⟨_, _, .hanging⟩ => False := by
  -- On the states in question both sinks are parts of the restricted one.
  have hpart : Sink.Projects (fun t : {t // P t} => view t) hkeeps.restrict part :=
    fun t f => hview t f t.property
  have hadvance := hr.advance_outcome hkeeps.restrict ⟨t, ht⟩
  have hwhole := advance_mapSink hkeeps.restrict_projects r ⟨t, ht⟩
  have houtcome := outcome_mapSink hpart r.decoder ⟨t, ht⟩ r.stretch
  dsimp only at hwhole houtcome
  rw [hwhole, houtcome]
  generalize r.advance hkeeps.restrict ⟨t, ht⟩ = progress at hadvance
  obtain ⟨r', ⟨t', ht'⟩, result | ms | _⟩ := progress
  · dsimp only at hadvance
    rw [hadvance]
    exact ⟨ht', rfl⟩
  · obtain ⟨hr', hsame⟩ := hadvance
    refine ⟨ht', hr', ?_⟩
    rw [hsame]
    exact (outcome_mapSink hpart r'.decoder ⟨t', ht'⟩ r'.stretch).symm
  · exact hadvance

end Reader

end PrefixFraming
