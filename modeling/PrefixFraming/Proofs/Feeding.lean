import PrefixFraming.Proofs.Intake

/-!
# Feeds as runs over bytes

The loop of a feed serves a phase at a time. This module shows that it comes to the same as taking
the bytes one at a time (`drain_eq_takeBytes`): a byte that does not complete the phase can as well
be absorbed before the loop (`Ready.drain_absorb`), and a byte that completes it ends a step
(`Ready.drain_last`).

What a sink is offered is told by a sink that writes its frames down (`Sink.recording`). That it
gives the same answers as the sink itself is an instance of a general fact: a sink that works on a
part of a state, seen by a `view`, makes a feed of the whole into a feed of the part
(`feed_mapSink`).

`Takes` puts both together: it relates a decoder, a sink and a chunk to the frames offered and to
the outcome, one constructor for each way that a byte can go, so that an induction over it is an
induction over the bytes of the chunk. Every feed of a decoder that is ready is one (`Ready.takes`).
-/

namespace PrefixFraming

variable {σ τ : Type}

/-! ## Sinks that see a part of a state -/

namespace Sink

/-- A sink does to its whole state what another does to the part that `view` shows, and gives the
same answers. -/
def Projects (view : τ → σ) (whole : Sink τ) (part : Sink σ) : Prop :=
  ∀ t f, part (view t) f = (view (whole t f).1, (whole t f).2)

/-- A sink that also writes down every frame it is offered. -/
def recording (sink : Sink σ) : Sink (List Frame × σ) := fun (frames, s) f =>
  ((frames ++ [f], (sink s f).1), (sink s f).2)

/-- Without its notes a recording sink is the sink itself. -/
theorem recording_projects (sink : Sink σ) : Projects Prod.snd sink.recording sink :=
  fun _ _ => rfl

/-- Earlier notes only stand before later ones. -/
theorem recording_projects_append (sink : Sink σ) (frames : List Frame) :
    Projects (Prod.map (frames ++ ·) id) sink.recording sink.recording := by
  intro t f
  simp [recording, List.append_assoc]

/-- A sink that works on the second half of a state leaves the first half alone. -/
theorem onSecond_projects (sink : Sink σ) :
    Projects (Prod.snd : τ × σ → σ) sink.onSecond sink :=
  fun _ _ => rfl

end Sink

namespace Decoder

/-! ## One feed after the other -/

/-- The outcome of a feed, with `n` earlier frames counted as well. -/
def Fed.after (fed : Fed σ) (n : ℕ) : Fed σ := { fed with result := fed.result.map (n + ·) }

/-- Earlier frames do not make a feed fail. -/
theorem Fed.after_eq_error_iff {fed : Fed σ} {n : ℕ} {e : Error} :
    (fed.after n).result = .error e ↔ fed.result = .error e := by
  obtain ⟨d, s, _ | m⟩ := fed <;> simp [after, Except.map]

/-- Earlier frames are counted if the feed succeeds. -/
theorem Fed.after_eq_ok_iff {fed : Fed σ} {n m : ℕ} :
    (fed.after n).result = .ok m ↔ ∃ k, fed.result = .ok k ∧ n + k = m := by
  obtain ⟨d, s, _ | k⟩ := fed <;> simp [after, Except.map]

/-- Goes on after a feed unless it has failed, and counts the frames of both. -/
def Fed.andThen (fed : Fed σ) (next : Decoder → σ → Fed σ) : Fed σ :=
  match fed with
  | ⟨d, s, .error e⟩ => ⟨d, s, .error e⟩
  | ⟨d, s, .ok n⟩ => (next d s).after n

/-- Without earlier frames nothing is added. -/
@[simp]
theorem Fed.after_zero (fed : Fed σ) : fed.after 0 = fed := by
  obtain ⟨d, s, _ | n⟩ := fed
  · rfl
  · simp [after, Except.map]

/-- Earlier frames add up. -/
@[simp]
theorem Fed.after_after (fed : Fed σ) (m n : ℕ) : (fed.after m).after n = fed.after (n + m) := by
  obtain ⟨d, s, _ | k⟩ := fed
  · rfl
  · simp [after, Except.map, Nat.add_assoc]

/-- After a failure nothing follows. -/
@[simp]
theorem Fed.error_andThen (d : Decoder) (s : σ) (e : Error) (next : Decoder → σ → Fed σ) :
    (Fed.mk d s (.error e)).andThen next = ⟨d, s, .error e⟩ := rfl

/-- After a success the next feed begins where it ended. -/
@[simp]
theorem Fed.ok_andThen (d : Decoder) (s : σ) (n : ℕ) (next : Decoder → σ → Fed σ) :
    (Fed.mk d s (.ok n)).andThen next = (next d s).after n := rfl

/-- After a feed that failed nothing follows. -/
theorem Fed.andThen_of_error {fed : Fed σ} {e : Error} (h : fed.result = .error e)
    (next : Decoder → σ → Fed σ) : fed.andThen next = fed := by
  obtain ⟨d, s, result⟩ := fed
  subst h
  rfl

/-- After a feed that succeeded the next begins where it ended. -/
theorem Fed.andThen_of_ok {fed : Fed σ} {n : ℕ} (h : fed.result = .ok n)
    (next : Decoder → σ → Fed σ) : fed.andThen next = (next fed.decoder fed.sink).after n := by
  obtain ⟨d, s, result⟩ := fed
  subst h
  rfl

/-- Earlier frames come before all that follows. -/
theorem Fed.after_andThen (fed : Fed σ) (n : ℕ) (next : Decoder → σ → Fed σ) :
    (fed.after n).andThen next = (fed.andThen next).after n := by
  obtain ⟨d, s, _ | m⟩ := fed
  · rfl
  · rw [ok_andThen, after_after]
    rfl

/-- How a sequence of feeds is grouped does not matter. -/
theorem Fed.andThen_assoc (fed : Fed σ) (f g : Decoder → σ → Fed σ) :
    (fed.andThen f).andThen g = fed.andThen fun d s => (f d s).andThen g := by
  obtain ⟨d, s, _ | n⟩ := fed
  · rfl
  · rw [ok_andThen, ok_andThen, after_andThen]

/-- The part of the sink's state that `view` shows. -/
def Fed.mapSink (view : τ → σ) (fed : Fed τ) : Fed σ := ⟨fed.decoder, view fed.sink, fed.result⟩

/-! ## The loop of a feed -/

/-- Takes one byte and offers the sink the frame that it completes, if it does. -/
def takeByte (d : Decoder) (sink : Sink σ) (s : σ) (b : UInt8) : Fed σ :=
  match d.receive b with
  | (d, .error e) => ⟨d, s, .error e⟩
  | (d, .ok none) => ⟨d, s, .ok 0⟩
  | (d, .ok (some payload)) =>
    match d.deliver sink s payload with
    | (d, s, .error e) => ⟨d, s, .error e⟩
    | (d, s, .ok ()) => ⟨d, s, .ok 1⟩

/-- Takes bytes one at a time up to the first failure. -/
def takeBytes (sink : Sink σ) (d : Decoder) (s : σ) : List UInt8 → Fed σ
  | [] => ⟨d, s, .ok 0⟩
  | b :: rest => (d.takeByte sink s b).andThen fun d s => takeBytes sink d s rest

/-- The decoder behind the last byte of a frame whose payload has `n` bytes. -/
def next (d : Decoder) (n : ℕ) : Decoder :=
  ⟨.idle, d.maxFrameSize, false, (d.stats.consume 1).countFrame n⟩

/-- Between two frames a decoder is ready. -/
theorem ready_idle (max : UInt32) (stats : Stats) : Ready ⟨.idle, max, false, stats⟩ :=
  .header .empty (by simp [LengthPrefix.size])

section takeByte

variable {d d' : Decoder} {sink : Sink σ} {s s' : σ} {b : UInt8} {payload : List UInt8} {e : Error}

/-- A byte inside a frame does not concern the sink. -/
theorem takeByte_kept (h : d.receive b = (d', .ok none)) :
    d.takeByte sink s b = ⟨d', s, .ok 0⟩ := by
  rw [takeByte, h]

/-- A byte that completes a frame is one frame more if the sink takes it. -/
theorem takeByte_accepted
    (h : d.receive b = (⟨.idle, d.maxFrameSize, false, d.stats.consume 1⟩, .ok (some payload)))
    (hs : sink s ⟨d.stats.frames, payload⟩ = (s', .ok ())) :
    d.takeByte sink s b = ⟨d.next payload.length, s', .ok 1⟩ := by
  simp only [takeByte, h, deliver, Stats.consume, hs, next]

/-- A byte that completes a frame fails if the sink refuses it, and the frame is counted. -/
theorem takeByte_refused
    (h : d.receive b = (⟨.idle, d.maxFrameSize, false, d.stats.consume 1⟩, .ok (some payload)))
    (hs : sink s ⟨d.stats.frames, payload⟩ = (s', .error e)) :
    d.takeByte sink s b = ⟨{ d.next payload.length with poisoned := true }, s', .error e⟩ := by
  simp only [takeByte, h, deliver, Stats.consume, hs, next]

/-- A byte that completes a bad length does not concern the sink. -/
theorem takeByte_rejected (h : d.receive b = (d', .error e)) :
    d.takeByte sink s b = ⟨d', s, .error e⟩ := by
  rw [takeByte, h]

end takeByte

/-- What a byte leaves without a failure is ready for the next. -/
theorem Ready.takeByte_ready {d : Decoder} (hd : d.Ready) (sink : Sink σ) (s : σ) (b : UInt8)
    (n : ℕ) (h : (d.takeByte sink s b).result = .ok n) : (d.takeByte sink s b).decoder.Ready := by
  have hrec := hd.received b
  generalize hreceive : d.receive b = received at hrec
  obtain ⟨d', result⟩ := received
  cases hrec with
  | kept ready held =>
    rw [takeByte_kept hreceive]
    exact ready
  | @completed payload wire allowed =>
    rcases hs : sink s ⟨d.stats.frames, payload⟩ with ⟨s', _ | _⟩
    · rw [takeByte_refused hreceive hs] at h
      cases h
    · rw [takeByte_accepted hreceive hs]
      exact ready_idle _ _
  | rejected wire exceeds =>
    rw [takeByte_rejected hreceive] at h
    cases h

/-- A byte that does not complete the phase can as well be absorbed before the loop. -/
theorem Ready.drain_absorb {d : Decoder} (hd : d.Ready) (hmore : 1 < d.phase.missing)
    (sink : Sink σ) (steps : ℕ) (s : σ) (n : ℕ) (b : UInt8) (rest : List UInt8) :
    drain sink (steps + 1) d s n (b :: rest) =
      drain sink (steps + 1) (d.absorb b) s n rest := by
  have hnext := hd.ready_absorb hmore b
  cases rest with
  | nil =>
    simp only [drain, hd.step_cons hmore, hnext.step_nil, Except.map, hnext.takeCompleted_eq]
    cases steps <;> rfl
  | cons c rest =>
    simp only [drain, hd.step_cons hmore]
    rcases (d.absorb b).step (c :: rest) with ⟨d', _ | taken⟩
    · rfl
    · simp [Except.map, List.drop_succ_cons]

/-- A byte that completes the phase ends a step, and the loop goes on behind it unless it fails. -/
theorem Ready.drain_last {d : Decoder} (hd : d.Ready) (hlast : d.phase.missing = 1)
    (sink : Sink σ) (steps : ℕ) (s : σ) (n : ℕ) (b : UInt8) (rest : List UInt8) :
    drain sink (steps + 1) d s n (b :: rest) =
      match d.takeByte sink s b with
      | ⟨d, s, .error e⟩ => ⟨d, s, .error e⟩
      | ⟨d, s, .ok m⟩ => drain sink steps d s (n + m) rest := by
  rw [drain, hd.step_last hlast, takeByte, receive]
  rcases hstep : d.step [b] with ⟨d₁, _ | taken⟩
  · rfl
  · obtain rfl := hd.step_singleton_ok hstep
    rcases htake : d₁.takeCompleted with ⟨d₂, _ | payload⟩
    · simp only [htake, List.drop_one, List.tail_cons, Nat.add_zero]
    · rcases hdeliver : d₂.deliver sink s payload with ⟨d₃, s', _ | _⟩
      · simp only [htake, hdeliver]
      · simp only [htake, hdeliver, List.drop_one, List.tail_cons]

/-- The loop of a feed, with any number of steps that is enough, takes the bytes one at a time. -/
theorem drain_eq_takeBytes (sink : Sink σ) (chunk : List UInt8) :
    ∀ (steps : ℕ) (d : Decoder) (s : σ) (n : ℕ), d.Ready → chunk.length ≤ steps →
      drain sink steps d s n chunk = (takeBytes sink d s chunk).after n := by
  induction chunk with
  | nil =>
    intro steps d s n hd hsteps
    cases steps <;> rfl
  | cons b rest ih =>
    intro steps d s n hd hsteps
    rw [List.length_cons] at hsteps
    obtain ⟨k, rfl⟩ : ∃ k, steps = k + 1 := Nat.exists_eq_add_one_of_ne_zero (by omega)
    rcases Nat.lt_or_ge 1 d.phase.missing with hmore | hlast
    · rw [hd.drain_absorb hmore, ih (k + 1) _ s n (hd.ready_absorb hmore b) (by omega), takeBytes,
        takeByte_kept (hd.receive_absorb hmore b), Fed.ok_andThen, Fed.after_zero]
    · have hpos := hd.missing_pos
      have hready := hd.takeByte_ready sink s b
      rw [hd.drain_last (by omega), takeBytes]
      rcases htaken : d.takeByte sink s b with ⟨d', s', e | m⟩
      · rfl
      · -- The byte has not failed, so the decoder is ready behind it.
        rw [htaken] at hready
        rw [Fed.ok_andThen, Fed.after_after]
        exact ih k d' s' (n + m) (hready m rfl) (by omega)

/-- A decoder that is ready takes a chunk byte by byte. -/
theorem Ready.feed_eq_takeBytes {d : Decoder} (hd : d.Ready) (sink : Sink σ) (s : σ)
    (chunk : List UInt8) : d.feed sink s chunk = takeBytes sink d s chunk := by
  rw [feed, if_neg (by simp [hd.poisoned_eq]), drain_eq_takeBytes sink chunk _ d s 0 hd le_rfl,
    Fed.after_zero]

/-- Without a byte nothing happens. -/
theorem Ready.feed_nil {d : Decoder} (hd : d.Ready) (sink : Sink σ) (s : σ) :
    d.feed sink s [] = ⟨d, s, .ok 0⟩ := by
  rw [hd.feed_eq_takeBytes, takeBytes]

/-- Feeding a byte first and the rest afterwards is feeding all at once. -/
theorem Ready.feed_cons {d : Decoder} (hd : d.Ready) (sink : Sink σ) (s : σ) (b : UInt8)
    (rest : List UInt8) :
    d.feed sink s (b :: rest) =
      (d.takeByte sink s b).andThen fun d s => d.feed sink s rest := by
  have hready := hd.takeByte_ready sink s b
  rw [hd.feed_eq_takeBytes, takeBytes]
  rcases htaken : d.takeByte sink s b with ⟨d', s', _ | n⟩
  · rfl
  · rw [htaken] at hready
    rw [Fed.ok_andThen, Fed.ok_andThen, (hready n rfl).feed_eq_takeBytes]

/-- A poisoned decoder refuses every chunk and stays as it is. -/
theorem feed_of_poisoned {d : Decoder} (hd : d.poisoned = true) (sink : Sink σ) (s : σ)
    (chunk : List UInt8) : d.feed sink s chunk = ⟨d, s, .error .poisoned⟩ := by
  rw [feed, if_pos hd]

/-! ## What a sink is offered -/

/-- A delivery shows the part of a sink's state what the delivery to the part would do. -/
theorem deliver_mapSink {view : τ → σ} {whole : Sink τ} {part : Sink σ}
    (h : Sink.Projects view whole part) (d : Decoder) (t : τ) (payload : List UInt8) :
    d.deliver part (view t) payload =
      ((d.deliver whole t payload).1, view (d.deliver whole t payload).2.1,
        (d.deliver whole t payload).2.2) := by
  simp only [deliver, h t]
  rcases whole t ⟨d.stats.frames, payload⟩ with ⟨t', _ | _⟩ <;> rfl

/-- A loop over a state is, for the part that a sink works on, a loop over that part. -/
theorem drain_mapSink {view : τ → σ} {whole : Sink τ} {part : Sink σ}
    (h : Sink.Projects view whole part) (steps : ℕ) (d : Decoder) (t : τ) (n : ℕ)
    (chunk : List UInt8) :
    drain part steps d (view t) n chunk = (drain whole steps d t n chunk).mapSink view := by
  induction steps generalizing d t n chunk with
  | zero => rfl
  | succ steps ih =>
    cases chunk with
    | nil => rfl
    | cons b rest =>
      -- The two loops part only at a delivery, and there the view carries over.
      rw [drain, drain]
      rcases d.step (b :: rest) with ⟨d₁, _ | taken⟩
      · rfl
      · rcases htake : d₁.takeCompleted with ⟨d₂, _ | payload⟩
        · simp only [htake]
          exact ih d₂ t n _
        · simp only [htake, deliver_mapSink h]
          rcases d₂.deliver whole t payload with ⟨d₃, t', _ | _⟩
          · rfl
          · exact ih d₃ t' (n + 1) _

/-- A feed to a sink that works on a part of a state does not depend on the rest. -/
theorem feed_mapSink {view : τ → σ} {whole : Sink τ} {part : Sink σ}
    (h : Sink.Projects view whole part) (d : Decoder) (t : τ) (chunk : List UInt8) :
    d.feed part (view t) chunk = (d.feed whole t chunk).mapSink view := by
  rw [feed, feed]
  split_ifs
  · rfl
  · exact drain_mapSink h _ _ _ _ _

/-- The frames that a sink is offered when a chunk is fed, in order; a refused one is the last. -/
def offered (d : Decoder) (sink : Sink σ) (s : σ) (chunk : List UInt8) : List Frame :=
  (d.feed sink.recording ([], s) chunk).sink.1

/-- A feed with notes is the feed itself together with the frames offered. -/
theorem feed_recording (d : Decoder) (sink : Sink σ) (frames : List Frame) (s : σ)
    (chunk : List UInt8) :
    d.feed sink.recording (frames, s) chunk =
      ⟨(d.feed sink s chunk).decoder,
        (frames ++ d.offered sink s chunk, (d.feed sink s chunk).sink),
        (d.feed sink s chunk).result⟩ := by
  -- Once without the notes, and once with the notes of this feed behind the earlier ones.
  have hplain := feed_mapSink sink.recording_projects d ([], s) chunk
  have hnotes := feed_mapSink (sink.recording_projects_append frames) d ([], s) chunk
  simp only [Prod.map, List.append_nil, id] at hnotes hplain
  rw [hnotes, hplain]
  rfl

/-- A poisoned decoder offers nothing. -/
theorem offered_of_poisoned {d : Decoder} (hd : d.poisoned = true) (sink : Sink σ) (s : σ)
    (chunk : List UInt8) : d.offered sink s chunk = [] := by
  rw [offered, feed_of_poisoned hd]

/-! ## A feed as a run -/

/-- How a decoder that is ready takes a chunk: the frames it offers the sink on the way, and what
becomes of all at the end. -/
inductive Takes (sink : Sink σ) : Decoder → σ → List UInt8 → List Frame → Fed σ → Prop where
  /-- The chunk is used up. -/
  | nil {d : Decoder} {s : σ} (ready : d.Ready) : Takes sink d s [] [] ⟨d, s, .ok 0⟩
  /-- A byte goes to the frame in progress, which lacks more. -/
  | kept {d : Decoder} {s : σ} {b : UInt8} {rest : List UInt8} {frames : List Frame} {fed : Fed σ}
      {phase : Phase} (ready : d.Ready)
      (held : held ⟨phase, d.maxFrameSize, false, d.stats.consume 1⟩ = d.held ++ [b])
      (more : Takes sink ⟨phase, d.maxFrameSize, false, d.stats.consume 1⟩ s rest frames fed) :
      Takes sink d s (b :: rest) frames fed
  /-- A byte completes a frame, and the sink takes it. -/
  | accepted {d : Decoder} {s s' : σ} {b : UInt8} {rest payload : List UInt8}
      {frames : List Frame} {fed : Fed σ} (ready : d.Ready)
      (wire : Frame.wire payload = d.held ++ [b])
      (allowed : payload.length ≤ d.maxFrameSize.toNat)
      (taken : sink s ⟨d.stats.frames, payload⟩ = (s', .ok ()))
      (more : Takes sink (d.next payload.length) s' rest frames fed) :
      Takes sink d s (b :: rest) (⟨d.stats.frames, payload⟩ :: frames) (fed.after 1)
  /-- A byte completes a frame, and the sink refuses it. -/
  | refused {d : Decoder} {s s' : σ} {b : UInt8} {rest payload : List UInt8} {e : Error}
      (ready : d.Ready) (wire : Frame.wire payload = d.held ++ [b])
      (allowed : payload.length ≤ d.maxFrameSize.toNat)
      (refusal : sink s ⟨d.stats.frames, payload⟩ = (s', .error e)) :
      Takes sink d s (b :: rest) [⟨d.stats.frames, payload⟩]
        ⟨{ d.next payload.length with poisoned := true }, s', .error e⟩
  /-- A byte completes the prefix of a length above the maximum. -/
  | rejected {d : Decoder} {s : σ} {b : UInt8} {rest : List UInt8} {declared : UInt32}
      (ready : d.Ready) (wire : LengthPrefix.encode declared = d.held ++ [b])
      (exceeds : d.maxFrameSize < declared) :
      Takes sink d s (b :: rest) []
        ⟨⟨.header (.whole declared), d.maxFrameSize, true, d.stats.consume 1⟩, s,
          .error (.frameTooLarge declared d.maxFrameSize)⟩

/-- A decoder that is ready takes any chunk. -/
theorem Ready.takes {d : Decoder} (hd : d.Ready) (sink : Sink σ) (s : σ) (chunk : List UInt8) :
    Takes sink d s chunk (d.offered sink s chunk) (d.feed sink s chunk) := by
  induction chunk generalizing d s with
  | nil =>
    rw [offered, hd.feed_nil, hd.feed_nil]
    exact .nil hd
  | cons b rest ih =>
    have hrec := hd.received b
    rw [offered, hd.feed_cons, hd.feed_cons]
    generalize hreceive : d.receive b = received at hrec
    obtain ⟨d', result⟩ := received
    cases hrec with
    | kept ready held =>
      rw [takeByte_kept hreceive, takeByte_kept hreceive, Fed.ok_andThen, Fed.ok_andThen,
        Fed.after_zero, Fed.after_zero]
      exact .kept hd held (ih ready s)
    | @completed payload wire allowed =>
      -- The recording sink answers as the sink does, with the frame in its notes.
      rcases hs : sink s ⟨d.stats.frames, payload⟩ with ⟨s', e | _⟩
      · have hrecording : sink.recording ([], s) ⟨d.stats.frames, payload⟩ =
            (([⟨d.stats.frames, payload⟩], s'), .error e) := by simp [Sink.recording, hs]
        rw [takeByte_refused hreceive hs, takeByte_refused hreceive hrecording]
        exact .refused hd wire allowed hs
      · have hrecording : sink.recording ([], s) ⟨d.stats.frames, payload⟩ =
            (([⟨d.stats.frames, payload⟩], s'), .ok ()) := by simp [Sink.recording, hs]
        rw [takeByte_accepted hreceive hs, takeByte_accepted hreceive hrecording, Fed.ok_andThen,
          Fed.ok_andThen, feed_recording]
        exact .accepted hd wire allowed hs (ih (ready_idle _ _) s')
    | rejected wire exceeds =>
      rw [takeByte_rejected hreceive, takeByte_rejected hreceive]
      exact .rejected hd wire exceeds

end Decoder

end PrefixFraming
