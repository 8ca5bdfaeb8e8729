import PrefixFraming.Proofs.Logging

/-!
# What the answers of a sink decide

The frames that a feed completes do not depend on the sink, which only decides how many of them it
is offered. A sink that takes them all leaves the feed as it is, and the first refusal ends it
(`Ready.feed_offer`). So feeding is the same as feeding a sink that takes everything and offering
the other sink the frames afterwards.
-/

namespace PrefixFraming

variable {σ τ : Type}

namespace Sink

/-- Offers frames one after the other, up to the first that is refused. -/
def offer (sink : Sink σ) (s : σ) : List Frame → σ × Except Error Unit
  | [] => (s, .ok ())
  | f :: frames =>
    match sink s f with
    | (s, .error e) => (s, .error e)
    | (s, .ok ()) => offer sink s frames

/-- Refuses every frame, with the same error. -/
def refuse (e : Error) : Sink Unit := fun s _ => (s, .error e)

/-- A sink takes a first frame and others behind it if it takes the first one and, in the state that
follows, the others. -/
theorem offer_cons_eq_ok {sink : Sink σ} {s s' : σ} {f : Frame} {frames : List Frame}
    (h : sink.offer s (f :: frames) = (s', .ok ())) :
    ∃ next, sink s f = (next, .ok ()) ∧ sink.offer next frames = (s', .ok ()) := by
  unfold offer at h
  rcases hfirst : sink s f with ⟨next, e | _⟩
  · rw [hfirst] at h
    cases h
  · rw [hfirst] at h
    exact ⟨next, rfl, h⟩

/-- A sink works on the whole of its state. -/
theorem projects_self (sink : Sink σ) : Projects id sink sink := fun _ _ => rfl

/-- A collecting sink takes every frame. -/
theorem collect_accepts (frames : Array Frame) (f : Frame) : (collect frames f).2 = .ok () := rfl

/-- A collection that is kept with notes has the frames of the notes behind those it began with. -/
theorem collect_recording_keeps (before : Array Frame) :
    collect.recording.Keeps fun s => s.2 = before ++ s.1.toArray := by
  intro s f hs
  simp [recording, collect, hs]

end Sink

namespace Decoder

/-- A decoder that is ready feeds a sink as it feeds one that takes every frame, as long as all the
frames are taken, and fails as soon as one is refused, with the sink's error. -/
theorem Ready.feed_offer {d : Decoder} (hd : d.Ready) {all : Sink τ}
    (hall : ∀ t f, (all t f).2 = .ok ()) (t : τ) (sink : Sink σ) (s : σ) (chunk : List UInt8) :
    match sink.offer s (d.offered all t chunk) with
    | (s', .ok ()) =>
      d.feed sink s chunk = ⟨(d.feed all t chunk).decoder, s', (d.feed all t chunk).result⟩
    | (s', .error e) =>
      (d.feed sink s chunk).sink = s' ∧ (d.feed sink s chunk).result = .error e := by
  induction chunk generalizing d t s with
  | nil =>
    rw [offered, hd.feed_nil, hd.feed_nil, hd.feed_nil]
    rfl
  | cons b rest ih =>
    have hrec := hd.received b
    rw [offered, hd.feed_cons, hd.feed_cons, hd.feed_cons]
    generalize hreceive : d.receive b = received at hrec
    obtain ⟨d', result⟩ := received
    cases hrec with
    | kept ready held =>
      rw [takeByte_kept hreceive, takeByte_kept hreceive, takeByte_kept hreceive, Fed.ok_andThen,
        Fed.ok_andThen, Fed.ok_andThen, Fed.after_zero, Fed.after_zero, Fed.after_zero]
      exact ih ready t s
    | @completed payload wire allowed =>
      -- The frame is the first that both sinks are offered.
      obtain ⟨t', ht'⟩ : ∃ t', all t ⟨d.stats.frames, payload⟩ = (t', .ok ()) :=
        ⟨_, Prod.ext rfl (hall t _)⟩
      have hnoted : all.recording ([], t) ⟨d.stats.frames, payload⟩ =
          (([⟨d.stats.frames, payload⟩], t'), .ok ()) := by simp [Sink.recording, ht']
      rw [takeByte_accepted hreceive ht', takeByte_accepted hreceive hnoted, Fed.ok_andThen,
        Fed.ok_andThen, feed_recording]
      simp only [Fed.after, List.singleton_append, Sink.offer]
      rcases hs : sink s ⟨d.stats.frames, payload⟩ with ⟨s', e | _⟩
      · rw [takeByte_refused hreceive hs]
        exact ⟨rfl, rfl⟩
      · rw [takeByte_accepted hreceive hs, Fed.ok_andThen]
        have hrest := @ih (d.next payload.length) (ready_idle _ _) t' s'
        dsimp only
        generalize sink.offer s' _ = offered at hrest ⊢
        obtain ⟨s'', e | _⟩ := offered
        · exact ⟨hrest.1, Fed.after_eq_error_iff.mpr hrest.2⟩
        · rw [hrest]
          rfl
    | rejected wire exceeds =>
      rw [takeByte_rejected hreceive, takeByte_rejected hreceive, takeByte_rejected hreceive]
      rfl

/-- A collecting sink has at the end the frames that it has been offered behind those before. -/
theorem feed_collect (d : Decoder) (before : Array Frame) (chunk : List UInt8) :
    (d.feed Sink.collect before chunk).sink =
      before ++ (d.offered Sink.collect before chunk).toArray := by
  have hkeeps := feed_keeps (Sink.collect_recording_keeps before) d ([], before) chunk
    (Array.append_empty).symm
  rw [feed_recording] at hkeeps
  exact hkeeps

end Decoder

namespace Reader

/-- Reading with a sink that refuses every frame comes to the same result as reading with a sink
that takes every frame if there is no frame, and ends with the refusal of the first frame
otherwise. -/
theorem outcome_refuse {d : Decoder} (hd : d.Ready) {all : Sink τ}
    (hall : ∀ t f, (all t f).2 = .ok ()) (t : τ) (e : Error) (stretch : Source.Stretch) :
    (outcome d (Sink.refuse e) () stretch).result =
      match d.offered all t stretch.bytes with
      | [] => (outcome d all t stretch).result
      | _ :: _ => .error e := by
  have hoffer := hd.feed_offer hall t (Sink.refuse e) () stretch.bytes
  generalize d.offered all t stretch.bytes = frames at hoffer ⊢
  cases frames with
  | nil =>
    rw [Sink.offer] at hoffer
    rw [outcome, hoffer, outcome]
  | cons f frames =>
    dsimp only [outcome]
    rw [hoffer.2]

end Reader

end PrefixFraming
