import PrefixFraming.Proofs.Determinacy
import PrefixFraming.Proofs.Offering
import PrefixFraming.Proofs.Totals

/-!
# The first refusal is all that a sink can say

A sink that takes every frame shows which frames a feed completes. Another sink is offered the same
frames in the same order, until it refuses one. If it refuses none, the feed goes on to the same end
(`Takes.accept`): byte by byte the same happens. If it refuses one, the feed ends with the last byte
of that frame (`Takes.refuse`), and what is behind that byte in the chunk is not looked at, be it
more frames, a length above the maximum, or nothing at all.

Both are shown by an induction over the bytes of the chunk as the sink that takes everything sees
them. That the result is what the feed with the other sink comes to is `Takes.eq_feed`.
-/

namespace PrefixFraming

variable {σ τ : Type}

namespace Decoder

variable {d : Decoder} {all : Sink τ} {t : τ} {sink : Sink σ} {chunk : List UInt8}
  {frames : List Frame} {fed : Fed τ}

/-- A sink that takes every frame is no different from one that has to. -/
theorem Takes.accept (h : Takes all d t chunk frames fed) (hall : ∀ t f, (all t f).2 = .ok ())
    {s s' : σ} (hoffer : sink.offer s frames = (s', .ok ())) :
    Takes sink d s chunk frames ⟨fed.decoder, s', fed.result⟩ := by
  induction h generalizing s with
  | nil ready =>
    cases hoffer
    exact .nil ready
  | kept ready held more ih => exact .kept ready held (ih hoffer)
  | accepted ready wire allowed taken more ih =>
    obtain ⟨next, hfirst, hothers⟩ := Sink.offer_cons_eq_ok hoffer
    exact .accepted ready wire allowed hfirst (ih hothers)
  | @refused d t t' b rest payload e ready wire allowed refusal =>
    have htakes := hall t ⟨d.stats.frames, payload⟩
    rw [refusal] at htakes
    cases htakes
  | rejected ready wire exceeds =>
    cases hoffer
    exact .rejected ready wire exceeds

/-- A feed with a sink that refuses a frame ends with the last byte of that frame. -/
theorem Takes.refuse (h : Takes all d t chunk frames fed) (hall : ∀ t f, (all t f).2 = .ok ())
    {s s' s'' : σ} {taken behind : List Frame} {f : Frame} {e : Error}
    (hframes : frames = taken ++ f :: behind) (hoffer : sink.offer s taken = (s', .ok ()))
    (hrefuses : sink s' f = (s'', .error e)) :
    ∃ used rest stats, chunk = used ++ rest ∧
      Accounts d used (taken ++ [f]) ⟨.idle, d.maxFrameSize, true, stats⟩ ∧
      ∀ others, Takes sink d s (used ++ others) (taken ++ [f])
        ⟨⟨.idle, d.maxFrameSize, true, stats⟩, s'', .error e⟩ := by
  induction h generalizing s taken with
  | nil => exact absurd hframes.symm (List.append_ne_nil_of_right_ne_nil _ (List.cons_ne_nil _ _))
  | @kept d t b rest frames fed phase ready held more ih =>
    obtain ⟨used, left, stats, rfl, haccounts, htakes⟩ := ih hframes hoffer
    have hbyte : Accounts d [b] [] ⟨phase, d.maxFrameSize, false, d.stats.consume 1⟩ :=
      ⟨held.symm, rfl⟩
    exact ⟨b :: used, left, stats, rfl, hbyte.trans haccounts,
      fun others => .kept ready held (htakes others)⟩
  | @accepted d t t' b rest payload frames fed ready wire allowed accepted more ih =>
    cases taken with
    | nil =>
      -- The frame that this byte completes is the one that is refused.
      obtain ⟨rfl, rfl⟩ := List.cons.inj hframes
      cases hoffer
      exact ⟨[b], rest, (d.next payload.length).stats, rfl, .frame wire rfl rfl,
        fun others => .refused ready wire allowed hrefuses⟩
    | cons first taken =>
      obtain ⟨rfl, hothers⟩ := List.cons.inj hframes
      obtain ⟨next, hfirst, hoffer⟩ := Sink.offer_cons_eq_ok hoffer
      obtain ⟨used, left, stats, rfl, haccounts, htakes⟩ := ih hothers hoffer
      have hbyte : Accounts d [b] [⟨d.stats.frames, payload⟩] (d.next payload.length) :=
        .frame wire rfl rfl
      exact ⟨b :: used, left, stats, rfl, hbyte.trans haccounts,
        fun others => .accepted ready wire allowed hfirst (htakes others)⟩
  | @refused d t t' b rest payload e ready wire allowed refusal =>
    have htakes := hall t ⟨d.stats.frames, payload⟩
    rw [refusal] at htakes
    cases htakes
  | rejected =>
    exact absurd hframes.symm (List.append_ne_nil_of_right_ne_nil _ (List.cons_ne_nil _ _))

/-- A sink influences a feed only by the first frame that it refuses. Compare it with a sink that
takes everything, on a decoder that has not failed. If it takes all the frames that the other is
offered, in that order, then it is offered the same frames, and the feed has the same result and
leaves the same decoder. If it takes some of them and refuses the next one, then it is offered
exactly these frames, the refused one last; the feed ends with the sink's error; and it leaves the
decoder poisoned and idle. The totals then go up by these frames, the refused one included, and by
the bytes of the chunk up to the last one of the refused frame, which with the bytes held before are
the frames as they look on the wire. What is behind that byte can be replaced by anything, and all
of this stays as it is. -/
theorem first_refusal_decides (hd : d.Reachable) (hsound : d.poisoned = false)
    (hall : ∀ t f, (all t f).2 = .ok ()) (t : τ) (sink : Sink σ) (s : σ) (chunk : List UInt8) :
    let free := d.feed all t chunk
    let frames := d.offered all t chunk
    (∀ s', sink.offer s frames = (s', .ok ()) →
      d.offered sink s chunk = frames ∧
        d.feed sink s chunk = ⟨free.decoder, s', free.result⟩) ∧
    ∀ taken f behind s' s'' e, frames = taken ++ f :: behind →
      sink.offer s taken = (s', .ok ()) → sink s' f = (s'', .error e) →
        ∃ used rest stats, chunk = used ++ rest ∧
          d.held ++ used = Frame.wires (taken ++ [f]) ∧
          d.stats.Counts (taken ++ [f]) used.length stats ∧
          ∀ others, d.offered sink s (used ++ others) = taken ++ [f] ∧
            d.feed sink s (used ++ others) =
              ⟨⟨.idle, d.maxFrameSize, true, stats⟩, s'', .error e⟩ := by
  intro free frames
  have htakes := (hd.ready hsound).takes all t chunk
  constructor
  · intro s' hoffer
    obtain ⟨hfed, hoffered⟩ := (htakes.accept hall hoffer).eq_feed
    exact ⟨hoffered, hfed⟩
  · intro taken f behind s' s'' e hframes hoffer hrefuses
    obtain ⟨used, rest, stats, hchunk, haccounts, hrefused⟩ :=
      htakes.refuse hall hframes hoffer hrefuses
    refine ⟨used, rest, stats, hchunk, ?_, (hrefused rest).counts haccounts, ?_⟩
    · -- An idle decoder holds nothing.
      have hbytes := haccounts.bytes
      rw [show held ⟨.idle, d.maxFrameSize, true, stats⟩ = [] from rfl, List.append_nil] at hbytes
      exact hbytes
    · intro others
      obtain ⟨hfed, hoffered⟩ := (hrefused others).eq_feed
      exact ⟨hoffered, hfed⟩

/-- A chunk with three frames and then a length above the maximum, for a decoder that holds half of
a length prefix: a sink that takes all three fails with the length, and a sink that refuses the
second one does not get there. -/
theorem first_refusal_decides_second :
    let d := ((fresh 3).feed Sink.collect #[] [1, 0]).decoder
    let chunk : List UInt8 := [0, 0, 7, 0, 0, 0, 0, 1, 0, 0, 0, 8, 9, 0, 0, 0, 5]
    let patient := d.feed (Sink.collectUpTo 3 .sinkClosed) #[] chunk
    let strict := d.feed (Sink.collectUpTo 1 .sinkClosed) #[] chunk
    d.Reachable ∧ d.poisoned = false ∧
      (patient.result = .error (.frameTooLarge 9 3) ∧
        d.offered (Sink.collectUpTo 3 .sinkClosed) #[] chunk = d.offered Sink.collect #[] chunk) ∧
      (strict.result = .error .sinkClosed ∧ strict.decoder.stats = ⟨2, 1, 9, 1⟩) ∧
      ∃ used rest stats, chunk = used ++ rest ∧
        d.held ++ used = Frame.wires [⟨0, [7]⟩, ⟨1, []⟩] ∧
        ∀ others, d.feed (Sink.collectUpTo 1 .sinkClosed) #[] (used ++ others) =
          ⟨⟨.idle, 3, true, stats⟩, #[⟨0, [7]⟩, ⟨1, []⟩], .error .sinkClosed⟩ := by
  intro d chunk patient strict
  have hd : d.Reachable := (Reachable.fresh 3).feed Sink.collect #[] [1, 0]
  have hdecides : ∀ n, _ := fun n =>
    first_refusal_decides hd rfl Sink.collect_accepts #[] (Sink.collectUpTo n .sinkClosed) #[] chunk
  obtain ⟨hsame, -⟩ := (hdecides 3).1 #[⟨0, [7]⟩, ⟨1, []⟩, ⟨2, [8]⟩] rfl
  obtain ⟨used, rest, stats, hchunk, hbytes, -, hothers⟩ :=
    (hdecides 1).2 [⟨0, [7]⟩] ⟨1, []⟩ [⟨2, [8]⟩] _ _ _ rfl rfl rfl
  refine ⟨hd, rfl, ⟨rfl, hsame⟩, ⟨rfl, rfl⟩, used, rest, stats, hchunk, hbytes, ?_⟩
  exact fun others => (hothers others).2

end Decoder

end PrefixFraming
