import PrefixFraming.Proofs.History

/-!
# Where a stream is cut does not matter

Feeding two chunks one after the other is feeding their concatenation (`Reachable.feed_append`), and
so is what the sink sees of it (`Reachable.offered_append_of_ok`): a success goes on where it ended,
and after a failure nothing that follows is looked at. By induction over a list of chunks, feeding
them in order up to the first failure is one feed of the whole stream
(`Reachable.feedAll_eq_feed_flatten`). The last theorem puts both together.

The only exception is the empty list of chunks on a poisoned decoder: without a feed there is
nothing that could fail.
-/

namespace PrefixFraming.Decoder

variable {σ : Type} {d : Decoder}

/-! ## Two chunks -/

/-- A decoder that is ready takes two chunks as it takes them in one piece. -/
theorem Ready.feed_append (hd : d.Ready) (sink : Sink σ) (s : σ) (a b : List UInt8) :
    d.feed sink s (a ++ b) = (d.feed sink s a).andThen fun d s => d.feed sink s b := by
  induction a generalizing d s with
  | nil => rw [hd.feed_nil, Fed.ok_andThen, Fed.after_zero, List.nil_append]
  | cons x a ih =>
    have hready := hd.takeByte_ready sink s x
    rw [List.cons_append, hd.feed_cons, hd.feed_cons, Fed.andThen_assoc]
    rcases htaken : d.takeByte sink s x with ⟨d', s', _ | n⟩
    · rfl
    · rw [htaken] at hready
      rw [Fed.ok_andThen, Fed.ok_andThen, ih (hready n rfl)]

/-- Any decoder that can come about takes two chunks as it takes them in one piece. -/
theorem Reachable.feed_append (hd : d.Reachable) (sink : Sink σ) (s : σ) (a b : List UInt8) :
    d.feed sink s (a ++ b) = (d.feed sink s a).andThen fun d s => d.feed sink s b := by
  rcases hd.ready_or_failed with hready | hfailed
  · exact hready.feed_append sink s a b
  · rw [feed_of_poisoned hfailed.poisoned_eq, feed_of_poisoned hfailed.poisoned_eq,
      Fed.error_andThen]

/-- The frames of two chunks are those of the first and then those of the second. -/
theorem Reachable.offered_append_of_ok (hd : d.Reachable) {sink : Sink σ} {s : σ} {a : List UInt8}
    {i : ℕ} (hok : (d.feed sink s a).result = .ok i) (b : List UInt8) :
    d.offered sink s (a ++ b) =
      d.offered sink s a ++
        (d.feed sink s a).decoder.offered sink (d.feed sink s a).sink b := by
  rw [offered, hd.feed_append, feed_recording, hok, Fed.ok_andThen, Fed.after, feed_recording,
    List.nil_append]

/-- After a failure in the first chunk no frame of the second is offered. -/
theorem Reachable.offered_append_of_error (hd : d.Reachable) {sink : Sink σ} {s : σ}
    {a : List UInt8} {e : Error} (herror : (d.feed sink s a).result = .error e) (b : List UInt8) :
    d.offered sink s (a ++ b) = d.offered sink s a := by
  rw [offered, hd.feed_append, feed_recording, herror, Fed.error_andThen, List.nil_append]

/-! ## Any number of chunks -/

/-- The frames that a sink is offered when chunks are fed in order up to the first failure. -/
def offeredAll (d : Decoder) (sink : Sink σ) (s : σ) (chunks : List (List UInt8)) : List Frame :=
  (d.feedAll sink.recording ([], s) chunks).sink.1

/-- Feeding chunks in order is feeding the first and going on with the others. -/
theorem feedAll_cons (sink : Sink σ) (s : σ) (chunk : List UInt8) (chunks : List (List UInt8)) :
    d.feedAll sink s (chunk :: chunks) =
      (d.feed sink s chunk).andThen fun d s => d.feedAll sink s chunks := by
  rw [feedAll]
  rcases d.feed sink s chunk with ⟨d', s', _ | n⟩ <;> rfl

/-- Feeding chunks in order is feeding the stream that they make up. -/
theorem Reachable.feedAll_eq_feed_flatten (hd : d.Reachable) (sink : Sink σ) (s : σ)
    (chunks : List (List UInt8)) (hfed : chunks = [] → d.poisoned = false) :
    d.feedAll sink s chunks = d.feed sink s chunks.flatten := by
  induction chunks generalizing d s with
  | nil => rw [feedAll, List.flatten_nil, (hd.ready (hfed rfl)).feed_nil]
  | cons chunk chunks ih =>
    rw [feedAll_cons, List.flatten_cons, hd.feed_append]
    have hreachable := hd.feed sink s chunk
    rcases hresult : (d.feed sink s chunk).result with e | n
    · rw [Fed.andThen_of_error hresult, Fed.andThen_of_error hresult]
    · -- The first chunk has not failed, so the decoder is not poisoned behind it.
      have hready := hd.ready_of_feed_ok hresult
      rw [Fed.andThen_of_ok hresult, Fed.andThen_of_ok hresult,
        ih hreachable _ fun _ => hready.poisoned_eq]

/-- The frames that chunks bring are those of the stream that they make up. -/
theorem Reachable.offeredAll_eq_offered_flatten (hd : d.Reachable) (sink : Sink σ) (s : σ)
    (chunks : List (List UInt8)) (hfed : chunks = [] → d.poisoned = false) :
    d.offeredAll sink s chunks = d.offered sink s chunks.flatten := by
  rw [offeredAll, hd.feedAll_eq_feed_flatten sink.recording _ chunks hfed, offered]

/-- If feeding chunks in order fails, then some chunk fails behind others that succeed. -/
theorem exists_of_feedAll_error {sink : Sink σ} {s : σ} {chunks : List (List UInt8)} {e : Error}
    (herror : (d.feedAll sink s chunks).result = .error e) :
    ∃ before chunk after k, chunks = before ++ chunk :: after ∧
      (d.feedAll sink s before).result = .ok k ∧
      ((d.feedAll sink s before).decoder.feed sink (d.feedAll sink s before).sink chunk).result =
        .error e ∧
      (d.feedAll sink s chunks).decoder =
        ((d.feedAll sink s before).decoder.feed sink (d.feedAll sink s before).sink
          chunk).decoder := by
  induction chunks generalizing d s with
  | nil => cases herror
  | cons first chunks ih =>
    rw [feedAll_cons] at herror ⊢
    rcases hresult : (d.feed sink s first).result with e' | n
    · -- The first chunk fails, and nothing stands before it.
      rw [Fed.andThen_of_error hresult] at herror ⊢
      exact ⟨[], first, chunks, 0, rfl, rfl, herror, rfl⟩
    · rw [Fed.andThen_of_ok hresult] at herror ⊢
      obtain ⟨before, chunk, after, k, rfl, hok, hfails, hsame⟩ :=
        ih (Fed.after_eq_error_iff.mp herror)
      have hbefore : d.feedAll sink s (first :: before) =
          ((d.feed sink s first).decoder.feedAll sink (d.feed sink s first).sink
            before).after n := by
        rw [feedAll_cons, Fed.andThen_of_ok hresult]
      refine ⟨first :: before, chunk, after, n + k, rfl, ?_, ?_, ?_⟩
      · rw [hbefore, Fed.after, hok]
        rfl
      · rw [hbefore]
        exact hfails
      · rw [hbefore]
        exact hsame

/-- Feeding respects concatenation, for every decoder that can come about and every sink. After a
first chunk that succeeds the second goes on where it ended: the frames offered, the sink's state,
and the decoder are those of the two feeds, and the counts add up or the second failure is the
failure of the whole. After a first chunk that fails the second does not matter. Hence any two ways
of cutting a stream into chunks, fed up to the first failure, cannot be told apart. -/
theorem feed_homomorphic (hd : d.Reachable) (sink : Sink σ) (s : σ) :
    (∀ (a b : List UInt8) (i : ℕ), (d.feed sink s a).result = .ok i →
      let first := d.feed sink s a
      let second := first.decoder.feed sink first.sink b
      d.feed sink s (a ++ b) = ⟨second.decoder, second.sink, second.result.map (i + ·)⟩ ∧
        d.offered sink s (a ++ b) =
          d.offered sink s a ++ first.decoder.offered sink first.sink b) ∧
    (∀ (a b : List UInt8) (e : Error), (d.feed sink s a).result = .error e →
      d.feed sink s (a ++ b) = d.feed sink s a ∧
        d.offered sink s (a ++ b) = d.offered sink s a) ∧
    ∀ chunks chunks' : List (List UInt8), chunks ≠ [] → chunks' ≠ [] →
      chunks.flatten = chunks'.flatten →
        d.feedAll sink s chunks = d.feedAll sink s chunks' ∧
          d.offeredAll sink s chunks = d.offeredAll sink s chunks' := by
  refine ⟨?_, ?_, ?_⟩
  · intro a b i hok
    refine ⟨?_, hd.offered_append_of_ok hok b⟩
    rw [hd.feed_append, Fed.andThen_of_ok hok, Fed.after]
  · intro a b e herror
    refine ⟨?_, hd.offered_append_of_error herror b⟩
    rw [hd.feed_append, Fed.andThen_of_error herror]
  · intro chunks chunks' hne hne' hsame
    have hfed : chunks = [] → d.poisoned = false := fun h => absurd h hne
    have hfed' : chunks' = [] → d.poisoned = false := fun h => absurd h hne'
    constructor
    · rw [hd.feedAll_eq_feed_flatten sink s chunks hfed,
        hd.feedAll_eq_feed_flatten sink s chunks' hfed', hsame]
    · rw [hd.offeredAll_eq_offered_flatten sink s chunks hfed,
        hd.offeredAll_eq_offered_flatten sink s chunks' hfed', hsame]

/-- A decoder that holds half of a length prefix, and a sink that refuses its second frame. -/
theorem feed_homomorphic_mid_prefix :
    let d := ((fresh 3).feed Sink.collect #[] [2, 0]).decoder
    let sink := Sink.collectUpTo 1 .sinkClosed
    let first := d.feed sink #[] [0, 0, 7]
    let second := first.decoder.feed sink first.sink [8, 1, 0, 0, 0, 9, 5]
    d.Reachable ∧
      (first.result = .ok 0 ∧ second.result = .error .sinkClosed ∧
        d.feed sink #[] [0, 0, 7, 8, 1, 0, 0, 0, 9, 5] =
          ⟨second.decoder, second.sink, .error .sinkClosed⟩ ∧
        d.offered sink #[] [0, 0, 7, 8, 1, 0, 0, 0, 9, 5] = [⟨0, [7, 8]⟩, ⟨1, [9]⟩]) ∧
      ((d.feed sink #[] [0, 0, 7, 8, 1, 0, 0, 0, 9]).result = .error .sinkClosed ∧
        (d.feed sink #[] [0, 0, 7, 8, 1, 0, 0, 0, 9, 5]).decoder =
          (d.feed sink #[] [0, 0, 7, 8, 1, 0, 0, 0, 9]).decoder) ∧
      d.feedAll sink #[] [[0], [0, 7, 8]] = d.feedAll sink #[] [[], [0, 0, 7], [8]] := by
  have hd : ((fresh 3).feed Sink.collect #[] [2, 0]).decoder.Reachable :=
    (Reachable.fresh 3).feed Sink.collect #[] [2, 0]
  obtain ⟨hok, herror, hcut⟩ := feed_homomorphic hd (Sink.collectUpTo 1 .sinkClosed) #[]
  obtain ⟨hfed, hoffered⟩ := hok [0, 0, 7] [8, 1, 0, 0, 0, 9, 5] 0 rfl
  obtain ⟨hsame, -⟩ := herror [0, 0, 7, 8, 1, 0, 0, 0, 9] [5] .sinkClosed rfl
  refine ⟨hd, ⟨rfl, rfl, hfed, hoffered⟩, ⟨rfl, congrArg Fed.decoder hsame⟩, ?_⟩
  exact (hcut [[0], [0, 7, 8]] [[], [0, 0, 7], [8]] (by simp) (by simp) rfl).1

end PrefixFraming.Decoder
