import PrefixFraming.Proofs.Forgetting
import PrefixFraming.Proofs.Sharing

/-!
# Raising the maximum is conservative

A decoder looks at its maximum only when the last byte of a length prefix has arrived, and only to
compare the whole length with it. So a decoder with a higher maximum (`Decoder.withMax`) takes every
byte that the other one takes, in the same way, up to the first length that the other one refuses
(`Takes.raise_ok`). There the two part, unless the length exceeds the higher maximum as well
(`Takes.raise_error`).

What this comes to in a run over chunks is `Raised`: turns that match, one by one, and then either
the end of both runs or a turn in which the run with the lower maximum fails
(`Ready.raised_turns`). The theorem at the end reads its parts off this relation.
-/

namespace PrefixFraming

variable {σ τ : Type}

namespace Decoder

variable {d : Decoder} {max : UInt32} {sink₁ : Sink σ} {sink₂ : Sink τ} {s₁ : σ}
  {chunk : List UInt8} {frames : List Frame} {fed : Fed σ}

/-- The decoder with another maximum. -/
def withMax (d : Decoder) (max : UInt32) : Decoder := { d with maxFrameSize := max }

/-- Two fresh decoders differ in nothing but the maximum. -/
theorem withMax_fresh (low high : UInt32) : (fresh low).withMax high = fresh high := rfl

/-- A higher maximum allows the frame in progress as well. -/
theorem Ready.withMax (hd : d.Ready) (hle : d.maxFrameSize ≤ max) : (d.withMax max).Ready := by
  cases hd with
  | header placed free => exact .header placed free
  | body lacking allowed => exact .body lacking (UInt32.le_trans allowed hle)

/-! ## One feed -/

/-- A length that a maximum allows is allowed by a higher one. -/
theorem length_le_of_raised (hle : d.maxFrameSize ≤ max) {payload : List UInt8}
    (h : payload.length ≤ d.maxFrameSize.toNat) :
    payload.length ≤ (d.withMax max).maxFrameSize.toNat :=
  h.trans (UInt32.le_iff_toNat_le.mp hle)

/-- A feed that succeeds does the same under a higher maximum. -/
theorem Takes.raise_ok (h : Takes sink₁ d s₁ chunk frames fed)
    (haccepts : ∀ s f, (sink₂ s f).2 = .ok ()) (hle : d.maxFrameSize ≤ max) (s₂ : τ) {n : ℕ}
    (hok : fed.result = .ok n) :
    ∃ s₂', Takes sink₂ (d.withMax max) s₂ chunk frames ⟨fed.decoder.withMax max, s₂', .ok n⟩ := by
  induction h generalizing s₂ n with
  | nil ready =>
    cases hok
    exact ⟨s₂, .nil (ready.withMax hle)⟩
  | kept ready held more ih =>
    obtain ⟨s₂', htakes⟩ := ih hle s₂ hok
    exact ⟨s₂', .kept (ready.withMax hle) held htakes⟩
  | @accepted d s s' b rest payload frames fed ready wire allowed taken more ih =>
    obtain ⟨k, hk, rfl⟩ := Fed.after_eq_ok_iff.mp hok
    obtain ⟨s₂', htakes⟩ := ih hle (sink₂ s₂ ⟨d.stats.frames, payload⟩).1 hk
    have htaken : sink₂ s₂ ⟨d.stats.frames, payload⟩ =
        ((sink₂ s₂ ⟨d.stats.frames, payload⟩).1, .ok ()) := Prod.ext rfl (haccepts _ _)
    exact ⟨s₂', .accepted (ready.withMax hle) wire (length_le_of_raised hle allowed) htaken htakes⟩
  | refused => cases hok
  | rejected => cases hok

/-- A feed that fails with a sink that accepts everything stands before a length above the maximum.
Under a higher maximum the bytes before that length bring the same frames. If the length exceeds the
higher maximum too, the feed fails there in the same way. -/
theorem Takes.raise_error (h : Takes sink₁ d s₁ chunk frames fed)
    (haccepts₁ : ∀ s f, (sink₁ s f).2 = .ok ()) (haccepts₂ : ∀ s f, (sink₂ s f).2 = .ok ())
    (hle : d.maxFrameSize ≤ max) (s₂ : τ) {e : Error} (herror : fed.result = .error e) :
    ∃ declared, (e = .frameTooLarge declared d.maxFrameSize ∧ d.maxFrameSize < declared) ∧
      ∃ more fed₂, Takes sink₂ (d.withMax max) s₂ chunk (frames ++ more) fed₂ ∧
        (max < declared → more = [] ∧ fed₂.decoder = fed.decoder.withMax max ∧
          fed₂.result = .error (.frameTooLarge declared max)) := by
  induction h generalizing s₂ with
  | nil => cases herror
  | kept ready held more ih =>
    obtain ⟨declared, he, others, fed₂, htakes, hsame⟩ := ih hle s₂ herror
    exact ⟨declared, he, others, fed₂, .kept (ready.withMax hle) held htakes, hsame⟩
  | @accepted d s s' b rest payload frames fed ready wire allowed taken more ih =>
    obtain ⟨declared, he, others, fed₂, htakes, hsame⟩ :=
      ih hle (sink₂ s₂ ⟨d.stats.frames, payload⟩).1 (Fed.after_eq_error_iff.mp herror)
    have htaken : sink₂ s₂ ⟨d.stats.frames, payload⟩ =
        ((sink₂ s₂ ⟨d.stats.frames, payload⟩).1, .ok ()) := Prod.ext rfl (haccepts₂ _ _)
    refine ⟨declared, he, others, fed₂.after 1, ?_, ?_⟩
    · exact .accepted (ready.withMax hle) wire (length_le_of_raised hle allowed) htaken htakes
    · intro hexceeds
      obtain ⟨hnone, hdecoder, hresult⟩ := hsame hexceeds
      exact ⟨hnone, hdecoder, Fed.after_eq_error_iff.mpr hresult⟩
  | @refused d s s' b rest payload e' ready wire allowed refusal =>
    have hok := haccepts₁ s ⟨d.stats.frames, payload⟩
    rw [refusal] at hok
    cases hok
  | @rejected d s b rest declared ready wire exceeds =>
    cases herror
    refine ⟨declared, ⟨rfl, exceeds⟩, ?_⟩
    -- Here the two part, and whether the other one goes on is for its own maximum to decide.
    by_cases hexceeds : max < declared
    · exact ⟨[], _, .rejected (ready.withMax hle) wire hexceeds, fun _ => ⟨rfl, rfl, rfl⟩⟩
    · exact ⟨_, _, (ready.withMax hle).takes sink₂ s₂ (b :: rest), fun h => absurd h hexceeds⟩

/-- A feed that complains of a length has found one above the maximum. -/
theorem Takes.exceeds_of_tooLarge (h : Takes sink₁ d s₁ chunk frames fed)
    (haccepts : ∀ s f, (sink₁ s f).2 = .ok ()) {declared limit : UInt32}
    (herror : fed.result = .error (.frameTooLarge declared limit)) : d.maxFrameSize < declared := by
  obtain ⟨declared', ⟨he, hexceeds⟩, -⟩ :=
    h.raise_error haccepts haccepts (UInt32.le_refl _) s₁ herror
  cases he
  exact hexceeds

end Decoder

/-! ## Runs -/

/-- Two turns show the same, but for the maximum, which is `max` in the second one. -/
structure Turn.Matches (max : UInt32) (t₁ t₂ : Turn Decoder ℕ) : Prop where
  /-- The decoders differ only in the maximum before the call. -/
  before : t₂.before = t₁.before.withMax max
  /-- The sinks are called with the same frames in the same order, and give the same answers. -/
  log : t₂.log = t₁.log
  /-- The same number of frames is reported. -/
  result : t₂.result = t₁.result
  /-- The decoders differ only in the maximum after the call. -/
  after : t₂.after = t₁.after.withMax max

/-- In the first of two turns a length is refused. The second one has begun alike, with the maximum
`high` in place of `low`. -/
structure Turn.Parts (low high declared : UInt32) (t₁ t₂ : Turn Decoder ℕ) : Prop where
  /-- The decoders differ only in the maximum before the call. -/
  before : t₂.before = t₁.before.withMax high
  /-- The first call fails on the declared length. -/
  failure : t₁.result = .error (.frameTooLarge declared low)
  /-- The length is above the lower maximum. -/
  exceeds : low < declared
  /-- The frames before it are the same. -/
  log : t₁.log <+: t₂.log
  /-- If the length is above the higher maximum too, nothing else happens in the second call. -/
  fails : high < declared → t₂.log = t₁.log ∧ t₂.after = t₁.after.withMax high ∧
    t₂.result = .error (.frameTooLarge declared high)
  /-- Only then does the second call complain of it. -/
  exceeds_of_fails : t₂.result = .error (.frameTooLarge declared high) → high < declared

/-- How a run over chunks compares with the run with a higher maximum, turn by turn. -/
inductive Raised (low high : UInt32) : List (Turn Decoder ℕ) → List (Turn Decoder ℕ) → Prop where
  /-- Both have come to the end of the stream. -/
  | done : Raised low high [] []
  /-- A call succeeds in both runs. -/
  | goesOn {t₁ t₂ : Turn Decoder ℕ} {turns₁ turns₂ : List (Turn Decoder ℕ)}
      (succeeds : ∃ n, t₁.result = .ok n) (same : Turn.Matches high t₁ t₂)
      (others : Raised low high turns₁ turns₂) : Raised low high (t₁ :: turns₁) (t₂ :: turns₂)
  /-- The run with the lower maximum fails, and with it the other one if the length is above its
  maximum as well. -/
  | parts {declared : UInt32} {t₁ t₂ : Turn Decoder ℕ} {turns₂ : List (Turn Decoder ℕ)}
      (part : Turn.Parts low high declared t₁ t₂) (ends : high < declared → turns₂ = []) :
      Raised low high [t₁] (t₂ :: turns₂)

namespace Turn

variable {max : UInt32}

/-- The frames of turns that follow each other follow each other. -/
theorem frames_append (before after : List (Turn Decoder ℕ)) :
    frames (before ++ after) = frames before ++ frames after :=
  List.flatMap_append

/-- Turns that match bring the same frames. -/
theorem frames_of_matches {turns₁ turns₂ : List (Turn Decoder ℕ)}
    (h : List.Forall₂ (Matches max) turns₁ turns₂) : frames turns₂ = frames turns₁ := by
  induction h with
  | nil => rfl
  | cons same others ih =>
    unfold frames at ih ⊢
    rw [List.flatMap_cons, List.flatMap_cons, same.log, ih]

end Turn

namespace Decoder

variable {d : Decoder} {max : UInt32} {sink₁ : Sink σ} {sink₂ : Sink τ} {s₁ : σ}
  {chunk : List UInt8}

/-- With a sink that accepts everything the log of a call has the frames that are offered. -/
theorem log_turn_of_accepts {sink : Sink σ} (haccepts : ∀ s f, (sink s f).2 = .ok ()) (d : Decoder)
    (s : σ) (chunk : List UInt8) :
    (d.turn ⟨σ, sink, s, chunk⟩).log = (d.offered sink s chunk).map fun f => (f, .ok ()) := by
  have hanswers := d.turn_answers ⟨σ, sink, s, chunk⟩ haccepts
  have hoffered := d.turn_offered ⟨σ, sink, s, chunk⟩
  rw [← hoffered, List.map_map]
  refine (List.map_id _).symm.trans (List.map_congr_left fun entry hentry => ?_)
  exact Prod.ext rfl (hanswers entry hentry)

/-- A call that succeeds matches the call with the same chunk under a higher maximum. -/
theorem Ready.matches_of_ok (hd : d.Ready) (haccepts₁ : ∀ s f, (sink₁ s f).2 = .ok ())
    (haccepts₂ : ∀ s f, (sink₂ s f).2 = .ok ()) (hle : d.maxFrameSize ≤ max) (s₂ : τ) {n : ℕ}
    (hok : (d.feed sink₁ s₁ chunk).result = .ok n) :
    Turn.Matches max (d.turn ⟨σ, sink₁, s₁, chunk⟩)
      ((d.withMax max).turn ⟨τ, sink₂, s₂, chunk⟩) := by
  obtain ⟨s₂', htakes₂⟩ := (hd.takes sink₁ s₁ chunk).raise_ok haccepts₂ hle s₂ hok
  obtain ⟨hfed₂, hoffered₂⟩ := htakes₂.eq_feed
  constructor
  · rfl
  · rw [log_turn_of_accepts haccepts₁, log_turn_of_accepts haccepts₂, hoffered₂]
  · rw [turn_result, turn_result, call, call, hfed₂, hok]
  · rw [turn_after, turn_after, call, call, hfed₂]

/-- A call that fails parts from the call with the same chunk under a higher maximum. -/
theorem Ready.parts_of_error (hd : d.Ready) (haccepts₁ : ∀ s f, (sink₁ s f).2 = .ok ())
    (haccepts₂ : ∀ s f, (sink₂ s f).2 = .ok ()) (hle : d.maxFrameSize ≤ max) (s₂ : τ) {e : Error}
    (herror : (d.feed sink₁ s₁ chunk).result = .error e) :
    ∃ declared, Turn.Parts d.maxFrameSize max declared (d.turn ⟨σ, sink₁, s₁, chunk⟩)
      ((d.withMax max).turn ⟨τ, sink₂, s₂, chunk⟩) := by
  obtain ⟨declared, ⟨rfl, hexceeds⟩, more, fed₂, htakes₂, hsame⟩ :=
    (hd.takes sink₁ s₁ chunk).raise_error haccepts₁ haccepts₂ hle s₂ herror
  obtain ⟨hfed₂, hoffered₂⟩ := htakes₂.eq_feed
  refine ⟨declared, rfl, ?_, hexceeds, ?_, ?_, ?_⟩
  · rw [turn_result, call, herror]
  · rw [log_turn_of_accepts haccepts₁, log_turn_of_accepts haccepts₂, hoffered₂, List.map_append]
    exact List.prefix_append _ _
  · intro hhigh
    obtain ⟨rfl, hdecoder, hresult⟩ := hsame hhigh
    rw [List.append_nil] at hoffered₂
    rw [log_turn_of_accepts haccepts₁, log_turn_of_accepts haccepts₂, hoffered₂, turn_after,
      turn_after, turn_result, call, call, hfed₂]
    exact ⟨rfl, hdecoder, hresult⟩
  · intro hfails
    rw [turn_result, call, hfed₂] at hfails
    exact htakes₂.exceeds_of_tooLarge haccepts₂ hfails

/-- Behind a feed that succeeds the run goes on with the other chunks. -/
theorem turnsToFailure_of_ok {sink : Sink σ} {s : σ} {n : ℕ}
    (hok : (d.feed sink s chunk).result = .ok n) (chunks : List (List UInt8)) :
    d.turnsToFailure sink s (chunk :: chunks) = d.turn ⟨σ, sink, s, chunk⟩ ::
      (d.feed sink s chunk).decoder.turnsToFailure sink (d.feed sink s chunk).sink chunks := by
  unfold turnsToFailure
  generalize d.feed sink s chunk = fed at hok ⊢
  obtain ⟨d', s', result⟩ := fed
  obtain rfl : result = .ok n := hok
  cases chunks <;> rfl

/-- A feed that fails is the last of a run. -/
theorem turnsToFailure_of_error {sink : Sink σ} {s : σ} {e : Error}
    (herror : (d.feed sink s chunk).result = .error e) (chunks : List (List UInt8)) :
    d.turnsToFailure sink s (chunk :: chunks) = [d.turn ⟨σ, sink, s, chunk⟩] := by
  unfold turnsToFailure
  generalize d.feed sink s chunk = fed at herror ⊢
  obtain ⟨d', s', result⟩ := fed
  obtain rfl : result = .error e := herror
  rfl

/-- Two decoders that differ only in the maximum compare as `Raised` says, on any chunks. -/
theorem Ready.raised_turns (hd : d.Ready) (haccepts₁ : ∀ s f, (sink₁ s f).2 = .ok ())
    (haccepts₂ : ∀ s f, (sink₂ s f).2 = .ok ()) (hle : d.maxFrameSize ≤ max) (s₁ : σ) (s₂ : τ)
    (chunks : List (List UInt8)) :
    Raised d.maxFrameSize max (d.turnsToFailure sink₁ s₁ chunks)
      ((d.withMax max).turnsToFailure sink₂ s₂ chunks) := by
  induction chunks generalizing d s₁ s₂ with
  | nil => exact .done
  | cons chunk chunks ih =>
    have htakes₁ := hd.takes sink₁ s₁ chunk
    rcases hresult : (d.feed sink₁ s₁ chunk).result with e | n
    · obtain ⟨declared, hparts⟩ := hd.parts_of_error haccepts₁ haccepts₂ hle s₂ hresult
      rw [turnsToFailure_of_error hresult]
      rcases hhigher : ((d.withMax max).feed sink₂ s₂ chunk).result with e' | n'
      · rw [turnsToFailure_of_error hhigher]
        exact .parts hparts fun _ => rfl
      · rw [turnsToFailure_of_ok hhigher]
        -- The length is not above the higher maximum, or this call would have failed on it.
        refine .parts hparts fun hexceeds => ?_
        have hfails := (hparts.fails hexceeds).2.2
        rw [turn_result, call, hhigher] at hfails
        cases hfails
    · obtain ⟨s₂', htakes₂⟩ := htakes₁.raise_ok haccepts₂ hle s₂ hresult
      have hfed₂ := htakes₂.eq_feed.1
      have hhigher : ((d.withMax max).feed sink₂ s₂ chunk).result = .ok n := by rw [hfed₂]
      have hmax : (d.feed sink₁ s₁ chunk).decoder.maxFrameSize = d.maxFrameSize :=
        htakes₁.maxFrameSize_eq
      have hothers := ih (htakes₁.ok_ready hresult).1 (hmax ▸ hle) (d.feed sink₁ s₁ chunk).sink s₂'
      rw [hmax] at hothers
      rw [turnsToFailure_of_ok hresult, turnsToFailure_of_ok hhigher, hfed₂]
      refine .goesOn ⟨n, ?_⟩ (hd.matches_of_ok haccepts₁ haccepts₂ hle s₂ hresult) hothers
      rw [turn_result, call, hresult]

end Decoder

namespace Raised

variable {low high : UInt32} {turns₁ turns₂ : List (Turn Decoder ℕ)}

/-- The frames under the lower maximum are the first of those under the higher one. -/
theorem prefix_frames (h : Raised low high turns₁ turns₂) :
    Turn.frames turns₁ <+: Turn.frames turns₂ := by
  unfold Turn.frames
  induction h with
  | done => exact List.prefix_rfl
  | goesOn succeeds same others ih =>
    rw [List.flatMap_cons, List.flatMap_cons, same.log]
    exact (List.prefix_append_right_inj _).mpr ih
  | parts part ends =>
    rw [List.flatMap_singleton, List.flatMap_cons]
    exact (part.log.map Prod.fst).trans (List.prefix_append _ _)

/-- If the run with the lower maximum does not fail, all turns match. -/
theorem matches_of_ok (h : Raised low high turns₁ turns₂)
    (hok : ∀ t ∈ turns₁, ∃ n, t.result = .ok n) :
    List.Forall₂ (Turn.Matches high) turns₁ turns₂ := by
  induction h with
  | done => exact .nil
  | goesOn succeeds same others ih => exact .cons same (ih (List.forall_mem_cons.mp hok).2)
  | parts part ends =>
    obtain ⟨n, hn⟩ := hok _ List.mem_cons_self
    rw [part.failure] at hn
    cases hn

/-- If the run with the lower maximum fails, it ends there, and all turns before match. -/
theorem parts_of_error (h : Raised low high turns₁ turns₂) {before₁ after₁ : List (Turn Decoder ℕ)}
    {t₁ : Turn Decoder ℕ} {e : Error} (hturns : turns₁ = before₁ ++ t₁ :: after₁)
    (herror : t₁.result = .error e) :
    after₁ = [] ∧ ∃ before₂ t₂ after₂ declared, turns₂ = before₂ ++ t₂ :: after₂ ∧
      List.Forall₂ (Turn.Matches high) before₁ before₂ ∧ Turn.Parts low high declared t₁ t₂ ∧
      (high < declared → after₂ = []) := by
  induction h generalizing before₁ with
  | done => simp at hturns
  | goesOn succeeds same others ih =>
    cases before₁ with
    | nil =>
      obtain ⟨rfl, -⟩ := List.cons.inj hturns
      obtain ⟨n, hn⟩ := succeeds
      rw [herror] at hn
      cases hn
    | cons t before₁ =>
      obtain ⟨rfl, hothers⟩ := List.cons.inj hturns
      obtain ⟨hlast, before₂, t₂, after₂, declared, rfl, hbefore, hparts⟩ := ih hothers
      exact ⟨hlast, _ :: before₂, t₂, after₂, declared, rfl, .cons same hbefore, hparts⟩
  | parts part ends =>
    obtain ⟨rfl, hsingle⟩ | ⟨rfl, hnone⟩ := List.append_eq_singleton_iff.mp hturns.symm
    · obtain ⟨rfl, rfl⟩ := List.cons.inj hsingle
      exact ⟨rfl, [], _, _, _, rfl, .nil, part, ends⟩
    · cases hnone

/-- If the run with the higher maximum fails within some calls, so does the other one. -/
theorem fails_of_fails (h : Raised low high turns₁ turns₂) {k : ℕ}
    (hfails : ∃ t ∈ turns₂.take k, ∃ e, t.result = .error e) :
    ∃ t ∈ turns₁.take k, ∃ e, t.result = .error e := by
  induction h generalizing k with
  | done => exact hfails
  | goesOn succeeds same others ih =>
    cases k with
    | zero => exact hfails
    | succ k =>
      rw [List.take_succ_cons] at hfails ⊢
      obtain ⟨t, hmem, e, he⟩ := hfails
      obtain rfl | hlater := List.mem_cons.mp hmem
      · exact ⟨_, List.mem_cons_self, e, same.result ▸ he⟩
      · obtain ⟨t', hmem', he'⟩ := ih ⟨t, hlater, e, he⟩
        exact ⟨t', List.mem_cons_of_mem _ hmem', he'⟩
  | parts part ends =>
    cases k with
    | zero => exact hfails
    | succ k => exact ⟨_, List.mem_cons_self, _, part.failure⟩

end Raised

/-! ## Fresh decoders -/

namespace Decoder

variable {low high : UInt32}

/-- A feed that fails within some bytes of a stream fails within them under a lower maximum too. -/
theorem Ready.failsBy_of_failsBy {sink₁ : Sink σ} {sink₂ : Sink τ} {d : Decoder} {max : UInt32}
    (hd : d.Ready) (haccepts₂ : ∀ s f, (sink₂ s f).2 = .ok ()) (hle : d.maxFrameSize ≤ max)
    (s₁ : σ) (s₂ : τ) {stream : List UInt8} {n : ℕ}
    (hfails : (d.withMax max).failsBy sink₂ s₂ stream n = true) :
    d.failsBy sink₁ s₁ stream n = true := by
  by_contra hok
  rw [Bool.not_eq_true, ← Bool.not_eq_true'] at hok
  obtain ⟨k, hk⟩ := exists_ok_of_failsBy hok
  obtain ⟨e, he⟩ := exists_error_of_failsBy hfails
  obtain ⟨s₂', htakes₂⟩ := (hd.takes sink₁ s₁ (stream.take n)).raise_ok haccepts₂ hle s₂ hk
  rw [htakes₂.eq_feed.1] at he
  cases he

/-- Raising the maximum is conservative. Feed two fresh decoders the same chunks, with sinks that
accept everything, and stop each at its first error. The frames under the lower maximum are the
first of those under the higher one. As long as the run with the lower maximum succeeds, the calls
match: the sinks get the same frames, the same numbers are reported, and the decoders differ only in
the maximum. If it fails, it does so on a length above its maximum, all calls before match, and the
other run fails in the same call, on the same length, and after the same frames, exactly if this
length is above its own maximum. The other run never fails earlier, neither by calls nor by
bytes. -/
theorem raising_maximum_conservative {sink₁ : Sink σ} {sink₂ : Sink τ} (hle : low ≤ high)
    (haccepts₁ : ∀ s f, (sink₁ s f).2 = .ok ()) (haccepts₂ : ∀ s f, (sink₂ s f).2 = .ok ())
    (s₁ : σ) (s₂ : τ) (chunks : List (List UInt8)) :
    let turns₁ := (fresh low).turnsToFailure sink₁ s₁ chunks
    let turns₂ := (fresh high).turnsToFailure sink₂ s₂ chunks
    Turn.frames turns₁ <+: Turn.frames turns₂ ∧
      ((∀ t ∈ turns₁, ∃ n, t.result = .ok n) →
        List.Forall₂ (Turn.Matches high) turns₁ turns₂) ∧
      (∀ before₁ t₁ after₁ e, turns₁ = before₁ ++ t₁ :: after₁ → t₁.result = .error e →
        after₁ = [] ∧ ∃ before₂ t₂ after₂ declared, turns₂ = before₂ ++ t₂ :: after₂ ∧
          List.Forall₂ (Turn.Matches high) before₁ before₂ ∧ t₂.before = t₁.before.withMax high ∧
          e = .frameTooLarge declared low ∧ low < declared ∧
          (t₂.result = .error (.frameTooLarge declared high) ∧
            Turn.frames turns₂ = Turn.frames turns₁ ↔ high < declared)) ∧
      (∀ k, (∃ t ∈ turns₂.take k, ∃ e, t.result = .error e) →
        ∃ t ∈ turns₁.take k, ∃ e, t.result = .error e) ∧
      ∀ n, (fresh high).failsBy sink₂ s₂ chunks.flatten n = true →
        (fresh low).failsBy sink₁ s₁ chunks.flatten n = true := by
  intro turns₁ turns₂
  have hfresh := ready_fresh low
  have hraised : Raised low high turns₁ turns₂ := by
    have hturns := hfresh.raised_turns haccepts₁ haccepts₂ hle s₁ s₂ chunks
    rw [withMax_fresh] at hturns
    exact hturns
  refine ⟨hraised.prefix_frames, hraised.matches_of_ok, ?_, fun k => hraised.fails_of_fails, ?_⟩
  · intro before₁ t₁ after₁ e hturns herror
    obtain ⟨rfl, before₂, t₂, after₂, declared, hturns₂, hbefore, hparts, hends⟩ :=
      hraised.parts_of_error hturns herror
    have he : e = .frameTooLarge declared low := by
      have hfailure := hparts.failure
      rw [herror] at hfailure
      exact Except.error.inj hfailure
    refine ⟨rfl, before₂, t₂, after₂, declared, hturns₂, hbefore, hparts.before, he,
      hparts.exceeds, fun h => hparts.exceeds_of_fails h.1, fun hexceeds => ?_⟩
    obtain ⟨hlog, -, hresult⟩ := hparts.fails hexceeds
    refine ⟨hresult, ?_⟩
    rw [hturns, hturns₂, hends hexceeds, Turn.frames_append, Turn.frames_append,
      Turn.frames_of_matches hbefore]
    unfold Turn.frames
    rw [List.flatMap_singleton, List.flatMap_singleton, hlog]
  · exact fun n => hfresh.failsBy_of_failsBy haccepts₂ hle s₁ s₂

/-- Two bytes are too many for a maximum of 1, and three for a maximum of 2. -/
theorem raising_maximum_conservative_one_two :
    let chunks : List (List UInt8) := [[1, 0, 0], [0, 7, 2, 0, 0, 0, 8], [9, 3, 0, 0, 0], [1]]
    let turns₁ := (fresh 1).turnsToFailure Sink.collect #[] chunks
    let turns₂ := (fresh 2).turnsToFailure Sink.collect #[] chunks
    (Turn.frames turns₁ = [⟨0, [7]⟩] ∧ Turn.frames turns₂ = [⟨0, [7]⟩, ⟨1, [8, 9]⟩]) ∧
      (turns₁.length = 2 ∧ turns₂.length = 3) ∧ Turn.frames turns₁ <+: Turn.frames turns₂ := by
  intro chunks turns₁ turns₂
  have haccepts : ∀ s f, (Sink.collect s f).2 = .ok () := fun _ _ => rfl
  obtain ⟨hfirst, -⟩ :=
    raising_maximum_conservative (show (1 : UInt32) ≤ 2 by decide) haccepts haccepts #[] #[] chunks
  exact ⟨⟨rfl, rfl⟩, ⟨rfl, rfl⟩, hfirst⟩

end Decoder

end PrefixFraming
