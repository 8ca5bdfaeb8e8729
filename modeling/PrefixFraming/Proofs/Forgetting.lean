import PrefixFraming.Proofs.Determinacy
import PrefixFraming.Proofs.Offering
import PrefixFraming.Proofs.Totals

/-!
# What is past is forgotten

Two decoders that have not failed, have the same maximum, and hold the same bytes cannot be told
apart by what they do. They may have lived very different lives before, and their totals show it:
the frames of one are numbered a fixed amount above those of the other (`Frame.shift`). Nothing else
in what follows depends on the totals, provided that the sinks do not look at the numbers either,
but only at payloads (`Sink.Judges`).

`Takes.retrace` says so of one feed. It is an induction over the bytes of the chunk, and at each
byte both decoders hold the same, so the byte goes the same way in both. The rest is carried along:
the sinks go on to judge by the same rule, and the difference between the counts of frames stays
what it was, so that `turns_alike` can go on with the next chunk.
-/

namespace PrefixFraming

variable {σ τ : Type}

/-- The frame with a number that is higher by `n`. -/
def Frame.shift (n : UInt64) (f : Frame) : Frame := ⟨f.sequence + n, f.payload⟩

/-- A frame that is numbered by one count becomes a frame that is numbered by the other. -/
theorem Frame.shift_of_count (m n : UInt64) (payload : List UInt8) :
    Frame.shift (n - m) ⟨m, payload⟩ = ⟨n, payload⟩ := by
  rw [shift, UInt64.add_comm, UInt64.sub_add_cancel]

/-- The numbers of frames do not change their payloads. -/
theorem Frame.totalSize_map_shift (n : UInt64) (frames : List Frame) :
    totalSize (frames.map (Frame.shift n)) = totalSize frames := by
  rw [totalSize, List.foldr_map]
  rfl

namespace Stats

/-- How far the counts of frames, of payload bytes, and of bytes taken have gone up. -/
def growth (before after : Stats) : UInt64 × UInt64 × UInt64 :=
  (after.frames - before.frames, after.payloadBytes - before.payloadBytes,
    after.consumed - before.consumed)

/-- The counts go up by what is counted. -/
theorem Counts.growth_eq {before after : Stats} {frames : List Frame} {used : ℕ}
    (h : before.Counts frames used after) :
    before.growth after =
      (UInt64.ofNat frames.length, UInt64.ofNat (Frame.totalSize frames), UInt64.ofNat used) := by
  have hcancel : ∀ a b : UInt64, a + b - a = b := by
    intro a b
    rw [UInt64.add_comm, UInt64.add_sub_cancel]
  rw [growth, h.counted, h.payloadBytes, h.consumed, hcancel, hcancel, hcancel]

end Stats

namespace Sink

/-- From this state on, and as long as it takes every frame, the sink's answer to a frame depends
only on the payloads of the frames since then and on the payload of the frame. -/
def Judges (judge : List (List UInt8) → List UInt8 → Except Error Unit) (sink : Sink σ) (s : σ) :
    Prop :=
  ∀ (seen : List Frame) (f : Frame) (s' : σ), sink.offer s seen = (s', .ok ()) →
    (sink s' f).2 = judge (seen.map Frame.payload) f.payload

variable {judge : List (List UInt8) → List UInt8 → Except Error Unit} {sink : Sink σ} {s s' : σ}

/-- The answer to the first frame depends on its payload. -/
theorem Judges.answer (h : Judges judge sink s) (f : Frame) :
    (sink s f).2 = judge [] f.payload := h [] f s rfl

/-- When a frame has been taken the sink goes on to judge, with that frame before all others. -/
theorem Judges.taken (h : Judges judge sink s) {n : UInt64} {payload : List UInt8}
    (htaken : sink s ⟨n, payload⟩ = (s', .ok ())) :
    Judges (fun seen => judge (payload :: seen)) sink s' := by
  intro seen f s'' hoffer
  have hboth : sink.offer s (⟨n, payload⟩ :: seen) = (s'', .ok ()) := by
    unfold offer
    rw [htaken]
    exact hoffer
  exact h (⟨n, payload⟩ :: seen) f s'' hboth

/-- A collection that takes every frame it is offered grows by these. -/
theorem size_of_offer_collectUpTo {n : ℕ} {e : Error} {before after : Array Frame}
    {seen : List Frame} (h : (collectUpTo n e).offer before seen = (after, .ok ())) :
    after.size = before.size + seen.length := by
  induction seen generalizing before with
  | nil =>
    cases h
    rfl
  | cons f seen ih =>
    obtain ⟨next, hfirst, hothers⟩ := offer_cons_eq_ok h
    obtain rfl : before.push f = next := congrArg Prod.fst hfirst
    rw [ih hothers, Array.size_push, List.length_cons]
    omega

/-- A sink that takes the first `n` frames judges by the number of frames before. -/
theorem collectUpTo_judges (n : ℕ) (e : Error) :
    Judges (fun seen _ => if seen.length < n then .ok () else .error e) (collectUpTo n e) #[] := by
  intro seen f s' hoffer
  have hsize := size_of_offer_collectUpTo hoffer
  have hempty : (#[] : Array Frame).size = 0 := rfl
  rw [hempty, Nat.zero_add] at hsize
  show (if s'.size < n then _ else _) = if (seen.map Frame.payload).length < n then _ else _
  rw [List.length_map, hsize]

end Sink

namespace Decoder

variable {d d₁ d₂ : Decoder}
  {judge : List (List UInt8) → List UInt8 → Except Error Unit} {sink₁ : Sink σ} {sink₂ : Sink τ}
  {s₁ : σ} {s₂ : τ} {chunk : List UInt8} {frames : List Frame} {fed : Fed σ}

/-! ## One feed -/

/-- Other totals leave a decoder ready. -/
theorem Ready.with_stats {phase : Phase} {max : UInt32} {poisoned : Bool} {stats : Stats}
    (h : Ready ⟨phase, max, poisoned, stats⟩) (others : Stats) :
    Ready ⟨phase, max, poisoned, others⟩ := by
  cases h with
  | header placed free => exact .header placed free
  | body lacking allowed => exact .body lacking allowed

/-- What one decoder does with a chunk, another one does that holds the same bytes and has the same
maximum, if the sinks judge by the same rule. Only the numbers of the frames differ, and by as much
as the counts of frames did before. -/
theorem Takes.retrace (h : Takes sink₁ d₁ s₁ chunk frames fed) (hd₂ : d₂.Ready)
    (hmax : d₁.maxFrameSize = d₂.maxFrameSize) (hheld : d₁.held = d₂.held)
    (hjudge₁ : Sink.Judges judge sink₁ s₁) (hjudge₂ : Sink.Judges judge sink₂ s₂) :
    ∃ fed₂ : Fed τ, Takes sink₂ d₂ s₂ chunk
        (frames.map (Frame.shift (d₂.stats.frames - d₁.stats.frames))) fed₂ ∧
      fed₂.result = fed.result ∧ fed₂.decoder.phase = fed.decoder.phase ∧
      fed₂.decoder.poisoned = fed.decoder.poisoned ∧
      ∀ n, fed.result = .ok n → ∃ rule, Sink.Judges rule sink₁ fed.sink ∧
        Sink.Judges rule sink₂ fed₂.sink := by
  induction h generalizing d₂ s₂ judge with
  | @nil d s ready =>
    refine ⟨⟨d₂, s₂, .ok 0⟩, .nil hd₂, rfl, (ready.phase_eq_of_held hd₂ hheld).symm, ?_, ?_⟩
    · rw [hd₂.poisoned_eq, ready.poisoned_eq]
    · exact fun _ _ => ⟨judge, hjudge₁, hjudge₂⟩
  | @kept d s b rest frames fed phase ready held more ih =>
    have hready : Ready ⟨phase, d₂.maxFrameSize, false, d₂.stats.consume 1⟩ := by
      rw [← hmax]
      exact more.ready.with_stats _
    obtain ⟨fed₂, htakes, hsame⟩ := ih hready hmax rfl hjudge₁ hjudge₂
    rw [hheld] at held
    exact ⟨fed₂, .kept hd₂ held htakes, hsame⟩
  | @accepted d s s' b rest payload frames fed ready wire allowed taken more ih =>
    -- The other sink gives the same answer, because the payload is the same.
    have hanswer : (sink₂ s₂ ⟨d₂.stats.frames, payload⟩).2 = .ok () := by
      rw [hjudge₂.answer, ← hjudge₁.answer ⟨d.stats.frames, payload⟩, taken]
    obtain ⟨s₂', htaken⟩ : ∃ s₂', sink₂ s₂ ⟨d₂.stats.frames, payload⟩ = (s₂', .ok ()) :=
      ⟨_, Prod.ext rfl hanswer⟩
    obtain ⟨fed₂, htakes, hresult, hphase, hpoisoned, hok⟩ :=
      ih (ready_idle _ _) hmax rfl (hjudge₁.taken taken) (hjudge₂.taken htaken)
    -- Both count this frame, so the difference between the counts stays the same.
    have hdifference :
        (d₂.next payload.length).stats.frames - (d.next payload.length).stats.frames =
          d₂.stats.frames - d.stats.frames := by
      show d₂.stats.frames + 1 - (d.stats.frames + 1) = _
      grind
    rw [hdifference] at htakes
    rw [hheld] at wire
    rw [hmax] at allowed
    refine ⟨fed₂.after 1, ?_, ?_, hphase, hpoisoned, ?_⟩
    · rw [List.map_cons, Frame.shift_of_count]
      exact .accepted hd₂ wire allowed htaken htakes
    · rw [Fed.after, Fed.after, hresult]
    · intro n hn
      obtain ⟨k, hk, -⟩ := Fed.after_eq_ok_iff.mp hn
      exact hok k hk
  | @refused d s s' b rest payload e ready wire allowed refusal =>
    have hanswer : (sink₂ s₂ ⟨d₂.stats.frames, payload⟩).2 = .error e := by
      rw [hjudge₂.answer, ← hjudge₁.answer ⟨d.stats.frames, payload⟩, refusal]
    obtain ⟨s₂', hrefusal⟩ : ∃ s₂', sink₂ s₂ ⟨d₂.stats.frames, payload⟩ = (s₂', .error e) :=
      ⟨_, Prod.ext rfl hanswer⟩
    rw [hheld] at wire
    rw [hmax] at allowed
    refine ⟨⟨{ d₂.next payload.length with poisoned := true }, s₂', .error e⟩, ?_, rfl, rfl, rfl,
      ?_⟩
    · rw [List.map_singleton, Frame.shift_of_count]
      exact .refused hd₂ wire allowed hrefusal
    · rintro n ⟨⟩
  | @rejected d s b rest declared ready wire exceeds =>
    rw [hheld] at wire
    rw [hmax] at exceeds ⊢
    refine ⟨_, .rejected hd₂ wire exceeds, rfl, rfl, rfl, ?_⟩
    rintro n ⟨⟩

/-- What is held is a matter of the phase. -/
theorem held_eq_of_phase_eq (h : d₁.phase = d₂.phase) : d₁.held = d₂.held := by
  unfold held
  rw [h]

/-- Two feeds with the same bytes held before and afterwards, whose frames differ only in their
numbers, have taken the same bytes. -/
theorem Accounts.used_eq {after₁ after₂ : Decoder} {used₁ used₂ : List UInt8} {n : UInt64}
    (h₁ : Accounts d₁ used₁ frames after₁)
    (h₂ : Accounts d₂ used₂ (frames.map (Frame.shift n)) after₂) (hheld : d₁.held = d₂.held)
    (hphase : after₂.phase = after₁.phase) : used₁ = used₂ := by
  have hafter := held_eq_of_phase_eq hphase
  have hwires : Frame.wires (frames.map (Frame.shift n)) = Frame.wires frames := by
    rw [Frame.wires, List.flatMap_map]
    rfl
  have hbytes₂ := h₂.bytes
  rw [hwires, hafter, ← h₁.bytes, ← hheld] at hbytes₂
  exact (List.append_cancel_left hbytes₂).symm

/-- Decoders that hold the same count the same, each from where it was. -/
theorem Ready.counts_alike (h₁ : d₁.Ready) (h₂ : d₂.Ready)
    (hmax : d₁.maxFrameSize = d₂.maxFrameSize) (hheld : d₁.held = d₂.held)
    (hjudge₁ : Sink.Judges judge sink₁ s₁) (hjudge₂ : Sink.Judges judge sink₂ s₂)
    (chunk : List UInt8) :
    d₂.offered sink₂ s₂ chunk =
        (d₁.offered sink₁ s₁ chunk).map (Frame.shift (d₂.stats.frames - d₁.stats.frames)) ∧
      ∃ used,
        d₁.stats.Counts (d₁.offered sink₁ s₁ chunk) used (d₁.feed sink₁ s₁ chunk).decoder.stats ∧
        d₂.stats.Counts (d₂.offered sink₂ s₂ chunk) used
          (d₂.feed sink₂ s₂ chunk).decoder.stats := by
  have htakes₁ := h₁.takes sink₁ s₁ chunk
  obtain ⟨fed₂, htakes₂, -, hphase, -⟩ := htakes₁.retrace h₂ hmax hheld hjudge₁ hjudge₂
  obtain ⟨hfed₂, hoffered₂⟩ := htakes₂.eq_feed
  obtain ⟨used₁, -, -, haccounts₁, -⟩ := htakes₁.accounts
  obtain ⟨used₂, -, -, haccounts₂, -⟩ := htakes₂.accounts
  obtain rfl := haccounts₁.used_eq haccounts₂ hheld hphase
  rw [hoffered₂, hfed₂]
  exact ⟨rfl, used₁.length, htakes₁.counts haccounts₁, htakes₂.counts haccounts₂⟩

end Decoder

/-! ## Sequences of feeds -/

/-- Two turns cannot be told apart, but for the totals and the numbers of the frames, which are
higher by `n` in the second one. -/
structure Turn.Alike (n : UInt64) (t₁ t₂ : Turn Decoder ℕ) : Prop where
  /-- The sinks are called with the same payloads in the same order. -/
  frames : t₂.log.map Prod.fst = (t₁.log.map Prod.fst).map (Frame.shift n)
  /-- The same number of frames is reported, or the same error. -/
  result : t₂.result = t₁.result
  /-- The decoders are left in the same phase. -/
  phase : t₂.after.phase = t₁.after.phase
  /-- The decoders hold the same bytes. -/
  held : t₂.after.held = t₁.after.held
  /-- Both decoders are poisoned, or neither is. -/
  poisoned : t₂.after.poisoned = t₁.after.poisoned

/-- The frames that sinks are offered in some turns, in order. -/
def Turn.frames (turns : List (Turn Decoder ℕ)) : List Frame :=
  turns.flatMap fun t => t.log.map Prod.fst

namespace Decoder

variable {d₁ d₂ : Decoder} {judge : List (List UInt8) → List UInt8 → Except Error Unit}
  {sink₁ : Sink σ} {sink₂ : Sink τ} {s₁ : σ} {s₂ : τ}

/-- What feeding chunks in order up to the first that fails shows, one feed after the other. -/
def turnsToFailure (d : Decoder) (sink : Sink σ) (s : σ) :
    List (List UInt8) → List (Turn Decoder ℕ)
  | [] => []
  | chunk :: chunks =>
    d.turn ⟨σ, sink, s, chunk⟩ ::
      match d.feed sink s chunk with
      | ⟨d, s, .ok _⟩ => d.turnsToFailure sink s chunks
      | ⟨_, _, .error _⟩ => []

/-- The turns of chunks bring the frames of the stream that the chunks make up. -/
theorem Reachable.frames_turnsToFailure {d : Decoder} (hd : d.Reachable)
    (hsound : d.poisoned = false) (sink : Sink σ) (s : σ) (chunks : List (List UInt8)) :
    Turn.frames (d.turnsToFailure sink s chunks) = d.offered sink s chunks.flatten := by
  induction chunks generalizing d s with
  | nil =>
    rw [List.flatten_nil, offered, (hd.ready hsound).feed_nil]
    rfl
  | cons chunk chunks ih =>
    have hrest := ih (hd.feed sink s chunk)
    rw [turnsToFailure, Turn.frames, List.flatMap_cons, turn_offered, List.flatten_cons]
    rcases hfed : d.feed sink s chunk with ⟨d', s', e | k⟩
    · -- Nothing follows a failure.
      rw [hd.offered_append_of_error (congrArg Fed.result hfed)]
      exact List.append_nil _
    · have hok := congrArg Fed.result hfed
      have hready := hd.ready_of_feed_ok hok
      rw [hfed] at hrest hready
      rw [hd.offered_append_of_ok hok, hfed, ← hrest hready.poisoned_eq s']
      rfl

/-- Decoders that hold the same go through the same turns. -/
theorem Ready.turns_alike (h₁ : d₁.Ready) (h₂ : d₂.Ready)
    (hmax : d₁.maxFrameSize = d₂.maxFrameSize) (hheld : d₁.held = d₂.held)
    (hjudge₁ : Sink.Judges judge sink₁ s₁) (hjudge₂ : Sink.Judges judge sink₂ s₂)
    (chunks : List (List UInt8)) :
    List.Forall₂ (Turn.Alike (d₂.stats.frames - d₁.stats.frames))
      (d₁.turnsToFailure sink₁ s₁ chunks) (d₂.turnsToFailure sink₂ s₂ chunks) := by
  induction chunks generalizing d₁ d₂ s₁ s₂ judge with
  | nil => exact .nil
  | cons chunk chunks ih =>
    have htakes₁ := h₁.takes sink₁ s₁ chunk
    obtain ⟨fed₂, htakes₂, hresult, hphase, hpoisoned, hok⟩ :=
      htakes₁.retrace h₂ hmax hheld hjudge₁ hjudge₂
    obtain ⟨hfed₂, hoffered₂⟩ := htakes₂.eq_feed
    have hheld' := held_eq_of_phase_eq hphase
    have hfirst : Turn.Alike (d₂.stats.frames - d₁.stats.frames)
        (d₁.turn ⟨σ, sink₁, s₁, chunk⟩) (d₂.turn ⟨τ, sink₂, s₂, chunk⟩) := by
      constructor <;> simp only [turn_offered, turn_result, turn_after, call, hfed₂] <;> assumption
    have hcounted₁ := htakes₁.frames_counted
    have hcounted₂ := htakes₂.frames_counted
    have hmax₁ := htakes₁.maxFrameSize_eq
    have hmax₂ := htakes₂.maxFrameSize_eq
    rw [turnsToFailure, turnsToFailure, hfed₂]
    obtain ⟨d₂', s₂', result⟩ := fed₂
    rcases hfed₁ : d₁.feed sink₁ s₁ chunk with ⟨d₁', s₁', e | k⟩
    · -- Both sequences end here.
      rw [hfed₁] at hresult
      obtain rfl : result = .error e := hresult
      exact .cons hfirst .nil
    · rw [hfed₁] at htakes₁ hresult hheld' hok hmax₁ hcounted₁
      obtain rfl : result = .ok k := hresult
      obtain ⟨rule, hrule₁, hrule₂⟩ := hok k rfl
      -- Both have counted the same number of frames.
      have hdifference : d₂'.stats.frames - d₁'.stats.frames =
          d₂.stats.frames - d₁.stats.frames := by
        rw [List.length_map] at hcounted₂
        grind
      have hmax' : d₁'.maxFrameSize = d₂'.maxFrameSize := (hmax₁.trans hmax).trans hmax₂.symm
      have hothers := ih (htakes₁.ok_ready rfl).1 (htakes₂.ok_ready rfl).1 hmax' hheld'.symm hrule₁
        hrule₂
      rw [hdifference] at hothers
      exact .cons hfirst hothers

/-- Past totals never matter. Take two decoders that have not failed, with the same maximum, that
hold the same bytes, such as a used one that is idle and a fresh one, and feed both the same chunks
up to the first failure, with sinks that judge by the same rule, and only by the payloads of these
chunks. Then the sinks are called with the same payloads in the same feeds, and each feed reports
the same count or the same error, and leaves both decoders in the same phase, with the same bytes
held, and both poisoned or neither. The numbers of the frames differ by what the counts of frames
differed by at the beginning. The counts of frames, of payload bytes and of bytes taken go up by the
same amounts, and the longest payload of each is the maximum of what it was and of the payloads of
these chunks; counters with room for all that do not wrap. -/
theorem past_totals_never_matter (h₁ : d₁.Reachable) (h₂ : d₂.Reachable)
    (hsound₁ : d₁.poisoned = false) (hsound₂ : d₂.poisoned = false)
    (hmax : d₁.maxFrameSize = d₂.maxFrameSize) (hheld : d₁.held = d₂.held)
    (hjudge₁ : Sink.Judges judge sink₁ s₁) (hjudge₂ : Sink.Judges judge sink₂ s₂)
    (chunks : List (List UInt8)) :
    let n := d₂.stats.frames - d₁.stats.frames
    let after₁ := (d₁.feedAll sink₁ s₁ chunks).decoder
    let after₂ := (d₂.feedAll sink₂ s₂ chunks).decoder
    let turns₁ := d₁.turnsToFailure sink₁ s₁ chunks
    let turns₂ := d₂.turnsToFailure sink₂ s₂ chunks
    let frames₁ := Turn.frames turns₁
    let frames₂ := Turn.frames turns₂
    List.Forall₂ (Turn.Alike n) turns₁ turns₂ ∧ frames₂ = frames₁.map (Frame.shift n) ∧
      ∃ used, (d₁.stats.Counts frames₁ used after₁.stats ∧
          d₂.stats.Counts frames₂ used after₂.stats) ∧
        d₁.stats.growth after₁.stats = d₂.stats.growth after₂.stats ∧
        (d₁.stats.HasRoom frames₁ used → d₁.stats.CountsExactly frames₁ used after₁.stats) ∧
        (d₂.stats.HasRoom frames₂ used → d₂.stats.CountsExactly frames₂ used after₂.stats) := by
  intro n after₁ after₂ turns₁ turns₂ frames₁ frames₂
  have hready₁ := h₁.ready hsound₁
  have hready₂ := h₂.ready hsound₂
  -- Both sequences come to a feed of the whole stream.
  have hafter₁ : after₁ = (d₁.feed sink₁ s₁ chunks.flatten).decoder :=
    congrArg Fed.decoder (h₁.feedAll_eq_feed_flatten sink₁ s₁ chunks fun _ => hsound₁)
  have hafter₂ : after₂ = (d₂.feed sink₂ s₂ chunks.flatten).decoder :=
    congrArg Fed.decoder (h₂.feedAll_eq_feed_flatten sink₂ s₂ chunks fun _ => hsound₂)
  have hframes₁ : frames₁ = d₁.offered sink₁ s₁ chunks.flatten :=
    h₁.frames_turnsToFailure hsound₁ sink₁ s₁ chunks
  have hframes₂ : frames₂ = d₂.offered sink₂ s₂ chunks.flatten :=
    h₂.frames_turnsToFailure hsound₂ sink₂ s₂ chunks
  obtain ⟨hshift, used, hcounts₁, hcounts₂⟩ :=
    hready₁.counts_alike hready₂ hmax hheld hjudge₁ hjudge₂ chunks.flatten
  rw [← hframes₁, ← hframes₂] at hshift
  rw [← hframes₁, ← hafter₁] at hcounts₁
  rw [← hframes₂, ← hafter₂] at hcounts₂
  refine ⟨hready₁.turns_alike hready₂ hmax hheld hjudge₁ hjudge₂ chunks, hshift, used,
    ⟨hcounts₁, hcounts₂⟩, ?_, hcounts₁.exactly, hcounts₂.exactly⟩
  rw [hcounts₁.growth_eq, hcounts₂.growth_eq, hshift, List.length_map, Frame.totalSize_map_shift]

/-- A decoder that has had a frame before, next to a fresh one: both get a frame in two parts, and
an empty frame that their sinks refuse. -/
theorem past_totals_never_matter_used :
    let d₁ := fresh 3
    let d₂ := ((fresh 3).feed Sink.collect #[] [2, 0, 0, 0, 7, 8]).decoder
    let sink := Sink.collectUpTo 1 .sinkClosed
    let chunks : List (List UInt8) := [[1, 0], [0, 0, 9, 0, 0, 0, 0, 5], [6]]
    (d₁.Reachable ∧ d₂.Reachable ∧ d₁.held = d₂.held) ∧
      Turn.frames (d₁.turnsToFailure sink #[] chunks) = [⟨0, [9]⟩, ⟨1, []⟩] ∧
      Turn.frames (d₂.turnsToFailure sink #[] chunks) = [⟨1, [9]⟩, ⟨2, []⟩] ∧
      List.Forall₂ (Turn.Alike 1) (d₁.turnsToFailure sink #[] chunks)
        (d₂.turnsToFailure sink #[] chunks) := by
  intro d₁ d₂ sink chunks
  have h₁ : d₁.Reachable := .fresh 3
  have h₂ : d₂.Reachable := (Reachable.fresh 3).feed Sink.collect #[] [2, 0, 0, 0, 7, 8]
  have hjudge := Sink.collectUpTo_judges 1 .sinkClosed
  have hone : d₂.stats.frames - d₁.stats.frames = 1 := by decide
  obtain ⟨halike, hshift, -⟩ := past_totals_never_matter h₁ h₂ rfl rfl rfl rfl hjudge hjudge chunks
  rw [hone] at halike hshift
  exact ⟨⟨h₁, h₂, rfl⟩, rfl, hshift.trans rfl, halike⟩

end Decoder

end PrefixFraming
