import PrefixFraming.Proofs.Chunking

/-!
# Every byte is accounted for

Encoding again what a decoder has handed out, and adding what it still holds, gives the bytes that
it has taken. `Accounts` says this of a stretch of a decoder's life: of one byte, of a feed
(`Takes.accounts`, by induction over the bytes of its chunk), and of a sequence of calls
(`Ready.accounts_calls`), since stretches that follow each other make up one (`Accounts.trans`).

A feed that fails leaves a part of its chunk untouched, and then no later call takes anything. So
the bytes taken are at the head of `incoming`, the chunks up to and including the first whose feed
fails.
-/

namespace PrefixFraming

/-- The bytes that carry frames, one after the other. -/
def Frame.wires (frames : List Frame) : List UInt8 := frames.flatMap fun f => Frame.wire f.payload

namespace Decoder

variable {σ : Type}

/-- Between two states of a decoder it took the bytes `used` and offered these frames. What it held
before and took is what the frames look like on the wire and what it holds afterwards, and the bytes
taken are counted. -/
structure Accounts (before : Decoder) (used : List UInt8) (frames : List Frame)
    (after : Decoder) : Prop where
  /-- No byte is lost, added, changed, or moved. -/
  bytes : before.held ++ used = Frame.wires frames ++ after.held
  /-- The total goes up by the number of bytes taken. -/
  counted : after.stats.consumed = before.stats.consumed + UInt64.ofNat used.length

/-- Nothing taken, nothing offered. -/
theorem Accounts.refl (d : Decoder) : Accounts d [] [] d where
  bytes := List.append_nil _
  counted := (UInt64.add_zero _).symm

/-- Two stretches one after the other. -/
theorem Accounts.trans {d₁ d₂ d₃ : Decoder} {used₁ used₂ : List UInt8}
    {frames₁ frames₂ : List Frame} (h₁ : Accounts d₁ used₁ frames₁ d₂)
    (h₂ : Accounts d₂ used₂ frames₂ d₃) :
    Accounts d₁ (used₁ ++ used₂) (frames₁ ++ frames₂) d₃ where
  bytes := by
    calc d₁.held ++ (used₁ ++ used₂) = Frame.wires frames₁ ++ (d₂.held ++ used₂) := by
          rw [← List.append_assoc, h₁.bytes, List.append_assoc]
      _ = Frame.wires (frames₁ ++ frames₂) ++ d₃.held := by
          rw [h₂.bytes, ← List.append_assoc, Frame.wires, Frame.wires, Frame.wires,
            List.flatMap_append]
  counted := by
    rw [h₂.counted, h₁.counted, List.length_append, UInt64.ofNat_add, UInt64.add_assoc]

/-- A byte that completes a frame and leaves nothing behind. -/
theorem Accounts.frame {before after : Decoder} {b : UInt8} {f : Frame}
    (hwire : Frame.wire f.payload = before.held ++ [b]) (hidle : after.phase = .idle)
    (hcounted : after.stats.consumed = before.stats.consumed + 1) :
    Accounts before [b] [f] after where
  bytes := by
    have hheld : after.held = [] := by
      rw [held, hidle]
      rfl
    rw [← hwire, hheld, List.append_nil, Frame.wires, List.flatMap_singleton]
  counted := hcounted

/-! ## One feed -/

/-- A feed takes its chunk from the head. It takes all of it if it succeeds, and at least a byte if
it fails. -/
theorem Takes.accounts {sink : Sink σ} {d : Decoder} {s : σ} {chunk : List UInt8}
    {frames : List Frame} {fed : Fed σ} (h : Takes sink d s chunk frames fed) :
    ∃ used rest, chunk = used ++ rest ∧ Accounts d used frames fed.decoder ∧
      (∀ n, fed.result = .ok n → rest = []) ∧ (∀ e, fed.result = .error e → used ≠ []) := by
  induction h with
  | @nil d s ready =>
    refine ⟨[], [], rfl, .refl d, fun _ _ => rfl, ?_⟩
    rintro e ⟨⟩
  | @kept d s b rest frames fed phase ready held more ih =>
    obtain ⟨used, left, rfl, haccounts, hok, -⟩ := ih
    have hbyte : Accounts d [b] [] ⟨phase, d.maxFrameSize, false, d.stats.consume 1⟩ :=
      ⟨held.symm, rfl⟩
    exact ⟨b :: used, left, rfl, hbyte.trans haccounts, hok, fun _ _ => List.cons_ne_nil _ _⟩
  | @accepted d s s' b rest payload frames fed ready wire allowed taken more ih =>
    obtain ⟨used, left, rfl, haccounts, hok, -⟩ := ih
    have hbyte : Accounts d [b] [⟨d.stats.frames, payload⟩] (d.next payload.length) :=
      .frame wire rfl rfl
    refine ⟨b :: used, left, rfl, hbyte.trans haccounts, ?_, fun _ _ => List.cons_ne_nil _ _⟩
    intro n hn
    obtain ⟨k, hk, -⟩ := Fed.after_eq_ok_iff.mp hn
    exact hok k hk
  | @refused d s s' b rest payload e ready wire allowed refusal =>
    refine ⟨[b], rest, rfl, .frame wire rfl rfl, ?_, fun _ _ => List.cons_ne_nil _ _⟩
    rintro n ⟨⟩
  | @rejected d s b rest declared ready wire exceeds =>
    -- The refused prefix is still held.
    have hbyte : Accounts d [b] []
        ⟨.header (.whole declared), d.maxFrameSize, true, d.stats.consume 1⟩ := ⟨wire.symm, rfl⟩
    refine ⟨[b], rest, rfl, hbyte, ?_, fun _ _ => List.cons_ne_nil _ _⟩
    rintro n ⟨⟩

/-- The frames of a feed are numbered from the decoder's count of frames. -/
theorem Takes.sequence_eq {sink : Sink σ} {d : Decoder} {s : σ} {chunk : List UInt8}
    {frames : List Frame} {fed : Fed σ} (h : Takes sink d s chunk frames fed) :
    frames.map Frame.sequence =
      (List.range frames.length).map fun i => d.stats.frames + UInt64.ofNat i := by
  induction h with
  | nil => rfl
  | kept ready held more ih => exact ih
  | @accepted d s s' b rest payload frames fed ready wire allowed taken more ih =>
    -- The frames that follow are numbered from a count that is one higher.
    have hcount : ∀ i, (d.next payload.length).stats.frames + UInt64.ofNat i =
        d.stats.frames + UInt64.ofNat (i + 1) := by
      intro i
      rw [show (d.next payload.length).stats.frames = d.stats.frames + 1 from rfl, Nat.add_comm i,
        UInt64.ofNat_add, UInt64.add_assoc]
      rfl
    simp only [hcount] at ih
    rw [List.map_cons, ih, List.length_cons, List.range_succ_eq_map, List.map_cons, List.map_map]
    simp [Function.comp_def]
  | refused => simp
  | rejected => rfl

/-- The frames of a feed are counted. -/
theorem Takes.frames_counted {sink : Sink σ} {d : Decoder} {s : σ} {chunk : List UInt8}
    {frames : List Frame} {fed : Fed σ} (h : Takes sink d s chunk frames fed) :
    fed.decoder.stats.frames = d.stats.frames + UInt64.ofNat frames.length := by
  induction h with
  | nil => exact (UInt64.add_zero _).symm
  | kept ready held more ih => exact ih
  | @accepted d s s' b rest payload frames fed ready wire allowed taken more ih =>
    have hnext : (d.next payload.length).stats.frames = d.stats.frames + 1 := rfl
    rw [hnext, UInt64.add_assoc] at ih
    rw [List.length_cons, Nat.add_comm, UInt64.ofNat_add]
    exact ih
  | refused => rfl
  | rejected => exact (UInt64.add_zero _).symm

/-- Every frame takes at least a byte of the chunk. -/
theorem Takes.length_frames_le {sink : Sink σ} {d : Decoder} {s : σ} {chunk : List UInt8}
    {frames : List Frame} {fed : Fed σ} (h : Takes sink d s chunk frames fed) :
    frames.length ≤ chunk.length := by
  induction h with
  | nil => exact le_rfl
  | kept ready held more ih => exact Nat.le_succ_of_le ih
  | accepted ready wire allowed taken more ih => exact Nat.succ_le_succ ih
  | refused => exact Nat.succ_le_succ (Nat.zero_le _)
  | rejected => exact Nat.zero_le _

/-- Frames that are numbered from a count are numbered by consecutive numbers, as far as the counter
has room. -/
theorem toNat_sequences {frames : List Frame} {count : UInt64}
    (hnumbers : frames.map Frame.sequence =
      (List.range frames.length).map fun i => count + UInt64.ofNat i)
    (hroom : count.toNat + frames.length ≤ 2 ^ 64) :
    frames.map (fun f => f.sequence.toNat) = List.range' count.toNat frames.length := by
  have htoNat := congrArg (List.map UInt64.toNat) hnumbers
  rw [List.map_map, List.map_map] at htoNat
  rw [List.range'_eq_map_range]
  refine htoNat.trans (List.map_congr_left ?_)
  intro i hi
  have hlt := List.mem_range.mp hi
  rw [Function.comp_apply, UInt64.toNat_add, UInt64.toNat_ofNat']
  omega

/-- A first feed that is short enough for the counter numbers its frames from zero. -/
theorem Takes.numbered {sink : Sink σ} {d : Decoder} {s : σ} {chunk : List UInt8}
    {frames : List Frame} {fed : Fed σ} (h : Takes sink d s chunk frames fed)
    (hfirst : d.stats.frames = 0) (hfed : chunk.length < 2 ^ 64) :
    frames.map (fun f => f.sequence.toNat) = List.range frames.length := by
  have hfew := h.length_frames_le
  have hzero : d.stats.frames.toNat = 0 := by
    rw [hfirst]
    rfl
  -- There are no more frames than bytes, so the counter has room.
  rw [toNat_sequences h.sequence_eq (by omega), hzero, List.range_eq_range']

/-! ## Sequences of calls -/

/-- The chunks of the calls up to and including the first that fails, as one stream. -/
def incoming (d : Decoder) : List Call → List UInt8
  | [] => []
  | c :: calls =>
    c.chunk ++
      match (d.call c).result with
      | .ok _ => (d.call c).decoder.incoming calls
      | .error _ => []

/-- The frames that the calls hand to their sinks, refused ones included. -/
def handed (d : Decoder) : List Call → List Frame
  | [] => []
  | c :: calls => d.offered c.sink c.state c.chunk ++ (d.call c).decoder.handed calls

/-- Every one of the calls succeeds. -/
def AllSucceed (d : Decoder) : List Call → Prop
  | [] => True
  | c :: calls => (∃ n, (d.call c).result = .ok n) ∧ (d.call c).decoder.AllSucceed calls

/-- A poisoned decoder hands out nothing. -/
theorem handed_of_poisoned {d : Decoder} (hd : d.poisoned = true) (calls : List Call) :
    d.handed calls = [] := by
  induction calls with
  | nil => rfl
  | cons c calls ih =>
    rw [handed, offered_of_poisoned hd, call, feed_of_poisoned hd, ih, List.append_nil]

/-- Calls that do not leave the decoder poisoned have all succeeded. -/
theorem Ready.allSucceed {d : Decoder} (hd : d.Ready) {calls : List Call}
    (hsound : (d.afterCalls calls).poisoned = false) : d.AllSucceed calls := by
  induction calls generalizing d with
  | nil => trivial
  | cons c calls ih =>
    have htakes : Takes c.sink d c.state c.chunk (d.offered c.sink c.state c.chunk) (d.call c) :=
      hd.takes c.sink c.state c.chunk
    rw [afterCalls] at hsound
    rcases hresult : (d.call c).result with e | n
    · have hpoisoned := (htakes.error_failed hresult).poisoned_eq
      rw [afterCalls_of_poisoned hpoisoned, hpoisoned] at hsound
      cases hsound
    · exact ⟨⟨n, hresult⟩, ih (htakes.ok_ready hresult).1 hsound⟩

/-- Calls take bytes from the head of what they bring up to the first failure, and all of it if none
fails. -/
theorem Ready.accounts_calls {d : Decoder} (hd : d.Ready) (calls : List Call) :
    ∃ used rest, d.incoming calls = used ++ rest ∧
      Accounts d used (d.handed calls) (d.afterCalls calls) ∧
      (d.AllSucceed calls → rest = [] ∧ d.incoming calls = calls.flatMap Call.chunk) := by
  induction calls generalizing d with
  | nil => exact ⟨[], [], rfl, .refl d, fun _ => ⟨rfl, rfl⟩⟩
  | cons c calls ih =>
    have htakes : Takes c.sink d c.state c.chunk (d.offered c.sink c.state c.chunk) (d.call c) :=
      hd.takes c.sink c.state c.chunk
    obtain ⟨used, rest, hchunk, haccounts, hok, -⟩ := htakes.accounts
    rw [incoming, handed, afterCalls, AllSucceed]
    rcases hresult : (d.call c).result with e | n
    · -- The decoder is poisoned, and the other calls change nothing.
      have hpoisoned := (htakes.error_failed hresult).poisoned_eq
      rw [handed_of_poisoned hpoisoned, afterCalls_of_poisoned hpoisoned]
      simp only [List.append_nil]
      refine ⟨used, rest, hchunk, haccounts, ?_⟩
      rintro ⟨⟨n, hn⟩, -⟩
      cases hn
    · -- All of the chunk is taken, and the next call goes on behind it.
      obtain rfl := hok n hresult
      obtain ⟨used', rest', hincoming, haccounts', hall⟩ := ih (htakes.ok_ready hresult).1
      rw [List.append_nil] at hchunk
      refine ⟨used ++ used', rest', ?_, haccounts.trans haccounts', ?_⟩
      · rw [hchunk, List.append_assoc, ← hincoming]
      · rintro ⟨-, hothers⟩
        obtain ⟨hrest, hbytes⟩ := hall hothers
        exact ⟨hrest, by rw [List.flatMap_cons, ← hbytes]⟩

/-- The frames that calls hand out are numbered from the decoder's count of frames, and counted. -/
theorem Ready.sequence_handed {d : Decoder} (hd : d.Ready) (calls : List Call) :
    (d.handed calls).map Frame.sequence =
        ((List.range (d.handed calls).length).map fun i => d.stats.frames + UInt64.ofNat i) ∧
      (d.afterCalls calls).stats.frames =
        d.stats.frames + UInt64.ofNat (d.handed calls).length := by
  induction calls generalizing d with
  | nil => exact ⟨rfl, (UInt64.add_zero _).symm⟩
  | cons c calls ih =>
    have htakes : Takes c.sink d c.state c.chunk (d.offered c.sink c.state c.chunk) (d.call c) :=
      hd.takes c.sink c.state c.chunk
    have hnumbers := htakes.sequence_eq
    have hcounted := htakes.frames_counted
    rw [handed, afterCalls]
    rcases hresult : (d.call c).result with e | n
    · have hpoisoned := (htakes.error_failed hresult).poisoned_eq
      rw [handed_of_poisoned hpoisoned, afterCalls_of_poisoned hpoisoned, List.append_nil]
      exact ⟨hnumbers, hcounted⟩
    · -- The frames of the other calls are numbered from a count that includes those of the first.
      obtain ⟨hothers, hcounted'⟩ := ih (htakes.ok_ready hresult).1
      rw [hcounted] at hothers hcounted'
      rw [List.map_append, List.length_append, List.range_add, List.map_append, hnumbers, hothers,
        hcounted', List.map_map]
      constructor
      · congr 1
        refine List.map_congr_left fun i _ => ?_
        rw [Function.comp_apply, UInt64.ofNat_add, UInt64.add_assoc]
      · rw [UInt64.ofNat_add, UInt64.add_assoc]

/-- What comes in up to the first failure is part of all that is fed. -/
theorem length_incoming_le (d : Decoder) (calls : List Call) :
    (d.incoming calls).length ≤ (calls.flatMap Call.chunk).length := by
  induction calls generalizing d with
  | nil => exact le_rfl
  | cons c calls ih =>
    rw [incoming, List.flatMap_cons, List.length_append, List.length_append]
    refine Nat.add_le_add_left ?_ _
    rcases (d.call c).result with e | n
    · exact Nat.zero_le _
    · exact ih _

/-- Encoding undoes decoding, at every point of every life of a decoder. Of the bytes that came in
up to and including the first feed that failed, those taken are the wire forms of all frames handed
out, refused ones included, and then the bytes held: the arrived part of a length prefix, all of it
if it was refused, or a declared length and the arrived part of the payload. As long as no feed has
failed the bytes taken are all the bytes that were fed. -/
theorem take_consumed_eq_wires_append_held (max : UInt32) (calls : List Call)
    (hfed : (calls.flatMap Call.chunk).length < 2 ^ 64) :
    let start := fresh max
    let now := start.afterCalls calls
    now.stats.consumed.toNat ≤ (start.incoming calls).length ∧
      (start.incoming calls).take now.stats.consumed.toNat =
        Frame.wires (start.handed calls) ++ now.held ∧
      (start.AllSucceed calls →
        now.stats.consumed.toNat = (calls.flatMap Call.chunk).length ∧
          calls.flatMap Call.chunk = Frame.wires (start.handed calls) ++ now.held) := by
  intro start now
  obtain ⟨used, rest, hincoming, haccounts, hall⟩ := (ready_fresh max).accounts_calls calls
  have hlength : (start.incoming calls).length = used.length + rest.length := by
    rw [hincoming, List.length_append]
  have hle := length_incoming_le start calls
  -- The counter starts at zero and has no room to wrap.
  have hconsumed : now.stats.consumed.toNat = used.length := by
    have hcounted : now.stats.consumed = 0 + UInt64.ofNat used.length := haccounts.counted
    rw [hcounted, UInt64.zero_add, UInt64.toNat_ofNat', Nat.mod_eq_of_lt (by omega)]
  have hbytes : used = Frame.wires (start.handed calls) ++ now.held := haccounts.bytes
  refine ⟨by omega, ?_, ?_⟩
  · rw [hconsumed, hincoming, List.take_left, hbytes]
  · intro hsucceed
    obtain ⟨rfl, hfedAll⟩ := hall hsucceed
    rw [hconsumed, ← hfedAll, hincoming, List.append_nil]
    exact ⟨rfl, hbytes⟩

/-- Three calls with a maximum of 2: a frame, an empty frame that the second sink refuses with more
behind it, and a call that comes too late. -/
theorem take_consumed_eq_wires_append_held_refused :
    let calls : List Call :=
      [⟨Array Frame, Sink.collect, #[], [1, 0, 0, 0, 9, 0, 0]⟩,
        ⟨Array Frame, Sink.collectUpTo 0 .sinkClosed, #[], [0, 0, 7, 7]⟩,
        ⟨Array Frame, Sink.collect, #[], [5]⟩]
    let start := fresh 2
    let now := start.afterCalls calls
    (calls.flatMap Call.chunk).length < 2 ^ 64 ∧
      start.incoming calls = [1, 0, 0, 0, 9, 0, 0, 0, 0, 7, 7] ∧
      now.stats.consumed.toNat = 9 ∧ start.handed calls = [⟨0, [9]⟩, ⟨1, []⟩] ∧ now.held = [] ∧
      (start.incoming calls).take now.stats.consumed.toNat =
        Frame.wires (start.handed calls) ++ now.held := by
  refine ⟨by decide, rfl, rfl, rfl, rfl, ?_⟩
  exact (take_consumed_eq_wires_append_held 2 _ (by decide)).2.1

end Decoder

end PrefixFraming
