import PrefixFraming.Proofs.Parsing

/-!
# The bytes decide

What a decoder that is ready does with a chunk depends on the bytes that it holds, on the bytes of
the chunk, and on the answers of the sink. `Takes` speaks of nothing else, and it leaves no choice.
Two decoders that are ready and hold the same bytes are in the same phase
(`Ready.phase_eq_of_held`), and the bytes held say which way the next byte goes
(`Received.unique`): the parser finds a payload in them, or a length above the maximum, or neither.
So what `Takes` relates to a chunk is what the feed comes to (`Takes.eq_feed`).

To find out what a feed comes to it is therefore enough to say for each byte which way it goes. This
is how the feeds of two decoders, or of one decoder with two sinks, are compared: the bytes go the
same way in both.
-/

namespace PrefixFraming

open LengthPrefix (Partial encode)

namespace LengthPrefix

/-- Different lengths have different prefixes. -/
theorem encode_injective {m n : UInt32} (h : encode m = encode n) : m = n := by
  have hm := decode?_encode_append m []
  have hn := decode?_encode_append n []
  rw [List.append_nil] at hm hn
  rw [← h, hm] at hn
  exact Option.some.inj hn

/-- Two parts of a prefix that hold the same bytes are the same. -/
theorem Partial.Placed.eq_of_bytes {p q : Partial} (hp : p.Placed) (hq : q.Placed)
    (hfree : p.collected < size) (hbytes : p.bytes = q.bytes) : p = q := by
  have hlength : p.collected = q.collected := by
    rw [← hp.length_bytes, ← hq.length_bytes, hbytes]
  have hplow := hp.accumulated_lt
  have hqlow := hq.accumulated_lt
  obtain ⟨c, m⟩ := p
  obtain ⟨c', n⟩ := q
  obtain rfl : c = c' := hlength
  have hc : c = 0 ∨ c = 1 ∨ c = 2 ∨ c = 3 := Partial.lt_size_cases hfree
  simp only [Partial.bytes, encode_eq] at hbytes
  -- The digits that have arrived are the same, and there are no others.
  have hsame : m.toNat = n.toNat := by
    rcases hc with rfl | rfl | rfl | rfl <;>
      simp [← UInt8.toNat_inj] at hbytes hplow hqlow <;> omega
  rw [UInt32.toNat_inj.mp hsame]

end LengthPrefix

namespace Decoder

variable {σ : Type} {d d₁ d₂ : Decoder}

/-- Two decoders that are ready and hold the same bytes are in the same phase. -/
theorem Ready.phase_eq_of_held (h₁ : d₁.Ready) (h₂ : d₂.Ready) (hheld : d₁.held = d₂.held) :
    d₁.phase = d₂.phase := by
  -- A payload in progress has a whole prefix before it, which a prefix in progress is not.
  have hlong : ∀ (declared : UInt32) (filled : Array UInt8),
      LengthPrefix.size ≤ (encode declared ++ filled.toList).length := by
    intro declared filled
    rw [List.length_append, LengthPrefix.length_encode]
    omega
  cases h₁ with
  | @header p max stats placed free =>
    cases h₂ with
    | @header q max' stats' placed' free' =>
      rw [placed.eq_of_bytes placed' free hheld]
    | @body declared max' filled stats' lacking allowed =>
      have hshort := hlong declared filled
      rw [show encode declared ++ filled.toList = p.bytes from hheld.symm,
        placed.length_bytes] at hshort
      omega
  | @body declared max filled stats lacking allowed =>
    cases h₂ with
    | @header p max' stats' placed free =>
      have hshort := hlong declared filled
      rw [show encode declared ++ filled.toList = p.bytes from hheld, placed.length_bytes] at hshort
      omega
    | @body declared' max' filled' stats' lacking' allowed' =>
      have hbytes : encode declared ++ filled.toList = encode declared' ++ filled'.toList := hheld
      have hdeclared := congrArg LengthPrefix.decode? hbytes
      rw [LengthPrefix.decode?_encode_append, LengthPrefix.decode?_encode_append] at hdeclared
      obtain rfl := Option.some.inj hdeclared
      rw [Array.toList_inj.mp (List.append_cancel_left hbytes)]

/-- What the parser finds in the bytes held and the next one tells which way the byte goes. -/
theorem Received.parse_eq {b : UInt8} {d' : Decoder} {result : Except Error (Option (List UInt8))}
    (h : Received d b d' result) :
    match result with
    | .ok none => d'.Ready ∧ d'.held = d.held ++ [b] ∧
        (Stream.parse d.maxFrameSize (d.held ++ [b])).payloads = [] ∧
        (Stream.parse d.maxFrameSize (d.held ++ [b])).result d.maxFrameSize = .ok 0
    | .ok (some payload) =>
        Stream.parse d.maxFrameSize (d.held ++ [b]) = ⟨[payload], .header []⟩
    | .error _ => ∃ declared,
        Stream.parse d.maxFrameSize (d.held ++ [b]) = ⟨[], .rejected declared⟩ := by
  cases h with
  | kept ready held =>
    obtain ⟨hpayloads, -, hresult⟩ := ready.parse_held
    rw [held] at hpayloads hresult
    exact ⟨ready, held, hpayloads, hresult⟩
  | @completed payload wire allowed =>
    have hrest : Stream.parse d.maxFrameSize [] = ⟨[], .header []⟩ :=
      Stream.parse_of_short (by decide)
    have hframe := Stream.parse_wire_append allowed []
    rw [List.append_nil, hrest, wire] at hframe
    exact hframe
  | @rejected declared wire exceeds =>
    have hprefix := Stream.parse_encode_append d.maxFrameSize declared []
    rw [List.append_nil, if_pos exceeds, wire] at hprefix
    exact ⟨declared, hprefix⟩

/-- A byte can go one way only. -/
theorem Received.unique {b : UInt8} {d' d'' : Decoder}
    {result result' : Except Error (Option (List UInt8))} (h : Received d b d' result)
    (h' : Received d b d'' result') : d' = d'' ∧ result = result' := by
  have hparse := h.parse_eq
  have hparse' := h'.parse_eq
  cases h with
  | @kept phase ready held =>
    obtain ⟨-, -, hpayloads, hresult⟩ := hparse
    cases h' with
    | @kept phase' ready' held' =>
      obtain rfl : phase = phase' := ready.phase_eq_of_held ready' (held.trans held'.symm)
      exact ⟨rfl, rfl⟩
    | completed wire allowed =>
      rw [hparse'] at hpayloads
      cases hpayloads
    | rejected wire exceeds =>
      obtain ⟨declared, hrejected⟩ := hparse'
      rw [hrejected] at hresult
      cases hresult
  | @completed payload wire allowed =>
    cases h' with
    | kept ready held =>
      obtain ⟨-, -, hpayloads, -⟩ := hparse'
      rw [hparse] at hpayloads
      cases hpayloads
    | completed wire' allowed' =>
      rw [hparse] at hparse'
      cases hparse'
      exact ⟨rfl, rfl⟩
    | rejected wire' exceeds =>
      obtain ⟨declared, hrejected⟩ := hparse'
      rw [hparse] at hrejected
      cases hrejected
  | @rejected declared wire exceeds =>
    obtain ⟨declared₁, hrejected⟩ := hparse
    cases h' with
    | kept ready held =>
      obtain ⟨-, -, -, hresult⟩ := hparse'
      rw [hrejected] at hresult
      cases hresult
    | completed wire' allowed =>
      rw [hrejected] at hparse'
      cases hparse'
    | @rejected declared' wire' exceeds' =>
      obtain rfl := LengthPrefix.encode_injective (wire.trans wire'.symm)
      exact ⟨rfl, rfl⟩

/-- Whichever way a byte can go, the decoder takes it that way. -/
theorem Ready.receive_eq (hd : d.Ready) {b : UInt8} {d' : Decoder}
    {result : Except Error (Option (List UInt8))} (h : Received d b d' result) :
    d.receive b = (d', result) := by
  obtain ⟨hdecoder, hresult⟩ := (hd.received b).unique h
  exact Prod.ext hdecoder hresult

/-- What takes a chunk is ready. -/
theorem Takes.ready {sink : Sink σ} {s : σ} {chunk : List UInt8} {frames : List Frame}
    {fed : Fed σ} (h : Takes sink d s chunk frames fed) : d.Ready := by
  cases h <;> assumption

/-- What `Takes` relates to a chunk is what the feed comes to. -/
theorem Takes.eq_feed {sink : Sink σ} {s : σ} {chunk : List UInt8} {frames : List Frame}
    {fed : Fed σ} (h : Takes sink d s chunk frames fed) :
    d.feed sink s chunk = fed ∧ d.offered sink s chunk = frames := by
  induction h with
  | nil ready =>
    rw [offered, ready.feed_nil, ready.feed_nil]
    exact ⟨rfl, rfl⟩
  | @kept d s b rest frames fed phase ready held more ih =>
    have hreceive := ready.receive_eq (.kept more.ready held)
    obtain ⟨hfed, hoffered⟩ := ih
    rw [offered] at hoffered
    rw [offered, ready.feed_cons, ready.feed_cons, takeByte_kept hreceive, takeByte_kept hreceive,
      Fed.ok_andThen, Fed.ok_andThen, Fed.after_zero, Fed.after_zero]
    exact ⟨hfed, hoffered⟩
  | @accepted d s s' b rest payload frames fed ready wire allowed taken more ih =>
    have hreceive := ready.receive_eq (.completed wire allowed)
    obtain ⟨hfed, hoffered⟩ := ih
    -- The recording sink takes the frame as well, with a note of it.
    have hrecording : sink.recording ([], s) ⟨d.stats.frames, payload⟩ =
        (([⟨d.stats.frames, payload⟩], s'), .ok ()) := by simp [Sink.recording, taken]
    rw [offered, ready.feed_cons, ready.feed_cons, takeByte_accepted hreceive taken,
      takeByte_accepted hreceive hrecording, Fed.ok_andThen, Fed.ok_andThen, feed_recording, hfed,
      hoffered]
    exact ⟨rfl, rfl⟩
  | @refused d s s' b rest payload e ready wire allowed refusal =>
    have hreceive := ready.receive_eq (.completed wire allowed)
    have hrecording : sink.recording ([], s) ⟨d.stats.frames, payload⟩ =
        (([⟨d.stats.frames, payload⟩], s'), .error e) := by simp [Sink.recording, refusal]
    rw [offered, ready.feed_cons, ready.feed_cons, takeByte_refused hreceive refusal,
      takeByte_refused hreceive hrecording]
    exact ⟨rfl, rfl⟩
  | @rejected d s b rest declared ready wire exceeds =>
    have hreceive := ready.receive_eq (.rejected wire exceeds)
    rw [offered, ready.feed_cons, ready.feed_cons, takeByte_rejected hreceive,
      takeByte_rejected hreceive]
    exact ⟨rfl, rfl⟩

end Decoder

end PrefixFraming
