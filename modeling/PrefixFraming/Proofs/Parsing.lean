import PrefixFraming.Stream
import PrefixFraming.Proofs.Accounting

/-!
# Decoding is parsing

A decoder that is ready, fed the bytes of a chunk, does what the parser does with the bytes that the
decoder holds and then the chunk (`Takes.parses`). The proof follows the bytes of the feed. One that
is kept moves from the chunk to the bytes held, and the parser sees no difference. One that
completes a frame takes the frame off the head of what the parser reads (`parse_wire_append`). At
the end of the chunk the decoder is left with what the parser leaves (`Ready.parse_held`).

The main theorem is the case of a fresh decoder, which holds nothing, and a stream in any number of
chunks. The chunk that a length above the maximum makes fail is found by counting bytes
(`exists_rejecting_chunk`).
-/

namespace PrefixFraming

open LengthPrefix (encode)

namespace Stream

/-! ## The parser -/

/-- What a decoder that is left with this shows of itself: whether it is idle, how many bytes it
holds, and the declared length of the frame in progress. -/
def Leftover.observed : Leftover → Bool × ℕ × Option UInt32
  | .header bytes => (bytes.isEmpty, bytes.length, none)
  | .body declared bytes => (false, bytes.length, some declared)
  | .rejected _ => (false, LengthPrefix.size, none)

/-- What feeding a stream returns: the number of its payloads unless a length is refused. -/
def Parsed.result (parsed : Parsed) (max : UInt32) : Except Error ℕ :=
  match parsed.leftover with
  | .rejected declared => .error (.frameTooLarge declared max)
  | _ => .ok parsed.payloads.length

/-- A payload more at the head is one more to count. -/
theorem Parsed.result_cons (payload : List UInt8) (payloads : List (List UInt8))
    (leftover : Leftover) (max : UInt32) :
    (Parsed.mk (payload :: payloads) leftover).result max =
      ((Parsed.mk payloads leftover).result max).map (1 + ·) := by
  cases leftover <;> simp [result, Except.map, Nat.add_comm]

/-- A part of a length prefix is left over. -/
theorem parse_of_short {max : UInt32} {stream : List UInt8}
    (h : stream.length < LengthPrefix.size) : parse max stream = ⟨[], .header stream⟩ := by
  rw [parse]
  split
  · rfl
  · rename_i hprefix
    rw [LengthPrefix.decode?_eq_none h] at hprefix
    cases hprefix

/-- What a length prefix announces is refused, is left over, or is cut off. -/
theorem parse_encode_append (max declared : UInt32) (rest : List UInt8) :
    parse max (encode declared ++ rest) =
      if max < declared then ⟨[], .rejected declared⟩
      else if rest.length < declared.toNat then ⟨[], .body declared rest⟩
      else
        ⟨rest.take declared.toNat :: (parse max (rest.drop declared.toNat)).payloads,
          (parse max (rest.drop declared.toNat)).leftover⟩ := by
  have hdrop : (encode declared ++ rest).drop LengthPrefix.size = rest := rfl
  rw [parse]
  split
  · rename_i hprefix
    rw [LengthPrefix.decode?_encode_append] at hprefix
    cases hprefix
  · rename_i n hprefix
    rw [LengthPrefix.decode?_encode_append] at hprefix
    obtain rfl := Option.some.inj hprefix
    rw [hdrop]

/-- A frame at the head of a stream is the first payload. -/
theorem parse_wire_append {max : UInt32} {payload : List UInt8}
    (h : payload.length ≤ max.toNat) (rest : List UInt8) :
    parse max (Frame.wire payload ++ rest) =
      ⟨payload :: (parse max rest).payloads, (parse max rest).leftover⟩ := by
  have hmax := max.toNat_lt
  have hlength : (UInt32.ofNat payload.length).toNat = payload.length := by
    rw [UInt32.toNat_ofNat', Nat.mod_eq_of_lt (by omega)]
  have hallowed : ¬ max < UInt32.ofNat payload.length := by
    rw [UInt32.lt_iff_toNat_lt, hlength]
    omega
  rw [Frame.wire, List.append_assoc, parse_encode_append, if_neg hallowed, hlength,
    if_neg (by simp), List.take_left, List.drop_left]

end Stream

namespace Decoder

variable {σ : Type}

/-! ## The decoder -/

/-- What a decoder holds is what the parser leaves over of it. -/
theorem Ready.parse_held {d : Decoder} (hd : d.Ready) :
    (Stream.parse d.maxFrameSize d.held).payloads = [] ∧
      (d.isIdle, d.buffered, d.pending?) = (Stream.parse d.maxFrameSize d.held).leftover.observed ∧
      (Stream.parse d.maxFrameSize d.held).result d.maxFrameSize = .ok 0 := by
  cases hd with
  | @header p max stats placed free =>
    have hlength := placed.length_bytes
    have hparse : Stream.parse max p.bytes = ⟨[], .header p.bytes⟩ :=
      Stream.parse_of_short (by rw [hlength]; exact free)
    -- No byte is held exactly if none has arrived.
    have hidle : decide (p.collected = 0) = p.bytes.isEmpty := by
      rw [Bool.eq_iff_iff, decide_eq_true_iff, List.isEmpty_iff_length_eq_zero, hlength]
    dsimp only [held]
    rw [hparse]
    refine ⟨rfl, ?_, rfl⟩
    simp only [isIdle, buffered, pending?, Stream.Leftover.observed, hidle, hlength]
  | @body declared max filled stats lacking allowed =>
    have hparse : Stream.parse max (encode declared ++ filled.toList) =
        ⟨[], .body declared filled.toList⟩ := by
      rw [Stream.parse_encode_append, if_neg (UInt32.not_lt.mpr allowed),
        if_pos (by simpa using lacking)]
    dsimp only [held]
    rw [hparse]
    exact ⟨rfl, rfl, rfl⟩

/-- Feeding a decoder that is ready is parsing what it holds and then the chunk. -/
theorem Takes.parses {sink : Sink σ} (haccepts : ∀ s f, (sink s f).2 = .ok ()) {d : Decoder} {s : σ}
    {chunk : List UInt8} {frames : List Frame} {fed : Fed σ}
    (h : Takes sink d s chunk frames fed) :
    frames.map Frame.payload = (Stream.parse d.maxFrameSize (d.held ++ chunk)).payloads ∧
      (fed.decoder.isIdle, fed.decoder.buffered, fed.decoder.pending?) =
        (Stream.parse d.maxFrameSize (d.held ++ chunk)).leftover.observed ∧
      fed.result = (Stream.parse d.maxFrameSize (d.held ++ chunk)).result d.maxFrameSize := by
  induction h with
  | @nil d s ready =>
    rw [List.append_nil]
    obtain ⟨hpayloads, hobserved, hresult⟩ := ready.parse_held
    exact ⟨hpayloads.symm, hobserved, hresult.symm⟩
  | @kept d s b rest frames fed phase ready held more ih =>
    -- The byte moves from the chunk to the bytes held.
    rw [held, List.append_assoc] at ih
    exact ih
  | @accepted d s s' b rest payload frames fed ready wire allowed taken more ih =>
    obtain ⟨hpayloads, hobserved, hresult⟩ := ih
    have hheld : (d.next payload.length).held = [] := rfl
    have hmax : (d.next payload.length).maxFrameSize = d.maxFrameSize := rfl
    rw [hheld, hmax, List.nil_append] at hpayloads hobserved hresult
    -- The bytes held and this one are the frame that the parser reads first.
    rw [List.append_cons, ← wire, Stream.parse_wire_append allowed]
    refine ⟨?_, hobserved, ?_⟩
    · rw [List.map_cons, hpayloads]
    · rw [Stream.Parsed.result_cons, Fed.after, hresult]
  | @refused d s s' b rest payload e ready wire allowed refusal =>
    have hok := haccepts s ⟨d.stats.frames, payload⟩
    rw [refusal] at hok
    cases hok
  | @rejected d s b rest declared ready wire exceeds =>
    rw [List.append_cons, ← wire, Stream.parse_encode_append, if_pos exceeds]
    exact ⟨rfl, rfl, rfl⟩

/-- A decoder that fails with a sink that accepts everything holds the length prefix that it
refuses. -/
theorem Failed.length_held {d : Decoder} (hd : d.Failed) (hidle : d.isIdle = false) :
    d.held.length = LengthPrefix.size := by
  cases hd with
  | rejected exceeds => rfl
  | refused => cases hidle

/-- The bytes of a list of frames are those of their payloads. -/
theorem wires_eq_flatMap_wire (frames : List Frame) :
    Frame.wires frames = (frames.map Frame.payload).flatMap Frame.wire := by
  rw [Frame.wires, List.flatMap_map]

/-- Where a feed of chunks in order fails: the failing chunk contains the last byte of the refused
length prefix, which stands behind the frames handed out. -/
theorem exists_rejecting_chunk {d : Decoder} (hd : d.Reachable) (hready : d.Ready) {sink : Sink σ}
    {s : σ} {chunks : List (List UInt8)} {e : Error}
    (herror : (d.feedAll sink s chunks).result = .error e)
    (hidle : (d.feedAll sink s chunks).decoder.isIdle = false) :
    ∃ before chunk after k, chunks = before ++ chunk :: after ∧
      (d.feedAll sink s before).result = .ok k ∧
      ((d.feedAll sink s before).decoder.feed sink (d.feedAll sink s before).sink chunk).result =
        .error e ∧
      d.held.length + before.flatten.length <
        (Frame.wires (d.offeredAll sink s chunks)).length + LengthPrefix.size ∧
      (Frame.wires (d.offeredAll sink s chunks)).length + LengthPrefix.size ≤
        d.held.length + before.flatten.length + chunk.length := by
  obtain ⟨before, chunk, after, k, rfl, hok, hfails, hsame⟩ := exists_of_feedAll_error herror
  refine ⟨before, chunk, after, k, rfl, hok, hfails, ?_⟩
  have hbefore := hd.feedAll_eq_feed_flatten sink s before fun _ => hready.poisoned_eq
  rw [hsame] at hidle
  rw [hbefore] at hok hfails hidle
  -- All of the chunks before the failing one is taken, and at least a byte of that.
  have htakes := hready.takes sink s before.flatten
  obtain ⟨used, rest, hused, haccounts, hrest, -⟩ := htakes.accounts
  obtain rfl := hrest k hok
  rw [List.append_nil] at hused
  subst hused
  have htakes' := (htakes.ok_ready hok).1.takes sink (d.feed sink s before.flatten).sink chunk
  obtain ⟨used', rest', rfl, haccounts', -, hsome⟩ := htakes'.accounts
  have hpos := List.length_pos_iff.mpr (hsome e hfails)
  -- What has been handed out by then is all that is handed out.
  have hoffered : d.offeredAll sink s (before ++ (used' ++ rest') :: after) =
      d.offered sink s before.flatten ++
        (d.feed sink s before.flatten).decoder.offered sink (d.feed sink s before.flatten).sink
          (used' ++ rest') := by
    have hboth : (d.feed sink s (before.flatten ++ (used' ++ rest'))).result = .error e := by
      rw [hd.feed_append, Fed.andThen_of_ok hok, Fed.after, hfails]
      rfl
    rw [hd.offeredAll_eq_offered_flatten sink s _ fun _ => hready.poisoned_eq, List.flatten_append,
      List.flatten_cons, ← List.append_assoc, hd.offered_append_of_error hboth,
      hd.offered_append_of_ok hok]
  -- What is held at the end is the refused prefix, so its last byte is the last that was taken.
  have hlength := congrArg List.length (haccounts.trans haccounts').bytes
  rw [List.length_append, List.length_append, List.length_append,
    (htakes'.error_failed hfails).length_held hidle, ← hoffered] at hlength
  rw [List.length_append]
  omega

/-- The decoder refines the parser. A stream that is cut into chunks anywhere, and fed to a fresh
decoder with a sink that accepts everything, brings the sink the payloads that the parser finds in
the whole stream, numbered from zero. If the parser comes to a length above the maximum, then the
chunk that contains the last byte of its prefix fails with that length, behind chunks that succeed.
Otherwise all feeds succeed, and together they count every payload. What the decoder then shows of
itself is what the parser leaves over. -/
theorem feedAll_refines_parse (max : UInt32) (chunks : List (List UInt8)) {sink : Sink σ}
    (haccepts : ∀ s f, (sink s f).2 = .ok ()) (s : σ) (hfed : chunks.flatten.length < 2 ^ 64) :
    let parsed := Stream.parse max chunks.flatten
    let start := fresh max
    let fed := start.feedAll sink s chunks
    let frames := start.offeredAll sink s chunks
    frames.map Frame.payload = parsed.payloads ∧
      frames.map (fun f => f.sequence.toNat) = List.range parsed.payloads.length ∧
      (fed.decoder.isIdle, fed.decoder.buffered, fed.decoder.pending?) =
        parsed.leftover.observed ∧
      ((∀ declared, parsed.leftover ≠ .rejected declared) →
        fed.result = .ok parsed.payloads.length) ∧
      ∀ declared, parsed.leftover = .rejected declared →
        fed.result = .error (.frameTooLarge declared max) ∧
          ∃ before chunk after k, chunks = before ++ chunk :: after ∧
            let reached := start.feedAll sink s before
            reached.result = .ok k ∧
              (reached.decoder.feed sink reached.sink chunk).result =
                .error (.frameTooLarge declared max) ∧
              before.flatten.length <
                (parsed.payloads.flatMap Frame.wire).length + LengthPrefix.size ∧
              (parsed.payloads.flatMap Frame.wire).length + LengthPrefix.size ≤
                before.flatten.length + chunk.length := by
  intro parsed start fed frames
  have hready : start.Ready := ready_fresh max
  have hreachable : start.Reachable := .fresh max
  have hfedEq : fed = start.feed sink s chunks.flatten :=
    hreachable.feedAll_eq_feed_flatten sink s chunks fun _ => rfl
  have hframesEq : frames = start.offered sink s chunks.flatten :=
    hreachable.offeredAll_eq_offered_flatten sink s chunks fun _ => rfl
  have htakes := hready.takes sink s chunks.flatten
  rw [← hfedEq, ← hframesEq] at htakes
  obtain ⟨hpayloads, hobserved, hresult⟩ : frames.map Frame.payload = parsed.payloads ∧
      (fed.decoder.isIdle, fed.decoder.buffered, fed.decoder.pending?) = parsed.leftover.observed ∧
      fed.result = parsed.result max := htakes.parses haccepts
  have hlength : frames.length = parsed.payloads.length := by
    rw [← hpayloads, List.length_map]
  refine ⟨hpayloads, ?_, hobserved, ?_, ?_⟩
  · rw [← hlength]
    exact htakes.numbered rfl hfed
  · intro hnone
    rw [hresult, Stream.Parsed.result]
    split
    · rename_i declared hleft
      exact absurd hleft (hnone declared)
    · rfl
  · -- A refused prefix is held, so the decoder is not idle, and some chunk brought its last byte.
    intro declared hleft
    have hfails : fed.result = .error (.frameTooLarge declared max) := by
      rw [hresult, Stream.Parsed.result, hleft]
    have hidle : fed.decoder.isIdle = false := by
      rw [hleft] at hobserved
      exact congrArg Prod.fst hobserved
    obtain ⟨before, chunk, after, k, hchunks, hok, herror, hafter, hwithin⟩ :=
      exists_rejecting_chunk hreachable hready hfails hidle
    have hwires : (Frame.wires (start.offeredAll sink s chunks)).length =
        (parsed.payloads.flatMap Frame.wire).length := by
      rw [wires_eq_flatMap_wire, hpayloads]
    have hheld : start.held.length = 0 := rfl
    refine ⟨hfails, before, chunk, after, k, hchunks, hok, herror, ?_, ?_⟩ <;> omega

/-- A stream in five pieces, with a maximum of 2: a frame, an empty frame, and a length of 3, of
which the last byte is in the fifth piece. -/
theorem feedAll_refines_parse_rejected :
    let chunks : List (List UInt8) := [[1, 0], [0, 0, 9], [], [0, 0, 0, 0, 3, 0], [0, 0, 7]]
    let start := fresh 2
    let fed := start.feedAll Sink.collect #[] chunks
    (∀ s f, (Sink.collect s f).2 = .ok ()) ∧ chunks.flatten.length < 2 ^ 64 ∧
      Stream.parse 2 chunks.flatten = ⟨[[9], []], .rejected 3⟩ ∧
      start.offeredAll Sink.collect #[] chunks = [⟨0, [9]⟩, ⟨1, []⟩] ∧
      (fed.decoder.isIdle, fed.decoder.buffered, fed.decoder.pending?) = (false, 4, none) ∧
      fed.result = .error (.frameTooLarge 3 2) := by
  intro chunks start fed
  have haccepts : ∀ s f, (Sink.collect s f).2 = .ok () := fun _ _ => rfl
  have hparse : Stream.parse 2 chunks.flatten = ⟨[[9], []], .rejected 3⟩ := by
    have hwire : chunks.flatten =
        Frame.wire [9] ++ (Frame.wire [] ++ (encode 3 ++ [7])) := rfl
    rw [hwire, Stream.parse_wire_append (by decide), Stream.parse_wire_append (by decide),
      Stream.parse_encode_append, if_pos (by decide)]
  obtain ⟨-, -, hobserved, -, hrejected⟩ :=
    feedAll_refines_parse 2 chunks haccepts #[] (by decide)
  rw [hparse] at hobserved hrejected
  exact ⟨haccepts, by decide, hparse, rfl, hobserved, (hrejected 3 rfl).1⟩

end Decoder

end PrefixFraming
