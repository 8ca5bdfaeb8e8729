import PrefixFraming.Proofs.Representation

/-!
# Decoding undoes encoding

A decoder that has stopped anywhere in a stream, and is fed the rest of the frame in progress and
then whole frames, hands out exactly their payloads. The bytes held and the bytes to come are then
wire forms one after the other, which the parser cuts into the payloads and nothing more
(`Stream.parse_wires`), so a feed of them succeeds and leaves nothing over (`Ready.feed_wires`).

Frames are also handed out as early as they can be. After a part of the stream the frames handed out
are those whose last byte has been fed (`Ready.lastByte_le_iff`): the bytes held make up less than a
frame, so the frame that comes next ends behind the part, and the one before it within. For two
parts that differ by a chunk this says which frames the chunk brings.
-/

namespace PrefixFraming

namespace Stream

/-- How many bytes come before the end of the frame at place `j`: its own and those of the frames
before it. -/
def lastByte (payloads : List (List UInt8)) (j : ℕ) : ℕ :=
  ((payloads.take (j + 1)).flatMap Frame.wire).length

/-- Frames further behind end further behind. -/
theorem lastByte_mono (payloads : List (List UInt8)) {i j : ℕ} (h : i ≤ j) :
    lastByte payloads i ≤ Stream.lastByte payloads j := by
  have hhead : payloads.take (i + 1) <+: payloads.take (j + 1) :=
    List.take_prefix_take_left (by omega)
  obtain ⟨more, hmore⟩ := hhead
  rw [lastByte, lastByte, ← hmore, List.flatMap_append, List.length_append]
  omega

/-- Among the first frames a frame ends where they end at the latest. -/
theorem lastByte_le_of_lt (front back : List (List UInt8)) {j : ℕ} (h : j < front.length) :
    lastByte (front ++ back) j ≤ (front.flatMap Frame.wire).length := by
  obtain ⟨more, hmore⟩ := List.take_prefix (j + 1) front
  rw [lastByte, List.take_append_of_le_length h]
  calc ((front.take (j + 1)).flatMap Frame.wire).length
      ≤ ((front.take (j + 1) ++ more).flatMap Frame.wire).length := by
        rw [List.flatMap_append, List.length_append]
        omega
    _ = (front.flatMap Frame.wire).length := by rw [hmore]

/-- The frame behind the first frames ends where it has been added to them. -/
theorem lastByte_length (front back : List (List UInt8)) (payload : List UInt8) :
    lastByte (front ++ payload :: back) front.length =
      (front.flatMap Frame.wire).length + (Frame.wire payload).length := by
  have htake : (front ++ payload :: back).take (front.length + 1) = front ++ [payload] := by
    rw [List.take_length_add_append, List.take_succ_cons, List.take_zero]
  rw [lastByte, htake, List.flatMap_append, List.flatMap_singleton, List.length_append]

/-- The parser undoes encoding. -/
theorem parse_wires {max : UInt32} {payloads : List (List UInt8)}
    (hallowed : ∀ p ∈ payloads, p.length ≤ max.toNat) :
    parse max (payloads.flatMap Frame.wire) = ⟨payloads, .header []⟩ := by
  induction payloads with
  | nil => exact parse_of_short (by decide)
  | cons p payloads ih =>
    rw [List.flatMap_cons, parse_wire_append (hallowed p List.mem_cons_self),
      ih fun q hq => hallowed q (List.mem_cons_of_mem p hq)]

end Stream

namespace Decoder

variable {σ : Type}

/-! ## The rest of a stream -/

/-- What the frame in progress lacks: the bytes `rest`, with which it comes to the payloads `first`.
These are one payload, or none if no frame is in progress. -/
inductive Lacks (d : Decoder) : (first : List (List UInt8)) → (rest : List UInt8) → Prop where
  /-- Between two frames nothing is lacking. -/
  | nothing (idle : d.isIdle = true) : Lacks d [] []
  /-- The bytes held are the first of a frame, and not all of it. -/
  | rest {payload rest : List UInt8} (allowed : payload.length ≤ d.maxFrameSize.toNat)
      (wire : Frame.wire payload = d.held ++ rest) (proper : rest ≠ []) : Lacks d [payload] rest

/-- A decoder that is idle and ready holds nothing. -/
theorem Ready.held_of_isIdle {d : Decoder} (hd : d.Ready) (hidle : d.isIdle = true) :
    d.held = [] := by
  have hphase : d.phase = .header ⟨0, 0⟩ := hd.represented.idle hidle
  rw [held, hphase]
  rfl

/-- What a decoder holds and what it lacks are the wire form of the first payloads. -/
theorem Lacks.held_append {d : Decoder} {first : List (List UInt8)} {rest : List UInt8}
    (h : d.Lacks first rest) (hd : d.Ready) : d.held ++ rest = first.flatMap Frame.wire := by
  cases h with
  | nothing idle => rw [hd.held_of_isIdle idle, List.append_nil, List.flatMap_nil]
  | rest allowed wire proper => rw [List.flatMap_singleton, wire]

/-- The first payloads are not too long. -/
theorem Lacks.allowed {d : Decoder} {first : List (List UInt8)} {rest : List UInt8}
    (h : d.Lacks first rest) : ∀ p ∈ first, p.length ≤ d.maxFrameSize.toNat := by
  cases h with
  | nothing idle => simp
  | rest allowed wire proper => simpa using allowed

/-! ## One feed -/

variable {d : Decoder} {sink : Sink σ} {payloads : List (List UInt8)}

/-- If what is held and what is fed are wire forms, then their payloads are handed out and nothing
is left over. -/
theorem Ready.feed_wires (hd : d.Ready) (haccepts : ∀ s f, (sink s f).2 = .ok ()) (s : σ)
    {chunk : List UInt8} (hallowed : ∀ p ∈ payloads, p.length ≤ d.maxFrameSize.toNat)
    (hwires : d.held ++ chunk = payloads.flatMap Frame.wire) :
    (d.offered sink s chunk).map Frame.payload = payloads ∧
      (d.feed sink s chunk).result = .ok payloads.length ∧
      (d.feed sink s chunk).decoder.isIdle = true ∧
      (d.feed sink s chunk).decoder.buffered = 0 ∧
      (d.feed sink s chunk).decoder.pending? = none := by
  obtain ⟨hpayloads, hobserved, hresult⟩ := (hd.takes sink s chunk).parses haccepts
  rw [hwires, Stream.parse_wires hallowed] at hpayloads hobserved hresult
  have hleft : (Stream.Leftover.header []).observed = (true, 0, none) := rfl
  rw [hleft, Prod.mk.injEq, Prod.mk.injEq] at hobserved
  obtain ⟨hidle, hbuffered, hpending⟩ := hobserved
  exact ⟨hpayloads, hresult, hidle, hbuffered, hpending⟩

/-- If a stream can be fed without a failure, so can the part it begins with. -/
theorem Ready.ok_of_append_ok (hd : d.Ready) {s : σ} {a b : List UInt8} {n : ℕ}
    (hok : (d.feed sink s (a ++ b)).result = .ok n) : ∃ k, (d.feed sink s a).result = .ok k := by
  rw [hd.feed_append] at hok
  rcases hresult : (d.feed sink s a).result with e | k
  · rw [Fed.andThen_of_error hresult, hresult] at hok
    cases hok
  · exact ⟨k, rfl⟩

/-- What a decoder holds is shorter than the frame that it belongs to. -/
theorem Ready.length_held_lt (hd : d.Ready) {rest more payload : List UInt8}
    (hallowed : payload.length ≤ d.maxFrameSize.toNat)
    (hwire : d.held ++ rest = Frame.wire payload ++ more) :
    d.held.length < (Frame.wire payload).length := by
  by_contra hlong
  -- Otherwise the frame stands at the head of the bytes held.
  have hhead : Frame.wire payload <+: d.held :=
    List.prefix_of_prefix_length_le ⟨more, rfl⟩ ⟨rest, hwire⟩ (by omega)
  obtain ⟨tail, htail⟩ := hhead
  exact hd.represented.delivered.1 payload tail hallowed htail.symm

/-- After a part of a stream of wire forms the frames handed out are those whose last byte has been
fed. -/
theorem Ready.lastByte_le_iff (hd : d.Ready) (hreachable : d.Reachable)
    (haccepts : ∀ s f, (sink s f).2 = .ok ()) (s : σ) {a b : List UInt8}
    (hallowed : ∀ p ∈ payloads, p.length ≤ d.maxFrameSize.toNat)
    (hwires : d.held ++ (a ++ b) = payloads.flatMap Frame.wire) {j : ℕ}
    (hj : j < payloads.length) :
    Stream.lastByte payloads j ≤ d.held.length + a.length ↔ j < (d.offered sink s a).length := by
  obtain ⟨hpayloads, hresult, -⟩ := hd.feed_wires haccepts s hallowed hwires
  obtain ⟨k, hok⟩ := hd.ok_of_append_ok hresult
  have htakes := hd.takes sink s a
  have hready := (htakes.ok_ready hok).1
  -- The part leaves the frames handed out and the bytes then held.
  obtain ⟨used, left, hused, haccounts, hrest, -⟩ := htakes.accounts
  obtain rfl : left = [] := hrest k hok
  obtain rfl : a = used := by rw [hused, List.append_nil]
  have hbytes := haccounts.bytes
  rw [wires_eq_flatMap_wire] at hbytes
  have hlength := congrArg List.length hbytes
  rw [List.length_append, List.length_append] at hlength
  -- The payloads are those handed out by then, and others.
  rw [hreachable.offered_append_of_ok hok, List.map_append] at hpayloads
  generalize ((d.feed sink s a).decoder.offered sink (d.feed sink s a).sink b).map
    Frame.payload = others at hpayloads
  have hfront : ((d.offered sink s a).map Frame.payload).length = (d.offered sink s a).length :=
    List.length_map _
  generalize (d.offered sink s a).map Frame.payload = front at hpayloads hbytes hlength hfront
  subst hpayloads
  rw [← hfront]
  constructor
  · intro hends
    by_contra hbehind
    -- The next frame lacks a byte, so this one does not end within the part.
    obtain ⟨payload, others, rfl⟩ : ∃ payload others', others = payload :: others' := by
      rw [List.length_append] at hj
      exact List.exists_cons_of_length_pos (by omega)
    have hnext : (d.feed sink s a).decoder.held ++ b =
        Frame.wire payload ++ others.flatMap Frame.wire := by
      have hall : (front.flatMap Frame.wire) ++ ((d.feed sink s a).decoder.held ++ b) =
          (front.flatMap Frame.wire) ++ (Frame.wire payload ++ others.flatMap Frame.wire) := by
        rw [← List.append_assoc, ← hbytes, List.append_assoc, hwires, List.flatMap_append,
          List.flatMap_cons]
      exact List.append_cancel_left hall
    have hshort : payload.length ≤ (d.feed sink s a).decoder.maxFrameSize.toNat := by
      rw [htakes.maxFrameSize_eq]
      exact hallowed payload (by simp)
    have hlacks := hready.length_held_lt hshort hnext
    have hlater := Stream.lastByte_mono (front ++ payload :: others) (Nat.le_of_not_lt hbehind)
    rw [Stream.lastByte_length] at hlater
    omega
  · intro hbefore
    have hends := Stream.lastByte_le_of_lt front others hbefore
    omega

/-! ## Any number of chunks -/

/-- A chunk brings the frames whose last byte it contains, in a call that succeeds. -/
theorem Ready.frames_of_chunk (hd : d.Ready) (hreachable : d.Reachable)
    (haccepts : ∀ s f, (sink s f).2 = .ok ()) (s : σ) {before after : List (List UInt8)}
    {chunk : List UInt8} (hallowed : ∀ p ∈ payloads, p.length ≤ d.maxFrameSize.toNat)
    (hwires : d.held ++ (before ++ chunk :: after).flatten = payloads.flatMap Frame.wire) :
    let frames := d.offeredAll sink s (before ++ chunk :: after)
    let reached := d.feedAll sink s before
    let delivered := reached.decoder.offered sink reached.sink chunk
    let arrived := d.held.length + before.flatten.length
    (reached.decoder.feed sink reached.sink chunk).result = .ok delivered.length ∧
      ∃ k, d.offeredAll sink s before = frames.take k ∧
        delivered = (frames.drop k).take delivered.length ∧
        ∀ j < payloads.length, k ≤ j ∧ j < k + delivered.length ↔
          arrived < Stream.lastByte payloads j ∧
            Stream.lastByte payloads j ≤ arrived + chunk.length := by
  intro frames reached delivered arrived
  have hfree : ∀ chunks : List (List UInt8), chunks = [] → d.poisoned = false :=
    fun _ _ => hd.poisoned_eq
  have hreached : reached = d.feed sink s before.flatten :=
    hreachable.feedAll_eq_feed_flatten sink s before (hfree _)
  have hstream : (before ++ chunk :: after).flatten =
      before.flatten ++ (chunk ++ after.flatten) := by
    rw [List.flatten_append, List.flatten_cons]
  have hwires' : d.held ++ (before.flatten ++ (chunk ++ after.flatten)) =
      payloads.flatMap Frame.wire := by rw [← hstream, hwires]
  have hwires'' : d.held ++ ((before.flatten ++ chunk) ++ after.flatten) =
      payloads.flatMap Frame.wire := by rw [List.append_assoc, hwires']
  -- Feeding all of the stream succeeds, so feeding less of it does.
  obtain ⟨-, hresult, -⟩ := hd.feed_wires haccepts s hallowed hwires''
  obtain ⟨n, hboth⟩ := hd.ok_of_append_ok hresult
  obtain ⟨k, hok⟩ := hd.ok_of_append_ok hboth
  have hready : reached.decoder.Ready := by
    rw [hreached]
    exact ((hd.takes sink s before.flatten).ok_ready hok).1
  have hcall : (reached.decoder.feed sink reached.sink chunk).result = .ok delivered.length := by
    rw [hd.feed_append, Fed.andThen_of_ok hok, ← hreached] at hboth
    obtain ⟨m, hm, -⟩ := Fed.after_eq_ok_iff.mp hboth
    rw [hm, ((hready.takes sink reached.sink chunk).ok_ready hm).2]
  have hfirst : d.offeredAll sink s before = d.offered sink s before.flatten :=
    hreachable.offeredAll_eq_offered_flatten sink s before (hfree _)
  have hsecond : d.offered sink s (before.flatten ++ chunk) =
      d.offered sink s before.flatten ++ delivered := by
    rw [hreachable.offered_append_of_ok hok, ← hreached]
  have hframes : frames = d.offered sink s before.flatten ++ (delivered ++
      (d.feed sink s (before.flatten ++ chunk)).decoder.offered sink
        (d.feed sink s (before.flatten ++ chunk)).sink after.flatten) := by
    rw [← List.append_assoc, ← hsecond, ← hreachable.offered_append_of_ok hboth,
      List.append_assoc, ← hstream]
    exact hreachable.offeredAll_eq_offered_flatten sink s _ (hfree _)
  refine ⟨hcall, (d.offered sink s before.flatten).length, ?_, ?_, ?_⟩
  · rw [hfirst, hframes, List.take_left]
  · rw [hframes, List.drop_left, List.take_left]
  · -- The frames behind the chunk are those behind what was fed before it, and its own.
    intro j hj
    have hbefore := hd.lastByte_le_iff hreachable haccepts s hallowed hwires' hj
    have hwithin := hd.lastByte_le_iff hreachable haccepts s hallowed hwires'' hj
    rw [hsecond, List.length_append, List.length_append] at hwithin
    omega

/-- Decoding undoes encoding, from every point of a stream. Take a decoder that has not failed, in
the middle of a frame or between two, and a sink that accepts everything. Feed it what the frame in
progress lacks and then any frames that are not too long, cut into chunks anywhere. Then no call
fails. The payloads come out in order, numbered from the decoder's count of frames, each in the call
whose chunk contains the last byte of its frame, and the decoder ends idle and empty. So a payload
can be as long as the maximum, and with the largest maximum as long as a prefix can say. -/
theorem feedAll_undoes_wire (hd : d.Reachable) (hfree : d.poisoned = false)
    (haccepts : ∀ s f, (sink s f).2 = .ok ()) (s : σ) {first : List (List UInt8)}
    {rest : List UInt8} (hlacks : d.Lacks first rest) {others : List (List UInt8)}
    (hallowed : ∀ p ∈ others, p.length ≤ d.maxFrameSize.toNat) {chunks : List (List UInt8)}
    (hchunks : chunks.flatten = rest ++ others.flatMap Frame.wire) :
    let payloads := first ++ others
    let fed := d.feedAll sink s chunks
    let frames := d.offeredAll sink s chunks
    fed.result = .ok payloads.length ∧
      frames.map Frame.payload = payloads ∧
      frames.map Frame.sequence =
        (List.range payloads.length).map (fun i => d.stats.frames + UInt64.ofNat i) ∧
      (d.stats.frames.toNat + payloads.length ≤ 2 ^ 64 →
        frames.map (fun f => f.sequence.toNat) =
          List.range' d.stats.frames.toNat payloads.length) ∧
      (∀ before chunk after, chunks = before ++ chunk :: after →
        let reached := d.feedAll sink s before
        let delivered := reached.decoder.offered sink reached.sink chunk
        let arrived := d.held.length + before.flatten.length
        (reached.decoder.feed sink reached.sink chunk).result = .ok delivered.length ∧
          ∃ k, d.offeredAll sink s before = frames.take k ∧
            delivered = (frames.drop k).take delivered.length ∧
            ∀ j < payloads.length, k ≤ j ∧ j < k + delivered.length ↔
              arrived < Stream.lastByte payloads j ∧
                Stream.lastByte payloads j ≤ arrived + chunk.length) ∧
      (fed.decoder.isIdle = true ∧ fed.decoder.buffered = 0 ∧ fed.decoder.pending? = none ∧
        fed.decoder.poisoned = false) ∧
      (d.isIdle = true → ∀ payload : List UInt8,
        payload.length = d.maxFrameSize.toNat ∨
          d.maxFrameSize.toNat = 2 ^ 32 - 1 ∧ payload.length < 2 ^ 32 →
        (d.feed sink s (Frame.wire payload)).result = .ok 1 ∧
          d.offered sink s (Frame.wire payload) = [⟨d.stats.frames, payload⟩]) := by
  intro payloads fed frames
  have hready := hd.ready hfree
  have hall : ∀ p ∈ payloads, p.length ≤ d.maxFrameSize.toNat := by
    intro p hp
    rcases List.mem_append.mp hp with hfirst | hother
    · exact hlacks.allowed p hfirst
    · exact hallowed p hother
  have hwires : d.held ++ chunks.flatten = payloads.flatMap Frame.wire := by
    rw [hchunks, ← List.append_assoc, hlacks.held_append hready, List.flatMap_append]
  have hfed : fed = d.feed sink s chunks.flatten :=
    hd.feedAll_eq_feed_flatten sink s chunks fun _ => hfree
  have hframes : frames = d.offered sink s chunks.flatten :=
    hd.offeredAll_eq_offered_flatten sink s chunks fun _ => hfree
  have htakes : Takes sink d s chunks.flatten frames fed := by
    rw [hfed, hframes]
    exact hready.takes sink s chunks.flatten
  obtain ⟨hpayloads, hresult, hidle, hbuffered, hpending⟩ :=
    hready.feed_wires haccepts s hall hwires
  rw [← hframes] at hpayloads
  rw [← hfed] at hresult hidle hbuffered hpending
  have hlength : frames.length = payloads.length := by rw [← hpayloads, List.length_map]
  have hsequence := htakes.sequence_eq
  refine ⟨hresult, hpayloads, ?_, ?_, ?_, ?_, ?_⟩
  · rw [← hlength, hsequence]
  · intro hroom
    rw [← hlength] at hroom ⊢
    exact toNat_sequences hsequence hroom
  · rintro before chunk after rfl
    exact hready.frames_of_chunk hd haccepts s hall hwires
  · exact ⟨hidle, hbuffered, hpending, (htakes.ok_ready hresult).1.poisoned_eq⟩
  · intro hidle payload hsize
    have hallowed' : ∀ p ∈ [payload], p.length ≤ d.maxFrameSize.toNat := by
      simp only [List.mem_singleton, forall_eq]
      omega
    have hwire : d.held ++ Frame.wire payload = [payload].flatMap Frame.wire := by
      rw [hready.held_of_isIdle hidle, List.nil_append, List.flatMap_singleton]
    obtain ⟨hone, hcounted, -⟩ := hready.feed_wires haccepts s hallowed' hwire
    have hfirst := (hready.takes sink s (Frame.wire payload)).sequence_eq
    obtain ⟨f, hoffered, hpayload⟩ := List.map_eq_singleton_iff.mp hone
    rw [hoffered] at hfirst
    have hcount : f.sequence = d.stats.frames := by simpa using hfirst
    refine ⟨hcounted, ?_⟩
    rw [hoffered, ← hpayload, ← hcount]

/-- A decoder that has half of a length prefix and counts a frame, with a maximum of 2. The frame in
progress is as long as that, and an empty one comes next: the fourth chunk brings the last bytes of
both. -/
theorem feedAll_undoes_wire_mid_prefix :
    let d := ((fresh 2).feed Sink.collect #[] [1, 0, 0, 0, 9, 2, 0]).decoder
    let others : List (List UInt8) := [[], [5]]
    let before : List (List UInt8) := [[0], [], [0, 7]]
    let chunk : List UInt8 := [8, 0, 0, 0, 0, 1, 0, 0, 0]
    let chunks := before ++ chunk :: [[5]]
    let reached := d.feedAll Sink.collect #[] before
    d.Reachable ∧ d.poisoned = false ∧ (∀ s f, (Sink.collect s f).2 = .ok ()) ∧
      d.Lacks [[7, 8]] [0, 0, 7, 8] ∧ (∀ p ∈ others, p.length ≤ d.maxFrameSize.toNat) ∧
      chunks.flatten = [0, 0, 7, 8] ++ others.flatMap Frame.wire ∧
      (d.feedAll Sink.collect #[] chunks).result = .ok 3 ∧
      (d.offeredAll Sink.collect #[] chunks).map Frame.payload = [[7, 8], [], [5]] ∧
      (d.offeredAll Sink.collect #[] chunks).map (fun f => f.sequence.toNat) = [1, 2, 3] ∧
      reached.decoder.offered Sink.collect reached.sink chunk = [⟨1, [7, 8]⟩, ⟨2, []⟩] ∧
      (reached.decoder.feed Sink.collect reached.sink chunk).result = .ok 2 ∧
      (d.feedAll Sink.collect #[] chunks).decoder.isIdle = true := by
  intro d others before chunk chunks reached
  have hd : d.Reachable := (Reachable.fresh 2).feed Sink.collect #[] _
  have haccepts : ∀ s f, (Sink.collect s f).2 = .ok () := fun _ _ => rfl
  have hlacks : d.Lacks [[7, 8]] [0, 0, 7, 8] := .rest (by decide) (by decide) (by simp)
  have hallowed : ∀ p ∈ others, p.length ≤ d.maxFrameSize.toNat := by decide
  have hchunks : chunks.flatten = [0, 0, 7, 8] ++ others.flatMap Frame.wire := rfl
  obtain ⟨hresult, hpayloads, -, hnumbers, hprompt, ⟨hidle, -⟩, -⟩ :=
    feedAll_undoes_wire hd rfl haccepts #[] hlacks hallowed hchunks
  obtain ⟨hcall, -⟩ := hprompt before chunk [[5]] rfl
  exact ⟨hd, rfl, haccepts, hlacks, hallowed, hchunks, hresult, hpayloads, hnumbers (by decide),
    rfl, hcall, hidle⟩

end Decoder

end PrefixFraming
