import PrefixFraming.Proofs.Representation

/-!
# The totals account for everything

A decoder counts the frames that it offers, their payload bytes and the bytes that it takes from
chunks, and it notes the length of the longest payload. The counters have a fixed width, so over any
stretch of a decoder's life they go up by the true numbers modulo `2 ^ 64` (`Stats.Counts`). This
holds of a feed (`Takes.counts`), whether it succeeds or fails, and of a sequence of calls
(`Reachable.counts_taken`), since stretches that follow each other make up one.

How many bytes a feed takes can be told without a look at the counter: all of its chunk if it
succeeds, and otherwise the shortest part with which it fails (`reach`). `Accounts` compares these
bytes themselves with the frames and with what is held, and so relates the counters to each other:
each frame has taken four bytes and its payload, and the frame in progress what has arrived of it
(`Balanced`). This also shows that no counter goes up by more than the number of bytes, so that none
comes to its limit before the count of bytes does.
-/

namespace PrefixFraming

/-! ## Sizes of frames -/

namespace Frame

/-- The number of payload bytes in some frames. -/
def totalSize (frames : List Frame) : ℕ := frames.foldr (fun f n => f.size + n) 0

/-- The length of the longest payload in some frames; without a frame it is zero. -/
def longest (frames : List Frame) : ℕ := frames.foldr (fun f n => max f.size n) 0

/-- The payload bytes of two lists of frames add up. -/
theorem totalSize_append (frames more : List Frame) :
    totalSize (frames ++ more) = totalSize frames + totalSize more := by
  induction frames with
  | nil => exact (Nat.zero_add _).symm
  | cons f frames ih =>
    show f.size + totalSize (frames ++ more) = f.size + totalSize frames + totalSize more
    omega

/-- The longest payload of two lists of frames is the longer one of their longest. -/
theorem longest_append (frames more : List Frame) :
    longest (frames ++ more) = max (longest frames) (longest more) := by
  induction frames with
  | nil => exact (Nat.zero_max _).symm
  | cons f frames ih =>
    show max f.size (longest (frames ++ more)) = max (max f.size (longest frames)) (longest more)
    omega

/-- Each frame takes four bytes and its payload. -/
theorem length_wires (frames : List Frame) :
    (wires frames).length = 4 * frames.length + totalSize frames := by
  induction frames with
  | nil => rfl
  | cons f frames ih =>
    have hwire : (wire f.payload).length = 4 + f.size := by
      rw [wire, List.length_append, LengthPrefix.length_encode]
      rfl
    have hwires : wires (f :: frames) = wire f.payload ++ wires frames := rfl
    have htotal : totalSize (f :: frames) = f.size + totalSize frames := rfl
    rw [hwires, htotal, List.length_append, List.length_cons, hwire, ih]
    omega

end Frame

/-! ## Counting -/

namespace Stats

/-- Between two states of its totals a decoder offered these frames and took `used` bytes from
chunks. The counters of frames and bytes wrap at their limit. -/
structure Counts (before : Stats) (frames : List Frame) (used : ℕ) (after : Stats) : Prop where
  /-- Every frame is counted. -/
  counted : after.frames = before.frames + UInt64.ofNat frames.length
  /-- The frames are numbered from the count before. -/
  numbered : frames.map Frame.sequence =
    (List.range frames.length).map fun i => before.frames + UInt64.ofNat i
  /-- Every payload byte is counted. -/
  payloadBytes : after.payloadBytes = before.payloadBytes + UInt64.ofNat (Frame.totalSize frames)
  /-- Every byte taken is counted. -/
  consumed : after.consumed = before.consumed + UInt64.ofNat used
  /-- The longest payload is that of the frames unless there was a longer one before. -/
  largest : after.largest.toNat = max before.largest.toNat (Frame.longest frames)

variable {s s₁ s₂ s₃ : Stats} {frames more : List Frame} {m n : ℕ}

/-- Nothing happens. -/
theorem Counts.refl (s : Stats) : s.Counts [] 0 s where
  counted := (UInt64.add_zero _).symm
  numbered := rfl
  payloadBytes := (UInt64.add_zero _).symm
  consumed := (UInt64.add_zero _).symm
  largest := (Nat.max_zero _).symm

/-- Two stretches one after the other. -/
theorem Counts.trans (h₁ : s₁.Counts frames m s₂) (h₂ : s₂.Counts more n s₃) :
    s₁.Counts (frames ++ more) (m + n) s₃ where
  counted := by
    rw [h₂.counted, h₁.counted, List.length_append, UInt64.ofNat_add, UInt64.add_assoc]
  numbered := by
    -- The later frames are numbered from a count that includes the earlier ones.
    rw [List.map_append, List.length_append, List.range_add, List.map_append, h₁.numbered,
      h₂.numbered, List.map_map, h₁.counted]
    congr 1
    refine List.map_congr_left fun i _ => ?_
    rw [Function.comp_apply, UInt64.ofNat_add, UInt64.add_assoc]
  payloadBytes := by
    rw [h₂.payloadBytes, h₁.payloadBytes, Frame.totalSize_append, UInt64.ofNat_add,
      UInt64.add_assoc]
  consumed := by
    rw [h₂.consumed, h₁.consumed, UInt64.ofNat_add, UInt64.add_assoc]
  largest := by
    have h₁ := h₁.largest
    have h₂ := h₂.largest
    have hlongest := Frame.longest_append frames more
    omega

/-- The counters have room for some frames and bytes more. -/
structure HasRoom (s : Stats) (frames : List Frame) (used : ℕ) : Prop where
  /-- The frames can be counted. -/
  counted : s.frames.toNat + frames.length < 2 ^ 64
  /-- The payload bytes can be counted. -/
  payloadBytes : s.payloadBytes.toNat + Frame.totalSize frames < 2 ^ 64
  /-- The bytes taken can be counted. -/
  consumed : s.consumed.toNat + used < 2 ^ 64

/-- What `Counts` says of counters that do not come to their limit. -/
structure CountsExactly (before : Stats) (frames : List Frame) (used : ℕ) (after : Stats) :
    Prop where
  /-- Every frame is counted. -/
  counted : after.frames.toNat = before.frames.toNat + frames.length
  /-- The frames have consecutive numbers, from the count before. -/
  numbered : frames.map (fun f => f.sequence.toNat) =
    List.range' before.frames.toNat frames.length
  /-- Every payload byte is counted. -/
  payloadBytes : after.payloadBytes.toNat = before.payloadBytes.toNat + Frame.totalSize frames
  /-- Every byte taken is counted. -/
  consumed : after.consumed.toNat = before.consumed.toNat + used
  /-- The longest payload is that of the frames unless there was a longer one before. -/
  largest : after.largest.toNat = max before.largest.toNat (Frame.longest frames)

/-- Counters that have room for what is counted do not wrap. -/
theorem Counts.exactly (h : s₁.Counts frames m s₂) (hroom : s₁.HasRoom frames m) :
    s₁.CountsExactly frames m s₂ where
  counted := by
    have hframes := hroom.counted
    rw [h.counted, UInt64.toNat_add, UInt64.toNat_ofNat']
    omega
  numbered := Decoder.toNat_sequences h.numbered hroom.counted.le
  payloadBytes := by
    have hbytes := hroom.payloadBytes
    rw [h.payloadBytes, UInt64.toNat_add, UInt64.toNat_ofNat']
    omega
  consumed := by
    have hbytes := hroom.consumed
    rw [h.consumed, UInt64.toNat_add, UInt64.toNat_ofNat']
    omega
  largest := h.largest

/-- Totals that do not wrap do not go down. -/
theorem CountsExactly.le (h : s₁.CountsExactly frames m s₂) :
    s₁.frames ≤ s₂.frames ∧ s₁.payloadBytes ≤ s₂.payloadBytes ∧ s₁.consumed ≤ s₂.consumed ∧
      s₁.largest ≤ s₂.largest := by
  simp only [UInt64.le_iff_toNat_le, UInt32.le_iff_toNat_le, h.counted, h.payloadBytes, h.consumed,
    h.largest]
  omega

end Stats

namespace Decoder

variable {σ : Type} {d : Decoder}

/-! ## One feed -/

/-- A payload that is accepted has a length that can be noted. -/
theorem toNat_largest_next {payload : List UInt8} (h : payload.length ≤ d.maxFrameSize.toNat) :
    (d.next payload.length).stats.largest.toNat = max d.stats.largest.toNat payload.length := by
  have hlt := lt_of_le_of_lt h d.maxFrameSize.toNat_lt_size
  show (max d.stats.largest (UInt32.ofNat payload.length)).toNat = _
  rw [UInt32.toNat_max, UInt32.toNat_ofNat_of_lt' hlt]

/-- The payload bytes of a feed are counted, and its longest payload is noted. -/
theorem Takes.sizes {sink : Sink σ} {s : σ} {chunk : List UInt8} {frames : List Frame} {fed : Fed σ}
    (h : Takes sink d s chunk frames fed) :
    fed.decoder.stats.payloadBytes =
        d.stats.payloadBytes + UInt64.ofNat (Frame.totalSize frames) ∧
      fed.decoder.stats.largest.toNat = max d.stats.largest.toNat (Frame.longest frames) := by
  induction h with
  | nil => exact ⟨(UInt64.add_zero _).symm, (Nat.max_zero _).symm⟩
  | kept ready held more ih => exact ih
  | @accepted d s s' b rest payload frames fed ready wire allowed taken more ih =>
    obtain ⟨hbytes, hlargest⟩ := ih
    constructor
    · show _ = d.stats.payloadBytes + UInt64.ofNat (payload.length + Frame.totalSize frames)
      rw [UInt64.ofNat_add, ← UInt64.add_assoc]
      exact hbytes
    · show _ = max d.stats.largest.toNat (max payload.length (Frame.longest frames))
      rw [← Nat.max_assoc, ← toNat_largest_next allowed]
      exact hlargest
  | @refused d s s' b rest payload e ready wire allowed refusal =>
    refine ⟨rfl, ?_⟩
    show _ = max d.stats.largest.toNat (max payload.length 0)
    rw [Nat.max_zero]
    exact toNat_largest_next allowed
  | rejected => exact ⟨(UInt64.add_zero _).symm, (Nat.max_zero _).symm⟩

/-- A feed counts what it offers and what it takes. -/
theorem Takes.counts {sink : Sink σ} {s : σ} {chunk used : List UInt8} {frames : List Frame}
    {fed : Fed σ} (h : Takes sink d s chunk frames fed)
    (hused : Accounts d used frames fed.decoder) :
    d.stats.Counts frames used.length fed.decoder.stats where
  counted := h.frames_counted
  numbered := h.sequence_eq
  payloadBytes := h.sizes.1
  consumed := hused.counted
  largest := h.sizes.2

/-- A feed fails within the first `n` bytes of the chunk. -/
def failsBy (d : Decoder) (sink : Sink σ) (s : σ) (chunk : List UInt8) (n : ℕ) : Bool :=
  match (d.feed sink s (chunk.take n)).result with
  | .ok _ => false
  | .error _ => true

/-- How many bytes of a chunk a feed takes: as many as it needs to fail, and all if it does not
fail. -/
def reach (d : Decoder) (sink : Sink σ) (s : σ) (chunk : List UInt8) : ℕ :=
  ((List.range (chunk.length + 1)).find? (d.failsBy sink s chunk)).getD chunk.length

section reach

variable {sink : Sink σ} {s : σ} {chunk : List UInt8}

/-- A feed that does not fail within some bytes succeeds with them. -/
theorem exists_ok_of_failsBy {n : ℕ} (h : (!d.failsBy sink s chunk n) = true) :
    ∃ k, (d.feed sink s (chunk.take n)).result = .ok k := by
  unfold failsBy at h
  rcases hresult : (d.feed sink s (chunk.take n)).result with e | k
  · rw [hresult] at h
    cases h
  · exact ⟨k, rfl⟩

/-- A feed that fails within some bytes ends with an error there. -/
theorem exists_error_of_failsBy {n : ℕ} (h : d.failsBy sink s chunk n = true) :
    ∃ e, (d.feed sink s (chunk.take n)).result = .error e := by
  unfold failsBy at h
  rcases hresult : (d.feed sink s (chunk.take n)).result with e | k
  · exact ⟨e, rfl⟩
  · rw [hresult] at h
    cases h

/-- A poisoned decoder fails without taking a byte. -/
theorem reach_of_poisoned (hd : d.poisoned = true) : d.reach sink s chunk = 0 := by
  have hfails : d.failsBy sink s chunk 0 = true := by rw [failsBy, feed_of_poisoned hd]
  rw [reach, List.range_succ_eq_map, List.find?_cons_of_pos hfails]
  rfl

/-- A feed that succeeds takes all of its chunk. -/
theorem Ready.accounts_of_ok (hd : d.Ready) {k : ℕ} (hok : (d.feed sink s chunk).result = .ok k) :
    Accounts d chunk (d.offered sink s chunk) (d.feed sink s chunk).decoder := by
  obtain ⟨used, rest, hchunk, haccounts, hrest, -⟩ := (hd.takes sink s chunk).accounts
  rw [hrest k hok, List.append_nil] at hchunk
  exact hchunk ▸ haccounts

/-- A feed that fails takes at least a byte, so one that fails on a single byte takes it. -/
theorem Ready.accounts_of_error (hd : d.Ready) {b : UInt8} {e : Error}
    (herror : (d.feed sink s [b]).result = .error e) :
    Accounts d [b] (d.offered sink s [b]) (d.feed sink s [b]).decoder := by
  obtain ⟨used, rest, hchunk, haccounts, -, hused⟩ := (hd.takes sink s [b]).accounts
  rcases List.append_eq_singleton_iff.mp hchunk.symm with ⟨hnone, -⟩ | ⟨hbyte, -⟩
  · exact absurd hnone (hused e herror)
  · exact hbyte ▸ haccounts

/-- A feed that gets past `n` bytes and fails on the next one takes exactly these. -/
theorem Reachable.accounts_of_first_error (hd : d.Reachable) (hready : d.Ready) {n k : ℕ}
    {e : Error} (hlt : n < chunk.length) (hok : (d.feed sink s (chunk.take n)).result = .ok k)
    (herror : (d.feed sink s (chunk.take (n + 1))).result = .error e) :
    Accounts d (chunk.take (n + 1)) (d.offered sink s chunk) (d.feed sink s chunk).decoder := by
  have htake : chunk.take (n + 1) = chunk.take n ++ [chunk[n]] :=
    List.take_succ_eq_append_getElem hlt
  -- What is behind the failure does not matter.
  have hoffered := hd.offered_append_of_error herror (chunk.drop (n + 1))
  have hfed := hd.feed_append sink s (chunk.take (n + 1)) (chunk.drop (n + 1))
  rw [List.take_append_drop] at hoffered hfed
  rw [Fed.andThen_of_error herror] at hfed
  rw [hoffered, hfed]
  rw [htake, hd.feed_append, Fed.andThen_of_ok hok, Fed.after_eq_error_iff] at herror
  rw [htake, hd.offered_append_of_ok hok, hd.feed_append, Fed.andThen_of_ok hok]
  exact (hready.accounts_of_ok hok).trans ((hd.ready_of_feed_ok hok).accounts_of_error herror)

/-- The bytes that a feed reaches are the ones it takes. -/
theorem Reachable.accounts_reach (hd : d.Reachable) :
    Accounts d (chunk.take (d.reach sink s chunk)) (d.offered sink s chunk)
      (d.feed sink s chunk).decoder := by
  rcases hd.ready_or_failed with hready | hfailed
  · rw [reach]
    rcases hfind : (List.range (chunk.length + 1)).find? (d.failsBy sink s chunk) with _ | n
    · -- Not even all of the chunk makes the feed fail.
      have hall := List.find?_range_eq_none.mp hfind chunk.length (Nat.lt_succ_self _)
      obtain ⟨k, hok⟩ := exists_ok_of_failsBy hall
      rw [List.take_length] at hok
      rw [Option.getD_none, List.take_length]
      exact hready.accounts_of_ok hok
    · obtain ⟨hfails, hmem, hbefore⟩ := List.find?_range_eq_some.mp hfind
      obtain ⟨e, herror⟩ := exists_error_of_failsBy hfails
      cases n with
      | zero =>
        rw [List.take_zero, hready.feed_nil] at herror
        cases herror
      | succ n =>
        obtain ⟨k, hok⟩ := exists_ok_of_failsBy (hbefore n (Nat.lt_succ_self n))
        have hlt := Nat.lt_of_succ_lt_succ (List.mem_range.mp hmem)
        exact hd.accounts_of_first_error hready hlt hok herror
  · rw [reach_of_poisoned hfailed.poisoned_eq, offered_of_poisoned hfailed.poisoned_eq,
      feed_of_poisoned hfailed.poisoned_eq]
    exact .refl d

/-- A feed counts what it offers and what it takes, also if it fails. -/
theorem Reachable.counts_reach (hd : d.Reachable) :
    d.stats.Counts (d.offered sink s chunk) (chunk.take (d.reach sink s chunk)).length
      (d.feed sink s chunk).decoder.stats := by
  rcases hd.ready_or_failed with hready | hfailed
  · exact (hready.takes sink s chunk).counts hd.accounts_reach
  · rw [reach_of_poisoned hfailed.poisoned_eq, offered_of_poisoned hfailed.poisoned_eq,
      feed_of_poisoned hfailed.poisoned_eq]
    exact .refl d.stats

end reach

/-! ## Sequences of calls -/

/-- The bytes that calls take from their chunks. -/
def taken (d : Decoder) : List Call → List UInt8
  | [] => []
  | c :: calls =>
    c.chunk.take (d.reach c.sink c.state c.chunk) ++ (d.call c).decoder.taken calls

/-- Calls take what they hand out and what is held afterwards. -/
theorem Reachable.accounts_taken (hd : d.Reachable) (calls : List Call) :
    Accounts d (d.taken calls) (d.handed calls) (d.afterCalls calls) := by
  induction calls generalizing d with
  | nil => exact .refl d
  | cons c calls ih =>
    have hfirst : Accounts d (c.chunk.take (d.reach c.sink c.state c.chunk))
        (d.offered c.sink c.state c.chunk) (d.call c).decoder := hd.accounts_reach
    exact hfirst.trans (ih (hd.feed c.sink c.state c.chunk))

/-- Calls count what they hand out and what they take. -/
theorem Reachable.counts_taken (hd : d.Reachable) (calls : List Call) :
    d.stats.Counts (d.handed calls) (d.taken calls).length (d.afterCalls calls).stats := by
  induction calls generalizing d with
  | nil => exact .refl d.stats
  | cons c calls ih =>
    have hfirst : d.stats.Counts (d.offered c.sink c.state c.chunk)
        (c.chunk.take (d.reach c.sink c.state c.chunk)).length (d.call c).decoder.stats :=
      hd.counts_reach
    rw [taken, handed, Decoder.afterCalls, List.length_append]
    exact hfirst.trans (ih (hd.feed c.sink c.state c.chunk))

/-- The bytes that two sequences of calls take follow each other. -/
theorem taken_append (d : Decoder) (before after : List Call) :
    d.taken (before ++ after) = d.taken before ++ (d.afterCalls before).taken after := by
  induction before generalizing d with
  | nil => rfl
  | cons c before ih =>
    rw [List.cons_append, taken, taken, ih, List.append_assoc]
    rfl

/-- How many bytes of the frame in progress have arrived: of the length prefix until the payload
begins, and then all of the prefix and a part of the payload. -/
def arrived (d : Decoder) : ℕ :=
  match d.phase with
  | .header p => p.collected
  | .body _ filled => LengthPrefix.size + filled.size

/-- The bytes held are those that have arrived. -/
theorem Reachable.length_held (hd : d.Reachable) : d.held.length = d.arrived := by
  rcases hd.ready_or_failed with hready | hfailed
  · cases hready with
    | header placed free => exact placed.length_bytes
    | @body declared max filled stats lacking allowed =>
      show (LengthPrefix.encode declared ++ filled.toList).length = LengthPrefix.size + filled.size
      rw [List.length_append, LengthPrefix.length_encode, Array.length_toList]
  · cases hfailed <;> rfl

/-- The count of bytes is four for each frame, the payloads, and what has arrived of the frame in
progress. -/
def Balanced (d : Decoder) : Prop :=
  d.stats.consumed.toNat = 4 * d.stats.frames.toNat + d.stats.payloadBytes.toNat + d.arrived

/-- Calls that take no more bytes than can be counted keep the balance, and no counter wraps. -/
theorem Reachable.balanced (hd : d.Reachable) (hbalanced : d.Balanced) (calls : List Call)
    (hroom : d.stats.consumed.toNat + (d.taken calls).length < 2 ^ 64) :
    d.stats.CountsExactly (d.handed calls) (d.taken calls).length (d.afterCalls calls).stats ∧
      (d.afterCalls calls).Balanced := by
  have hbytes := congrArg List.length (hd.accounts_taken calls).bytes
  have hheld := hd.length_held
  have hheld' := (hd.afterCalls calls).length_held
  rw [List.length_append, List.length_append, Frame.length_wires] at hbytes
  unfold Balanced at hbalanced ⊢
  -- The frames and their payloads are among the bytes, so their counters have room as well.
  have hexactly := (hd.counts_taken calls).exactly ⟨by omega, by omega, hroom⟩
  have hframes := hexactly.counted
  have hpayloads := hexactly.payloadBytes
  have hconsumed := hexactly.consumed
  exact ⟨hexactly, by omega⟩

end Decoder

/-! ## What calls report -/

namespace Turn

variable {α : Type}

/-- The sum of the counts that turns report. A turn that fails reports none. -/
def reported : List (Turn α ℕ) → ℕ
  | [] => 0
  | t :: turns =>
    match t.result with
    | .ok n => n + reported turns
    | .error _ => reported turns

/-- How many frames the first turn that fails has offered; none if no turn fails. -/
def offeredInFailure : List (Turn α ℕ) → ℕ
  | [] => 0
  | t :: turns =>
    match t.result with
    | .ok _ => offeredInFailure turns
    | .error _ => t.log.length

/-- Turns that are refused report nothing. -/
theorem reported_of_refused {turns : List (Turn α ℕ)} (h : ∀ t ∈ turns, t.Refused) :
    reported turns = 0 := by
  induction turns with
  | nil => rfl
  | cons t turns ih =>
    obtain ⟨ht, hturns⟩ := List.forall_mem_cons.mp h
    rw [reported, ht.result]
    exact ih hturns

end Turn

namespace Decoder

/-- Every frame that calls hand out is reported by a call that succeeds, or is offered in the call
that fails. -/
theorem Ready.reported_add_offeredInFailure {d : Decoder} (hd : d.Ready) (calls : List Call) :
    Turn.reported (d.turns calls) + Turn.offeredInFailure (d.turns calls) =
      (d.handed calls).length := by
  induction calls generalizing d with
  | nil => rfl
  | cons c calls ih =>
    have htakes : Takes c.sink d c.state c.chunk (d.offered c.sink c.state c.chunk) (d.call c) :=
      hd.takes c.sink c.state c.chunk
    have hlog : (d.turn c).log.length = (d.offered c.sink c.state c.chunk).length := by
      rw [← turn_offered, List.length_map]
    rw [turns, Turn.reported, Turn.offeredInFailure, handed, turn_result, turn_after,
      List.length_append]
    rcases hresult : (d.call c).result with e | n
    · -- Nothing is offered or reported any more.
      have hpoisoned := (htakes.error_failed hresult).poisoned_eq
      have hrefused := fun t ht => (turns_of_poisoned hpoisoned calls t ht).2
      rw [Turn.reported_of_refused hrefused, handed_of_poisoned hpoisoned, hlog]
      exact Nat.add_comm _ _
    · obtain ⟨hready, hn⟩ := htakes.ok_ready hresult
      have hothers := ih hready
      dsimp only
      omega

/-- The totals account for every frame and every byte. Feed a decoder and push to it as often as you
like, with chunks and sinks that can be different each time, so that it takes fewer than `2 ^ 64`
bytes in all. Then at every point on the way, whether or not a call has failed, the count of frames
is the number of frames that the sinks were offered, a refused one included, and these were numbered
from zero in order; the other two totals about them are the sum and the maximum of their payload
lengths; and the count of bytes is the number of bytes taken, which is four for each frame, its
payload, and what has arrived of the frame in progress: the four bytes of a prefix if it was
refused. The frames are those that the successful calls have reported and those that the call that
failed has offered. None of the totals comes to its limit, and none ever goes down. -/
theorem totals_account (max : UInt32) (before after : List Operation)
    (hroom : ((fresh max).taken ((before ++ after).map Operation.call)).length < 2 ^ 64) :
    let start := fresh max
    let calls := before.map Operation.call
    let now := start.operateAll before
    let later := now.operateAll after
    (now.stats.frames.toNat = (start.handed calls).length ∧
        (start.handed calls).map (fun f => f.sequence.toNat) =
          List.range (start.handed calls).length) ∧
      now.stats.payloadBytes.toNat = Frame.totalSize (start.handed calls) ∧
      now.stats.largest.toNat = Frame.longest (start.handed calls) ∧
      (now.stats.consumed.toNat = (start.taken calls).length ∧
        now.stats.consumed.toNat =
          4 * now.stats.frames.toNat + now.stats.payloadBytes.toNat + now.arrived ∧
        (now.Fits .rejected → now.arrived = 4)) ∧
      Turn.reported (start.turns calls) + Turn.offeredInFailure (start.turns calls) =
        now.stats.frames.toNat ∧
      now.stats.frames ≤ later.stats.frames ∧ now.stats.payloadBytes ≤ later.stats.payloadBytes ∧
      now.stats.consumed ≤ later.stats.consumed ∧ now.stats.largest ≤ later.stats.largest := by
  intro start calls now later
  have hnow : now = start.afterCalls calls := start.operateAll_eq_afterCalls before
  have hlater : later = now.afterCalls (after.map Operation.call) :=
    now.operateAll_eq_afterCalls after
  have hstart : start.Reachable := .fresh max
  have hreachable : now.Reachable := hnow ▸ hstart.afterCalls calls
  -- The bytes taken up to now, and those taken later.
  have hsplit : (start.taken calls).length + (now.taken (after.map Operation.call)).length <
      2 ^ 64 := by
    rw [List.map_append, taken_append, List.length_append] at hroom
    rw [hnow]
    exact hroom
  have hzero : start.stats.consumed.toNat = 0 := rfl
  have hempty : start.Balanced := rfl
  obtain ⟨hexactly, hbalanced⟩ := hstart.balanced hempty calls (by omega)
  rw [← hnow] at hexactly hbalanced
  have hconsumed : now.stats.consumed.toNat = (start.taken calls).length := by
    rw [hexactly.consumed, hzero, Nat.zero_add]
  have hframes : now.stats.frames.toNat = (start.handed calls).length := by
    rw [hexactly.counted]
    exact Nat.zero_add _
  obtain ⟨hgrows, -⟩ := hreachable.balanced hbalanced (after.map Operation.call) (by omega)
  rw [← hlater] at hgrows
  refine ⟨⟨hframes, ?_⟩, ?_, ?_, ⟨hconsumed, hbalanced, ?_⟩, ?_, hgrows.le⟩
  · rw [hexactly.numbered, List.range_eq_range']
    rfl
  · rw [hexactly.payloadBytes]
    exact Nat.zero_add _
  · rw [hexactly.largest]
    exact Nat.zero_max _
  · rintro ⟨-, p, hphase, hcollected, -⟩
    rw [arrived, hphase]
    exact hcollected
  · rw [hframes]
    exact (ready_fresh max).reported_add_offeredInFailure calls

/-- A frame and a half, then an empty frame that the sink refuses with more behind it, and a push
that comes too late; with a maximum of 3. -/
theorem totals_account_refused :
    let before : List Operation :=
      [.push [2, 0, 0, 0, 7, 8, 0, 0],
        .feed ⟨Array Frame, Sink.collectUpTo 0 .sinkClosed, #[], [0, 0, 9, 9]⟩]
    let after : List Operation := [.push [1]]
    let start := fresh 3
    let calls := before.map Operation.call
    let now := start.operateAll before
    ((start.taken ((before ++ after).map Operation.call)).length < 2 ^ 64) ∧
      start.handed calls = [⟨0, [7, 8]⟩, ⟨1, []⟩] ∧ now.stats = ⟨2, 2, 10, 2⟩ ∧
      (start.taken calls).length = 10 ∧ now.stats.consumed.toNat = (start.taken calls).length := by
  intro before after start calls now
  have hroom : (start.taken ((before ++ after).map Operation.call)).length < 2 ^ 64 := by decide
  obtain ⟨-, -, -, ⟨hconsumed, -⟩, -⟩ := totals_account 3 before after hroom
  exact ⟨hroom, rfl, rfl, rfl, hconsumed⟩

/-- Behind a length above the maximum, the four bytes of the prefix are counted and no frame is. -/
example :
    let now := (fresh 3).operateAll [.push [9, 0], .push [0, 0, 1]]
    now.Fits .rejected ∧ now.stats = ⟨0, 0, 4, 0⟩ ∧ now.arrived = 4 :=
  ⟨⟨rfl, _, rfl, rfl, by decide⟩, rfl, rfl⟩

end Decoder

end PrefixFraming
