import PrefixFraming.Decoder
import PrefixFraming.Proofs.LengthPrefix

/-!
# Decoders, byte by byte

A decoder that is `Ready` has not failed, and its frame in progress lacks at least a byte: of the
length prefix, or of a payload whose length is accepted. A byte that completes neither is absorbed
(`Ready.receive_absorb`), and a step that has more than it can wait for takes one byte first and the
others after it (`Ready.step_cons`), up to the byte that completes the phase (`Ready.step_last`).

What one byte does to such a decoder is `receive`, and there are three ways for it to end
(`Received`): the byte is kept, or it completes a frame, or it completes the prefix of a length
above the maximum. `Ready.received` says so, with what the bytes held before and the new byte amount
to in each way. All that is said later about chunks of any length rests on it.
-/

namespace PrefixFraming

open LengthPrefix (Partial)

/-- Counting no bytes changes nothing. -/
@[simp]
theorem Stats.consume_zero (s : Stats) : s.consume 0 = s := by
  simp [consume]

/-- Counting twice is counting the sum. -/
@[simp]
theorem Stats.consume_consume (s : Stats) (m n : ℕ) :
    (s.consume m).consume n = s.consume (m + n) := by
  simp only [consume, UInt64.ofNat_add, UInt64.add_assoc]

/-- The frame in progress with one more byte. -/
def Phase.push : Phase → UInt8 → Phase
  | .header p, b => .header (p.push b)
  | .body declared filled, b => .body declared (filled.push b)

/-- The number of bytes until the length prefix or the payload is complete. -/
def Phase.missing : Phase → ℕ
  | .header p => LengthPrefix.size - p.collected
  | .body declared filled => declared.toNat - filled.size

namespace Decoder

/-- The decoder has not failed, and the frame in progress lacks at least a byte: of its length
prefix, or of a payload whose length is accepted. -/
inductive Ready : Decoder → Prop where
  /-- Part of a length prefix has arrived. -/
  | header {p : Partial} {max : UInt32} {stats : Stats} (placed : p.Placed)
      (free : p.collected < LengthPrefix.size) : Ready ⟨.header p, max, false, stats⟩
  /-- Part of a payload has arrived. -/
  | body {declared max : UInt32} {filled : Array UInt8} {stats : Stats}
      (lacking : filled.size < declared.toNat) (allowed : declared ≤ max) :
      Ready ⟨.body declared filled, max, false, stats⟩

/-- The decoder with one more byte of the frame in progress, complete or not. -/
def absorb (d : Decoder) (b : UInt8) : Decoder :=
  { d with phase := d.phase.push b, stats := d.stats.consume 1 }

/-- A payload begins unless its length exceeds the maximum. -/
theorem startBody_eq (d : Decoder) (declared : UInt32) :
    d.startBody declared =
      if d.maxFrameSize < declared then
        ({ d with poisoned := true }, .error (.frameTooLarge declared d.maxFrameSize))
      else ({ d with phase := .body declared #[] }, .ok ()) := by
  unfold startBody checkLength
  split_ifs <;> rfl

/-- A decoder that is ready has not failed. -/
theorem Ready.poisoned_eq {d : Decoder} (hd : d.Ready) : d.poisoned = false := by
  cases hd <;> rfl

/-- A decoder that is ready is not poisoned. -/
theorem Ready.not_poisoned {d : Decoder} (hd : d.Ready) : ¬ d.poisoned = true :=
  Bool.eq_false_iff.mp hd.poisoned_eq

/-- A phase that is ready lacks at least a byte. -/
theorem Ready.missing_pos {d : Decoder} (hd : d.Ready) : 0 < d.phase.missing := by
  cases hd with
  | header placed free => exact Nat.sub_pos_of_lt free
  | body lacking allowed => exact Nat.sub_pos_of_lt lacking

/-- A byte that does not complete the phase leaves it ready. -/
theorem Ready.ready_absorb {d : Decoder} (hd : d.Ready) (hmore : 1 < d.phase.missing) (b : UInt8) :
    (d.absorb b).Ready := by
  cases hd with
  | header placed free =>
    simp only [Phase.missing] at hmore
    refine .header (placed.push free b) ?_
    rw [Partial.collected_push]
    omega
  | body lacking allowed =>
    simp only [Phase.missing] at hmore
    refine .body ?_ allowed
    rw [Array.size_push]
    omega

/-- Nothing is completed without a byte. -/
theorem Ready.takeCompleted_eq {d : Decoder} (hd : d.Ready) : d.takeCompleted = (d, none) := by
  cases hd with
  | header placed free => rfl
  | body lacking allowed => rw [takeCompleted, if_neg (Nat.ne_of_lt lacking)]

/-- A step without bytes changes nothing. -/
theorem Ready.step_nil {d : Decoder} (hd : d.Ready) : d.step [] = (d, .ok 0) := by
  cases hd with
  | header placed free =>
    simp only [step, placed.take_eq_collect, Partial.collect, if_neg (Nat.ne_of_lt free),
      Stats.consume_zero]
  | body lacking allowed => simp [step]

/-- As long as a byte does not complete the phase, a step takes it and goes on. -/
theorem Ready.step_cons {d : Decoder} (hd : d.Ready) (hmore : 1 < d.phase.missing) (b : UInt8)
    (rest : List UInt8) :
    d.step (b :: rest) =
      (((d.absorb b).step rest).1, ((d.absorb b).step rest).2.map (· + 1)) := by
  cases hd with
  | @header p max stats placed free =>
    simp only [step, absorb, Phase.push, placed.take_eq_collect,
      (placed.push free b).take_eq_collect, Partial.collect_cons free, Stats.consume_consume]
    -- Both sides now ask whether the same prefix is complete.
    obtain ⟨q, taken⟩ := (p.push b).collect rest
    simp only [Nat.add_comm 1 taken]
    split
    · rw [startBody_eq]
      split_ifs <;> rfl
    · rfl
  | @body declared max filled stats lacking allowed =>
    obtain ⟨k, hk⟩ := Nat.exists_eq_add_one_of_ne_zero (Nat.sub_ne_zero_of_lt lacking)
    have hpushed : declared.toNat - (filled.push b).size = k := by
      rw [Array.size_push]
      omega
    simp only [step, absorb, Phase.push, hk, hpushed, List.take_succ_cons, Stats.consume_consume,
      List.length_cons, Except.map, Nat.add_comm 1]
    congr 2

/-- The byte that completes the phase is the last that a step takes. -/
theorem Ready.step_last {d : Decoder} (hd : d.Ready) (hlast : d.phase.missing = 1) (b : UInt8)
    (rest : List UInt8) : d.step (b :: rest) = d.step [b] := by
  cases hd with
  | @header p max stats placed free =>
    have hcomplete : (p.push b).collected = LengthPrefix.size := by
      simp only [Phase.missing] at hlast
      rw [Partial.collected_push]
      omega
    simp only [step, placed.take_eq_collect, Partial.collect_cons free,
      Partial.collect_of_complete hcomplete]
  | body lacking allowed =>
    simp only [Phase.missing] at hlast
    simp [step, hlast]

/-- A step takes the only byte there is. -/
theorem Ready.step_singleton_ok {d d' : Decoder} (hd : d.Ready) {b : UInt8} {n : ℕ}
    (h : d.step [b] = (d', .ok n)) : n = 1 := by
  cases hd with
  | header placed free =>
    simp only [step, placed.take_eq_collect, Partial.collect, startBody_eq] at h
    split_ifs at h <;> simp_all
  | body lacking allowed =>
    obtain ⟨k, hk⟩ := Nat.exists_eq_add_one_of_ne_zero (Nat.sub_ne_zero_of_lt lacking)
    simp [step, hk] at h
    exact h.2.symm

/-! ## One byte -/

/-- Takes one byte, and the payload if the frame in progress is then complete. -/
def receive (d : Decoder) (b : UInt8) : Decoder × Except Error (Option (List UInt8)) :=
  match d.step [b] with
  | (d, .error e) => (d, .error e)
  | (d, .ok _) => (d.takeCompleted.1, .ok d.takeCompleted.2)

/-- A byte that does not complete the phase is only absorbed. -/
theorem Ready.receive_absorb {d : Decoder} (hd : d.Ready) (hmore : 1 < d.phase.missing)
    (b : UInt8) : d.receive b = (d.absorb b, .ok none) := by
  have hnext := hd.ready_absorb hmore b
  rw [receive, hd.step_cons hmore, hnext.step_nil]
  simp [Except.map, hnext.takeCompleted_eq]

/-- What can come of one byte. -/
inductive Received (d : Decoder) (b : UInt8) :
    Decoder → Except Error (Option (List UInt8)) → Prop where
  /-- The frame in progress holds one more byte and still lacks some. -/
  | kept {phase : Phase} (ready : Ready ⟨phase, d.maxFrameSize, false, d.stats.consume 1⟩)
      (held : held ⟨phase, d.maxFrameSize, false, d.stats.consume 1⟩ = d.held ++ [b]) :
      Received d b ⟨phase, d.maxFrameSize, false, d.stats.consume 1⟩ (.ok none)
  /-- The bytes held and this one are a whole frame. -/
  | completed {payload : List UInt8} (wire : Frame.wire payload = d.held ++ [b])
      (allowed : payload.length ≤ d.maxFrameSize.toNat) :
      Received d b ⟨.idle, d.maxFrameSize, false, d.stats.consume 1⟩ (.ok (some payload))
  /-- The bytes held and this one are the prefix of a length above the maximum. -/
  | rejected {declared : UInt32} (wire : LengthPrefix.encode declared = d.held ++ [b])
      (exceeds : d.maxFrameSize < declared) :
      Received d b ⟨.header (.whole declared), d.maxFrameSize, true, d.stats.consume 1⟩
        (.error (.frameTooLarge declared d.maxFrameSize))

/-- A byte of a length prefix. The last one decides: the length is refused, or the payload is empty
and complete, or it begins. -/
theorem receive_header {p : Partial} {max : UInt32} {stats : Stats} (placed : p.Placed)
    (free : p.collected < LengthPrefix.size) (b : UInt8) :
    receive ⟨.header p, max, false, stats⟩ b =
      if (p.push b).collected = LengthPrefix.size then
        let declared := (p.push b).accumulated
        if max < declared then
          (⟨.header (p.push b), max, true, stats.consume 1⟩, .error (.frameTooLarge declared max))
        else if declared = 0 then (⟨.idle, max, false, stats.consume 1⟩, .ok (some []))
        else (⟨.body declared #[], max, false, stats.consume 1⟩, .ok none)
      else (⟨.header (p.push b), max, false, stats.consume 1⟩, .ok none) := by
  have htake : p.take [b] = (p.push b, 1) := by
    rw [placed.take_eq_collect, Partial.collect_cons free]
    rfl
  simp only [receive, step, htake]
  generalize p.push b = q
  split_ifs with hcomplete hexceeds hzero
  · simp [startBody_eq, hexceeds]
  · simp [startBody_eq, takeCompleted, hzero]
  · have hpos : ¬ (0 = q.accumulated.toNat) := by
      intro h
      exact hzero (UInt32.toNat_inj.mp h.symm)
    simp [startBody_eq, hexceeds, takeCompleted, hpos]
  · simp [takeCompleted]

/-- A byte of a payload. The last one completes the frame. -/
theorem receive_body {declared max : UInt32} {filled : Array UInt8} {stats : Stats}
    (lacking : filled.size < declared.toNat) (b : UInt8) :
    receive ⟨.body declared filled, max, false, stats⟩ b =
      if filled.size + 1 = declared.toNat then
        (⟨.idle, max, false, stats.consume 1⟩, .ok (some (filled.toList ++ [b])))
      else (⟨.body declared (filled.push b), max, false, stats.consume 1⟩, .ok none) := by
  obtain ⟨k, hk⟩ := Nat.exists_eq_add_one_of_ne_zero (Nat.sub_ne_zero_of_lt lacking)
  simp only [receive, step, hk, List.take_succ_cons, List.take_nil, takeCompleted]
  split_ifs <;> simp_all

/-- A decoder that is ready takes a byte in one of the three ways, and the bytes held say in which.
-/
theorem Ready.received {d : Decoder} (hd : d.Ready) (b : UInt8) :
    Received d b (d.receive b).1 (d.receive b).2 := by
  cases hd with
  | @header p max stats placed free =>
    rw [receive_header placed free]
    have hplaced := placed.push free b
    have hbytes := placed.bytes_push free b
    generalize p.push b = q at hplaced hbytes ⊢
    split_ifs with hcomplete
    · -- All four bytes have arrived, so the prefix is that of the accumulated length.
      obtain ⟨declared, rfl⟩ : ∃ declared, q = .whole declared :=
        ⟨q.accumulated, by rw [Partial.whole, ← hcomplete]⟩
      rw [Partial.bytes_of_complete hcomplete] at hbytes
      dsimp only [Partial.whole] at hbytes ⊢
      split_ifs with hexceeds hzero
      · exact .rejected hbytes hexceeds
      · subst hzero
        exact .completed hbytes (Nat.zero_le _)
      · -- The payload begins, and it is not empty.
        refine .kept (.body ?_ (UInt32.not_lt.mp hexceeds)) ?_
        · exact Nat.pos_of_ne_zero fun h => hzero (UInt32.toNat_inj.mp h)
        · simpa [held] using hbytes
    · exact .kept (.header hplaced (lt_of_le_of_ne hplaced.collected_le hcomplete)) hbytes
  | @body declared max filled stats lacking allowed =>
    rw [receive_body lacking]
    split_ifs with hlast
    · -- The payload is as long as its prefix declares, so its own prefix is that one.
      refine .completed ?_ ?_
      · have hlength : UInt32.ofNat (filled.toList ++ [b]).length = declared := by
          simp [hlast]
        rw [Frame.wire, hlength, held, List.append_assoc]
      · have hmax := UInt32.le_iff_toNat_le.mp allowed
        simpa [hlast] using hmax
    · refine .kept (.body ?_ allowed) ?_
      · rw [Array.size_push]
        omega
      · simp [held]

end Decoder

end PrefixFraming
