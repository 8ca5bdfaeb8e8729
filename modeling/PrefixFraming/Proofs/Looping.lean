import PrefixFraming.Proofs.Resuming
import PrefixFraming.Proofs.Totals

/-!
# The loop of a feed ends and stays within bounds

`Decoder.feed` steps through its chunk with as many steps as the chunk has bytes. This module looks
at the loop without such a provision: `Loop.pass` is one pass over what is left of the chunk, and
`Loop.Runs` lets the loop go on until the cursor has come to the end of the chunk or a pass fails.
A step could take no byte at all, of a prefix that is complete or a payload that is full. That this
never happens is the invariant of the loop: at the head of every pass the decoder is ready
(`Loop.Reached.sound`), so its phase lacks at least a byte, and what a step completes is taken out
or refused in the same pass.

With a decoder that is ready a step takes as many bytes as the phase lacks, or all that are left if
these are fewer (`Ready.step_bounds`). So the cursor advances, no index is out of its range, and no
byte of a prefix is shifted out of its place or onto another one. As the decoder at the head of a
pass is the one that the bytes before the cursor have led to, its totals are known too, and the
bytes that they count leave room for all that a pass adds to them (`Loop.Reached.counters_fit`).
-/

namespace PrefixFraming

namespace LengthPrefix.Partial

/-- Takes bytes one after the other. -/
def pushes (p : Partial) (bytes : List UInt8) : Partial := bytes.foldl push p

/-- The next byte of a prefix goes to a place that is its own. -/
structure ByteFits (p : Partial) (b : UInt8) : Prop where
  /-- The prefix lacks a byte. -/
  lacking : p.collected < size
  /-- The byte is shifted by less than the width of a length. -/
  shift_lt : 8 * p.collected < 32
  /-- No bit of it is lost. -/
  kept : (b.toUInt32 <<< (8 * p.collected).toUInt32).toNat = b.toNat * 256 ^ p.collected
  /-- No bit of the bytes before it is in the same place. -/
  free : p.accumulated &&& b.toUInt32 <<< (8 * p.collected).toUInt32 = 0

/-- As long as a prefix lacks a byte, the next one fits. -/
theorem Placed.byteFits {p : Partial} (h : p.Placed) (hfree : p.collected < size) (b : UInt8) :
    p.ByteFits b := by
  have hlow := h.accumulated_lt
  have hcollected : p.collected ≤ 3 := Nat.le_of_lt_succ hfree
  have hpow : (256 : ℕ) ^ p.collected = 2 ^ (8 * p.collected) := by rw [Nat.pow_mul]
  have hkept := toNat_shifted hfree b
  refine ⟨hfree, by omega, hkept, ?_⟩
  rw [← UInt32.toNat_inj, UInt32.toNat_and, hkept, hpow, ← Nat.shiftLeft_eq]
  refine Nat.eq_of_testBit_eq fun i => ?_
  rw [Nat.testBit_and, Nat.testBit_shiftLeft]
  -- A bit of the shifted byte is above all bits of the number so far.
  by_cases hi : 8 * p.collected ≤ i
  · have hzero : p.accumulated.toNat.testBit i = false :=
      Nat.testBit_lt_two_pow (lt_of_lt_of_le (hpow ▸ hlow) (Nat.pow_le_pow_right (by omega) hi))
    rw [hzero]
    simp
  · rw [decide_eq_false hi]
    simp

/-- Bytes that fit are placed and counted. -/
theorem Placed.pushes {p : Partial} (h : p.Placed) {bytes : List UInt8}
    (hfree : p.collected + bytes.length ≤ size) :
    (p.pushes bytes).Placed ∧ (p.pushes bytes).collected = p.collected + bytes.length := by
  induction bytes generalizing p with
  | nil => exact ⟨h, rfl⟩
  | cons b bytes ih =>
    rw [List.length_cons] at hfree ⊢
    obtain ⟨hplaced, hcollected⟩ := ih (h.push (by omega) b) (by rw [collected_push]; omega)
    refine ⟨hplaced, hcollected.trans ?_⟩
    rw [collected_push]
    omega

/-- Bytes are taken until the prefix is complete or they run out. -/
theorem collect_eq (p : Partial) (buffer : List UInt8) :
    p.collect buffer = (p.pushes (buffer.take (size - p.collected)),
      min (size - p.collected) buffer.length) := by
  induction buffer generalizing p with
  | nil => rw [collect, List.take_nil, List.length_nil, Nat.min_zero, pushes, List.foldl_nil]
  | cons b rest ih =>
    by_cases hfree : p.collected < size
    · have hlacking : size - p.collected = size - (p.push b).collected + 1 := by
        rw [collected_push]
        omega
      rw [collect_cons hfree, ih, hlacking, List.take_succ_cons, List.length_cons,
        Nat.add_min_add_right, pushes, pushes, List.foldl_cons]
    · rw [collect, if_neg hfree, Nat.sub_eq_zero_of_le (Nat.le_of_not_lt hfree), List.take_zero,
        Nat.zero_min, pushes, List.foldl_nil]

end LengthPrefix.Partial

open LengthPrefix (Partial)

/-- The part of a frame that has arrived is no longer than the whole: at most the bytes of a prefix,
and no more of a payload than is declared. -/
def Phase.InBounds : Phase → Prop
  | .header p => p.collected ≤ LengthPrefix.size
  | .body declared filled => filled.size ≤ declared.toNat

/-- A phase lacks a byte less after each. -/
theorem Phase.missing_push (phase : Phase) (b : UInt8) :
    (phase.push b).missing = phase.missing - 1 := by
  cases phase with
  | header p =>
    rw [push, missing, missing, Partial.collected_push]
    omega
  | body declared filled =>
    rw [push, missing, missing, Array.size_push]
    omega

namespace Decoder

variable {σ : Type} {d : Decoder}

/-! ## One step -/

/-- A step over the bytes `rest` takes `taken` of them and stays within all bounds. -/
structure StepBounds (d : Decoder) (rest : List UInt8) (taken : ℕ) : Prop where
  /-- At least a byte is taken. -/
  pos : 0 < taken
  /-- No more bytes are taken than there are. -/
  le : taken ≤ rest.length
  /-- The bytes are counted, also if the step fails. -/
  counted : (d.step rest).1.stats = d.stats.consume taken
  /-- If the step succeeds it says how many bytes it has taken. -/
  reported : ∀ n, (d.step rest).2 = .ok n → n = taken
  /-- Every byte of a length prefix finds its place free, one after the other. -/
  header : ∀ p, d.phase = .header p → p.take rest = (p.pushes (rest.take taken), taken) ∧
    ∀ j b, j < taken → rest[j]? = some b → (p.pushes (rest.take j)).ByteFits b
  /-- The bytes of a payload go behind those that have arrived, and no further than declared. -/
  body : ∀ declared filled, d.phase = .body declared filled → filled.size ≤ declared.toNat ∧
    filled.size + taken ≤ declared.toNat ∧ taken = min (declared.toNat - filled.size) rest.length ∧
    (d.step rest).1.phase = .body declared (filled ++ rest.take taken)
  /-- What has arrived afterwards is no more than the whole. -/
  inBounds : (d.step rest).1.phase.InBounds

/-- A payload grows by the bytes that go behind it. -/
theorem size_append_part (filled : Array UInt8) (part : List UInt8) :
    (filled ++ part).size = filled.size + part.length := by
  rw [← Array.length_toList, Array.toList_appendList, List.length_append, Array.length_toList]

/-- What a step over a prefix comes to. -/
theorem step_header {p : Partial} {max : UInt32} {poisoned : Bool} {stats : Stats}
    (placed : p.Placed) (rest : List UInt8) :
    step ⟨.header p, max, poisoned, stats⟩ rest =
      let taken := min (LengthPrefix.size - p.collected) rest.length
      let q := p.pushes (rest.take (LengthPrefix.size - p.collected))
      if q.collected = LengthPrefix.size then
        if max < q.accumulated then
          (⟨.header q, max, true, stats.consume taken⟩, .error (.frameTooLarge q.accumulated max))
        else (⟨.body q.accumulated #[], max, poisoned, stats.consume taken⟩, .ok taken)
      else (⟨.header q, max, poisoned, stats.consume taken⟩, .ok taken) := by
  simp only [step, placed.take_eq_collect, Partial.collect_eq]
  split_ifs with hcomplete hexceeds
  · rw [startBody_eq, if_pos hexceeds]
  · rw [startBody_eq, if_neg hexceeds]
  · rfl

/-- With a decoder that is ready a step takes what the phase lacks or all there is. -/
theorem Ready.step_bounds (hd : d.Ready) {rest : List UInt8} (hrest : rest ≠ []) :
    d.StepBounds rest (min d.phase.missing rest.length) := by
  have hpos : 0 < min d.phase.missing rest.length :=
    lt_min hd.missing_pos (List.length_pos_iff.mpr hrest)
  cases hd with
  | @header p max stats placed free =>
    rw [Phase.missing] at hpos ⊢
    -- The first bytes of the rest fit, however many they are.
    have hplaced : ∀ n ≤ LengthPrefix.size - p.collected, (p.pushes (rest.take n)).Placed ∧
        (p.pushes (rest.take n)).collected = p.collected + min n rest.length := by
      intro n hn
      rw [← List.length_take]
      refine placed.pushes ?_
      rw [List.length_take]
      omega
    have htake : rest.take (min (LengthPrefix.size - p.collected) rest.length) =
        rest.take (LengthPrefix.size - p.collected) := by
      rw [List.take_eq_take_iff, Nat.min_assoc, Nat.min_self]
    refine ⟨hpos, Nat.min_le_right _ _, ?_, ?_, ?_, ?_, ?_⟩
    · rw [step_header placed]
      dsimp only
      split_ifs <;> rfl
    · intro n hn
      rw [step_header placed] at hn
      dsimp only at hn
      split_ifs at hn <;> exact (Except.ok.inj hn).symm
    · rintro q ⟨⟩
      refine ⟨?_, fun j b hj _ => ?_⟩
      · rw [placed.take_eq_collect, Partial.collect_eq, htake]
      · obtain ⟨hq, hcollected⟩ := hplaced j (by omega)
        exact hq.byteFits (by omega) b
    · rintro declared filled ⟨⟩
    · have hle := (hplaced _ le_rfl).1.collected_le
      rw [step_header placed]
      dsimp only
      split_ifs
      · exact hle
      · exact Nat.zero_le _
      · exact hle
  | @body declared max filled stats lacking allowed =>
    rw [Phase.missing] at hpos ⊢
    have htake : rest.take (min (declared.toNat - filled.size) rest.length) =
        rest.take (declared.toNat - filled.size) := by
      rw [List.take_eq_take_iff, Nat.min_assoc, Nat.min_self]
    have hfit : filled.size + min (declared.toNat - filled.size) rest.length ≤ declared.toNat := by
      omega
    refine ⟨hpos, Nat.min_le_right _ _, ?_, ?_, ?_, ?_, ?_⟩
    · rw [step, List.length_take]
    · intro n hn
      rw [step, List.length_take] at hn
      exact (Except.ok.inj hn).symm
    · rintro p ⟨⟩
    · rintro declared' filled' ⟨⟩
      refine ⟨lacking.le, hfit, rfl, ?_⟩
      rw [step, htake]
    · rw [step, Phase.InBounds, size_append_part, List.length_take]
      exact hfit

/-- A step that completes a frame has taken the rest of it. -/
theorem Ready.arrived_add_of_completed (hd : d.Ready) {rest payload : List UInt8} {n : ℕ}
    (hok : (d.step rest).2 = .ok n) (hpayload : (d.step rest).1.takeCompleted.2 = some payload) :
    d.arrived + min d.phase.missing rest.length = LengthPrefix.size + payload.length ∧
      payload.length < 2 ^ 32 := by
  cases hd with
  | @header p max stats placed free =>
    rw [step_header placed] at hok hpayload
    dsimp only at hok hpayload
    split_ifs at hok hpayload with hcomplete hexceeds
    · -- The prefix is complete, so the frame can only be empty.
      have hzero : payload = [] := by
        rw [takeCompleted] at hpayload
        split_ifs at hpayload
        exact (Option.some.inj hpayload).symm
      have hfit : p.collected + (rest.take (LengthPrefix.size - p.collected)).length ≤
          LengthPrefix.size := by
        rw [List.length_take]
        omega
      have hcollected := (placed.pushes hfit).2
      rw [hcomplete, List.length_take] at hcollected
      rw [hzero, List.length_nil, arrived, Phase.missing]
      exact ⟨hcollected.symm, by norm_num⟩
    · cases hpayload
  | @body declared max filled stats lacking allowed =>
    have hdeclared := declared.toNat_lt
    rw [step, takeCompleted] at hpayload
    split_ifs at hpayload with hfull
    obtain rfl := Option.some.inj hpayload
    have hlength : (filled ++ rest.take (declared.toNat - filled.size)).toList.length =
        declared.toNat := by rw [Array.length_toList, hfull]
    rw [size_append_part, List.length_take] at hfull
    rw [hlength]
    refine ⟨?_, hdeclared⟩
    show LengthPrefix.size + filled.size + min (declared.toNat - filled.size) rest.length = _
    omega

/-! ## One pass -/

/-- Where the loop of a feed stands at the head of a pass. -/
structure Loop (σ : Type) where
  /-- The decoder. -/
  decoder : Decoder
  /-- The sink's state. -/
  sink : σ
  /-- How many bytes of the chunk have been taken. -/
  cursor : ℕ
  /-- How many frames have been delivered. -/
  delivered : ℕ

namespace Loop

variable {sink : Sink σ} {chunk : List UInt8} {l l' start : Loop σ}

/-- One pass of the loop: a step over what is left of the chunk, and the delivery of the frame that
it completes, if it does. A failure ends the feed. -/
def pass (sink : Sink σ) (chunk : List UInt8) (l : Loop σ) : Except (Fed σ) (Loop σ) :=
  match l.decoder.step (chunk.drop l.cursor) with
  | (d, .error e) => .error ⟨d, l.sink, .error e⟩
  | (d, .ok taken) =>
    match d.takeCompleted with
    | (d, none) => .ok ⟨d, l.sink, l.cursor + taken, l.delivered⟩
    | (d, some payload) =>
      match d.deliver sink l.sink payload with
      | (d, s, .error e) => .error ⟨d, s, .error e⟩
      | (d, s, .ok ()) => .ok ⟨d, s, l.cursor + taken, l.delivered + 1⟩

/-- The loop goes on from here while bytes are left, makes `n` passes more, and ends with this
outcome. Nothing else bounds the number of passes. -/
inductive Runs (sink : Sink σ) (chunk : List UInt8) : Loop σ → ℕ → Fed σ → Prop where
  /-- The chunk is used up. -/
  | ends {l : Loop σ} (used : chunk.length ≤ l.cursor) :
      Runs sink chunk l 0 ⟨l.decoder, l.sink, .ok l.delivered⟩
  /-- A pass fails. -/
  | fails {l : Loop σ} {fed : Fed σ} (left : l.cursor < chunk.length)
      (failure : l.pass sink chunk = .error fed) : Runs sink chunk l 1 fed
  /-- A pass succeeds, and the loop goes on behind it. -/
  | goesOn {l l' : Loop σ} {n : ℕ} {fed : Fed σ} (left : l.cursor < chunk.length)
      (next : l.pass sink chunk = .ok l') (more : Runs sink chunk l' n fed) :
      Runs sink chunk l (n + 1) fed

/-- The loop comes to the head of a pass after `n` passes. -/
inductive Reached (sink : Sink σ) (chunk : List UInt8) (start : Loop σ) : ℕ → Loop σ → Prop where
  /-- Before the first pass. -/
  | first : Reached sink chunk start 0 start
  /-- Behind a pass that succeeds. -/
  | behind {l l' : Loop σ} {n : ℕ} (before : Reached sink chunk start n l)
      (left : l.cursor < chunk.length) (next : l.pass sink chunk = .ok l') :
      Reached sink chunk start (n + 1) l'

end Loop

/-- A step does not look behind the bytes that it takes. -/
theorem Ready.step_take (hd : d.Ready) (rest : List UInt8) :
    d.step (rest.take (min d.phase.missing rest.length)) = d.step rest := by
  have htake : ∀ n, (rest.take (min n rest.length)).take n = rest.take n := by
    intro n
    rw [List.take_take, List.take_eq_take_iff]
    omega
  have hlength : ∀ n, min n (rest.take (min n rest.length)).length = min n rest.length := by
    intro n
    rw [List.length_take]
    omega
  cases hd with
  | header placed free =>
    rw [step_header placed, step_header placed, Phase.missing, htake, hlength]
  | body lacking allowed => rw [step, step, Phase.missing, htake]

/-- What a pass does to the bytes that its step takes, a feed of these bytes does. -/
theorem Loop.feed_of_pass (sink : Sink σ) {chunk : List UInt8} {l : Loop σ}
    (hl : l.decoder.Ready) (left : l.cursor < chunk.length) :
    let rest := chunk.drop l.cursor
    let taken := min l.decoder.phase.missing rest.length
    match l.pass sink chunk with
    | .error fed => l.decoder.feed sink l.sink (rest.take taken) = fed ∧ ∃ e, fed.result = .error e
    | .ok l' => l'.cursor = l.cursor + taken ∧
        ∃ n ≤ 1, l'.delivered = l.delivered + n ∧
          l.decoder.feed sink l.sink (rest.take taken) = ⟨l'.decoder, l'.sink, .ok n⟩ := by
  intro rest taken
  have hrest : rest ≠ [] := by
    rw [← List.length_pos_iff, List.length_drop]
    omega
  have hbounds := hl.step_bounds hrest
  have hlength : (rest.take taken).length = taken := List.length_take_of_le hbounds.le
  -- The feed makes one step, which takes all the bytes it has.
  obtain ⟨b, part, hpart⟩ : ∃ b part, rest.take taken = b :: part :=
    List.exists_cons_of_length_pos (hlength.symm ▸ hbounds.pos)
  obtain ⟨k, hk⟩ : ∃ k, taken = k + 1 := Nat.exists_eq_add_one_of_ne_zero hbounds.pos.ne'
  have hstep : l.decoder.step (b :: part) = l.decoder.step rest := hpart ▸ hl.step_take rest
  have hdone : ∀ d s n, drain sink k d s n ((b :: part).drop taken) = ⟨d, s, .ok n⟩ := by
    intro d s n
    rw [← hpart, List.drop_of_length_le hlength.le]
    cases k <;> rfl
  rw [feed, if_neg (by simp [hl.poisoned_eq]), hlength, hpart, hk, drain, hstep, pass,
    show chunk.drop l.cursor = rest from rfl]
  have hreported := hbounds.reported
  generalize l.decoder.step rest = stepped at hreported ⊢
  obtain ⟨d₁, e | n⟩ := stepped
  · exact ⟨rfl, e, rfl⟩
  · obtain rfl := hreported n rfl
    rcases htake : d₁.takeCompleted with ⟨d₂, _ | payload⟩
    · simp only [htake]
      exact ⟨by rw [← hk], 0, Nat.zero_le _, rfl, hdone _ _ _⟩
    · rcases hdeliver : d₂.deliver sink l.sink payload with ⟨d₃, s', e | _⟩
      · simp only [htake, hdeliver]
        exact ⟨trivial, e, rfl⟩
      · simp only [htake, hdeliver]
        exact ⟨by rw [← hk], 1, le_rfl, rfl, hdone _ _ _⟩

/-! ## The whole loop -/

namespace Loop

variable {sink : Sink σ} {chunk : List UInt8} {start l : Loop σ} {n : ℕ}

/-- What is known of the loop at the head of a pass: the decoder is ready, so its phase lacks at
least a byte, and it has come to this by the bytes before the cursor. -/
structure Sound (sink : Sink σ) (chunk : List UInt8) (d : Decoder) (s : σ) (n : ℕ) (l : Loop σ) :
    Prop where
  /-- Nothing complete is left over from the pass before. -/
  ready : l.decoder.Ready
  /-- The bytes before the cursor have been fed. -/
  fed : d.feed sink s (chunk.take l.cursor) = ⟨l.decoder, l.sink, .ok l.delivered⟩
  /-- The cursor is within the chunk. -/
  cursor_le : l.cursor ≤ chunk.length
  /-- Every pass has taken a byte. -/
  passes_le : n ≤ l.cursor
  /-- No pass has delivered more than a frame. -/
  delivered_le : l.delivered ≤ n

/-- The loop starts in a sound state. -/
theorem Sound.first {d : Decoder} (hd : d.Ready) (sink : Sink σ) (chunk : List UInt8) (s : σ) :
    Sound sink chunk d s 0 ⟨d, s, 0, 0⟩ where
  ready := hd
  fed := by rw [List.take_zero, hd.feed_nil]
  cursor_le := Nat.zero_le _
  passes_le := le_rfl
  delivered_le := le_rfl

/-- A pass that succeeds takes the loop from one sound state to the next. -/
theorem Sound.pass {d : Decoder} {s : σ} (hd : d.Ready) (h : Sound sink chunk d s n l)
    (left : l.cursor < chunk.length) {l' : Loop σ} (next : l.pass sink chunk = .ok l') :
    Sound sink chunk d s (n + 1) l' := by
  have hpass := feed_of_pass sink h.ready left
  rw [next] at hpass
  obtain ⟨hcursor, m, hm, hdelivered, hfeed⟩ := hpass
  have hpos := h.ready.missing_pos
  have hleft := List.length_drop (i := l.cursor) (l := chunk)
  have hfed := h.fed
  have hpasses := h.passes_le
  have hcount := h.delivered_le
  refine ⟨?_, ?_, ?_, ?_, ?_⟩
  · have htakes := h.ready.takes sink l.sink ((chunk.drop l.cursor).take
      (min l.decoder.phase.missing (chunk.drop l.cursor).length))
    rw [hfeed] at htakes
    exact (htakes.ok_ready rfl).1
  · -- First the bytes before the old cursor, then those of this pass.
    rw [hcursor, List.take_add, hd.feed_append, hfed, Fed.ok_andThen, hfeed, hdelivered]
    rfl
  · omega
  · omega
  · omega

/-- The loop is in a sound state at the head of every pass. -/
theorem Reached.sound {d : Decoder} (hd : d.Ready) {s : σ}
    (h : Reached sink chunk ⟨d, s, 0, 0⟩ n l) : Sound sink chunk d s n l := by
  induction h with
  | first => exact .first hd sink chunk s
  | behind before left next ih => exact ih.pass hd left next

/-- From a decoder that is ready the loop comes to an end, with at most one pass for each byte that
is left, and the outcome is that of a feed of these bytes. -/
theorem exists_runs (sink : Sink σ) (hl : l.decoder.Ready) (hle : l.cursor ≤ chunk.length) :
    ∃ n ≤ chunk.length - l.cursor, Runs sink chunk l n
      ((l.decoder.feed sink l.sink (chunk.drop l.cursor)).after l.delivered) := by
  -- The induction is on the number of bytes left, which goes down in every pass.
  induction hleft : chunk.length - l.cursor using Nat.strong_induction_on generalizing l with
  | _ left ih =>
    rcases Nat.lt_or_ge l.cursor chunk.length with hmore | hused
    · have hpass := feed_of_pass sink hl hmore
      have hpos := hl.missing_pos
      have hlength := List.length_drop (i := l.cursor) (l := chunk)
      set rest := chunk.drop l.cursor with hrest
      set taken := min l.decoder.phase.missing rest.length with htaken
      have hsplit := hl.feed_append sink l.sink (rest.take taken) (rest.drop taken)
      rw [List.take_append_drop] at hsplit
      rcases hresult : l.pass sink chunk with fed | l'
      · rw [hresult] at hpass
        obtain ⟨hfeed, e, he⟩ := hpass
        refine ⟨1, by omega, ?_⟩
        have hafter : fed.after l.delivered = fed := by
          rw [Fed.after, he, Except.map, ← he]
        rw [hsplit, hfeed, Fed.andThen_of_error he, hafter]
        exact .fails hmore hresult
      · rw [hresult] at hpass
        obtain ⟨hcursor, m, -, hdelivered, hfeed⟩ := hpass
        have htakes := hl.takes sink l.sink (rest.take taken)
        rw [hfeed] at htakes
        have hready : l'.decoder.Ready := (htakes.ok_ready rfl).1
        obtain ⟨n, hn, hruns⟩ := ih (chunk.length - l'.cursor) (by omega) hready (by omega) rfl
        refine ⟨n + 1, by omega, ?_⟩
        have hdrop : rest.drop taken = chunk.drop l'.cursor := by
          rw [hrest, List.drop_drop, hcursor]
        rw [hsplit, hfeed, Fed.ok_andThen, Fed.after_after, hdrop, ← hdelivered]
        exact .goesOn hmore hresult hruns
    · have hnone : chunk.drop l.cursor = [] := List.drop_of_length_le hused
      rw [hnone, hl.feed_nil]
      exact ⟨0, Nat.zero_le _, .ends hused⟩

end Loop

/-! ## The counters -/

section reach

variable {sink : Sink σ} {s : σ} {chunk : List UInt8}

/-- A feed takes all bytes within which it does not fail. -/
theorem le_reach {m : ℕ} (hm : m ≤ chunk.length)
    (hok : ∀ n < m, ¬ d.failsBy sink s chunk n = true) : m ≤ d.reach sink s chunk := by
  unfold reach
  rcases hfind : (List.range (chunk.length + 1)).find? (d.failsBy sink s chunk) with _ | n
  · exact hm
  · by_contra hlt
    exact hok n (Nat.lt_of_not_le hlt) (List.find?_range_eq_some.mp hfind).1

/-- A feed that succeeds takes the whole chunk. -/
theorem Ready.taken_of_ok (hd : d.Ready) {k : ℕ} (hok : (d.feed sink s chunk).result = .ok k) :
    d.taken [⟨σ, sink, s, chunk⟩] = chunk := by
  have hreach : chunk.length ≤ d.reach sink s chunk := by
    refine le_reach le_rfl fun n _ hfails => ?_
    obtain ⟨e, he⟩ := exists_error_of_failsBy hfails
    rw [← List.take_append_drop n chunk] at hok
    obtain ⟨k', hk'⟩ := hd.ok_of_append_ok hok
    rw [he] at hk'
    cases hk'
  rw [taken, taken, List.append_nil, List.take_of_length_le hreach]

/-- Fewer bytes than the phase lacks make no feed fail. -/
theorem Ready.ok_of_lt_missing (hd : d.Ready) {bytes : List UInt8}
    (h : bytes.length < d.phase.missing) : (d.feed sink s bytes).result = .ok 0 := by
  induction bytes generalizing d with
  | nil => rw [hd.feed_nil]
  | cons b bytes ih =>
    rw [List.length_cons] at h
    have hmore : 1 < d.phase.missing := by omega
    have hless : bytes.length < (d.absorb b).phase.missing := by
      show _ < (d.phase.push b).missing
      rw [Phase.missing_push]
      omega
    rw [hd.feed_cons, takeByte_kept (hd.receive_absorb hmore b), Fed.ok_andThen, Fed.after_zero]
    exact ih (hd.ready_absorb hmore b) hless

/-- A feed gets past the bytes that the loop takes before a pass and in it. -/
theorem Loop.Sound.le_reach {d : Decoder} (hd : d.Ready) {l : Loop σ} {n : ℕ}
    (h : Loop.Sound sink chunk d s n l) (left : l.cursor < chunk.length) :
    l.cursor + min l.decoder.phase.missing (chunk.drop l.cursor).length ≤
      d.reach sink s chunk := by
  have hlength := List.length_drop (i := l.cursor) (l := chunk)
  refine Decoder.le_reach (by omega) fun i hi hfails => ?_
  obtain ⟨e, he⟩ := exists_error_of_failsBy hfails
  have hfed := h.fed
  rcases Nat.lt_or_ge l.cursor i with hbehind | hbefore
  · -- Behind the cursor the bytes do not even complete the phase.
    obtain ⟨j, rfl⟩ := Nat.exists_eq_add_of_le hbehind.le
    have hless : ((chunk.drop l.cursor).take j).length < l.decoder.phase.missing := by
      rw [List.length_take]
      omega
    rw [List.take_add, hd.feed_append, hfed, Fed.ok_andThen, Fed.after_eq_error_iff,
      h.ready.ok_of_lt_missing hless] at he
    cases he
  · have hok : (d.feed sink s (chunk.take i ++ (chunk.take l.cursor).drop i)).result =
        .ok l.delivered := by
      have htake : chunk.take i = (chunk.take l.cursor).take i := by
        rw [List.take_take, Nat.min_eq_left hbefore]
      rw [htake, List.take_append_drop, hfed]
    obtain ⟨k, hk⟩ := hd.ok_of_append_ok hok
    rw [he] at hk
    cases hk

end reach

/-- In a pass whose step takes `taken` bytes no counter comes to its limit. -/
structure Loop.CountersFit (chunk : List UInt8) (l : Loop σ) (taken : ℕ) : Prop where
  /-- The bytes can be counted. -/
  consumed : l.decoder.stats.consumed.toNat + taken < 2 ^ 64
  /-- The frame that the step completes can be counted, with its payload bytes, and the length of
  its payload can be noted. The number of frames that the feed has delivered stays within the chunk.
  -/
  frame : ∀ n payload, (l.decoder.step (chunk.drop l.cursor)).2 = .ok n →
    (l.decoder.step (chunk.drop l.cursor)).1.takeCompleted.2 = some payload →
      (l.decoder.stats.frames.toNat + 1 < 2 ^ 64 ∧
        l.decoder.stats.payloadBytes.toNat + payload.length < 2 ^ 64 ∧ payload.length < 2 ^ 32) ∧
      l.delivered + 1 ≤ chunk.length

/-- If a decoder takes fewer than `2 ^ 64` bytes in all, its counters have room for every pass. -/
theorem Loop.Sound.counters_fit {max : UInt32} {calls : List Call} {sink : Sink σ} {s : σ}
    {chunk : List UInt8} (hd : ((fresh max).afterCalls calls).Ready) {l : Loop σ} {n : ℕ}
    (h : Loop.Sound sink chunk ((fresh max).afterCalls calls) s n l)
    (left : l.cursor < chunk.length)
    (hroom : ((fresh max).taken (calls ++ [⟨σ, sink, s, chunk⟩])).length < 2 ^ 64) :
    l.CountersFit chunk (min l.decoder.phase.missing (chunk.drop l.cursor).length) := by
  have hreach := h.le_reach hd left
  have hlength := List.length_drop (i := l.cursor) (l := chunk)
  have hpos := h.ready.missing_pos
  have hpasses := h.passes_le
  have hdelivered := h.delivered_le
  rw [taken_append, List.length_append, taken, taken, List.append_nil, List.length_take] at hroom
  dsimp only at hroom
  -- The decoder at the head of the pass is one that calls have led to.
  have hbefore : (fresh max).afterCalls (calls ++ [⟨σ, sink, s, chunk.take l.cursor⟩]) =
      l.decoder := by
    rw [afterCalls_append]
    exact congrArg Fed.decoder h.fed
  have htaken : ((fresh max).taken (calls ++ [⟨σ, sink, s, chunk.take l.cursor⟩])).length =
      ((fresh max).taken calls).length + l.cursor := by
    rw [taken_append, hd.taken_of_ok (congrArg Fed.result h.fed), List.length_append,
      List.length_take_of_le h.cursor_le]
  have hzero : (fresh max).stats.consumed.toNat = 0 := rfl
  obtain ⟨hexactly, hbalanced⟩ := (Reachable.fresh max).balanced rfl
    (calls ++ [⟨σ, sink, s, chunk.take l.cursor⟩]) (by omega)
  have hconsumed := hexactly.consumed
  rw [hbefore] at hconsumed hbalanced
  unfold Balanced at hbalanced
  refine ⟨by omega, fun n payload hok hpayload => ?_⟩
  obtain ⟨harrived, hshort⟩ := h.ready.arrived_add_of_completed hok hpayload
  unfold LengthPrefix.size at harrived
  omega

/-! ## Every feed -/

/-- What is known at the head of a pass of what has arrived. -/
theorem Ready.inBounds (hd : d.Ready) : d.phase.InBounds := by
  cases hd with
  | header placed free => exact placed.collected_le
  | body lacking allowed => exact lacking.le

/-- A feed always ends, and it never leaves its bounds. Take any decoder that calls have led to and
that is not poisoned, and feed it any chunk with any sink. The loop of the feed, which stops only at
the end of the chunk or at a failure, stops after at most one pass for each byte, with the outcome
of the feed. At the head of every pass the cursor is within the chunk, and the phase lacks a byte.
The step of the pass fails, and with it the feed, or it takes at least a byte and no more than are
left, by which the cursor advances. Before and after the step no more has arrived of a frame than
its whole; each byte of a prefix finds its place free, and what is copied of a payload fits into it.
If the decoder takes fewer than `2 ^ 64` bytes in all, none of its counters comes to its limit. -/
theorem feed_ends_within_bounds (max : UInt32) (calls : List Call)
    (hsound : ((fresh max).afterCalls calls).poisoned = false) (sink : Sink σ) (s : σ)
    (chunk : List UInt8) :
    let d := (fresh max).afterCalls calls
    let start : Loop σ := ⟨d, s, 0, 0⟩
    (∃ n ≤ chunk.length, Loop.Runs sink chunk start n (d.feed sink s chunk)) ∧
      ∀ n l, Loop.Reached sink chunk start n l →
        (n ≤ l.cursor ∧ l.cursor ≤ chunk.length ∧ l.delivered ≤ l.cursor) ∧
          (0 < l.decoder.phase.missing ∧ l.decoder.phase.InBounds) ∧
          (l.cursor < chunk.length → ∃ taken,
            l.decoder.StepBounds (chunk.drop l.cursor) taken ∧
              ((l.decoder.step (chunk.drop l.cursor)).2 = .ok taken ∨
                ∃ e, (l.decoder.step (chunk.drop l.cursor)).2 = .error e ∧
                  l.pass sink chunk =
                    .error ⟨(l.decoder.step (chunk.drop l.cursor)).1, l.sink, .error e⟩) ∧
              (∀ l', l.pass sink chunk = .ok l' → l'.cursor = l.cursor + taken) ∧
              (((fresh max).taken (calls ++ [⟨σ, sink, s, chunk⟩])).length < 2 ^ 64 →
                l.CountersFit chunk taken)) := by
  intro d start
  have hd : d.Ready := ((Reachable.fresh max).afterCalls calls).ready hsound
  constructor
  · have hruns := Loop.exists_runs (l := start) sink hd (Nat.zero_le chunk.length)
    have hfeed : (d.feed sink s (chunk.drop 0)).after 0 = d.feed sink s chunk := Fed.after_zero _
    rw [← hfeed]
    exact hruns
  · intro n l hreached
    have h := hreached.sound hd
    have hpasses := h.passes_le
    have hdelivered := h.delivered_le
    refine ⟨⟨hpasses, h.cursor_le, by omega⟩, ⟨h.ready.missing_pos, h.ready.inBounds⟩, ?_⟩
    intro left
    have hrest : chunk.drop l.cursor ≠ [] := by
      rw [← List.length_pos_iff, List.length_drop]
      omega
    have hbounds := h.ready.step_bounds hrest
    refine ⟨_, hbounds, ?_, ?_, h.counters_fit hd left⟩
    · rcases hstep : l.decoder.step (chunk.drop l.cursor) with ⟨d₁, e | m⟩
      · refine .inr ⟨e, rfl, ?_⟩
        unfold Loop.pass
        rw [hstep]
      · have hm := hbounds.reported m (congrArg Prod.snd hstep)
        exact .inl (congrArg Except.ok hm)
    · intro l' next
      have hpass := Loop.feed_of_pass sink h.ready left
      rw [next] at hpass
      exact hpass.1

/-- An empty frame in the middle of a chunk is complete with its prefix and taken out in the same
pass. -/
theorem feed_ends_within_bounds_empty_frame :
    let d := (fresh 3).afterCalls []
    let start : Loop (Array Frame) := ⟨d, #[], 0, 0⟩
    let chunk : List UInt8 := [0, 0, 0, 0, 1, 0, 0, 0, 7, 2]
    d.poisoned = false ∧
      (∃ n ≤ 10, Loop.Runs Sink.collect chunk start n (d.feed Sink.collect #[] chunk)) ∧
      ∃ l, Loop.Reached Sink.collect chunk start 1 l ∧ l.cursor = 4 ∧ l.delivered = 1 ∧
        0 < l.decoder.phase.missing ∧
        (((fresh 3).taken [⟨Array Frame, Sink.collect, #[], chunk⟩]).length < 2 ^ 64 →
          ∃ taken, l.CountersFit chunk taken) := by
  intro d start chunk
  have hsound : d.poisoned = false := rfl
  obtain ⟨hruns, hheads⟩ := feed_ends_within_bounds 3 [] hsound Sink.collect #[] chunk
  have hreached : Loop.Reached Sink.collect chunk start 1
      ⟨⟨.idle, 3, false, ⟨1, 0, 4, 0⟩⟩, #[⟨0, []⟩], 4, 1⟩ := .behind .first (by decide) rfl
  obtain ⟨-, ⟨hlacks, -⟩, hpass⟩ := hheads _ _ hreached
  obtain ⟨taken, -, -, -, hfit⟩ := hpass (by decide)
  exact ⟨hsound, hruns, _, hreached, rfl, rfl, hlacks, fun hroom => ⟨taken, hfit hroom⟩⟩

end Decoder

end PrefixFraming
