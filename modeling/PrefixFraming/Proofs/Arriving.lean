import PrefixFraming.Proofs.Looping
import Mathlib.Data.Nat.Digits.Defs
import Mathlib.Logic.Equiv.Defs

/-!
# How a length prefix arrives does not matter

A length prefix is read in one of two ways. If it lies whole at the head of a chunk and no byte of
it has arrived before, `decode?` reads its four bytes in one go. Otherwise each byte is shifted into
its place as it arrives, over as many steps as it takes. Both ways are compared here with the number
that the bytes spell in base 256 (`LengthPrefix.spelled`), which knows nothing of either.

For the bytes one by one the invariant is `Partial.Spells`: the prefix in progress has as many bytes
as have arrived, and the number so far is the one that they spell. A byte more keeps it
(`Spells.push`), and so do the bytes of a step that does not complete the prefix (`step_lacking`)
and those of any sequence of such steps (`stepAll_lacking`, by induction on the steps). With the
fourth byte the prefix is `Partial.whole` of the number that all four spell, and the step passes
that number on (`step_completing`), whatever stands behind the prefix in its input.

`Decoder.stepBy` is a step that leaves open how the bytes of a prefix are taken. With `Partial.take`
it is the step of the decoder, with `Partial.collect` a step without the shortcut, and at the head
of every pass of a feed the two agree.
-/

namespace PrefixFraming

namespace LengthPrefix

/-! ## The number that bytes spell -/

/-- The number that bytes spell in base 256, least significant first. -/
def spelled (bytes : List UInt8) : ℕ := Nat.ofDigits 256 (bytes.map UInt8.toNat)

/-- Bytes behind others spell a number of higher places. -/
theorem spelled_append (bytes more : List UInt8) :
    spelled (bytes ++ more) = spelled bytes + 256 ^ bytes.length * spelled more := by
  rw [spelled, List.map_append, Nat.ofDigits_append, List.length_map, spelled, spelled]

/-- A single byte spells itself. -/
theorem spelled_singleton (b : UInt8) : spelled [b] = b.toNat := Nat.ofDigits_singleton

/-- Bytes spell a number with as many places. -/
theorem spelled_lt (bytes : List UInt8) : spelled bytes < 256 ^ bytes.length := by
  have hdigits : ∀ x ∈ bytes.map UInt8.toNat, x < 256 := by
    intro x hx
    obtain ⟨b, -, rfl⟩ := List.mem_map.mp hx
    exact b.toNat_lt
  have hlt := Nat.ofDigits_lt_base_pow_length (by norm_num) hdigits
  rwa [List.length_map] at hlt

/-- The number that four bytes spell, place by place. -/
theorem spelled_four (b₀ b₁ b₂ b₃ : UInt8) :
    spelled [b₀, b₁, b₂, b₃] =
      b₀.toNat + 256 * b₁.toNat + 65536 * b₂.toNat + 16777216 * b₃.toNat := by
  simp only [spelled, List.map_cons, List.map_nil, Nat.ofDigits_cons, Nat.ofDigits_nil]
  omega

/-- The bytes of a whole length prefix. -/
abbrev Whole : Type := {bytes : List UInt8 // bytes.length = size}

/-- A whole length prefix consists of four bytes. -/
theorem Whole.exists_eq (w : Whole) : ∃ b₀ b₁ b₂ b₃, w = ⟨[b₀, b₁, b₂, b₃], rfl⟩ := by
  obtain ⟨bytes, hlength⟩ := w
  match bytes with
  | [b₀, b₁, b₂, b₃] => exact ⟨b₀, b₁, b₂, b₃, rfl⟩
  | [] | [_] | [_, _] | [_, _, _] | _ :: _ :: _ :: _ :: _ :: _ =>
    simp only [List.length_cons, List.length_nil, size] at hlength
    omega

/-- A way for a whole prefix to arrive: the last input brings the fourth byte, and maybe more. -/
structure Arrival (w : Whole) where
  /-- The inputs before the last; they can be empty. -/
  inputs : List (List UInt8)
  /-- The last input. -/
  last : List UInt8
  /-- What the last input brings behind the prefix. -/
  rest : List UInt8
  /-- Before the last input a byte is lacking. -/
  lacking : inputs.flatten.length < size
  /-- The inputs are cut from the prefix and what stands behind it. -/
  flatten_append : inputs.flatten ++ last = w.val ++ rest

/-- The bytes that arrive before the last input. -/
def Arrival.early {w : Whole} (a : Arrival w) : List UInt8 := a.inputs.flatten

/-- The number that four bytes spell is the value of the prefix. -/
theorem ofNat_spelled (b₀ b₁ b₂ b₃ : UInt8) :
    UInt32.ofNat (spelled [b₀, b₁, b₂, b₃]) = value b₀ b₁ b₂ b₃ := by
  rw [spelled_four, ← toNat_value, UInt32.ofNat_toNat]

/-- A whole length prefix and the length that it spells determine each other. -/
def spelling : Whole ≃ UInt32 where
  toFun w := .ofNat (spelled w.val)
  invFun n := ⟨encode n, length_encode n⟩
  left_inv w := by
    obtain ⟨b₀, b₁, b₂, b₃, rfl⟩ := w.exists_eq
    have hencode := encode_value b₀ b₁ b₂ b₃
    rw [← ofNat_spelled] at hencode
    exact Subtype.ext hencode
  right_inv n := by
    -- What `encode` writes is read back as the value of its four bytes.
    have hread : value _ _ _ _ = n := Option.some.inj (decode?_encode_append n [])
    exact (ofNat_spelled _ _ _ _).trans hread

/-- The length that four bytes spell does not wrap. -/
theorem toNat_spelling (w : Whole) : (spelling w).toNat = spelled w.val := by
  have hlt := spelled_lt w.val
  rw [w.property, show (256 : ℕ) ^ size = 2 ^ 32 by norm_num [size]] at hlt
  exact UInt32.toNat_ofNat_of_lt' hlt

/-- A whole prefix is read in one go, whatever stands behind it. -/
theorem decode?_whole_append (w : Whole) (rest : List UInt8) :
    decode? (w.val ++ rest) = some (spelling w) := by
  obtain ⟨b₀, b₁, b₂, b₃, rfl⟩ := w.exists_eq
  exact congrArg some (ofNat_spelled b₀ b₁ b₂ b₃).symm

/-! ## Prefixes in progress -/

namespace Partial

/-- These bytes have arrived, and the number so far is the one that they spell. -/
structure Spells (p : Partial) (bytes : List UInt8) : Prop where
  /-- As many bytes have arrived. -/
  collected_eq : p.collected = bytes.length
  /-- The bytes are in their places. -/
  accumulated_eq : p.accumulated.toNat = spelled bytes

/-- At first no byte has arrived. -/
theorem Spells.empty : Spells empty [] := ⟨rfl, rfl⟩

variable {p : Partial} {bytes : List UInt8}

/-- A prefix that spells its bytes has no digits in the places still to come. -/
theorem Spells.placed (h : p.Spells bytes) (hle : bytes.length ≤ size) : p.Placed where
  collected_le := h.collected_eq ▸ hle
  accumulated_lt := by
    rw [h.collected_eq, h.accumulated_eq]
    exact spelled_lt bytes

/-- The next byte is spelled behind the others. -/
theorem Spells.push (h : p.Spells bytes) (hfree : bytes.length < size) (b : UInt8) :
    (p.push b).Spells (bytes ++ [b]) where
  collected_eq := by
    rw [collected_push, h.collected_eq, List.length_append, List.length_singleton]
  accumulated_eq := by
    rw [(h.placed hfree.le).toNat_push (h.collected_eq ▸ hfree), h.accumulated_eq, h.collected_eq,
      spelled_append, spelled_singleton, Nat.mul_comm]

/-- More bytes are spelled behind the others as long as they fit. -/
theorem Spells.pushes (h : p.Spells bytes) {more : List UInt8}
    (hle : bytes.length + more.length ≤ size) : (p.pushes more).Spells (bytes ++ more) := by
  induction more generalizing p bytes with
  | nil =>
    rw [List.append_nil]
    exact h
  | cons b more ih =>
    rw [List.length_cons] at hle
    have hrest := ih (h.push (by omega) b) (by
      rw [List.length_append, List.length_singleton]
      omega)
    rw [List.append_assoc, List.singleton_append] at hrest
    exact hrest

/-- Four bytes that have arrived are a whole prefix. -/
theorem Spells.eq_whole {w : Whole} (h : p.Spells w.val) : p = whole (spelling w) := by
  have hcollected := h.collected_eq
  have haccumulated := h.accumulated_eq
  rw [w.property] at hcollected
  rw [← toNat_spelling, UInt32.toNat_inj] at haccumulated
  rw [whole, ← hcollected, ← haccumulated]

/-- A prefix in progress spells the bytes that it holds. -/
theorem Placed.spells (h : p.Placed) (hfree : p.collected < size) : p.Spells p.bytes where
  collected_eq := h.length_bytes.symm
  accumulated_eq := by
    have hlow := h.accumulated_lt
    obtain ⟨c, acc⟩ := p
    have hc : c = 0 ∨ c = 1 ∨ c = 2 ∨ c = 3 := lt_size_cases hfree
    rw [bytes, encode_eq]
    -- Digit by digit, as many as have arrived; the number has no others.
    rcases hc with rfl | rfl | rfl | rfl <;> simp [spelled, Nat.ofDigits_cons] at hlow ⊢ <;> omega

end Partial

end LengthPrefix

open LengthPrefix (Partial Whole Arrival spelling)

namespace Decoder

/-! ## Steps over a prefix -/

/-- Passes the length of a complete prefix on to `startBody`. A step that does so reports the bytes
that it has taken, unless the length is refused. -/
def announce (d : Decoder) (declared : UInt32) (taken : ℕ) : Decoder × Except Error ℕ :=
  match d.startBody declared with
  | (d, .error e) => (d, .error e)
  | (d, .ok ()) => (d, .ok taken)

/-- A step that takes the bytes of a length prefix by `take`. -/
def stepBy (take : Partial → List UInt8 → Partial × ℕ) (d : Decoder) (chunk : List UInt8) :
    Decoder × Except Error ℕ :=
  match d with
  | ⟨.header p, maxFrameSize, poisoned, stats⟩ =>
    let (p, taken) := take p chunk
    let d : Decoder := ⟨.header p, maxFrameSize, poisoned, stats.consume taken⟩
    if p.collected = LengthPrefix.size then d.announce p.accumulated taken else (d, .ok taken)
  | ⟨.body declared filled, maxFrameSize, poisoned, stats⟩ =>
    step ⟨.body declared filled, maxFrameSize, poisoned, stats⟩ chunk

/-- Steps over one input after the other up to the first that fails, and counts the bytes taken. -/
def stepAll (d : Decoder) : List (List UInt8) → Decoder × Except Error ℕ
  | [] => (d, .ok 0)
  | input :: inputs =>
    match d.step input with
    | (d, .error e) => (d, .error e)
    | (d, .ok taken) => ((d.stepAll inputs).1, (d.stepAll inputs).2.map (taken + ·))

/-- The decoder's own step takes the bytes by `Partial.take`. -/
theorem stepBy_take (d : Decoder) (chunk : List UInt8) :
    d.stepBy Partial.take chunk = d.step chunk := by
  obtain ⟨phase, max, poisoned, stats⟩ := d
  cases phase <;> rfl

/-- A step without the shortcut does the same to a decoder that is ready. -/
theorem Ready.step_eq_stepBy_collect {d : Decoder} (hd : d.Ready) (chunk : List UInt8) :
    d.step chunk = d.stepBy Partial.collect chunk := by
  cases hd with
  | header placed free => rw [← stepBy_take, stepBy, stepBy, placed.take_eq_collect]
  | body lacking allowed => rfl

section prefixes

variable {p : Partial} {bytes : List UInt8} {max : UInt32} {poisoned : Bool} {stats : Stats}

/-- A step that does not complete the prefix takes its whole input and passes nothing on. -/
theorem step_lacking (h : p.Spells bytes) {input : List UInt8}
    (hlacks : bytes.length + input.length < LengthPrefix.size) :
    step ⟨.header p, max, poisoned, stats⟩ input =
      (⟨.header (p.pushes input), max, poisoned, stats.consume input.length⟩,
        .ok input.length) := by
  have hcollected := (h.pushes hlacks.le).collected_eq
  rw [List.length_append] at hcollected
  have htake : input.take (LengthPrefix.size - p.collected) = input := by
    rw [h.collected_eq]
    exact List.take_of_length_le (by omega)
  have hmin : min (LengthPrefix.size - p.collected) input.length = input.length := by
    rw [h.collected_eq]
    omega
  rw [step_header (h.placed (by omega)), htake, hmin]
  exact if_neg (by omega)

/-- Steps that do not complete the prefix take all of their inputs and pass nothing on. -/
theorem stepAll_lacking (h : p.Spells bytes) {inputs : List (List UInt8)}
    (hlacks : bytes.length + inputs.flatten.length < LengthPrefix.size) :
    stepAll ⟨.header p, max, poisoned, stats⟩ inputs =
      (⟨.header (p.pushes inputs.flatten), max, poisoned, stats.consume inputs.flatten.length⟩,
        .ok inputs.flatten.length) := by
  induction inputs generalizing p bytes stats with
  | nil =>
    rw [stepAll, List.flatten_nil, List.length_nil, Stats.consume_zero]
    rfl
  | cons input inputs ih =>
    rw [List.flatten_cons, List.length_append] at hlacks
    have hnext : (p.pushes input).Spells (bytes ++ input) := h.pushes (by omega)
    have hlacks' : (bytes ++ input).length + inputs.flatten.length < LengthPrefix.size := by
      rw [List.length_append]
      omega
    rw [stepAll, step_lacking h (by omega)]
    dsimp only
    rw [ih hnext hlacks', Stats.consume_consume, List.flatten_cons, List.length_append,
      Partial.pushes, Partial.pushes, Partial.pushes, List.foldl_append]
    rfl

/-- The step that completes the prefix passes on the length that its four bytes spell, and takes
nothing of what stands behind them. -/
theorem step_completing (h : p.Spells bytes) (hfree : bytes.length < LengthPrefix.size)
    {input rest : List UInt8} {w : Whole} (hbytes : bytes ++ input = w.val ++ rest) :
    step ⟨.header p, max, poisoned, stats⟩ input =
      announce ⟨.header (.whole (spelling w)), max, poisoned,
          stats.consume (LengthPrefix.size - bytes.length)⟩
        (spelling w) (LengthPrefix.size - bytes.length) := by
  have hlength := congrArg List.length hbytes
  rw [List.length_append, List.length_append, w.property] at hlength
  -- The bytes that the prefix lacks are at the head of the input.
  have htake : bytes ++ input.take (LengthPrefix.size - bytes.length) = w.val := by
    have hhead := congrArg (List.take LengthPrefix.size) hbytes
    rwa [List.take_append, List.take_of_length_le hfree.le, List.take_left' w.property] at hhead
  have hwhole : p.pushes (input.take (LengthPrefix.size - bytes.length)) =
      .whole (spelling w) := by
    have hfit : bytes.length + (input.take (LengthPrefix.size - bytes.length)).length ≤
        LengthPrefix.size := by
      rw [List.length_take]
      omega
    have hspells := h.pushes hfit
    rw [htake] at hspells
    exact hspells.eq_whole
  have hmin : min (LengthPrefix.size - bytes.length) input.length =
      LengthPrefix.size - bytes.length := by omega
  rw [step_header (h.placed hfree.le), h.collected_eq, hwhole, hmin, announce, startBody_eq]
  dsimp only [Partial.whole]
  rw [if_pos rfl]
  split_ifs <;> rfl

end prefixes

/-! ## At every step of a feed -/

/-- Inside a length prefix, the bytes fed so far are whole frames and then at most three bytes, and
these are the ones that the prefix in progress spells. -/
theorem exists_seen {max : UInt32} {calls : List Call} {p : Partial}
    (hd : ((fresh max).afterCalls calls).Ready)
    (hphase : ((fresh max).afterCalls calls).phase = .header p) :
    ∃ frames seen, calls.flatMap Call.chunk = Frame.wires frames ++ seen ∧ seen.length ≤ 3 ∧
      p.Spells seen := by
  obtain ⟨used, rest, hincoming, haccounts, hall⟩ := (ready_fresh max).accounts_calls calls
  obtain ⟨rfl, hchunks⟩ := hall ((ready_fresh max).allSucceed hd.poisoned_eq)
  have hbytes : used = Frame.wires ((fresh max).handed calls) ++
      ((fresh max).afterCalls calls).held := haccounts.bytes
  rw [List.append_nil] at hincoming
  rw [← hchunks, hincoming, hbytes]
  generalize (fresh max).afterCalls calls = d at hd hphase
  cases hd with
  | header placed free =>
    cases hphase
    have hlength : p.bytes.length ≤ 3 := placed.length_bytes ▸ Nat.le_of_lt_succ free
    exact ⟨_, p.bytes, rfl, hlength, placed.spells free⟩
  | body lacking allowed => cases hphase

/-- How a length prefix arrives does not matter. Take a decoder that is not poisoned after any
calls, and feed it any chunk. At the head of every pass of the feed at which it is inside a length
prefix, the bytes fed so far are whole frames and then the at most three bytes that the prefix in
progress spells, and whatever input the step gets, a step that takes the bytes of the prefix one by
one does the same: it reports and counts the same number of bytes, or fails in the same way, and
leaves the decoder in the same state.

Let the four bytes of a prefix come to any decoder between two frames, over any number of steps and
cut anywhere, with anything behind them in the last input. Until the last step nothing is passed on.
The last step takes the bytes that were lacking and begins the payload with the length that the four
bytes spell in base 256, least significant first. A buffer that begins with these bytes is read as
the same length. So prefixes and lengths match one to one, and the prefix of a length is its
encoding. -/
theorem arrival_never_matters {σ : Type} (max : UInt32) (calls : List Call)
    (hsound : ((fresh max).afterCalls calls).poisoned = false) (sink : Sink σ) (s : σ)
    (chunk : List UInt8) :
    (∀ n l p, Loop.Reached sink chunk ⟨(fresh max).afterCalls calls, s, 0, 0⟩ n l →
      l.decoder.phase = .header p →
        (∃ frames seen, calls.flatMap Call.chunk ++ chunk.take l.cursor =
            Frame.wires frames ++ seen ∧ seen.length ≤ 3 ∧ p.Spells seen) ∧
          ∀ input, l.decoder.step input = l.decoder.stepBy Partial.collect input) ∧
      (∀ (d : Decoder) (w : Whole) (a : Arrival w), d.phase = .idle →
        ∃ p : Partial, p.Spells a.early ∧
          let before : Decoder := ⟨.header p, d.maxFrameSize, d.poisoned,
            d.stats.consume a.early.length⟩
          let behind : Decoder := ⟨.header (.whole (spelling w)), d.maxFrameSize, d.poisoned,
            d.stats.consume LengthPrefix.size⟩
          d.stepAll a.inputs = (before, .ok a.early.length) ∧
            before.step a.last =
              behind.announce (spelling w) (LengthPrefix.size - a.early.length)) ∧
      (∀ b₀ b₁ b₂ b₃, (spelling ⟨[b₀, b₁, b₂, b₃], rfl⟩).toNat =
        b₀.toNat + 256 * b₁.toNat + 65536 * b₂.toNat + 16777216 * b₃.toNat) ∧
      (∀ (w : Whole) rest, LengthPrefix.decode? (w.val ++ rest) = some (spelling w)) ∧
      Function.Bijective spelling ∧ ∀ n, (spelling.symm n).val = LengthPrefix.encode n := by
  refine ⟨?_, ?_, ?_, LengthPrefix.decode?_whole_append, spelling.bijective, fun _ => rfl⟩
  · intro n l p hreached hphase
    have hd : ((fresh max).afterCalls calls).Ready :=
      ((Reachable.fresh max).afterCalls calls).ready hsound
    have h := hreached.sound hd
    refine ⟨?_, h.ready.step_eq_stepBy_collect⟩
    -- The decoder at the head of the pass is the one that the bytes before the cursor lead to.
    have hbefore : (fresh max).afterCalls (calls ++ [⟨σ, sink, s, chunk.take l.cursor⟩]) =
        l.decoder := by
      rw [afterCalls_append]
      exact congrArg Fed.decoder h.fed
    have hseen := exists_seen (hbefore ▸ h.ready) (hbefore ▸ hphase)
    rwa [List.flatMap_append, List.flatMap_singleton] at hseen
  · intro d w a hidle
    obtain ⟨phase, max, poisoned, stats⟩ := d
    obtain rfl : phase = .idle := hidle
    have hlacking : a.early.length < LengthPrefix.size := a.lacking
    have hlacks : ([] : List UInt8).length + a.early.length < LengthPrefix.size := by
      rwa [List.length_nil, Nat.zero_add]
    have hearly : (Partial.empty.pushes a.early).Spells a.early :=
      Partial.Spells.empty.pushes hlacks.le
    refine ⟨_, hearly, stepAll_lacking .empty hlacks, ?_⟩
    -- Before the last step and in it, all four bytes are counted.
    have hcount : (stats.consume a.early.length).consume (LengthPrefix.size - a.early.length) =
        stats.consume LengthPrefix.size := by
      rw [Stats.consume_consume, Nat.add_sub_cancel' hlacking.le]
    rw [step_completing hearly hlacking a.flatten_append, hcount]
  · intro b₀ b₁ b₂ b₃
    rw [LengthPrefix.toNat_spelling, LengthPrefix.spelled_four]

/-- Behind a frame of which two bytes were fed earlier, a prefix lies whole at the head of what is
left of the chunk and is read in one go. Another comes in three inputs, one of them empty, and then
its last byte with one more; the length is 134810123, which is refused. -/
theorem arrival_never_matters_whole_and_cut :
    let calls : List Call := [⟨Array Frame, Sink.collect, #[], [1, 0]⟩]
    let chunk : List UInt8 := [0, 0, 9, 2, 0, 0, 0, 5, 6]
    let start : Loop (Array Frame) := ⟨(fresh 5).afterCalls calls, #[], 0, 0⟩
    let l : Loop (Array Frame) := ⟨⟨.idle, 5, false, ⟨1, 1, 5, 1⟩⟩, #[⟨0, [9]⟩], 3, 1⟩
    let w : Whole := ⟨[11, 10, 9, 8], rfl⟩
    start.decoder.poisoned = false ∧ Loop.Reached Sink.collect chunk start 2 l ∧
      l.decoder.step (chunk.drop 3) = l.decoder.stepBy Partial.collect (chunk.drop 3) ∧
      (fresh 5).phase = .idle ∧ (spelling w).toNat = 134810123 ∧
      ∃ p : Partial, p.Spells [11, 10, 9] ∧
        (fresh 5).stepAll [[11], [], [10, 9]] =
          (⟨.header p, 5, false, ⟨0, 0, 3, 0⟩⟩, .ok 3) ∧
        step ⟨.header p, 5, false, ⟨0, 0, 3, 0⟩⟩ [8, 255] =
          announce ⟨.header (.whole (spelling w)), 5, false, ⟨0, 0, 4, 0⟩⟩ (spelling w) 1 := by
  intro calls chunk start l w
  obtain ⟨hheads, harrivals, hspelling, -⟩ :=
    arrival_never_matters 5 calls rfl Sink.collect #[] chunk
  have hreached : Loop.Reached Sink.collect chunk start 2 l :=
    .behind (.behind .first (by decide) rfl) (by decide) rfl
  exact ⟨rfl, hreached, (hheads 2 l .empty hreached rfl).2 _, rfl, hspelling 11 10 9 8,
    harrivals (fresh 5) w ⟨[[11], [], [10, 9]], [8, 255], [255], by decide, rfl⟩ rfl⟩

end Decoder

end PrefixFraming
