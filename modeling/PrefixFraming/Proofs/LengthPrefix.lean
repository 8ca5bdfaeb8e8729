import PrefixFraming.Frame
import Mathlib.Tactic.NormNum

/-!
# Length prefixes, read whole and byte by byte

The four bytes of a prefix and the number they spell determine each other (`decode?_encode_append`,
`encode_value`). For a prefix that arrives a byte at a time the invariant is `Partial.Placed`: the
arrived bytes fill the lowest places and the places still to come are zero. Under it the next byte
lands on free places, so that the shift-and-or of `Partial.push` is an addition (`toNat_push`), the
arrived bytes can be read back in the order of their arrival (`bytes_push`), and reading a prefix in
one go is the same as reading it byte by byte (`take_eq_collect`).
-/

namespace PrefixFraming.LengthPrefix

/-! ## Whole prefixes -/

/-- A prefix has four bytes. -/
@[simp]
theorem length_encode (n : UInt32) : (encode n).length = size := rfl

/-- The number that four bytes spell does not wrap. -/
theorem toNat_value (b₀ b₁ b₂ b₃ : UInt8) :
    (value b₀ b₁ b₂ b₃).toNat =
      b₀.toNat + 256 * b₁.toNat + 65536 * b₂.toNat + 16777216 * b₃.toNat := by
  have h₀ := b₀.toNat_lt
  have h₁ := b₁.toNat_lt
  have h₂ := b₂.toNat_lt
  have h₃ := b₃.toNat_lt
  -- Four digits below 256 stay below `2 ^ 32`, so no operation wraps.
  simp only [value, UInt32.toNat_add, UInt32.toNat_mul, UInt8.toNat_toUInt32, UInt32.reduceToNat]
  omega

/-- The bytes of a length are its digits in base 256, lowest first. -/
theorem encode_eq (n : UInt32) :
    encode n = [.ofNat n.toNat, .ofNat (n.toNat / 256), .ofNat (n.toNat / 65536),
      .ofNat (n.toNat / 16777216)] := by
  simp only [encode, List.cons.injEq, and_true, ← UInt8.toNat_inj, UInt32.toNat_toUInt8,
    UInt32.toNat_shiftRight, UInt8.toNat_ofNat', UInt32.reduceToNat, Nat.shiftRight_eq_div_pow]

/-- Four bytes are the prefix of the number they spell. -/
theorem encode_value (b₀ b₁ b₂ b₃ : UInt8) : encode (value b₀ b₁ b₂ b₃) = [b₀, b₁, b₂, b₃] := by
  have h₀ := b₀.toNat_lt
  have h₁ := b₁.toNat_lt
  have h₂ := b₂.toNat_lt
  have h₃ := b₃.toNat_lt
  simp only [encode_eq, toNat_value, List.cons.injEq, and_true, ← UInt8.toNat_inj,
    UInt8.toNat_ofNat']
  refine ⟨?_, ?_, ?_, ?_⟩ <;> omega

/-- A length is read back from its prefix, whatever follows. -/
@[simp]
theorem decode?_encode_append (n : UInt32) (rest : List UInt8) :
    decode? (encode n ++ rest) = some n := by
  have hn := n.toNat_lt
  -- Four digits are enough for a number below `2 ^ 32`.
  rw [encode_eq]
  simp only [List.cons_append, decode?, Option.some.injEq, ← UInt32.toNat_inj, toNat_value,
    UInt8.toNat_ofNat']
  omega

/-- No length can be read from fewer than four bytes. -/
theorem decode?_eq_none {buffer : List UInt8} (h : buffer.length < size) :
    decode? buffer = none := by
  match buffer with
  | [] | [_] | [_, _] | [_, _, _] => rfl
  | _ :: _ :: _ :: _ :: rest =>
    simp only [List.length_cons, size] at h
    omega

/-! ## Prefixes in progress -/

namespace Partial

/-- The arrived bytes fill the lowest places, and the places still to come are zero. -/
structure Placed (p : Partial) : Prop where
  /-- No more bytes have arrived than a prefix has. -/
  collected_le : p.collected ≤ size
  /-- The number has no digits beyond those that have arrived. -/
  accumulated_lt : p.accumulated.toNat < 256 ^ p.collected

/-- No byte has arrived at first. -/
@[simp]
theorem collected_empty : empty.collected = 0 := rfl

/-- Every byte counts. -/
@[simp]
theorem collected_push (p : Partial) (b : UInt8) : (p.push b).collected = p.collected + 1 := rfl

/-- Before the first byte nothing is out of place. -/
theorem Placed.empty : Placed empty := ⟨by decide, by decide⟩

/-- Without a byte the number is zero. -/
theorem Placed.eq_empty {p : Partial} (h : p.Placed) (h0 : p.collected = 0) :
    p = Partial.empty := by
  obtain ⟨collected, accumulated⟩ := p
  obtain rfl : collected = 0 := h0
  have hlt : accumulated.toNat < 1 := h.accumulated_lt
  have hzero : accumulated = 0 := UInt32.toNat_inj.mp (show accumulated.toNat = 0 by omega)
  rw [hzero, Partial.empty]

/-- The free places are the four of a prefix. -/
theorem lt_size_cases {c : ℕ} (h : c < size) : c = 0 ∨ c = 1 ∨ c = 2 ∨ c = 3 := by
  unfold size at h
  omega

/-- A byte that is shifted to a place of the prefix is a digit of that place. -/
theorem toNat_shifted {c : ℕ} (hfree : c < size) (b : UInt8) :
    (b.toUInt32 <<< (8 * c).toUInt32).toNat = b.toNat * 256 ^ c := by
  have hb := b.toNat_lt
  have hc : c ≤ 3 := Nat.le_of_lt_succ hfree
  have hpow : (256 : ℕ) ^ c = 2 ^ (8 * c) := by rw [Nat.pow_mul]
  -- Neither the shift amount nor the shifted byte wraps.
  have hamount : (8 * c).toUInt32.toNat % 32 = 8 * c := by
    simp only [Nat.toUInt32_eq, UInt32.toNat_ofNat']
    omega
  have hdigit : b.toNat * 256 ^ c < 2 ^ 32 := by
    calc b.toNat * 256 ^ c ≤ 255 * 256 ^ 3 :=
          Nat.mul_le_mul (by omega) (Nat.pow_le_pow_right (by omega) hc)
      _ < 2 ^ 32 := by norm_num
  rw [UInt32.toNat_shiftLeft, UInt8.toNat_toUInt32, hamount, Nat.shiftLeft_eq, ← hpow,
    Nat.mod_eq_of_lt hdigit]

/-- The next byte becomes the next digit of the number, since its place is free. -/
theorem Placed.toNat_push {p : Partial} (h : p.Placed) (hfree : p.collected < size) (b : UInt8) :
    (p.push b).accumulated.toNat = p.accumulated.toNat + b.toNat * 256 ^ p.collected := by
  have hlow := h.accumulated_lt
  have hpow : (256 : ℕ) ^ p.collected = 2 ^ (8 * p.collected) := by rw [Nat.pow_mul]
  rw [hpow] at hlow
  rw [Partial.push, UInt32.toNat_or, toNat_shifted hfree, hpow]
  -- The digits so far lie below the shifted byte, so the two have no bit in common.
  rw [Nat.or_comm, ← Nat.shiftLeft_eq, ← Nat.shiftLeft_add_eq_or_of_lt hlow, Nat.add_comm]

/-- The next byte leaves the places still to come zero. -/
theorem Placed.push {p : Partial} (h : p.Placed) (hfree : p.collected < size) (b : UInt8) :
    (p.push b).Placed where
  collected_le := hfree
  accumulated_lt := by
    have hb := b.toNat_lt
    have hlow := h.accumulated_lt
    -- A digit is at most 255, and the number below it less than one unit of its place.
    have hdigit : b.toNat * 256 ^ p.collected ≤ 255 * 256 ^ p.collected :=
      Nat.mul_le_mul_right _ (by omega)
    rw [h.toNat_push hfree, show (p.push b).collected = p.collected + 1 from rfl, pow_succ]
    omega

/-- As many bytes are held as have arrived. -/
theorem Placed.length_bytes {p : Partial} (h : p.Placed) : p.bytes.length = p.collected := by
  rw [bytes, List.length_take, length_encode, min_eq_left h.collected_le]

/-- The next byte is held behind those that arrived before it. -/
theorem Placed.bytes_push {p : Partial} (h : p.Placed) (hfree : p.collected < size) (b : UInt8) :
    (p.push b).bytes = p.bytes ++ [b] := by
  have hnew := h.toNat_push hfree b
  obtain ⟨c, acc⟩ := p
  have hb := b.toNat_lt
  have hlow : acc.toNat < 256 ^ c := h.accumulated_lt
  have hc : c = 0 ∨ c = 1 ∨ c = 2 ∨ c = 3 := lt_size_cases hfree
  rw [bytes, bytes, encode_eq, encode_eq, hnew]
  -- Digit by digit: the arrived ones are as before, and the next one is the byte.
  rcases hc with rfl | rfl | rfl | rfl <;>
    simp [Partial.push, ← UInt8.toNat_inj] <;> omega

/-- A complete prefix holds the bytes of its length. -/
theorem bytes_of_complete {p : Partial} (h : p.collected = size) :
    p.bytes = encode p.accumulated := by
  rw [bytes, h, List.take_of_length_le (by simp)]

/-! ## Taking bytes -/

/-- While the prefix is incomplete the next byte is taken. -/
theorem collect_cons {p : Partial} (hfree : p.collected < size) (b : UInt8) (rest : List UInt8) :
    p.collect (b :: rest) = (((p.push b).collect rest).1, ((p.push b).collect rest).2 + 1) := by
  rw [collect, if_pos hfree]

/-- A complete prefix takes nothing. -/
theorem collect_of_complete {p : Partial} (h : p.collected = size) (buffer : List UInt8) :
    p.collect buffer = (p, 0) := by
  cases buffer with
  | nil => rfl
  | cons b rest => rw [collect, if_neg (by omega)]

/-- Four bytes that arrive one by one are the prefix of the number they spell. -/
theorem push_push_push_push (b₀ b₁ b₂ b₃ : UInt8) :
    (((empty.push b₀).push b₁).push b₂).push b₃ = whole (value b₀ b₁ b₂ b₃) := by
  have h₀ := Placed.empty
  have h₁ := h₀.push (by simp [size]) b₀
  have h₂ := h₁.push (by simp [size]) b₁
  have h₃ := h₂.push (by simp [size]) b₂
  have hnum : ((((empty.push b₀).push b₁).push b₂).push b₃).accumulated.toNat =
      b₀.toNat + b₁.toNat * 256 + b₂.toNat * 65536 + b₃.toNat * 16777216 := by
    rw [h₃.toNat_push (by simp [size]), h₂.toNat_push (by simp [size]),
      h₁.toNat_push (by simp [size]), h₀.toNat_push (by simp [size])]
    simp [empty]
  have hvalue : ((((empty.push b₀).push b₁).push b₂).push b₃).accumulated =
      value b₀ b₁ b₂ b₃ := by
    rw [← UInt32.toNat_inj, hnum, toNat_value]
    omega
  rw [whole, ← hvalue]
  rfl

/-- Reading a whole prefix in one go changes nothing. -/
theorem Placed.take_eq_collect {p : Partial} (h : p.Placed) (buffer : List UInt8) :
    p.take buffer = p.collect buffer := by
  rw [take]
  split
  · -- Nothing has arrived. With fewer than four bytes there is no whole prefix to read.
    rename_i h0
    obtain rfl := h.eq_empty h0
    match buffer with
    | [] | [_] | [_, _] | [_, _, _] => rfl
    | b₀ :: b₁ :: b₂ :: b₃ :: rest =>
      rw [collect_cons (by simp [size]), collect_cons (by simp [size]),
        collect_cons (by simp [size]), collect_cons (by simp [size]), push_push_push_push,
        collect_of_complete rfl]
      rfl
  · rfl

end Partial

end PrefixFraming.LengthPrefix
