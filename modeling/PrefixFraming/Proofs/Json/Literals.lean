import PrefixFraming.Json.Unsigned
import PrefixFraming.Proofs.Json.Strings

/-!
# Unsigned literals

The decimal digits of a natural number, `Nat.toDigits 10`, are the only way to write it as an
unsigned literal: there is no sign, fraction or exponent, and no leading zero. The reader of numbers
comes to a natural number exactly if its digits stand in front of it and nothing follows that would
go on with the number (`Number.read_eq_natural_iff`), and the reader of settings exactly if the
number has the width of the setting as well (`readUnsigned_eq_ok_iff`).

A fraction or an exponent always makes a float, and so do digits that no longer fit, so the proof
only has to follow the digits of the integer part. They are gathered one at a time, which is how
`Nat.ofDigitChars` reads them.
-/

namespace PrefixFraming.Json

/-- The text does not go on with a number that ends in front of it. -/
def Stops (text : List Char) : Prop :=
  ∀ c ∈ text.head?, c.isDigit = false ∧ c ≠ '.' ∧ c ≠ 'e' ∧ c ≠ 'E'

/-! ## Digits -/

/-- A decimal digit is the digit of its value. -/
theorem digitChar_of_isDigit {c : Char} (h : c.isDigit = true) :
    c.toNat - '0'.toNat < 10 ∧ (c.toNat - '0'.toNat).digitChar = c := by
  have hc : Char.ofNat c.toNat = c := c.ofNat_toNat
  have hrange : 48 ≤ c.toNat ∧ c.toNat ≤ 57 := by
    simpa [Char.isDigit, UInt32.le_iff_toNat_le] using h
  generalize c.toNat = n at hc hrange
  subst hc
  obtain ⟨hlow, hhigh⟩ := hrange
  interval_cases n <;> exact ⟨by decide, rfl⟩

/-- A number has at least a digit, and nothing but digits. -/
theorem toDigits_eq_cons (n : ℕ) :
    ∃ c digits, Nat.toDigits 10 n = c :: digits ∧ c.isDigit = true ∧
      ∀ d ∈ digits, d.isDigit = true := by
  have hdigits : ∀ c ∈ Nat.toDigits 10 n, c.isDigit = true :=
    fun c hc => Nat.isDigit_of_mem_toDigits (by decide) (by decide) hc
  obtain ⟨c, digits, hcons⟩ := List.exists_cons_of_ne_nil (Nat.toDigits_ne_nil (n := n) (b := 10))
  rw [hcons] at hdigits
  obtain ⟨hc, hrest⟩ := List.forall_mem_cons.mp hdigits
  exact ⟨c, digits, hcons, hc, hrest⟩

/-- A digit is not a blank. -/
theorem isBlank_of_isDigit {c : Char} (h : c.isDigit = true) : isBlank c = false := by
  by_contra hblank
  simp only [isBlank, Bool.not_eq_false, Bool.or_eq_true, decide_eq_true_eq] at hblank
  obtain ((rfl | rfl) | rfl) | rfl := hblank <;> cases h

/-- Digits behind those of a positive number go on with it. -/
theorem toDigits_append_eq {n : ℕ} (hn : 0 < n) {digits : List Char}
    (hdigits : ∀ c ∈ digits, c.isDigit = true) :
    Nat.toDigits 10 n ++ digits = Nat.toDigits 10 (Nat.ofDigitChars 10 digits n) := by
  induction digits generalizing n with
  | nil => rw [List.append_nil, Nat.ofDigitChars_nil]
  | cons c digits ih =>
    obtain ⟨hc, hrest⟩ := List.forall_mem_cons.mp hdigits
    obtain ⟨hlt, hchar⟩ := digitChar_of_isDigit hc
    have hone : Nat.toDigits 10 (c.toNat - '0'.toNat) = [c] := by
      rw [Nat.toDigits_of_lt_base hlt, hchar]
    have hboth := Nat.toDigits_append_toDigits (b := 10) (by decide) hn hlt
    rw [hone] at hboth
    calc Nat.toDigits 10 n ++ c :: digits = (Nat.toDigits 10 n ++ [c]) ++ digits := by simp
      _ = Nat.toDigits 10 (10 * n + (c.toNat - '0'.toNat)) ++ digits := by rw [hboth]
      _ = Nat.toDigits 10 (Nat.ofDigitChars 10 (c :: digits) n) := by
        rw [ih (by omega) hrest, Nat.ofDigitChars_cons]

/-- Digits without a leading zero are those of the number that they spell. -/
theorem toDigits_ofDigitChars {c : Char} {digits : List Char} (hzero : c ≠ '0')
    (hc : c.isDigit = true) (hdigits : ∀ c ∈ digits, c.isDigit = true) :
    Nat.toDigits 10 (Nat.ofDigitChars 10 (c :: digits) 0) = c :: digits := by
  obtain ⟨hlt, hchar⟩ := digitChar_of_isDigit hc
  have hpos : 0 < c.toNat - '0'.toNat := by
    by_contra hnot
    rw [Nat.eq_zero_of_not_pos hnot] at hchar
    exact hzero hchar.symm
  rw [Nat.ofDigitChars_cons, Nat.mul_zero, Nat.zero_add, ← toDigits_append_eq hpos hdigits,
    Nat.toDigits_of_lt_base hlt, hchar, List.singleton_append]

/-- The digits of a positive number do not begin with a zero. -/
theorem head?_toDigits_ne_zero {n : ℕ} (hn : 0 < n) : (Nat.toDigits 10 n).head? ≠ some '0' := by
  induction n using Nat.strongRecOn with
  | ind n ih =>
    rcases Nat.lt_or_ge n 10 with hlt | hge
    · rw [Nat.toDigits_of_lt_base hlt]
      simpa using hn.ne'
    · have hsmaller := ih (n / 10) (by omega) (by omega)
      obtain ⟨c, digits, hcons, -⟩ := toDigits_eq_cons (n / 10)
      rw [Nat.toDigits_of_base_le (by decide) hge, List.head?_append]
      rw [hcons] at hsmaller ⊢
      exact hsmaller

namespace Number

/-- Digits that fit are all gathered. -/
theorem gather_of_lt {bound n : ℕ} {digits : List Char}
    (h : Nat.ofDigitChars 10 digits n < bound) :
    gather bound n digits = (Nat.ofDigitChars 10 digits n, []) := by
  induction digits generalizing n with
  | nil => rfl
  | cons c digits ih =>
    rw [Nat.ofDigitChars_cons] at h ⊢
    -- A number does not become smaller by further digits.
    have hmore : Nat.ofDigitChars 10 digits (10 * n + digit c) =
        10 ^ digits.length * (10 * n + digit c) + Nat.ofDigitChars 10 digits 0 :=
      Nat.ofDigitChars_eq_ofDigitChars_zero
    have hpow : 0 < 10 ^ digits.length := by positivity
    have hle : 10 * n + digit c ≤ 10 ^ digits.length * (10 * n + digit c) :=
      Nat.le_mul_of_pos_left _ hpow
    have hfits : 10 * n + digit c < bound := by
      unfold digit at *
      omega
    rw [gather, if_pos hfits]
    exact ih h

/-- If all digits are gathered they fit. -/
theorem of_gather {bound n m : ℕ} {digits : List Char} (h : gather bound n digits = (m, []))
    (hn : n < bound) : m = Nat.ofDigitChars 10 digits n ∧ m < bound := by
  induction digits generalizing n with
  | nil =>
    cases h
    exact ⟨rfl, hn⟩
  | cons c digits ih =>
    rw [gather] at h
    split_ifs at h with hfits
    · rw [Nat.ofDigitChars_cons]
      exact ih h hfits
    · cases h

/-! ## Floats -/

variable {negative : Bool} {significand n : ℕ} {exponent point value : ℤ} {text rest : List Char}

/-- A float is not an integer. -/
theorem floatAt_ne_integer :
    floatAt negative significand exponent text ≠ .ok (.integer value, rest) := by
  unfold floatAt
  split <;> simp [signed]

/-- A number with an exponent is not an integer. -/
theorem readExponent_ne_integer :
    readExponent negative significand point text ≠ .ok (.integer value, rest) := by
  unfold readExponent
  rcases exponentSign text with ⟨down, _ | ⟨c, behind⟩⟩
  · simp
  · dsimp only
    by_cases hdigit : (!c.isDigit) = true
    · simp [hdigit]
    · rw [if_neg hdigit]
      rcases gather exponentBound 0 (spanDigits (c :: behind)).1 with ⟨e, _ | ⟨d, unread⟩⟩
      · exact floatAt_ne_integer
      · dsimp only
        split_ifs <;> simp [signed]

/-- A number with a fraction is not an integer. -/
theorem readFraction_ne_integer :
    readFraction negative significand point text ≠ .ok (.integer value, rest) := by
  unfold readFraction
  dsimp only
  split
  · simp
  · simp
  · unfold readScale
    split
    · exact readExponent_ne_integer
    · exact readExponent_ne_integer
    · exact floatAt_ne_integer

/-! ## Integers -/

/-- The tail of a number without fraction and exponent, of which no digit is left over, is empty. -/
theorem of_readTail {overflow : ℕ}
    (h : readTail negative significand overflow text = .ok (.integer value, rest)) :
    overflow = 0 ∧ ofDigits negative significand = .integer value ∧ rest = text ∧
      ∀ c ∈ text.head?, c ≠ '.' ∧ c ≠ 'e' ∧ c ≠ 'E' := by
  unfold readTail at h
  split at h
  · exact absurd h readFraction_ne_integer
  · exact absurd h readExponent_ne_integer
  · exact absurd h readExponent_ne_integer
  · rename_i hpoint he hE
    split_ifs at h with hzero
    · rw [Except.ok.injEq, Prod.mk.injEq] at h
      refine ⟨hzero, h.1, h.2.symm, ?_⟩
      rintro c hc
      obtain ⟨more, rfl⟩ := List.head?_eq_some_iff.mp hc
      refine ⟨?_, ?_, ?_⟩
      · rintro rfl
        exact hpoint more rfl
      · rintro rfl
        exact he more rfl
      · rintro rfl
        exact hE more rfl
    · exact absurd h floatAt_ne_integer

/-- Where a number stops its tail is empty. -/
theorem readTail_of_stops (hrest : Stops rest) :
    readTail negative significand 0 rest = .ok (ofDigits negative significand, rest) := by
  unfold readTail
  split
  · exact absurd rfl (hrest '.' rfl).2.1
  · exact absurd rfl (hrest 'e' rfl).2.2.1
  · exact absurd rfl (hrest 'E' rfl).2.2.2
  · exact if_pos rfl

/-- Splitting digits off stops where they end. -/
theorem spanDigits_append {digits : List Char} (hdigits : ∀ c ∈ digits, c.isDigit = true)
    (hrest : Stops rest) : spanDigits (digits ++ rest) = (digits, rest) := by
  have hnone : rest.takeWhile Char.isDigit = [] ∧ rest.dropWhile Char.isDigit = rest := by
    cases rest with
    | nil => exact ⟨rfl, rfl⟩
    | cons c rest => simp [(hrest c rfl).1]
  rw [spanDigits, List.takeWhile_append_of_pos hdigits, List.dropWhile_append_of_pos hdigits,
    hnone.1, hnone.2, List.append_nil]

/-- Every text is digits and then a text that begins with none. -/
theorem spanDigits_spec (text : List Char) :
    (∀ c ∈ (spanDigits text).1, c.isDigit = true) ∧
      text = (spanDigits text).1 ++ (spanDigits text).2 ∧
      ∀ c ∈ (spanDigits text).2.head?, c.isDigit = false := by
  refine ⟨fun c hc => List.mem_takeWhile_imp hc, List.takeWhile_append_dropWhile.symm, ?_⟩
  intro c hc
  have hnot := List.head?_dropWhile_not Char.isDigit text
  rw [show (text.dropWhile Char.isDigit).head? = some c from hc] at hnot
  simpa using hnot

/-- What is read as an integer is the digits of its significand, and stops behind them. -/
theorem of_readMagnitude
    (h : readMagnitude negative text = .ok (.integer value, rest)) :
    ∃ m, text = Nat.toDigits 10 m ++ rest ∧ m < significandBound ∧ Stops rest ∧
      ofDigits negative m = .integer value := by
  unfold readMagnitude at h
  split at h
  · cases h
  · -- A lone zero.
    rename_i text
    have hzero : ∀ c ∈ text.head?, c.isDigit = false := by
      intro c hc
      obtain ⟨more, rfl⟩ := List.head?_eq_some_iff.mp hc
      dsimp only at h
      split_ifs at h with hdigit
      · simpa using hdigit
    have htail : readTail negative 0 0 text = .ok (.integer value, rest) := by
      cases text with
      | nil => exact h
      | cons c more => simpa [hzero c rfl] using h
    obtain ⟨-, hvalue, rfl, hstops⟩ := of_readTail htail
    refine ⟨0, by simp, by decide, fun c hc => ⟨hzero c hc, hstops c hc⟩, hvalue⟩
  · rename_i c text hzero
    split_ifs at h with hdigit
    have hc : c.isDigit = true := by simpa using hdigit
    obtain ⟨hdigits, hsplit, hbehind⟩ := spanDigits_spec (c :: text)
    generalize spanDigits (c :: text) = split at h hdigits hsplit hbehind
    obtain ⟨digits, behind⟩ := split
    dsimp only at h hdigits hsplit hbehind
    -- The first digit is among those that are split off.
    obtain ⟨more, rfl⟩ : ∃ more, digits = c :: more := by
      cases digits with
      | nil =>
        obtain rfl : c :: text = behind := hsplit
        rw [hbehind c rfl] at hc
        cases hc
      | cons d more => exact ⟨more, by rw [(List.cons.inj hsplit).1]⟩
    rcases hgather : gather significandBound 0 (c :: more) with ⟨m, unread⟩
    rw [hgather] at h
    dsimp only at h
    obtain ⟨hall, hvalue, rfl, hstops⟩ := of_readTail h
    rw [List.length_eq_zero_iff.mp hall] at hgather
    obtain ⟨rfl, hfits⟩ := of_gather hgather (by decide)
    refine ⟨_, ?_, hfits, fun c hc => ⟨hbehind c hc, hstops c hc⟩, hvalue⟩
    rw [toDigits_ofDigitChars hzero hc (List.forall_mem_cons.mp hdigits).2, hsplit]

/-- The digits of a number that fits, where it stops, are read as its significand. -/
theorem readMagnitude_toDigits (hn : n < significandBound) (hrest : Stops rest) :
    readMagnitude negative (Nat.toDigits 10 n ++ rest) = .ok (ofDigits negative n, rest) := by
  rcases Nat.eq_zero_or_pos n with rfl | hpos
  · rw [Nat.toDigits_zero, List.singleton_append]
    cases rest with
    | nil => exact readTail_of_stops hrest
    | cons c rest =>
      have hzero : readMagnitude negative ('0' :: c :: rest) =
          if c.isDigit then .error (.next .badNumber (c :: rest))
          else readTail negative 0 0 (c :: rest) := rfl
      rw [hzero, (hrest c rfl).1, if_neg (by simp)]
      exact readTail_of_stops hrest
  · have hgather : gather significandBound 0 (Nat.toDigits 10 n) = (n, []) := by
      rw [gather_of_lt] <;> rw [Nat.ofDigitChars_ten_toDigits]
      exact hn
    have hhead := head?_toDigits_ne_zero hpos
    obtain ⟨c, digits, hcons, hdigit, hdigits⟩ := toDigits_eq_cons n
    rw [hcons] at hgather hhead ⊢
    have hzero : c ≠ '0' := fun h => hhead (congrArg some h)
    have hspan := spanDigits_append (List.forall_mem_cons.mpr ⟨hdigit, hdigits⟩) hrest
    rw [List.cons_append] at hspan ⊢
    rw [readMagnitude, hspan, hdigit, if_neg (by simp)]
    · dsimp only
      rw [hgather]
      exact readTail_of_stops hrest
    · exact hzero

/-- The reader of numbers comes to a natural number exactly if its digits stand in front of it and
it stops behind them. -/
theorem read_eq_natural_iff :
    read text = .ok (.integer n, rest) ↔
      text = Nat.toDigits 10 n ++ rest ∧ n < significandBound ∧ Stops rest := by
  constructor
  · intro h
    unfold read at h
    split at h
    · -- Behind a minus sign stands nothing that is a natural number.
      obtain ⟨m, -, -, -, hvalue⟩ := of_readMagnitude h
      simp only [ofDigits, Bool.not_true, Bool.false_eq_true, if_false] at hvalue
      split_ifs at hvalue with hpos
      · rw [Number.integer.injEq] at hvalue
        simp only [Bool.and_eq_true, decide_eq_true_eq] at hpos
        omega
      · cases hvalue
    · obtain ⟨m, rfl, hfits, hstops, hvalue⟩ := of_readMagnitude h
      obtain rfl : m = n := by simpa [ofDigits] using hvalue
      exact ⟨rfl, hfits, hstops⟩
  · rintro ⟨rfl, hfits, hstops⟩
    have hread : readMagnitude false (Nat.toDigits 10 n ++ rest) =
        .ok (ofDigits false n, rest) := readMagnitude_toDigits hfits hstops
    obtain ⟨c, digits, hcons, hdigit, -⟩ := toDigits_eq_cons n
    rw [hcons] at hread ⊢
    have hsign : c ≠ '-' := by
      rintro rfl
      cases hdigit
    rw [List.cons_append] at hread ⊢
    rw [read, hread]
    · rfl
    · exact fun more h => hsign (List.cons.inj h).1

end Number

/-- The reader of settings reads a number exactly if its digits stand in front of it, perhaps behind
blanks, it has the width of the setting, and it stops behind them. -/
theorem readUnsigned_eq_ok_iff {width : Width} (hwidth : width.bound ≤ Number.significandBound)
    {text rest : List Char} {n : ℕ} :
    readUnsigned width text = .ok (n, rest) ↔
      ∃ b, Blank b ∧ text = b ++ (Nat.toDigits 10 n ++ rest) ∧ n < width.bound ∧ Stops rest := by
  constructor
  · intro h
    obtain ⟨b, hb, htext, -⟩ := exists_blank text
    unfold readUnsigned at h
    split at h
    · cases h
    · rename_i c behind hskip
      rw [hskip] at htext
      split_ifs at h with hstart
      split at h
      · rename_i value rest' hread
        split_ifs at h with hrange
        cases h
        simp only [Bool.and_eq_true, decide_eq_true_eq] at hrange
        have hvalue : (value.toNat : ℤ) = value := Int.toNat_of_nonneg hrange.1
        rw [← hvalue] at hread
        obtain ⟨hdigits, -, hstops⟩ := Number.read_eq_natural_iff.mp hread
        exact ⟨b, hb, by rw [htext, hdigits], by omega, hstops⟩
      · cases h
      · cases h
  · rintro ⟨b, hb, rfl, hn, hstops⟩
    have hread := Number.read_eq_natural_iff.mpr ⟨rfl, Nat.lt_of_lt_of_le hn hwidth, hstops⟩
    obtain ⟨c, digits, hcons, hdigit, -⟩ := toDigits_eq_cons n
    rw [hcons, List.cons_append] at hread ⊢
    have hsharp : Sharp (c :: (digits ++ rest)) := sharp_cons (isBlank_of_isDigit hdigit)
    have hstart : Number.isStart c = true := by rw [Number.isStart, hdigit, Bool.or_true]
    have hrange : (decide ((0 : ℤ) ≤ n) && decide ((n : ℤ) < width.bound)) = true := by
      simp [hn]
    rw [readUnsigned, skipBlanks_append hb hsharp]
    dsimp only
    rw [if_pos hstart, hread]
    dsimp only
    rw [if_pos hrange, Int.toNat_natCast]

end PrefixFraming.Json
