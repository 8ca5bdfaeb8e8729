import PrefixFraming.Json.Token
import Mathlib.Data.List.TakeWhile
import Mathlib.Tactic.IntervalCases

/-!
# Strings as they are spelled

How a string is spelled in a text is said here without a reader: character by character, each by
itself or with an escape (`Spelled`). There are escapes of two letters, of a hexadecimal unit, and
of two units that are the halves of a surrogate pair (`Escaped`). The reader of strings reads a
string exactly if one is spelled in front of it, and stops behind the closing quote
(`readString_eq_ok_iff`). The proof looks at digits, units and escapes in turn.
-/

namespace PrefixFraming.Json

/-! ## Blanks -/

/-- Nothing but characters that may stand between tokens. -/
def Blank (cs : List Char) : Prop := ∀ c ∈ cs, isBlank c = true

instance (cs : List Char) : Decidable (Blank cs) :=
  decidable_of_iff (cs.all isBlank = true) List.all_eq_true

/-- The text does not begin with a blank. -/
def Sharp (text : List Char) : Prop := ∀ c ∈ text.head?, isBlank c = false

/-- No character at all is nothing but blanks. -/
theorem blank_nil : Blank [] := List.forall_mem_nil _

/-- Blanks behind blanks are blanks. -/
theorem Blank.append {a b : List Char} (ha : Blank a) (hb : Blank b) : Blank (a ++ b) := by
  intro c hc
  rcases List.mem_append.mp hc with h | h
  · exact ha c h
  · exact hb c h

/-- A character that is not a blank makes the text behind it sharp. -/
theorem sharp_cons {c : Char} {rest : List Char} (h : isBlank c = false) : Sharp (c :: rest) := by
  rintro _ ⟨⟩
  exact h

/-- Skipping blanks stops where they end. -/
theorem skipBlanks_append {b text : List Char} (hb : Blank b) (htext : Sharp text) :
    skipBlanks (b ++ text) = text := by
  rw [skipBlanks, List.dropWhile_append_of_pos hb]
  cases text with
  | nil => rfl
  | cons c rest => rw [List.dropWhile_cons_of_neg (by simp [htext c rfl])]

/-- Every text is blanks and then the text behind them. -/
theorem exists_blank (text : List Char) :
    ∃ b, Blank b ∧ text = b ++ skipBlanks text ∧ Sharp (skipBlanks text) := by
  refine ⟨text.takeWhile isBlank, ?_, List.takeWhile_append_dropWhile.symm, ?_⟩
  · exact fun c hc => List.mem_takeWhile_imp hc
  · intro c hc
    have hnot := List.head?_dropWhile_not isBlank text
    rw [show (text.dropWhile isBlank).head? = some c from hc] at hnot
    simpa using hnot

/-! ## Hexadecimal units -/

/-- A sequence of two readers succeeds if both do. -/
theorem bind_eq_ok_iff {ε α β : Type} {x : Except ε α} {f : α → Except ε β} {b : β} :
    (x >>= f) = .ok b ↔ ∃ a, x = .ok a ∧ f a = .ok b := by
  rcases x with e | a
  · simp [bind, Except.bind]
  · simp [bind, Except.bind]

/-- The character is a hexadecimal digit, in either case, with this value. -/
def HexDigit (c : Char) (x : ℕ) : Prop := x < 16 ∧ (c = x.digitChar ∨ c = x.digitChar.toUpper)

/-- The characters are four hexadecimal digits that spell this number. -/
inductive HexUnit : List Char → ℕ → Prop where
  /-- The highest digit comes first. -/
  | digits {a b c d : Char} {w x y z : ℕ} (first : HexDigit a w) (second : HexDigit b x)
      (third : HexDigit c y) (fourth : HexDigit d z) :
      HexUnit [a, b, c, d] (((w * 16 + x) * 16 + y) * 16 + z)

/-- Characters are compared by their numbers. -/
theorem between_iff (a b c : Char) :
    (decide (a ≤ c) && decide (c ≤ b)) = true ↔ a.toNat ≤ c.toNat ∧ c.toNat ≤ b.toNat := by
  simp [Char.le_def, UInt32.le_iff_toNat_le]

/-- The reader knows the hexadecimal digits. -/
theorem hexDigit?_eq_some_iff {c : Char} {x : ℕ} : hexDigit? c = some x ↔ HexDigit c x := by
  constructor
  · -- In each of the three ranges there are only some numbers to look at.
    intro h
    have hc : Char.ofNat c.toNat = c := c.ofNat_toNat
    simp only [hexDigit?, between_iff, Char.reduceToNat] at h
    generalize c.toNat = n at h hc
    subst hc
    split_ifs at h with hdigit hlower hupper
    · obtain ⟨hlow, hhigh⟩ := hdigit
      cases h
      interval_cases n <;> exact ⟨by decide, .inl rfl⟩
    · obtain ⟨hlow, hhigh⟩ := hlower
      cases h
      interval_cases n <;> exact ⟨by decide, .inl rfl⟩
    · obtain ⟨hlow, hhigh⟩ := hupper
      cases h
      interval_cases n <;> exact ⟨by decide, .inr rfl⟩
  · rintro ⟨hx, rfl | rfl⟩ <;> interval_cases x <;> rfl

/-- A number that a character can have is the number of a character. -/
theorem toNat_ofNat {n : ℕ} (h : n.isValidChar) : (Char.ofNat n).toNat = n := by
  rw [Char.ofNat, dif_pos h]
  rfl

/-- Four digits spell a number of 16 bits. -/
theorem HexUnit.lt {digits : List Char} {u : ℕ} (h : HexUnit digits u) : u < 0x10000 := by
  cases h with
  | digits first second third fourth =>
    have hw := first.1
    have hx := second.1
    have hy := third.1
    have hz := fourth.1
    omega

/-- A unit has four digits. -/
theorem HexUnit.length_eq {digits : List Char} {u : ℕ} (h : HexUnit digits u) :
    digits.length = 4 := by
  cases h
  rfl

/-- The reader reads a unit exactly if its digits stand in front of it. -/
theorem hexUnit_eq_ok_iff {text : List Char} {u : ℕ} :
    hexUnit text = .ok u ↔ ∃ digits rest, text = digits ++ rest ∧ HexUnit digits u := by
  constructor
  · intro h
    unfold hexUnit at h
    split at h
    · rename_i unit hunit
      cases h
      match text with
      | a :: b :: c :: d :: rest =>
        simp only [hexUnit?, Option.bind_eq_bind, Option.bind_eq_some_iff,
          Option.some.injEq] at hunit
        obtain ⟨w, hw, x, hx, y, hy, z, hz, rfl⟩ := hunit
        exact ⟨[a, b, c, d], rest, rfl, .digits (hexDigit?_eq_some_iff.mp hw)
          (hexDigit?_eq_some_iff.mp hx) (hexDigit?_eq_some_iff.mp hy)
          (hexDigit?_eq_some_iff.mp hz)⟩
      | [] | [_] | [_, _] | [_, _, _] => cases hunit
    · split_ifs at h
  · rintro ⟨digits, rest, rfl, hdigits⟩
    cases hdigits with
    | digits first second third fourth =>
      simp [hexUnit, hexUnit?, hexDigit?_eq_some_iff.mpr first, hexDigit?_eq_some_iff.mpr second,
        hexDigit?_eq_some_iff.mpr third, hexDigit?_eq_some_iff.mpr fourth]

/-! ## Escapes -/

/-- The escapes of two letters: what stands behind the backslash, and the character meant. -/
def letterEscapes : List (Char × Char) :=
  [('"', '"'), ('\\', '\\'), ('/', '/'), ('b', '\x08'), ('f', '\x0c'), ('n', '\n'), ('r', '\r'),
    ('t', '\t')]

/-- What stands behind a backslash, and the character that is meant. -/
inductive Escaped : List Char → Char → Prop where
  /-- A letter stands for a character. -/
  | letter {e c : Char} (known : (e, c) ∈ letterEscapes) : Escaped [e] c
  /-- A unit is the number of a character. -/
  | unit {digits : List Char} {c : Char} (number : HexUnit digits c.toNat) :
      Escaped ('u' :: digits) c
  /-- Two units are the halves of a surrogate pair. -/
  | pair {leading trailing : List Char} {lead trail : ℕ} {c : Char} (first : HexUnit leading lead)
      (second : HexUnit trailing trail) (high : 0xd800 ≤ lead ∧ lead ≤ 0xdbff)
      (low : 0xdc00 ≤ trail ∧ trail ≤ 0xdfff)
      (number : c.toNat = 0x10000 + (lead - 0xd800) * 0x400 + (trail - 0xdc00)) :
      Escaped ('u' :: leading ++ '\\' :: 'u' :: trailing) c

/-- The reader knows the escapes of two letters. -/
theorem simpleEscape?_eq_some_iff {e c : Char} :
    simpleEscape? e = some c ↔ (e, c) ∈ letterEscapes := by
  constructor
  · intro h
    unfold simpleEscape? at h
    split at h <;> cases h <;> simp [letterEscapes]
  · intro h
    simp only [letterEscapes, List.mem_cons, Prod.mk.injEq, List.not_mem_nil, or_false] at h
    obtain ⟨rfl, rfl⟩ | ⟨rfl, rfl⟩ | ⟨rfl, rfl⟩ | ⟨rfl, rfl⟩ | ⟨rfl, rfl⟩ | ⟨rfl, rfl⟩ |
      ⟨rfl, rfl⟩ | ⟨rfl, rfl⟩ := h <;> rfl

/-- The number of a character is not a surrogate. -/
theorem not_surrogate (c : Char) :
    isTrailSurrogate c.toNat = false ∧ isLeadSurrogate c.toNat = false := by
  have hvalid := c.valid
  simp only [UInt32.isValidChar, Nat.isValidChar] at hvalid
  have hc : c.val.toNat = c.toNat := rfl
  rw [hc] at hvalid
  constructor
  · simp only [isTrailSurrogate, Bool.and_eq_false_iff, decide_eq_false_iff_not]
    omega
  · simp only [isLeadSurrogate, Bool.and_eq_false_iff, decide_eq_false_iff_not]
    omega

/-- The reader reads the second half of a surrogate pair exactly if its escape stands in front of
it. -/
theorem trailEscape_eq_ok_iff {lead : ℕ} {text : List Char} {c : Char} :
    trailEscape lead text = .ok c ↔
      ∃ trailing rest trail, text = '\\' :: 'u' :: (trailing ++ rest) ∧ HexUnit trailing trail ∧
        isTrailSurrogate trail = true ∧ c = pairChar lead trail := by
  constructor
  · intro h
    unfold trailEscape at h
    split at h
    · cases h
    · cases h
    · rename_i text
      obtain ⟨trail, hunit, hchar⟩ := bind_eq_ok_iff.mp h
      obtain ⟨trailing, rest, rfl, hdigits⟩ := hexUnit_eq_ok_iff.mp hunit
      split_ifs at hchar with htrail
      exact ⟨trailing, rest, trail, rfl, hdigits, htrail, (Except.ok.inj hchar).symm⟩
    · cases h
    · cases h
  · rintro ⟨trailing, rest, trail, rfl, hdigits, htrail, hc⟩
    have hunit : hexUnit (trailing ++ rest) = .ok trail :=
      hexUnit_eq_ok_iff.mpr ⟨trailing, rest, rfl, hdigits⟩
    refine bind_eq_ok_iff.mpr ⟨trail, hunit, ?_⟩
    rw [if_pos htrail, hc]

/-- The halves of a surrogate pair are the number of a character. -/
theorem toNat_pairChar {lead trail : ℕ} (high : isLeadSurrogate lead = true)
    (low : isTrailSurrogate trail = true) :
    (0xd800 ≤ lead ∧ lead ≤ 0xdbff) ∧ (0xdc00 ≤ trail ∧ trail ≤ 0xdfff) ∧
      (pairChar lead trail).toNat = 0x10000 + (lead - 0xd800) * 0x400 + (trail - 0xdc00) := by
  simp only [isLeadSurrogate, isTrailSurrogate, Bool.and_eq_true, decide_eq_true_eq] at high low
  refine ⟨high, low, toNat_ofNat ?_⟩
  unfold Nat.isValidChar
  omega

/-- The reader reads an escape exactly if it stands in front of it. -/
theorem escape_eq_ok_iff {text : List Char} {c : Char} {length : ℕ} :
    escape text = .ok (c, length) ↔
      ∃ e rest, text = e ++ rest ∧ e.length = length ∧ Escaped e c := by
  constructor
  · intro h
    unfold escape at h
    split at h
    · cases h
    · rename_i text
      obtain ⟨unit, hunit, hchar⟩ := bind_eq_ok_iff.mp h
      obtain ⟨digits, rest, rfl, hdigits⟩ := hexUnit_eq_ok_iff.mp hunit
      have hlength := hdigits.length_eq
      rw [← hlength, List.drop_left] at hchar
      split_ifs at hchar with htrail hlead
      · -- The unit is the first half of a pair.
        obtain ⟨x, hsecond, hresult⟩ := bind_eq_ok_iff.mp hchar
        obtain ⟨trailing, rest, trail, rfl, hdigits', htrail', hx⟩ :=
          trailEscape_eq_ok_iff.mp hsecond
        obtain ⟨high, low, hnumber⟩ := toNat_pairChar hlead htrail'
        have hlength' := hdigits'.length_eq
        rw [← hx] at hnumber
        cases hresult
        refine ⟨'u' :: digits ++ '\\' :: 'u' :: trailing, rest, by simp, ?_,
          .pair hdigits hdigits' high low hnumber⟩
        simp [hlength, hlength']
      · -- The unit is no half, so it is the number of a character.
        cases hchar
        have hnumber : (Char.ofNat unit).toNat = unit := by
          have hlt := hdigits.lt
          apply toNat_ofNat
          simp only [isLeadSurrogate, isTrailSurrogate, Bool.and_eq_true, decide_eq_true_eq]
            at htrail hlead
          unfold Nat.isValidChar
          omega
        exact ⟨'u' :: digits, rest, rfl, by simp [hlength], .unit (hnumber.symm ▸ hdigits)⟩
    · rename_i e text hunit
      split at h
      · rename_i x hsimple
        cases h
        exact ⟨[e], text, rfl, rfl, .letter (simpleEscape?_eq_some_iff.mp hsimple)⟩
      · cases h
  · rintro ⟨e, rest, rfl, rfl, hescaped⟩
    cases hescaped with
    | @letter e c known =>
      have hsimple := simpleEscape?_eq_some_iff.mpr known
      have hletter : e ≠ 'u' := by
        rintro rfl
        cases hsimple
      rw [List.singleton_append]
      unfold escape
      split
      · rename_i hnil
        cases hnil
      · rename_i hcons
        exact absurd (List.cons.inj hcons).1 hletter
      · rename_i hcons
        obtain ⟨rfl, rfl⟩ := List.cons.inj hcons
        rw [hsimple]
        rfl
    | @unit digits c number =>
      -- The number of a character is not taken for a half of a pair.
      obtain ⟨htrail, hlead⟩ := not_surrogate c
      have hunit : hexUnit (digits ++ rest) = .ok c.toNat :=
        hexUnit_eq_ok_iff.mpr ⟨digits, rest, rfl, number⟩
      refine bind_eq_ok_iff.mpr ⟨c.toNat, hunit, ?_⟩
      rw [htrail, hlead, if_neg (by simp), if_neg (by simp), c.ofNat_toNat, List.length_cons,
        number.length_eq]
    | @pair leading trailing lead trail c first second high low number =>
      have htrail : isTrailSurrogate lead = false := by
        simp only [isTrailSurrogate, Bool.and_eq_false_iff, decide_eq_false_iff_not]
        omega
      have hlead : isLeadSurrogate lead = true := by simpa [isLeadSurrogate] using high
      have htrail' : isTrailSurrogate trail = true := by simpa [isTrailSurrogate] using low
      have hc : c = pairChar lead trail := by
        rw [← Char.toNat_inj, number, (toNat_pairChar hlead htrail').2.2]
      have hunit : hexUnit (leading ++ '\\' :: 'u' :: (trailing ++ rest)) = .ok lead :=
        hexUnit_eq_ok_iff.mpr ⟨leading, _, rfl, first⟩
      have hsecond : trailEscape lead ('\\' :: 'u' :: (trailing ++ rest)) = .ok c :=
        trailEscape_eq_ok_iff.mpr ⟨trailing, rest, trail, rfl, second, htrail', hc⟩
      have htext : 'u' :: leading ++ '\\' :: 'u' :: trailing ++ rest =
          'u' :: (leading ++ '\\' :: 'u' :: (trailing ++ rest)) := by simp
      have hlength : ('u' :: leading ++ '\\' :: 'u' :: trailing).length = 11 := by
        simp [first.length_eq, second.length_eq]
      rw [htext, hlength]
      refine bind_eq_ok_iff.mpr ⟨lead, hunit, ?_⟩
      rw [htrail, hlead, if_neg (by simp), if_pos rfl, ← first.length_eq, List.drop_left]
      exact bind_eq_ok_iff.mpr ⟨c, hsecond, rfl⟩

/-! ## Strings -/

/-- How the characters of a string are spelled between the quotes. -/
inductive Spelled : (text content : List Char) → Prop where
  /-- An empty string has nothing between them. -/
  | nil : Spelled [] []
  /-- A character stands for itself unless it is a quote, a backslash, or a control character. -/
  | plain {c : Char} {text content : List Char} (printable : ' ' ≤ c) (quote : c ≠ '"')
      (backslash : c ≠ '\\') (more : Spelled text content) : Spelled (c :: text) (c :: content)
  /-- A character is escaped. -/
  | escaped {e text content : List Char} {c : Char} (behind : Escaped e c)
      (more : Spelled text content) : Spelled ('\\' :: (e ++ text)) (c :: content)

/-- Characters that need no escape spell themselves. -/
theorem spelled_self {content : List Char}
    (h : ∀ c ∈ content, ' ' ≤ c ∧ c ≠ '"' ∧ c ≠ '\\') : Spelled content content := by
  induction content with
  | nil => exact .nil
  | cons c content ih =>
    obtain ⟨⟨hprintable, hquote, hbackslash⟩, hmore⟩ := List.forall_mem_cons.mp h
    exact .plain hprintable hquote hbackslash (ih hmore)

/-- What the reader reads of a string is spelled in front of it. -/
theorem spelled_of_readStringOnto {read text content rest : List Char}
    (h : readStringOnto read text = .ok (content, rest)) :
    ∃ spelled more, text = spelled ++ '"' :: rest ∧ Spelled spelled more ∧
      content = read.reverse ++ more := by
  fun_induction readStringOnto read text with
  | case1 read => cases h
  | case2 read text =>
    cases h
    exact ⟨[], [], rfl, .nil, (List.append_nil _).symm⟩
  | case3 read text c length hescape ih =>
    obtain ⟨e, behind, rfl, rfl, hescaped⟩ := escape_eq_ok_iff.mp hescape
    rw [List.drop_left] at ih h
    obtain ⟨spelled, more, rfl, hspelled, rfl⟩ := ih h
    refine ⟨'\\' :: (e ++ spelled), c :: more, by simp, .escaped hescaped hspelled, by simp⟩
  | case4 read text fault hescape => cases h
  | case5 read c text quote backslash hcontrol => cases h
  | case6 read c text quote backslash hcontrol ih =>
    obtain ⟨spelled, more, rfl, hspelled, rfl⟩ := ih h
    have hprintable : ' ' ≤ c := Char.not_lt.mp hcontrol
    exact ⟨c :: spelled, c :: more, rfl, .plain hprintable quote backslash hspelled, by simp⟩

/-- The reader reads a string that is spelled in front of it. -/
theorem Spelled.readStringOnto_eq {spelled more : List Char} (h : Spelled spelled more)
    (read rest : List Char) :
    readStringOnto read (spelled ++ '"' :: rest) = .ok (read.reverse ++ more, rest) := by
  induction h generalizing read with
  | nil => rw [List.nil_append, readStringOnto, List.append_nil]
  | @plain c text content printable quote backslash more ih =>
    rw [List.cons_append, readStringOnto, if_neg (Char.not_lt.mpr printable), ih]
    · simp
    · exact quote
    · exact backslash
  | @escaped e text content c behind more ih =>
    have hescape : escape (e ++ (text ++ '"' :: rest)) = .ok (c, e.length) :=
      escape_eq_ok_iff.mpr ⟨e, _, rfl, rfl, behind⟩
    rw [List.cons_append, List.append_assoc, readStringOnto, hescape]
    dsimp only
    rw [List.drop_left, ih]
    simp

/-- The reader reads a string exactly if it is spelled in front of it. -/
theorem readString_eq_ok_iff {text rest : List Char} {s : String} :
    readString text = .ok (s, rest) ↔
      ∃ spelled, text = spelled ++ '"' :: rest ∧ Spelled spelled s.toList := by
  constructor
  · intro h
    unfold readString at h
    split at h
    · rename_i content rest' hread
      cases h
      obtain ⟨spelled, more, rfl, hspelled, rfl⟩ := spelled_of_readStringOnto hread
      exact ⟨spelled, rfl, by simpa using hspelled⟩
    · cases h
  · rintro ⟨spelled, rfl, hspelled⟩
    rw [readString, hspelled.readStringOnto_eq]
    simp

end PrefixFraming.Json
