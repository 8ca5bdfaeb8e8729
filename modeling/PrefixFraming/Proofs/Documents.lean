import PrefixFraming.Config.Document
import PrefixFraming.Proofs.Json.Literals

/-!
# Documents and what they describe

Which texts are configuration documents is said here without a reader (`WellFormed`), as a grammar:
what stands between an opening and a closing character is a list of settings, each with something
that leads to it (`Listed`), and a setting is a member of an object or an element of an array. What
a document describes is said by its settings alone, in no order (`Describes`).

`Config.ofJson_accepts_documents` puts the two together. Each part of the reader has a lemma that
says which texts it reads, and what they leave: the steps to the next member or element first, then
the member, then the loops, by induction over the members read and over the list, then the whole
document. The reader gives settings one by one, from the default on, and a configuration so made is
the one described because no setting is given twice (`describes_iff`).
-/

namespace PrefixFraming.Config

/-- A number that is given to a setting. -/
abbrev Setting : Type := Field × ℕ

namespace Field

/-- The largest number that a setting can take. -/
def largest : Field → ℕ
  | .maxFrameSize => 0xffffffff
  | .readBufferSize => 0xffffffffffffffff

/-- The number that a configuration has for a setting. -/
def get (c : Config) : Field → ℕ
  | .maxFrameSize => c.maxFrameSize.toNat
  | .readBufferSize => c.readBufferSize.toNat

end Field

namespace Document

open Json

/-! ## The grammar -/

/-- What leads to an item of a list: blanks, and behind another item a comma between them. -/
inductive Lead : (first : Bool) → (lead : List Char) → Prop where
  /-- Nothing but blanks lead to the first item. -/
  | first {b : List Char} (blank : Blank b) : Lead true b
  /-- A comma leads to every other one. -/
  | next {a b : List Char} (before : Blank a) (behind : Blank b) : Lead false (a ++ ',' :: b)

/-- The settings are listed in a text, each as an item of this kind. The flag says whether an item
that comes is the first one. -/
inductive Listed (Item : List Char → Setting → Prop) :
    (first : Bool) → (body : List Char) → (settings : List Setting) → Prop where
  /-- Behind the last item are only blanks. -/
  | nil {first : Bool} {b : List Char} (blank : Blank b) : Listed Item first b []
  /-- An item, and the others behind it. -/
  | cons {first : Bool} {lead item more : List Char} {s : Setting} {settings : List Setting}
      (leads : Lead first lead) (head : Item item s) (tail : Listed Item false more settings) :
      Listed Item first (lead ++ (item ++ more)) (s :: settings)

/-- The number of a setting is written as an unsigned literal, and is not too large. -/
inductive Literal : List Char → Setting → Prop where
  /-- The literal of a number is its digits. -/
  | digits {f : Field} {n : ℕ} (fits : n ≤ f.largest) : Literal (Nat.toDigits 10 n) (f, n)

/-- A setting is written as a member: the spelling of its name, a colon, and its number. -/
inductive Member : List Char → Setting → Prop where
  /-- There may be blanks on both sides of the colon. -/
  | named {spelled b₁ b₂ literal : List Char} {s : Setting}
      (name : Spelled spelled s.1.name.toList) (before : Blank b₁) (behind : Blank b₂)
      (value : Literal literal s) :
      Member ('"' :: (spelled ++ '"' :: (b₁ ++ ':' :: (b₂ ++ literal)))) s

/-- The settings are written as an object or as an array. -/
inductive Value : List Char → List Setting → Prop where
  /-- The members of an object give different settings. -/
  | object {body : List Char} {settings : List Setting}
      (members : Listed Member true body settings)
      (distinct : (settings.map Prod.fst).Nodup) : Value ('{' :: (body ++ ['}'])) settings
  /-- The elements of an array give the settings in order, perhaps not all of them. -/
  | array {body : List Char} {settings : List Setting}
      (elements : Listed Literal true body settings)
      (order : settings.map Prod.fst <+: Field.all) : Value ('[' :: (body ++ [']'])) settings

/-- The text is one document that gives these settings, and nothing else. -/
def WellFormed (text : List Char) (settings : List Setting) : Prop :=
  ∃ before value behind, Blank before ∧ Blank behind ∧ text = before ++ (value ++ behind) ∧
    Value value settings

/-- The configuration has the numbers that are given, and for the other settings the defaults. -/
structure Describes (settings : List Setting) (c : Config) : Prop where
  /-- A setting that is given has its number. -/
  given : ∀ s ∈ settings, s.1.get c = s.2
  /-- A setting that is not given has its default. -/
  missing : ∀ f ∉ settings.map Prod.fst, f.get c = f.get Config.default

/-! ## Settings one by one -/

/-- Gives the settings one by one. -/
def settle (settings : List Setting) (c : Config) : Config :=
  settings.foldl (fun c s => s.1.set s.2 c) c

/-- A setting that is given changes, and no other one. -/
theorem get_set {f : Field} {n : ℕ} (hn : n ≤ f.largest) (g : Field) (c : Config) :
    g.get (f.set n c) = if g = f then n else g.get c := by
  cases f with
  | maxFrameSize =>
    cases g with
    | maxFrameSize => exact UInt32.toNat_ofNat_of_lt' (Nat.lt_succ_of_le hn)
    | readBufferSize => rfl
  | readBufferSize =>
    cases g with
    | maxFrameSize => rfl
    | readBufferSize => exact UInt64.toNat_ofNat_of_lt' (Nat.lt_succ_of_le hn)

/-- Configurations that agree in every setting are the same. -/
theorem eq_of_get_eq {c c' : Config} (h : ∀ f : Field, f.get c = f.get c') : c = c' := by
  have hframe : c.maxFrameSize = c'.maxFrameSize := UInt32.toNat_inj.mp (h .maxFrameSize)
  have hbuffer : c.readBufferSize = c'.readBufferSize := UInt64.toNat_inj.mp (h .readBufferSize)
  cases c
  cases c'
  simp_all

/-- A setting that is not among those given stays. -/
theorem get_settle_of_notMem {settings : List Setting} (hfit : ∀ s ∈ settings, s.2 ≤ s.1.largest)
    {f : Field} (hf : f ∉ settings.map Prod.fst) (c : Config) :
    f.get (settle settings c) = f.get c := by
  induction settings generalizing c with
  | nil => rfl
  | cons s settings ih =>
    rw [List.map_cons, List.mem_cons, not_or] at hf
    obtain ⟨hs, hothers⟩ := List.forall_mem_cons.mp hfit
    calc f.get (settle settings (s.1.set s.2 c)) = f.get (s.1.set s.2 c) := ih hothers hf.2 _
      _ = f.get c := by rw [get_set hs, if_neg hf.1]

/-- A setting that is given once has its number. -/
theorem get_settle_of_mem {settings : List Setting} (hfit : ∀ s ∈ settings, s.2 ≤ s.1.largest)
    (hdistinct : (settings.map Prod.fst).Nodup) {s : Setting} (hs : s ∈ settings) (c : Config) :
    s.1.get (settle settings c) = s.2 := by
  induction settings generalizing c with
  | nil => cases hs
  | cons t settings ih =>
    rw [List.map_cons, List.nodup_cons] at hdistinct
    obtain ⟨ht, hothers⟩ := List.forall_mem_cons.mp hfit
    rcases List.mem_cons.mp hs with rfl | hs
    · -- It is given first, and those behind it are others.
      calc s.1.get (settle settings (s.1.set s.2 c)) = s.1.get (s.1.set s.2 c) :=
          get_settle_of_notMem hothers hdistinct.1 _
        _ = s.2 := by rw [get_set ht, if_pos rfl]
    · exact ih hothers hdistinct.2 hs _

/-- Settings that are given once describe the configuration that comes of giving them one by one,
and only that one. -/
theorem describes_iff {settings : List Setting} (hfit : ∀ s ∈ settings, s.2 ≤ s.1.largest)
    (hdistinct : (settings.map Prod.fst).Nodup) (c : Config) :
    Describes settings c ↔ c = settle settings Config.default := by
  constructor
  · rintro ⟨given, missing⟩
    refine eq_of_get_eq fun f => ?_
    by_cases hf : f ∈ settings.map Prod.fst
    · obtain ⟨s, hs, rfl⟩ := List.mem_map.mp hf
      rw [given s hs, get_settle_of_mem hfit hdistinct hs]
    · rw [missing f hf, get_settle_of_notMem hfit hf]
  · rintro rfl
    exact ⟨fun s hs => get_settle_of_mem hfit hdistinct hs _,
      fun f hf => get_settle_of_notMem hfit hf _⟩

/-- The configuration that is described does not depend on the order of the settings. -/
theorem Describes.perm {settings settings' : List Setting} {c : Config}
    (h : Describes settings c) (hperm : settings.Perm settings') : Describes settings' c where
  given s hs := h.given s (hperm.mem_iff.mpr hs)
  missing f hf := h.missing f fun hmem => hf ((hperm.map Prod.fst).mem_iff.mp hmem)

/-! ## What a grammar promises -/

/-- More blanks in front of an item lead to it as well. -/
theorem Lead.append {first : Bool} {lead b : List Char} (h : Lead first lead) (hb : Blank b) :
    Lead first (lead ++ b) := by
  cases h with
  | first blank => exact .first (blank.append hb)
  | next before behind =>
    rw [List.append_assoc, List.cons_append]
    exact .next before (behind.append hb)

/-- Every setting that is listed as a literal or a member has a number that fits. -/
theorem Listed.fits {Item : List Char → Setting → Prop}
    (hitem : ∀ {item s}, Item item s → s.2 ≤ s.1.largest) {first : Bool} {body : List Char}
    {settings : List Setting} (h : Listed Item first body settings) :
    ∀ s ∈ settings, s.2 ≤ s.1.largest := by
  induction h with
  | nil blank => exact List.forall_mem_nil _
  | cons leads head tail ih => exact List.forall_mem_cons.mpr ⟨hitem head, ih⟩

/-- A literal is of a number that fits. -/
theorem Literal.le {item : List Char} {s : Setting} (h : Literal item s) : s.2 ≤ s.1.largest := by
  cases h with
  | digits fits => exact fits

/-- A member has a number that fits. -/
theorem Member.le {item : List Char} {s : Setting} (h : Member item s) : s.2 ≤ s.1.largest := by
  cases h with
  | named name before behind value => exact value.le

/-- The settings of a document fit and are given once. -/
theorem Value.once {text : List Char} {settings : List Setting} (h : Value text settings) :
    (∀ s ∈ settings, s.2 ≤ s.1.largest) ∧ (settings.map Prod.fst).Nodup := by
  cases h with
  | object members distinct => exact ⟨members.fits Member.le, distinct⟩
  | array elements order => exact ⟨elements.fits Literal.le, order.sublist.nodup (by decide)⟩

/-- The name of a setting needs no escapes. -/
theorem spelled_name (f : Field) : Spelled f.name.toList f.name.toList := by
  cases f <;> exact spelled_self (by simp [Field.name])

/-- A number stops in front of blanks and a character that does not go on with it. -/
theorem stops_append {b : List Char} (hb : Blank b) {c : Char} (rest : List Char)
    (hc : c = ',' ∨ c = '}' ∨ c = ']') : Stops (b ++ c :: rest) := by
  intro d hd
  cases b with
  | nil =>
    cases hd
    rcases hc with rfl | rfl | rfl <;> decide
  | cons d' b =>
    cases hd
    have hblank := hb d List.mem_cons_self
    simp only [isBlank, Bool.or_eq_true, decide_eq_true_eq] at hblank
    rcases hblank with ((rfl | rfl) | rfl) | rfl <;> decide

/-- A number stops in front of the rest of a list. -/
theorem Listed.stops {Item : List Char → Setting → Prop} {body : List Char}
    {settings : List Setting} (h : Listed Item false body settings) {c : Char} (rest : List Char)
    (hc : c = '}' ∨ c = ']') : Stops (body ++ c :: rest) := by
  cases h with
  | nil blank => exact stops_append blank rest (.inr hc)
  | cons leads head tail =>
    cases leads with
    | next before behind =>
      rw [List.append_assoc, List.append_assoc]
      exact stops_append before _ (.inl rfl)

/-! ## Members -/

/-- The object ends exactly at a brace behind blanks. -/
theorem nextMember_eq_ends_iff {first : Bool} {text rest : List Char} :
    nextMember first text = .ok (false, rest) ↔ ∃ b, Blank b ∧ text = b ++ '}' :: rest := by
  constructor
  · intro h
    obtain ⟨b, hb, htext, -⟩ := exists_blank text
    unfold nextMember at h
    split at h
    · cases h
    · rename_i hskip
      cases h
      exact ⟨b, hb, by rw [htext, hskip]⟩
    · split_ifs at h
      · cases h
      · split at h <;> cases h
  · rintro ⟨b, hb, rfl⟩
    rw [nextMember, skipBlanks_append hb (sharp_cons rfl)]
    rfl

/-- A member comes exactly if what leads to it stands in front of a quote. -/
theorem nextMember_eq_goesOn_iff {first : Bool} {text rest : List Char} :
    nextMember first text = .ok (true, rest) ↔
      ∃ lead, Lead first lead ∧ text = lead ++ '"' :: rest := by
  constructor
  · intro h
    obtain ⟨b, hb, htext, -⟩ := exists_blank text
    unfold nextMember at h
    split at h
    · cases h
    · cases h
    · rename_i c behind hbrace hskip
      rw [hskip] at htext
      split_ifs at h with hfirst hquote hcomma
      · cases h
        obtain rfl : first = true := hfirst
        exact ⟨b, .first hb, by rw [htext, hquote]⟩
      · -- Behind another member a comma comes first, and blanks may follow it.
        obtain rfl : first = false := by simpa using hfirst
        obtain ⟨b', hb', hbehind, -⟩ := exists_blank behind
        split at h
        · cases h
        · rename_i hskip'
          cases h
          rw [hskip'] at hbehind
          exact ⟨b ++ ',' :: b', .next hb hb', by simp [htext, hcomma, hbehind]⟩
        · cases h
        · cases h
  · rintro ⟨lead, hlead, rfl⟩
    cases hlead with
    | first blank =>
      rw [nextMember, skipBlanks_append blank (sharp_cons rfl)]
      rfl
    | @next a b before behind =>
      have hcomma : skipBlanks (a ++ ',' :: (b ++ '"' :: rest)) = ',' :: (b ++ '"' :: rest) :=
        skipBlanks_append before (sharp_cons rfl)
      have hquote : skipBlanks (b ++ '"' :: rest) = '"' :: rest :=
        skipBlanks_append behind (sharp_cons rfl)
      simp [nextMember, hcomma, hquote]

/-- A number that fits has the width of the setting. -/
theorem lt_bound_iff (f : Field) (n : ℕ) : n < f.width.bound ↔ n ≤ f.largest := by
  cases f <;> exact Nat.lt_succ_iff

/-- The numbers of every width can be read as integers. -/
theorem bound_le (f : Field) : f.width.bound ≤ Number.significandBound := by
  cases f <;> decide

/-- The value of a member is read exactly if a colon and a literal of it stand in front. -/
theorem readMember_eq_ok_iff {f : Field} {c c' : Config} {text rest : List Char} :
    readMember f c text = .ok (c', rest) ↔
      ∃ b₁ b₂ n, Blank b₁ ∧ Blank b₂ ∧ n ≤ f.largest ∧ Stops rest ∧ c' = f.set n c ∧
        text = b₁ ++ ':' :: (b₂ ++ (Nat.toDigits 10 n ++ rest)) := by
  constructor
  · intro h
    obtain ⟨b₁, hb₁, htext, -⟩ := exists_blank text
    unfold readMember at h
    split at h
    · cases h
    · rename_i behind hskip
      rw [hskip] at htext
      split at h
      · rename_i n rest' hread
        cases h
        obtain ⟨b₂, hb₂, rfl, hn, hstops⟩ := (readUnsigned_eq_ok_iff (bound_le f)).mp hread
        exact ⟨b₁, b₂, n, hb₁, hb₂, (lt_bound_iff f n).mp hn, hstops, rfl, htext⟩
      · cases h
    · cases h
  · rintro ⟨b₁, b₂, n, hb₁, hb₂, hn, hstops, rfl, rfl⟩
    have hread := (readUnsigned_eq_ok_iff (bound_le f)).mpr
      ⟨b₂, hb₂, rfl, (lt_bound_iff f n).mpr hn, hstops⟩
    rw [readMember, skipBlanks_append hb₁ (sharp_cons rfl)]
    simp only
    rw [hread]

/-- A setting is found by its name. -/
theorem find?_name {unseen : List Field} {f : Field} (hf : f ∈ unseen) :
    unseen.find? (·.name = f.name) = some f := by
  have hinjective : ∀ g : Field, g.name = f.name → g = f := by
    intro g h
    cases g <;> cases f <;> first | rfl | exact absurd h (by decide)
  obtain ⟨g, hg⟩ : ∃ g, unseen.find? (·.name = f.name) = some g :=
    Option.isSome_iff_exists.mp (List.find?_isSome.mpr ⟨f, hf, decide_eq_true rfl⟩)
  have hname := List.find?_some hg
  rw [hg, hinjective g (of_decide_eq_true hname)]

/-- A member of a setting that is still to be given is read, and then those behind it. -/
theorem readMembers_of_member {first : Bool} {unseen : List Field} {f : Field} {c c' : Config}
    {text named behind rest : List Char} (hnext : nextMember first text = .ok (true, named))
    (hname : readString named = .ok (f.name, behind)) (hf : f ∈ unseen)
    (hmember : readMember f c behind = .ok (c', rest)) :
    readMembers first unseen c text = readMembers false (unseen.erase f) c' rest := by
  rw [readMembers, hnext]
  dsimp only
  rw [hname]
  dsimp only
  split
  · rename_i hnone
    rw [find?_name hf] at hnone
    cases hnone
  · rename_i g hsome
    rw [find?_name hf] at hsome
    cases hsome
    rw [hmember]

/-- What is read as members lists settings that were still to be given, each once. -/
theorem listed_of_readMembers {first : Bool} {unseen : List Field} {c c' : Config}
    {text rest : List Char} (hunseen : unseen.Nodup)
    (h : readMembers first unseen c text = .ok (c', rest)) :
    ∃ body settings, text = body ++ '}' :: rest ∧ Listed Member first body settings ∧
      (settings.map Prod.fst).Nodup ∧ settings.map Prod.fst ⊆ unseen ∧ c' = settle settings c := by
  fun_induction readMembers first unseen c text with
  | case1 first unseen c text fault hnext => cases h
  | case2 first unseen c text rest' hnext =>
    cases h
    obtain ⟨b, hb, rfl⟩ := nextMember_eq_ends_iff.mp hnext
    exact ⟨b, [], rfl, .nil hb, List.nodup_nil, List.nil_subset _, rfl⟩
  | case3 first unseen c text named hnext fault hname => cases h
  | case4 first unseen c text named hnext name behind hname hfound => cases h
  | case5 first unseen c text named hnext name behind hname f hfound fault hmember => cases h
  | case6 first unseen c text named hnext name behind hname f hfound c₁ more hmember ih =>
    obtain ⟨lead, hlead, rfl⟩ := nextMember_eq_goesOn_iff.mp hnext
    obtain ⟨spelled, rfl, hspelled⟩ := readString_eq_ok_iff.mp hname
    obtain ⟨b₁, b₂, n, hb₁, hb₂, hn, -, rfl, rfl⟩ := readMember_eq_ok_iff.mp hmember
    obtain ⟨body, settings, rfl, hlisted, hdistinct, hsubset, rfl⟩ :=
      ih (hunseen.erase f) h
    have hf : f ∈ unseen := List.mem_of_find?_eq_some hfound
    -- The name that has been read is that of the setting that was found.
    obtain rfl : f.name = name := by simpa using List.find?_some hfound
    have hmember : Member ('"' :: (spelled ++ '"' :: (b₁ ++ ':' :: (b₂ ++ Nat.toDigits 10 n))))
        (f, n) := .named hspelled hb₁ hb₂ (.digits hn)
    refine ⟨_, (f, n) :: settings, ?_, .cons hlead hmember hlisted, ?_, ?_, rfl⟩
    · simp
    · -- The members behind this one cannot give its setting, which has been taken away.
      rw [List.map_cons, List.nodup_cons]
      exact ⟨fun hmem => hunseen.not_mem_erase (hsubset hmem), hdistinct⟩
    · rw [List.map_cons, List.cons_subset]
      exact ⟨hf, fun g hg => List.mem_of_mem_erase (hsubset hg)⟩

/-- Listed members of settings that are still to be given, each once, are read. -/
theorem Listed.readMembers_eq {first : Bool} {body : List Char} {settings : List Setting}
    (h : Listed Member first body settings) (hdistinct : (settings.map Prod.fst).Nodup)
    {unseen : List Field} (hsubset : settings.map Prod.fst ⊆ unseen) (c : Config)
    (rest : List Char) :
    readMembers first unseen c (body ++ '}' :: rest) = .ok (settle settings c, rest) := by
  induction h generalizing unseen c with
  | nil blank =>
    rw [readMembers, nextMember_eq_ends_iff.mpr ⟨_, blank, rfl⟩]
    rfl
  | @cons first lead item more s settings leads head tail ih =>
    rw [List.map_cons, List.nodup_cons] at hdistinct
    rw [List.map_cons, List.cons_subset] at hsubset
    -- The settings behind this one are still to be given when it has been taken away.
    have hothers : settings.map Prod.fst ⊆ unseen.erase s.1 := by
      intro f hf
      have hne : f ≠ s.1 := fun heq => hdistinct.1 (heq ▸ hf)
      exact (List.mem_erase_of_ne hne).mpr (hsubset.2 hf)
    obtain ⟨f, n⟩ := s
    cases head with
    | @named spelled b₁ b₂ literal _ name before behind value =>
      cases value with
      | digits fits =>
        have hmember : readMember f c
            (b₁ ++ ':' :: (b₂ ++ (Nat.toDigits 10 n ++ (more ++ '}' :: rest)))) =
              .ok (f.set n c, more ++ '}' :: rest) :=
          readMember_eq_ok_iff.mpr
            ⟨b₁, b₂, n, before, behind, fits, tail.stops rest (.inl rfl), rfl, rfl⟩
        rw [readMembers_of_member (nextMember_eq_goesOn_iff.mpr ⟨lead, leads, by simp; rfl⟩)
          (readString_eq_ok_iff.mpr ⟨spelled, by simp, name⟩) hsubset.1 hmember]
        exact ih hdistinct.2 hothers _

/-! ## Elements -/

/-- The array ends exactly at a bracket behind blanks. -/
theorem nextElement_eq_ends_iff {first : Bool} {text rest : List Char} :
    nextElement first text = .ok (false, rest) ↔ ∃ b, Blank b ∧ text = b ++ ']' :: rest := by
  constructor
  · intro h
    obtain ⟨b, hb, htext, -⟩ := exists_blank text
    unfold nextElement at h
    split at h
    · cases h
    · rename_i hskip
      cases h
      exact ⟨b, hb, by rw [htext, hskip]⟩
    · split_ifs at h
      · cases h
      · split at h <;> cases h
  · rintro ⟨b, hb, rfl⟩
    rw [nextElement, skipBlanks_append hb (sharp_cons rfl)]
    rfl

/-- What leads to an element that comes stands in front of it. -/
theorem lead_of_nextElement {first : Bool} {text rest : List Char}
    (h : nextElement first text = .ok (true, rest)) :
    ∃ lead, Lead first lead ∧ text = lead ++ rest := by
  obtain ⟨b, hb, htext, -⟩ := exists_blank text
  unfold nextElement at h
  split at h
  · cases h
  · cases h
  · rename_i c behind hbracket hskip
    rw [hskip] at htext
    split_ifs at h with hfirst hcomma
    · cases h
      obtain rfl : first = true := hfirst
      exact ⟨b, .first hb, htext⟩
    · obtain rfl : first = false := by simpa using hfirst
      obtain ⟨b', hb', hbehind, -⟩ := exists_blank behind
      split at h
      · cases h
      · cases h
      · cases h
        exact ⟨b ++ ',' :: b', .next hb hb', by simp [htext, hcomma, ← hbehind]⟩

/-- What leads to a digit leads to an element. -/
theorem Lead.nextElement_eq {first : Bool} {lead : List Char} (h : Lead first lead) {c : Char}
    (hc : c.isDigit = true) (rest : List Char) :
    nextElement first (lead ++ c :: rest) = .ok (true, c :: rest) := by
  have hsharp : Sharp (c :: rest) := sharp_cons (isBlank_of_isDigit hc)
  have hbracket : c ≠ ']' := by
    rintro rfl
    cases hc
  cases h with
  | first blank =>
    rw [nextElement, skipBlanks_append blank hsharp]
    simp
  | @next a b before behind =>
    have hcomma : skipBlanks (a ++ ',' :: (b ++ c :: rest)) = ',' :: (b ++ c :: rest) :=
      skipBlanks_append before (sharp_cons rfl)
    have hitem : skipBlanks (b ++ c :: rest) = c :: rest := skipBlanks_append behind hsharp
    simp [nextElement, hcomma, hitem, hbracket]

/-- The end of an array is read exactly if it is a bracket behind blanks. -/
theorem readArrayEnd_eq_ok_iff {c c' : Config} {text rest : List Char} :
    readArrayEnd c text = .ok (c', rest) ↔ c' = c ∧ ∃ b, Blank b ∧ text = b ++ ']' :: rest := by
  constructor
  · intro h
    obtain ⟨b, hb, htext, -⟩ := exists_blank text
    unfold readArrayEnd at h
    split at h
    · cases h
    · rename_i hskip
      cases h
      exact ⟨rfl, b, hb, by rw [htext, hskip]⟩
    · split at h <;> cases h
    · cases h
  · rintro ⟨rfl, b, hb, rfl⟩
    rw [readArrayEnd, skipBlanks_append hb (sharp_cons rfl)]
    rfl

/-- What is read as elements lists the first of the settings in order. -/
theorem listed_of_readElements {first : Bool} {fields : List Field} {c c' : Config}
    {text rest : List Char} (h : readElements first fields c text = .ok (c', rest)) :
    ∃ body settings, text = body ++ ']' :: rest ∧ Listed Literal first body settings ∧
      settings.map Prod.fst <+: fields ∧ c' = settle settings c := by
  fun_induction readElements first fields c text with
  | case1 first c text =>
    -- All settings have been given, so that only the end of the array is left to read.
    obtain ⟨rfl, b, hb, rfl⟩ := readArrayEnd_eq_ok_iff.mp h
    exact ⟨b, [], rfl, .nil hb, List.nil_prefix, rfl⟩
  | case2 first f fields c text fault hnext => cases h
  | case3 first f fields c text rest' hnext =>
    cases h
    obtain ⟨b, hb, rfl⟩ := nextElement_eq_ends_iff.mp hnext
    exact ⟨b, [], rfl, .nil hb, List.nil_prefix, rfl⟩
  | case4 first f fields c text item hnext fault hread => cases h
  | case5 first f fields c text item hnext n more hread ih =>
    obtain ⟨lead, hlead, rfl⟩ := lead_of_nextElement hnext
    obtain ⟨b, hb, rfl, hn, -⟩ := (readUnsigned_eq_ok_iff (bound_le f)).mp hread
    obtain ⟨body, settings, rfl, hlisted, horder, rfl⟩ := ih h
    have hliteral : Literal (Nat.toDigits 10 n) (f, n) := .digits ((lt_bound_iff f n).mp hn)
    -- Blanks that the reader of numbers has skipped lead to the element as well.
    refine ⟨_, (f, n) :: settings, ?_, .cons (hlead.append hb) hliteral hlisted, ?_, rfl⟩
    · simp
    · rw [List.map_cons, List.prefix_cons_inj]
      exact horder

/-- Listed literals of the first of the settings in order are read. -/
theorem Listed.readElements_eq {first : Bool} {body : List Char} {settings : List Setting}
    (h : Listed Literal first body settings) {fields : List Field}
    (horder : settings.map Prod.fst <+: fields) (c : Config) (rest : List Char) :
    readElements first fields c (body ++ ']' :: rest) = .ok (settle settings c, rest) := by
  induction h generalizing fields c with
  | nil blank =>
    cases fields with
    | nil =>
      rw [readElements]
      exact readArrayEnd_eq_ok_iff.mpr ⟨rfl, _, blank, rfl⟩
    | cons f fields =>
      rw [readElements, nextElement_eq_ends_iff.mpr ⟨_, blank, rfl⟩]
      rfl
  | @cons first lead item more s settings leads head tail ih =>
    obtain ⟨fields, rfl⟩ : ∃ others, fields = s.1 :: others := by
      obtain ⟨others, rfl⟩ := horder
      exact ⟨_, rfl⟩
    rw [List.map_cons, List.prefix_cons_inj] at horder
    obtain ⟨f, n⟩ := s
    cases head with
    | digits fits =>
      have hread : readUnsigned f.width (Nat.toDigits 10 n ++ (more ++ ']' :: rest)) =
          .ok (n, more ++ ']' :: rest) :=
        (readUnsigned_eq_ok_iff (bound_le f)).mpr
          ⟨[], blank_nil, rfl, (lt_bound_iff f n).mpr fits, tail.stops rest (.inr rfl)⟩
      -- An element comes because a number begins with a digit.
      have hnext : nextElement first (lead ++ (Nat.toDigits 10 n ++ (more ++ ']' :: rest))) =
          .ok (true, Nat.toDigits 10 n ++ (more ++ ']' :: rest)) := by
        obtain ⟨d, digits, hcons, hdigit, -⟩ := toDigits_eq_cons n
        rw [hcons]
        exact leads.nextElement_eq hdigit _
      rw [List.append_assoc, List.append_assoc, readElements, hnext]
      dsimp only
      rw [hread]
      exact ih horder _

/-! ## Documents -/

/-- An object or an array is read exactly if it stands in front, perhaps behind blanks. -/
theorem readValue_eq_ok_iff {text rest : List Char} {c : Config} :
    readValue text = .ok (c, rest) ↔
      ∃ before value settings, Blank before ∧ text = before ++ (value ++ rest) ∧
        Value value settings ∧ c = settle settings Config.default := by
  constructor
  · intro h
    obtain ⟨b, hb, htext, -⟩ := exists_blank text
    unfold readValue at h
    split at h
    · cases h
    · rename_i behind hskip
      obtain ⟨body, settings, rfl, hlisted, hdistinct, -, hc⟩ :=
        listed_of_readMembers (by decide) h
      exact ⟨b, _, settings, hb, by rw [htext, hskip]; simp, .object hlisted hdistinct, hc⟩
    · rename_i behind hskip
      obtain ⟨body, settings, rfl, hlisted, horder, hc⟩ := listed_of_readElements h
      exact ⟨b, _, settings, hb, by rw [htext, hskip]; simp, .array hlisted horder, hc⟩
    · cases h
  · rintro ⟨before, value, settings, hbefore, rfl, hvalue, rfl⟩
    cases hvalue with
    | @object body _ members distinct =>
      have hall : settings.map Prod.fst ⊆ Field.all := by
        intro f _
        cases f <;> decide
      rw [List.cons_append, List.append_assoc, readValue,
        skipBlanks_append hbefore (sharp_cons rfl)]
      exact members.readMembers_eq distinct hall _ rest
    | array elements order =>
      rw [List.cons_append, List.append_assoc, readValue,
        skipBlanks_append hbefore (sharp_cons rfl)]
      exact elements.readElements_eq order _ rest

/-- A text is read exactly if it is well formed, as the configuration that it describes. -/
theorem read_eq_ok_iff {text : List Char} {c : Config} :
    read text = .ok c ↔ ∃ settings, WellFormed text settings ∧ Describes settings c := by
  constructor
  · intro h
    unfold read at h
    split at h
    · cases h
    · rename_i c' rest hread
      obtain ⟨before, value, settings, hbefore, rfl, hvalue, rfl⟩ := readValue_eq_ok_iff.mp hread
      obtain ⟨behind, hbehind, hrest, -⟩ := exists_blank rest
      -- Behind the document are only blanks, or else it is refused.
      split at h
      · rename_i hskip
        cases h
        rw [hskip, List.append_nil] at hrest
        exact ⟨settings, ⟨before, value, rest, hbefore, hrest ▸ hbehind, rfl, hvalue⟩,
          (describes_iff hvalue.once.1 hvalue.once.2 _).mpr rfl⟩
      · cases h
  · rintro ⟨settings, ⟨before, value, behind, hbefore, hbehind, rfl, hvalue⟩, hdescribes⟩
    have hread : readValue (before ++ (value ++ behind)) = .ok (c, behind) :=
      readValue_eq_ok_iff.mpr ⟨before, value, settings, hbefore, rfl, hvalue,
        (describes_iff hvalue.once.1 hvalue.once.2 c).mp hdescribes⟩
    have hskip : skipBlanks behind = [] := by
      rw [← List.append_nil behind]
      exact skipBlanks_append hbehind (by rintro _ ⟨⟩)
    rw [read, hread]
    dsimp only
    rw [hskip]

/-- Settings of a well-formed text describe a configuration. -/
theorem WellFormed.exists_describes {text : List Char} {settings : List Setting}
    (h : WellFormed text settings) : ∃ c, Describes settings c := by
  obtain ⟨before, value, behind, -, -, -, hvalue⟩ := h
  exact ⟨_, (describes_iff hvalue.once.1 hvalue.once.2 _).mpr rfl⟩

end Document

open Document Json

/-! ## What comes of a text -/

/-- What is read is given if the read buffer takes a byte, and refused if it takes none. -/
theorem ofJson_of_read_eq_ok {text : String} {c : Config} (h : read text.toList = .ok c) :
    ofJson text = if c.readBufferSize = 0 then
      .error (.config "read_buffer_size must be greater than 0") else .ok c := by
  rw [ofJson, h]
  dsimp only
  rw [validate]
  split_ifs <;> rfl

/-- What cannot be read is refused as JSON. -/
theorem ofJson_of_read_eq_error {text : String} {fault : Json.Fault}
    (h : read text.toList = .error fault) :
    ofJson text = .error (.json (fault.locate text.toList)) := by
  rw [ofJson, h]

/-- A configuration is given exactly if it is read and its read buffer takes a byte. -/
theorem ofJson_eq_ok_iff {text : String} {c : Config} :
    ofJson text = .ok c ↔ read text.toList = .ok c ∧ c.readBufferSize ≠ 0 := by
  rcases hread : read text.toList with fault | c'
  · rw [ofJson_of_read_eq_error hread]
    simp
  · rw [ofJson_of_read_eq_ok hread]
    split_ifs with hempty
    · simp only [Except.ok.injEq, false_iff, not_and, not_not]
      rintro rfl
      exact hempty
    · simp only [Except.ok.injEq]
      exact ⟨fun h => ⟨h, h ▸ hempty⟩, And.left⟩

/-- A configuration is refused exactly if it is read and its read buffer takes no byte. -/
theorem ofJson_eq_config_iff {text : String} :
    (∃ reason, ofJson text = .error (.config reason)) ↔
      ∃ c, read text.toList = .ok c ∧ c.readBufferSize = 0 := by
  rcases hread : read text.toList with fault | c
  · rw [ofJson_of_read_eq_error hread]
    simp
  · rw [ofJson_of_read_eq_ok hread]
    split_ifs with hempty
    · exact ⟨fun _ => ⟨c, rfl, hempty⟩, fun _ => ⟨_, rfl⟩⟩
    · simp only [exists_false, Except.ok.injEq, false_iff]
      rintro ⟨_, rfl, hempty'⟩
      exact hempty hempty'

/-- A text is refused as JSON exactly if it cannot be read. -/
theorem ofJson_eq_json_iff {text : String} :
    (∃ e, ofJson text = .error (.json e)) ↔ ¬ ∃ c, read text.toList = .ok c := by
  rcases hread : read text.toList with fault | c
  · rw [ofJson_of_read_eq_error hread]
    simp
  · rw [ofJson_of_read_eq_ok hread]
    split_ifs <;> simp

/-- What comes of a well-formed text is said by its settings, in whatever order. -/
theorem ofJson_eq_of_perm {text text' : String} {settings settings' : List Setting}
    (h : WellFormed text.toList settings) (h' : WellFormed text'.toList settings')
    (hperm : settings.Perm settings') : ofJson text = ofJson text' := by
  obtain ⟨c, hc⟩ := h.exists_describes
  have hread : read text.toList = .ok c := read_eq_ok_iff.mpr ⟨settings, h, hc⟩
  have hread' : read text'.toList = .ok c := read_eq_ok_iff.mpr ⟨settings', h', hc.perm hperm⟩
  rw [ofJson_of_read_eq_ok hread, ofJson_of_read_eq_ok hread']

/-- A configuration is given for exactly the well-formed texts whose read buffer takes a byte: the
one that the text describes. It is refused for the well-formed texts whose read buffer takes none,
and all other texts are refused as JSON. What comes of a well-formed text is said by its settings
alone, in whatever order and with whatever blanks they stand there. -/
theorem ofJson_accepts_documents (text : String) :
    (∀ c, ofJson text = .ok c ↔
      ∃ settings, WellFormed text.toList settings ∧ Describes settings c ∧ c.readBufferSize ≠ 0) ∧
    ((∃ reason, ofJson text = .error (.config reason)) ↔
      ∃ settings c, WellFormed text.toList settings ∧ Describes settings c ∧
        c.readBufferSize = 0) ∧
    ((∃ e, ofJson text = .error (.json e)) ↔ ¬ ∃ settings, WellFormed text.toList settings) ∧
    ∀ text' settings settings', WellFormed text.toList settings →
      WellFormed text'.toList settings' → settings.Perm settings' → ofJson text = ofJson text' := by
  refine ⟨fun c => ?_, ?_, ?_, fun text' settings settings' h h' => ofJson_eq_of_perm h h'⟩
  · rw [ofJson_eq_ok_iff, read_eq_ok_iff]
    constructor
    · rintro ⟨⟨settings, hformed, hdescribes⟩, hbuffer⟩
      exact ⟨settings, hformed, hdescribes, hbuffer⟩
    · rintro ⟨settings, hformed, hdescribes, hbuffer⟩
      exact ⟨⟨settings, hformed, hdescribes⟩, hbuffer⟩
  · rw [ofJson_eq_config_iff]
    constructor
    · rintro ⟨c, hread, hbuffer⟩
      obtain ⟨settings, hformed, hdescribes⟩ := read_eq_ok_iff.mp hread
      exact ⟨settings, c, hformed, hdescribes, hbuffer⟩
    · rintro ⟨settings, c, hformed, hdescribes, hbuffer⟩
      exact ⟨c, read_eq_ok_iff.mpr ⟨settings, hformed, hdescribes⟩, hbuffer⟩
  · rw [ofJson_eq_json_iff, not_iff_not]
    constructor
    · rintro ⟨c, hread⟩
      obtain ⟨settings, hformed, -⟩ := read_eq_ok_iff.mp hread
      exact ⟨settings, hformed⟩
    · rintro ⟨settings, hformed⟩
      obtain ⟨c, hdescribes⟩ := hformed.exists_describes
      exact ⟨c, read_eq_ok_iff.mpr ⟨settings, hformed, hdescribes⟩⟩

/-- An array and an object that gives the same settings in another order come to the same. An array
and an object between blanks that give one setting each leave the other at its default. -/
theorem ofJson_accepts_array_and_object :
    ofJson "[7, 1]" = .ok ⟨7, 1⟩ ∧
      ofJson "[7, 1]" = ofJson "\x7b\"read_buffer_size\":1,\"max_frame_size\":7\x7d" ∧
      ofJson "[\t7\r\n]" = .ok ⟨7, 65536⟩ ∧
      ofJson "\n\x7b\r\n\t\"read_buffer_size\" :\t1\n\x7d " = .ok ⟨16777216, 1⟩ := by
  have hframe : Literal ['7'] (.maxFrameSize, 7) :=
    .digits (f := .maxFrameSize) (n := 7) (by decide)
  have hbuffer : Literal ['1'] (.readBufferSize, 1) :=
    .digits (f := .readBufferSize) (n := 1) (by decide)
  have hspace : Blank [' '] := by decide
  have htab : Blank ['\t'] := by decide
  have hnewline : Blank ['\n'] := by decide
  have hreturn : Blank ['\r', '\n'] := by decide
  have hindent : Blank ['\r', '\n', '\t'] := by decide
  have helements : Listed Literal true ([] ++ (['7'] ++ (([] ++ ',' :: [' ']) ++ (['1'] ++ []))))
      [(.maxFrameSize, 7), (.readBufferSize, 1)] :=
    .cons (.first blank_nil) hframe (.cons (.next blank_nil hspace) hbuffer (.nil blank_nil))
  have hmembers := Listed.cons (.first blank_nil)
    (Member.named (spelled_name _) blank_nil blank_nil hbuffer)
    (.cons (.next blank_nil blank_nil)
      (.named (spelled_name _) blank_nil blank_nil hframe) (.nil blank_nil))
  have harray : WellFormed "[7, 1]".toList [(.maxFrameSize, 7), (.readBufferSize, 1)] :=
    ⟨[], _, [], blank_nil, blank_nil, by decide, .array helements (by decide)⟩
  have hobject : WellFormed "\x7b\"read_buffer_size\":1,\"max_frame_size\":7\x7d".toList
      [(.readBufferSize, 1), (.maxFrameSize, 7)] :=
    ⟨[], _, [], blank_nil, blank_nil, by decide, .object hmembers (by decide)⟩
  have hdescribes : Describes [(.maxFrameSize, 7), (.readBufferSize, 1)] ⟨7, 1⟩ :=
    (describes_iff (by decide) (by decide) _).mpr rfl
  obtain ⟨hok, -, -, hsame⟩ := ofJson_accepts_documents "[7, 1]"
  -- The documents with one setting.
  have helement : WellFormed "[\t7\r\n]".toList [(.maxFrameSize, 7)] :=
    ⟨[], _, [], blank_nil, blank_nil, by decide,
      .array (.cons (.first htab) hframe (.nil hreturn)) (by decide)⟩
  have hmember :
      WellFormed "\n\x7b\r\n\t\"read_buffer_size\" :\t1\n\x7d ".toList [(.readBufferSize, 1)] :=
    ⟨['\n'], _, [' '], hnewline, hspace, by decide, .object
      (.cons (.first hindent) (.named (spelled_name _) hspace htab hbuffer) (.nil hnewline))
      (by decide)⟩
  have hbufferMissing : Describes [(.maxFrameSize, 7)] ⟨7, 65536⟩ :=
    (describes_iff (by decide) (by decide) _).mpr rfl
  have hframeMissing : Describes [(.readBufferSize, 1)] ⟨16777216, 1⟩ :=
    (describes_iff (by decide) (by decide) _).mpr rfl
  exact ⟨(hok _).mpr ⟨_, harray, hdescribes, by decide⟩,
    hsame _ _ _ harray hobject (.swap _ _ _),
    ((ofJson_accepts_documents _).1 _).mpr ⟨_, helement, hbufferMissing, by decide⟩,
    ((ofJson_accepts_documents _).1 _).mpr ⟨_, hmember, hframeMissing, by decide⟩⟩

end PrefixFraming.Config
