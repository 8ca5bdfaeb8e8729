import PrefixFraming.Proofs.Parsing
import PrefixFraming.Proofs.Reading
import Mathlib.Data.List.TakeWhile

/-!
# Failures of the source lose nothing

A read that brings no bytes, because the source fails or has ended, does not touch the decoder. So a
caller that simply goes on (`persist`) gets the same frames as if the failures and the ends had not
been there: what its reads have brought, one after the other, is as good as one feed
(`persist_feeds`), and with as many calls as the source has things in store nothing is left of it
(`persist_exhausts`).

`Answered` says what a single call can be, with all waits before it, in terms of the bytes that are
`ahead`. A source that makes its reader wait forever hides what comes behind that wait, and so the
bytes ahead end there.
-/

namespace PrefixFraming

variable {σ τ ω : Type}

namespace Source

/-! ## What reads can still bring -/

/-- The bytes that reads can still bring: those before the source is never ready again. -/
def ahead (s : Source) : List UInt8 := (s.items.takeWhile (· ≠ .hang)).flatMap Item.bytes

/-- If the source never hangs, reads can bring all of its bytes. -/
theorem ahead_eq_remaining {s : Source} (h : Item.hang ∉ s.items) : s.ahead = s.remaining := by
  have hall : s.items.takeWhile (· ≠ .hang) = s.items := by
    rw [List.takeWhile_eq_self_iff]
    intro item hitem
    simpa using ne_of_mem_of_not_mem hitem h
  rw [ahead, hall, remaining]

/-- A read takes its bytes from the head of those ahead, and nothing else changes them. -/
theorem ahead_of_poll (s : Source) (capacity : ℕ) :
    match s.poll capacity with
    | .ready (.ok chunk) rest => s.ahead = chunk ++ rest.ahead
    | .ready (.error _) rest => s.ahead = rest.ahead
    | .later _ rest => s.ahead = rest.ahead
    | .never => s.ahead = [] := by
  obtain ⟨items, reads⟩ := s
  simp only [poll, ahead]
  fun_induction pollItems capacity reads items with
  | case1 => rfl
  | case2 bytes more hdrop => simp [Item.bytes]
  | case3 bytes more hdrop => simp [Item.bytes, ← List.append_assoc]
  | case4 cause more => simp [Item.bytes]
  | case5 more ih => simpa [Item.bytes] using ih
  | case6 more ih => simpa [Item.bytes] using ih
  | case7 ms more => simp [Item.bytes]
  | case8 more => simp

/-- A wait does not change what comes next. -/
theorem stretch_of_poll_later {s rest : Source} {capacity ms : ℕ}
    (h : s.poll capacity = .later ms rest) : stretch s.items = stretch rest.items := by
  obtain ⟨items, reads⟩ := s
  simp only [poll] at h
  fun_induction pollItems capacity reads items with
  | case5 more ih => exact ih h
  | case6 more ih => exact ih h
  | case7 ms more =>
    cases h
    rfl
  | _ => cases h

/-- Where an end of the input comes next, a read that finishes brings nothing. -/
theorem arrival_of_end {s rest : Source} {capacity : ℕ} {arrival : Except IoError (List UInt8)}
    (h : s.poll capacity = .ready arrival rest) (hend : stretch s.items = ⟨[], none⟩) :
    arrival = .ok [] := by
  obtain ⟨items, reads⟩ := s
  simp only [poll] at h hend
  fun_induction pollItems capacity reads items with
  | case1 =>
    cases h
    rfl
  | case2 bytes more hdrop =>
    cases h
    cases bytes with
    | nil => rfl
    | cons b bytes => cases hend
  | case3 bytes more hdrop =>
    -- The item has bytes, so no end comes next.
    cases bytes with
    | nil => exact absurd List.drop_nil hdrop
    | cons b bytes => cases hend
  | case4 cause more => cases hend
  | case5 more ih => exact ih h hend
  | case6 more ih => exact ih h hend
  | case7 => cases h
  | case8 => cases h

/-- A read that finishes takes something, unless nothing is in store. -/
theorem size_le_of_poll {s rest : Source} {capacity : ℕ} {arrival : Except IoError (List UInt8)}
    (h : s.poll capacity = .ready arrival rest) (hcapacity : 0 < capacity) :
    rest.size ≤ s.size - 1 := by
  obtain ⟨items, reads⟩ := s
  simp only [poll, size] at h ⊢
  fun_induction pollItems capacity reads items with
  | case1 =>
    cases h
    exact Nat.zero_le _
  | case2 bytes more hdrop =>
    cases h
    simp only [List.foldr_cons, Item.size]
    omega
  | case3 bytes more hdrop =>
    cases h
    have hbytes : bytes ≠ [] := by
      rintro rfl
      exact hdrop List.drop_nil
    have hpos := List.length_pos_iff.mpr hbytes
    simp only [List.foldr_cons, Item.size, List.length_drop]
    omega
  | case4 cause more =>
    cases h
    simp only [List.foldr_cons, Item.size]
    omega
  | case5 more ih =>
    have hle := ih h
    have hone : Item.pending.size = 1 := rfl
    rw [List.foldr_cons, hone]
    omega
  | case6 more ih =>
    have hle := ih h
    have hone : (Item.delay 0).size = 1 := rfl
    rw [List.foldr_cons, hone]
    omega
  | case7 => cases h
  | case8 => cases h

/-- A source whose measure is zero has nothing in store. -/
theorem items_eq_nil_of_size_eq_zero {s : Source} (h : s.size = 0) : s.items = [] := by
  obtain ⟨items, reads⟩ := s
  cases items with
  | nil => rfl
  | cons item more =>
    have hpos : 0 < item.size := by cases item <;> exact Nat.succ_pos _
    rw [size, List.foldr_cons] at h
    omega

/-- A source that never hangs answers, and still never hangs. -/
theorem noHang_of_poll {s : Source} (h : Item.hang ∉ s.items) (capacity : ℕ) :
    match s.poll capacity with
    | .ready _ rest => Item.hang ∉ rest.items
    | .later _ rest => Item.hang ∉ rest.items
    | .never => False := by
  obtain ⟨items, reads⟩ := s
  simp only [poll] at h ⊢
  fun_induction pollItems capacity reads items with
  | case1 => exact List.not_mem_nil
  | case2 bytes more hdrop => exact fun hmem => h (List.mem_cons_of_mem _ hmem)
  | case3 bytes more hdrop => simpa using h
  | case4 cause more => exact fun hmem => h (List.mem_cons_of_mem _ hmem)
  | case5 more ih => exact ih fun hmem => h (List.mem_cons_of_mem _ hmem)
  | case6 more ih => exact ih fun hmem => h (List.mem_cons_of_mem _ hmem)
  | case7 ms more => exact fun hmem => h (List.mem_cons_of_mem _ hmem)
  | case8 more => exact h List.mem_cons_self

end Source

namespace Stream

/-- What the end of the input means behind what is left of a stream: a clean end between two frames,
and inside a frame a truncation, which tells the number of bytes that are there of the prefix or of
the payload. Behind a length that is refused nothing is read any more. -/
def Leftover.atEnd : Leftover → Except Error (Option ℕ)
  | .header [] => .ok none
  | .header (b :: bytes) => .error (.truncatedStream (b :: bytes).length)
  | .body _ bytes => .error (.truncatedStream bytes.length)
  | .rejected _ => .error .poisoned

/-- Parsing fails only on a length above the maximum. -/
theorem Parsed.error_iff {parsed : Parsed} {max : UInt32} {e : Error} :
    parsed.result max = .error e ↔
      ∃ declared, parsed.leftover = .rejected declared ∧ e = .frameTooLarge declared max := by
  rw [result]
  rcases parsed.leftover with bytes | ⟨declared, bytes⟩ | declared <;> simp [eq_comm]

end Stream

namespace Reader

/-! ## One call -/

/-- A try at a read that is over has finished one read of the source. -/
theorem poll_of_attempt_done {r r' : Reader} (hr : r.decoder.poisoned = false) {sink : Sink σ}
    {s s' : σ} {result : Except Error (Option ℕ)} (h : r.attempt sink s = .done r' s' result) :
    r'.capacity = r.capacity ∧
      ∃ arrival, r.source.poll r.capacity = .ready arrival r'.source := by
  have hattempted := r.attempted sink s
  rw [h] at hattempted
  cases hattempted with
  | poisoned hpoisoned =>
    rw [hr] at hpoisoned
    cases hpoisoned
  | failure _ hread => exact ⟨rfl, _, hread⟩
  | clean _ hread => exact ⟨rfl, _, hread⟩
  | truncated _ hread => exact ⟨rfl, _, hread⟩
  | fed _ hread => exact ⟨rfl, _, hread⟩
  | failed _ hread => exact ⟨rfl, _, hread⟩

/-- A try at a read that has to wait leaves all but the source as it is. -/
theorem poll_of_attempt_later {r r' : Reader} {sink : Sink σ} {s s' : σ} {ms : ℕ}
    (h : r.attempt sink s = .later ms r' s') :
    ∃ rest, r' = { r with source := rest } ∧ s' = s ∧
      r.source.poll r.capacity = .later ms rest := by
  have hattempted := r.attempted sink s
  rw [h] at hattempted
  cases hattempted with
  | later _ hread => exact ⟨_, rfl, rfl, hread⟩

/-- A try at a read never ends where the source never does. -/
theorem poll_of_attempt_never {r r' : Reader} {sink : Sink σ} {s s' : σ}
    (h : r.attempt sink s = .never r' s') : r.source.poll r.capacity = .never := by
  have hattempted := r.attempted sink s
  rw [h] at hattempted
  cases hattempted with
  | never _ hread => exact hread

/-- What one call of `readChunk` that returns can be, if the reader is not poisoned, with all waits
before it. -/
inductive Answered (sink : Sink σ) (r : Reader) (s : σ) :
    Reader → σ → Except Error (Option ℕ) → Prop where
  /-- The source fails. -/
  | failure {cause : IoError} {rest : Source} (ahead : r.source.ahead = rest.ahead)
      (next : r.stretch ≠ ⟨[], none⟩) :
      Answered sink r s { r with source := rest } s (.error (.io cause))
  /-- The source has ended. -/
  | ended {rest : Source} (ahead : r.source.ahead = rest.ahead) :
      Answered sink r s { r with source := rest } s (endOfInput r.decoder)
  /-- The source brings bytes, which are fed. -/
  | fed {chunk : List UInt8} {rest : Source} (ahead : r.source.ahead = chunk ++ rest.ahead)
      (next : r.stretch ≠ ⟨[], none⟩) :
      Answered sink r s ⟨rest, (r.decoder.feed sink s chunk).decoder, r.capacity⟩
        (r.decoder.feed sink s chunk).sink ((r.decoder.feed sink s chunk).result.map some)

/-- Waits come before the bytes ahead and do not count among them. -/
theorem Answered.of_wait {sink : Sink σ} {r r' : Reader} {s s' : σ} {source : Source}
    {result : Except Error (Option ℕ)}
    (h : Answered sink { r with source := source } s r' s' result)
    (hahead : r.source.ahead = source.ahead)
    (hstretch : r.stretch = stretch { r with source := source }) :
    Answered sink r s r' s' result := by
  cases h with
  | failure ahead next => exact .failure (hahead.trans ahead) (hstretch ▸ next)
  | ended ahead => exact .ended (hahead.trans ahead)
  | fed ahead next => exact .fed (hahead.trans ahead) (hstretch ▸ next)

/-- A read that finishes is one of these. -/
theorem attempt_answered {r r' : Reader} (hr : r.decoder.poisoned = false) {sink : Sink σ}
    {s s' : σ} {result : Except Error (Option ℕ)} (h : r.attempt sink s = .done r' s' result) :
    Answered sink r s r' s' result := by
  have hattempted := r.attempted sink s
  have hahead := r.source.ahead_of_poll r.capacity
  rw [h] at hattempted
  cases hattempted with
  | poisoned hpoisoned =>
    rw [hr] at hpoisoned
    cases hpoisoned
  | failure _ hread =>
    rw [hread] at hahead
    refine .failure hahead fun hend => ?_
    cases Source.arrival_of_end hread hend
  | clean _ hread hidle =>
    rw [hread] at hahead
    have hanswer : endOfInput r.decoder = .ok none := if_pos hidle
    rw [← hanswer]
    exact .ended hahead
  | truncated _ hread hidle =>
    rw [hread] at hahead
    have hanswer : endOfInput r.decoder = .error (.truncatedStream r.decoder.buffered) :=
      if_neg (Bool.eq_false_iff.mp hidle)
    rw [← hanswer]
    exact .ended hahead
  | @fed chunk rest n _ hread hne hok =>
    rw [hread] at hahead
    have hanswer : (r.decoder.feed sink s chunk).result.map some = .ok (some n) := by
      rw [hok]
      rfl
    rw [← hanswer]
    exact .fed hahead fun hend => hne (Except.ok.inj (Source.arrival_of_end hread hend))
  | @failed chunk rest e _ hread hne herror =>
    rw [hread] at hahead
    have hanswer : (r.decoder.feed sink s chunk).result.map some = .error e := by
      rw [herror]
      rfl
    rw [← hanswer]
    exact .fed hahead fun hend => hne (Except.ok.inj (Source.arrival_of_end hread hend))

/-- A call is one of these for the part of the state that the sink works on; the waits may change
the rest as they like. -/
theorem readChunk_answered {view : τ → σ} {whole : Sink τ} {part : Sink σ}
    (hview : Sink.Projects view whole part) {pause : ℕ → τ → τ}
    (hpause : ∀ ms t, view (pause ms t) = view t) {r r' : Reader}
    (hr : r.decoder.poisoned = false) {t t' : τ} {result : Except Error (Option ℕ)}
    (h : r.readChunk pause whole t = some (r', t', result)) :
    Answered part r (view t) r' (view t') result := by
  fun_induction readChunk pause r whole t with
  | case1 r t r₁ t₁ result₁ hdone =>
    cases h
    have hanswered := attempt_answered hr hdone
    cases hanswered with
    | failure ahead next => exact .failure ahead next
    | ended ahead => exact .ended ahead
    | @fed chunk rest ahead next =>
      have hpart := Decoder.feed_mapSink hview r.decoder t chunk
      have hfed : Answered part r (view t)
          ⟨rest, (r.decoder.feed part (view t) chunk).decoder, r.capacity⟩
          (r.decoder.feed part (view t) chunk).sink
          ((r.decoder.feed part (view t) chunk).result.map some) := .fed ahead next
      rw [hpart] at hfed
      exact hfed
  | case2 r t ms r₁ t₁ hlater ih =>
    obtain ⟨rest, rfl, rfl, hread⟩ := poll_of_attempt_later hlater
    have hahead := r.source.ahead_of_poll r.capacity
    rw [hread] at hahead
    have hrest := ih hr h
    rw [hpause] at hrest
    exact hrest.of_wait hahead (Source.stretch_of_poll_later hread)
  | case3 => cases h

/-- A call that never returns has come to the end of the bytes ahead. -/
theorem ahead_of_readChunk_none {pause : ℕ → σ → σ} {r : Reader} {sink : Sink σ} {s : σ}
    (h : r.readChunk pause sink s = none) :
    r.source.ahead = [] ∧ Source.Item.hang ∈ r.source.items := by
  fun_induction readChunk pause r sink s with
  | case1 => cases h
  | case2 r s ms r₁ s₁ hlater ih =>
    obtain ⟨rest, rfl, rfl, hread⟩ := poll_of_attempt_later hlater
    have hahead := r.source.ahead_of_poll r.capacity
    rw [hread] at hahead
    obtain ⟨hempty, hhang⟩ := ih h
    refine ⟨hahead.trans hempty, ?_⟩
    by_contra hnone
    have hrest := Source.noHang_of_poll hnone r.capacity
    rw [hread] at hrest
    exact hrest hhang
  | case3 r s r₁ s₁ hnever =>
    have hread := poll_of_attempt_never hnever
    have hahead := r.source.ahead_of_poll r.capacity
    rw [hread] at hahead
    refine ⟨hahead, ?_⟩
    by_contra hnone
    have hrest := Source.noHang_of_poll hnone r.capacity
    rw [hread] at hrest
    exact hrest

/-- A call that returns does not make the source hang. -/
theorem noHang_of_readChunk {pause : ℕ → σ → σ} {r r' : Reader} (hr : r.decoder.poisoned = false)
    {sink : Sink σ} {s s' : σ} {result : Except Error (Option ℕ)}
    (h : r.readChunk pause sink s = some (r', s', result))
    (hhang : Source.Item.hang ∉ r.source.items) : Source.Item.hang ∉ r'.source.items := by
  fun_induction readChunk pause r sink s with
  | case1 r s r₁ s₁ result₁ hdone =>
    cases h
    obtain ⟨-, arrival, hread⟩ := poll_of_attempt_done hr hdone
    have hrest := Source.noHang_of_poll hhang r.capacity
    rw [hread] at hrest
    exact hrest
  | case2 r s ms r₁ s₁ hlater ih =>
    obtain ⟨rest, rfl, rfl, hread⟩ := poll_of_attempt_later hlater
    have hrest := Source.noHang_of_poll hhang r.capacity
    rw [hread] at hrest
    exact ih hr h hrest
  | case3 => cases h

/-- A call that returns keeps the size of the buffer, and takes something unless nothing is in
store. -/
theorem size_le_of_readChunk {pause : ℕ → σ → σ} {r r' : Reader} (hr : r.decoder.poisoned = false)
    (hcapacity : 0 < r.capacity) {sink : Sink σ} {s s' : σ} {result : Except Error (Option ℕ)}
    (h : r.readChunk pause sink s = some (r', s', result)) :
    r'.capacity = r.capacity ∧ r'.source.size ≤ r.source.size - 1 := by
  fun_induction readChunk pause r sink s with
  | case1 r s r₁ s₁ result₁ hdone =>
    cases h
    obtain ⟨hsame, arrival, hread⟩ := poll_of_attempt_done hr hdone
    exact ⟨hsame, Source.size_le_of_poll hread hcapacity⟩
  | case2 r s ms r₁ s₁ hlater ih =>
    have hlt := size_lt_of_attempt_later hlater
    obtain ⟨rest, rfl, rfl, hread⟩ := poll_of_attempt_later hlater
    obtain ⟨hsame, hle⟩ := ih hr hcapacity h
    refine ⟨hsame, ?_⟩
    dsimp only at hle hlt
    omega
  | case3 => cases h

/-! ## Calling again and again -/

/-- Where a caller that goes on reading has come. -/
structure Persisted (σ : Type) where
  /-- The reader after the calls. -/
  reader : Reader
  /-- The sink's state after the calls. -/
  sink : σ
  /-- The error that stopped the caller, if one did. -/
  stop? : Option Error

/-- The error in an answer that stops the caller. A clean end, a truncation, and a failure of the
source do not. -/
def stop? : Except Error (Option ℕ) → Option Error
  | .ok _ => none
  | .error (.io _) => none
  | .error (.truncatedStream _) => none
  | .error e => some e

/-- Calls `readChunk` up to `n` times, as long as the source has anything in store. The caller goes
on after a clean end, a truncation, and a failure of the source; any other error stops it, and so
does a source that is never ready again. -/
def persist (pause : ℕ → σ → σ) (sink : Sink σ) : ℕ → Reader → σ → Persisted σ
  | 0, r, s => ⟨r, s, none⟩
  | n + 1, r, s =>
    if r.source.items = [] then ⟨r, s, none⟩
    else
      match r.readChunk pause sink s with
      | none => ⟨r, s, none⟩
      | some (r', s', result) =>
        match stop? result with
        | none => persist pause sink n r' s'
        | some e => ⟨r', s', some e⟩

/-- What feeds or calls that may have been stopped return: a count or the error. -/
def countOr (n : ℕ) : Option Error → Except Error ℕ
  | none => .ok n
  | some e => .error e

section persist

variable {view : τ → σ} {whole : Sink τ} {part : Sink σ} {pause : ℕ → τ → τ}

/-- A feed to a sink that accepts everything fails only on a length above the maximum. -/
theorem tooLarge_of_accepts (haccepts : ∀ s f, (part s f).2 = .ok ()) {d : Decoder} (hd : d.Ready)
    {s : σ} {chunk : List UInt8} {e : Error} (h : (d.feed part s chunk).result = .error e) :
    ∃ declared, e = .frameTooLarge declared d.maxFrameSize := by
  obtain ⟨-, -, hresult⟩ := (hd.takes part s chunk).parses haccepts
  rw [hresult, Stream.Parsed.error_iff] at h
  obtain ⟨declared, -, he⟩ := h
  exact ⟨declared, he⟩

/-- A call is as good as a feed of the bytes that it took, which may be none. -/
theorem Answered.feeds (haccepts : ∀ s f, (part s f).2 = .ok ()) {r r' : Reader}
    (hr : r.decoder.Ready) {s s' : σ} {result : Except Error (Option ℕ)}
    (h : Answered part r s r' s' result) :
    ∃ chunk n, r.source.ahead = chunk ++ r'.source.ahead ∧
      r.decoder.feed part s chunk = ⟨r'.decoder, s', countOr n (stop? result)⟩ := by
  cases h with
  | failure ahead next => exact ⟨[], 0, ahead, hr.feed_nil part s⟩
  | ended ahead =>
    have hstop : stop? (endOfInput r.decoder) = none := by
      rw [endOfInput]
      split_ifs <;> rfl
    rw [hstop]
    exact ⟨[], 0, ahead, hr.feed_nil part s⟩
  | @fed chunk rest ahead next =>
    rcases hresult : (r.decoder.feed part s chunk).result with e | n
    · obtain ⟨declared, rfl⟩ := tooLarge_of_accepts haccepts hr hresult
      refine ⟨chunk, 0, ahead, ?_⟩
      change _ = Decoder.Fed.mk _ _ (.error (.frameTooLarge declared r.decoder.maxFrameSize))
      rw [← hresult]
    · refine ⟨chunk, n, ahead, ?_⟩
      change _ = Decoder.Fed.mk _ _ (.ok n)
      rw [← hresult]

/-- A call that does not stop the caller leaves the decoder ready. -/
theorem Answered.ready (haccepts : ∀ s f, (part s f).2 = .ok ()) {r r' : Reader}
    (hr : r.decoder.Ready) {s s' : σ} {result : Except Error (Option ℕ)}
    (h : Answered part r s r' s' result) (hstop : stop? result = none) : r'.decoder.Ready := by
  obtain ⟨chunk, n, -, hfed⟩ := h.feeds haccepts hr
  rw [hstop] at hfed
  have hready := ((hr.takes part s chunk).ok_ready (by rw [hfed, countOr])).1
  rw [hfed] at hready
  exact hready

/-- A call that ends with a failure of the source, with a truncation, or with a clean end changes
neither the decoder nor the sink. -/
theorem Answered.unchanged (haccepts : ∀ s f, (part s f).2 = .ok ()) {r r' : Reader}
    (hr : r.decoder.Ready) {s s' : σ} {result : Except Error (Option ℕ)}
    (h : Answered part r s r' s' result)
    (hresult : result = .ok none ∨ (∃ cause, result = .error (.io cause)) ∨
      ∃ buffered, result = .error (.truncatedStream buffered)) :
    r'.decoder = r.decoder ∧ s' = s := by
  cases h with
  | failure => exact ⟨rfl, rfl⟩
  | ended => exact ⟨rfl, rfl⟩
  | @fed chunk rest =>
    -- A feed that fails does so on a length, and one that succeeds counts its frames.
    exfalso
    rcases hfed : (r.decoder.feed part s chunk).result with e | n
    · obtain ⟨declared, rfl⟩ := tooLarge_of_accepts haccepts hr hfed
      rw [hfed] at hresult
      rcases hresult with h | ⟨cause, h⟩ | ⟨buffered, h⟩ <;> cases h
    · rw [hfed] at hresult
      rcases hresult with h | ⟨cause, h⟩ | ⟨buffered, h⟩ <;> cases h

/-- Where an end of the input comes next, that is what a call meets. -/
theorem Answered.of_end {r r' : Reader} {s s' : σ} {result : Except Error (Option ℕ)}
    (h : Answered part r s r' s' result) (hend : r.stretch = ⟨[], none⟩) :
    result = endOfInput r.decoder := by
  cases h with
  | failure ahead next => exact absurd hend next
  | ended => rfl
  | fed ahead next => exact absurd hend next

/-- What the calls have brought, one after the other, is as good as one feed. -/
theorem persist_feeds (haccepts : ∀ s f, (part s f).2 = .ok ())
    (hview : Sink.Projects view whole part) (hpause : ∀ ms t, view (pause ms t) = view t) (m : ℕ)
    {r : Reader} (hr : r.decoder.Ready) (t : τ) :
    let p := persist pause whole m r t
    ∃ read n, r.source.ahead = read ++ p.reader.source.ahead ∧
      r.decoder.feed part (view t) read = ⟨p.reader.decoder, view p.sink, countOr n p.stop?⟩ := by
  induction m generalizing r t with
  | zero => exact ⟨[], 0, rfl, hr.feed_nil part (view t)⟩
  | succ m ih =>
    rw [persist]
    split_ifs with hempty
    · exact ⟨[], 0, rfl, hr.feed_nil part (view t)⟩
    · rcases hcall : r.readChunk pause whole t with _ | ⟨r', t', result⟩
      · exact ⟨[], 0, rfl, hr.feed_nil part (view t)⟩
      · have hanswered := readChunk_answered hview hpause hr.poisoned_eq hcall
        obtain ⟨chunk, n, hahead, hfed⟩ := hanswered.feeds haccepts hr
        dsimp only
        rcases hstop : stop? result with _ | e
        · -- The caller goes on, so the rest can be fed behind these bytes.
          rw [hstop] at hfed
          obtain ⟨read, k, hrest, hmore⟩ := ih (hanswered.ready haccepts hr hstop) t'
          refine ⟨chunk ++ read, n + k, ?_, ?_⟩
          · rw [hahead, hrest, List.append_assoc]
          · rw [hr.feed_append, hfed, countOr, Decoder.Fed.ok_andThen, hmore, Decoder.Fed.after]
            rcases (persist pause whole m r' t').stop? with _ | e <;> rfl
        · rw [hstop] at hfed
          exact ⟨chunk, n, hahead, hfed⟩

/-- As many calls as the source has things in store leave nothing, unless an error stops them. -/
theorem persist_exhausts (haccepts : ∀ s f, (part s f).2 = .ok ())
    (hview : Sink.Projects view whole part) (hpause : ∀ ms t, view (pause ms t) = view t) (m : ℕ)
    {r : Reader} (hr : r.decoder.Ready) (hcapacity : 0 < r.capacity) (t : τ)
    (henough : r.source.size ≤ m) :
    let p := persist pause whole m r t
    p.stop? = none → p.reader.source.ahead = [] ∧
      (Source.Item.hang ∉ r.source.items → p.reader.source.items = []) := by
  have hnothing : ∀ r : Reader, r.source.items = [] → r.source.ahead = [] := by
    intro r hempty
    rw [Source.ahead, hempty]
    rfl
  induction m generalizing r t with
  | zero =>
    have hempty := Source.items_eq_nil_of_size_eq_zero (Nat.le_zero.mp henough)
    exact fun _ => ⟨hnothing r hempty, fun _ => hempty⟩
  | succ m ih =>
    rw [persist]
    split_ifs with hempty
    · exact fun _ => ⟨hnothing r hempty, fun _ => hempty⟩
    · rcases hcall : r.readChunk pause whole t with _ | ⟨r', t', result⟩
      · obtain ⟨hahead, hhang⟩ := ahead_of_readChunk_none hcall
        exact fun _ => ⟨hahead, fun hnone => absurd hhang hnone⟩
      · have hanswered := readChunk_answered hview hpause hr.poisoned_eq hcall
        obtain ⟨hsame, hle⟩ := size_le_of_readChunk hr.poisoned_eq hcapacity hcall
        dsimp only
        rcases hstop : stop? result with _ | e
        · -- The call took something, so the calls that remain are enough for the rest.
          intro hend
          obtain ⟨hahead, hitems⟩ := ih (hanswered.ready haccepts hr hstop) (hsame ▸ hcapacity) t'
            (by omega) hend
          exact ⟨hahead, fun hnone => hitems (noHang_of_readChunk hr.poisoned_eq hcall hnone)⟩
        · rintro ⟨⟩

end persist

/-- A try at a read of a poisoned reader is over at once, so a call is, too. -/
theorem readChunk_of_poisoned {r : Reader} (hr : r.decoder.poisoned = true) (pause : ℕ → σ → σ)
    (sink : Sink σ) (s : σ) : r.readChunk pause sink s = some (r, s, .error .poisoned) := by
  rw [readChunk, attempt_of_poisoned hr]

/-- What a decoder makes of the end of the input is what the parser's leftover says. -/
theorem endOfInput_eq_atEnd {d : Decoder} {leftover : Stream.Leftover}
    (h : (d.isIdle, d.buffered, d.pending?) = leftover.observed)
    (haccepted : ∀ declared, leftover ≠ .rejected declared) : endOfInput d = leftover.atEnd := by
  have hidle : d.isIdle = leftover.observed.1 := congrArg Prod.fst h
  have hbuffered : d.buffered = leftover.observed.2.1 := congrArg (fun o => o.2.1) h
  rw [endOfInput, hidle, hbuffered]
  rcases leftover with (_ | ⟨b, bytes⟩) | ⟨declared, bytes⟩ | declared
  · rfl
  · rfl
  · rfl
  · exact absurd rfl (haccepted declared)

section persist

variable {view : τ → σ} {whole : Sink τ} {part : Sink σ} {pause : ℕ → τ → τ}

/-- After any number of calls, what a call says at an end of the input is what the parser says of
the bytes that the calls have read, behind those that were held before. -/
theorem persist_atEnd (haccepts : ∀ s f, (part s f).2 = .ok ())
    (hview : Sink.Projects view whole part) (hpause : ∀ ms t, view (pause ms t) = view t) (m : ℕ)
    {r : Reader} (hr : r.decoder.Ready) (t : τ) :
    let p := persist pause whole m r t
    ∃ read, r.source.ahead = read ++ p.reader.source.ahead ∧
      ∀ r' t' result, p.reader.readChunk pause whole p.sink = some (r', t', result) →
        p.reader.stretch = ⟨[], none⟩ →
        result = (Stream.parse r.decoder.maxFrameSize (r.decoder.held ++ read)).leftover.atEnd := by
  intro p
  obtain ⟨read, n, hahead, hfed⟩ := persist_feeds haccepts hview hpause m hr t
  refine ⟨read, hahead, ?_⟩
  intro r' t' result hcall hend
  have htakes := hr.takes part (view t) read
  obtain ⟨-, hobserved, hresult⟩ := htakes.parses haccepts
  rw [hfed] at hobserved hresult
  rcases hstop : p.stop? with _ | e
  · -- The decoder is ready, and what it holds is what the parser leaves over.
    rw [hstop, countOr] at hresult
    have hready := (htakes.ok_ready (n := n) (by rw [hfed, hstop, countOr])).1
    rw [hfed] at hready
    rw [(readChunk_answered hview hpause hready.poisoned_eq hcall).of_end hend]
    refine endOfInput_eq_atEnd hobserved fun declared hrejected => ?_
    rw [Stream.Parsed.result, hrejected] at hresult
    cases hresult
  · -- A length was refused, and behind it nothing is read.
    rw [hstop, countOr] at hresult
    obtain ⟨declared, hrejected, -⟩ := Stream.Parsed.error_iff.mp hresult.symm
    have hfailed := htakes.error_failed (e := e) (by rw [hfed, hstop, countOr])
    rw [hfed] at hfailed
    rw [readChunk_of_poisoned hfailed.poisoned_eq] at hcall
    cases hcall
    rw [hrejected, Stream.Leftover.atEnd]

/-- As many calls as the source has things in store come to one feed of all its bytes. -/
theorem persist_eq_feed (haccepts : ∀ s f, (part s f).2 = .ok ())
    (hview : Sink.Projects view whole part) (hpause : ∀ ms t, view (pause ms t) = view t) {m : ℕ}
    {r : Reader} (hr : r.decoder.Ready) (hcapacity : 0 < r.capacity) (t : τ)
    (henough : r.source.size ≤ m) :
    let p := persist pause whole m r t
    ∃ n, r.decoder.feed part (view t) r.source.ahead =
      ⟨p.reader.decoder, view p.sink, countOr n p.stop?⟩ := by
  intro p
  obtain ⟨read, n, hahead, hfed⟩ := persist_feeds haccepts hview hpause m hr t
  refine ⟨n, ?_⟩
  rcases hstop : p.stop? with _ | e
  · -- Nothing is ahead any more, so what was read is all.
    have hrest := (persist_exhausts haccepts hview hpause m hr hcapacity t henough hstop).1
    rw [hahead, hrest, List.append_nil, hfed, hstop]
  · -- The feed fails within what was read, and what is still ahead does not matter.
    rw [hahead, hr.feed_append, hfed, hstop, countOr, Decoder.Fed.error_andThen]

end persist

/-- Failures of the source lose nothing. For every reader that can come about, with a sink that
accepts everything:

A call that ends with a failure of the source, with a truncation, or with a clean end offers the
sink nothing and leaves the decoder exactly as it was.

At an end of the input the answer is what the parser says of the bytes read since the last frame
boundary that the reader started from: a clean end exactly if they end on a frame boundary, and
otherwise a truncation with the number of bytes of the prefix or of the payload that are there.

A caller that goes on reading whatever the source does, until nothing is left of it, gets the frames
of one feed of all the bytes, with the same numbers, and leaves the same decoder; a length above the
maximum stops it where it stops the feed. -/
theorem source_failures_lose_nothing {r : Reader} (hr : r.Reachable) {sink : Sink σ}
    (haccepts : ∀ s f, (sink s f).2 = .ok ()) (s : σ) (pause : ℕ → ω → ω) (w : ω) :
    let pauses : ℕ → ω × List Frame × σ → ω × List Frame × σ := fun ms => Prod.map (pause ms) id
    let whole : Sink (ω × List Frame × σ) := sink.recording.onSecond
    (∀ t r' t' result, r.readChunk pauses whole t = some (r', t', result) →
      (result = .ok none ∨ (∃ cause, result = .error (.io cause)) ∨
        ∃ buffered, result = .error (.truncatedStream buffered)) →
      r'.decoder = r.decoder ∧ t'.2 = t.2) ∧
    (r.decoder.poisoned = false →
      (∀ calls, let p := r.persist pauses whole calls (w, [], s)
        ∃ read, r.source.ahead = read ++ p.reader.source.ahead ∧
          ∀ r' t' result, p.reader.readChunk pauses whole p.sink = some (r', t', result) →
            p.reader.stretch = ⟨[], none⟩ →
            result =
              (Stream.parse r.decoder.maxFrameSize (r.decoder.held ++ read)).leftover.atEnd) ∧
      ∀ calls, r.source.size ≤ calls →
        let p := r.persist pauses whole calls (w, [], s)
        let fed := r.decoder.feed sink s r.source.ahead
        p.reader.decoder = fed.decoder ∧
          p.sink.2 = (r.decoder.offered sink s r.source.ahead, fed.sink) ∧
          (∀ e, p.stop? = some e ↔ fed.result = .error e) ∧
          (Source.Item.hang ∉ r.source.items →
            r.source.ahead = r.source.remaining ∧
              (p.stop? = none → p.reader.source.items = []))) := by
  intro pauses whole
  have haccepts' : ∀ t f, (sink.recording t f).2 = .ok () := fun t f => haccepts t.2 f
  have hview : Sink.Projects Prod.snd whole sink.recording := sink.recording.onSecond_projects
  have hpause : ∀ ms t, (pauses ms t).2 = t.2 := fun _ _ => rfl
  obtain ⟨hreachable, hcapacity⟩ := hr.decoder_and_capacity
  refine ⟨?_, ?_⟩
  · intro t r' t' result hcall hresult
    rcases hreachable.ready_or_failed with hready | hfailed
    · have hanswered := readChunk_answered hview hpause hready.poisoned_eq hcall
      exact hanswered.unchanged haccepts' hready hresult
    · -- A poisoned reader answers otherwise.
      rw [readChunk_of_poisoned hfailed.poisoned_eq] at hcall
      cases hcall
      rcases hresult with h | ⟨cause, h⟩ | ⟨buffered, h⟩ <;> cases h
  · intro hpoisoned
    have hready := hreachable.ready hpoisoned
    refine ⟨fun calls => persist_atEnd haccepts' hview hpause calls hready _, ?_⟩
    intro calls henough p fed
    obtain ⟨n, hfeed⟩ := persist_eq_feed haccepts' hview hpause hready hcapacity (w, [], s) henough
    rw [Decoder.feed_recording, List.nil_append] at hfeed
    obtain ⟨hdecoder, hsink, hresult⟩ := Decoder.Fed.mk.inj hfeed
    refine ⟨hdecoder.symm, hsink.symm, ?_, ?_⟩
    · intro e
      change p.stop? = some e ↔ (r.decoder.feed sink s r.source.ahead).result = .error e
      rw [hresult]
      rcases p.stop? with _ | e' <;> simp [countOr]
    · intro hhang
      refine ⟨Source.ahead_eq_remaining hhang, fun hstop => ?_⟩
      exact (persist_exhausts haccepts' hview hpause calls hready hcapacity _ henough hstop).2 hhang

/-- A reader with a buffer of two bytes that stands inside a length prefix, in front of an end of
the input. Two more ends and failures come before its source is used up, one of them inside the
payload.
-/
theorem source_failures_lose_nothing_mid_prefix :
    let d := ((Decoder.fresh 4).feed Sink.collect #[] [2, 0]).decoder
    let later : List Source.Item := [.failure ⟨.other, none⟩, .data [0, 0, 7], .delay 5, .data [],
      .failure ⟨.timedOut, none⟩, .data [8, 1]]
    let r : Reader := ⟨⟨.data [] :: later, 1⟩, d, 2⟩
    let pauses : ℕ → ℕ × List Frame × Array Frame → ℕ × List Frame × Array Frame :=
      fun ms => Prod.map (· + ms) id
    let whole : Sink (ℕ × List Frame × Array Frame) := Sink.collect.recording.onSecond
    let p := r.persist pauses whole 12 (0, [], #[])
    r.Reachable ∧ (∀ s f, (Sink.collect s f).2 = .ok ()) ∧ d.poisoned = false ∧
      r.source.size ≤ 12 ∧ Source.Item.hang ∉ r.source.items ∧
      r.readChunk pauses whole (0, [], #[]) =
        some (⟨⟨later, 2⟩, d, 2⟩, (0, [], #[]), .error (.truncatedStream 2)) ∧
      (Stream.parse 4 (d.held ++ [])).leftover.atEnd = .error (.truncatedStream 2) ∧
      p.reader.decoder = (d.feed Sink.collect #[] [0, 0, 7, 8, 1]).decoder ∧
      p.sink.2 = ([⟨0, [7, 8]⟩], #[⟨0, [7, 8]⟩]) ∧ p.stop? = none ∧ p.reader.source.items = [] := by
  intro d later r pauses whole p
  have hread : (withSettings (.ofItems (.data [2, 0] :: r.source.items)) ⟨4, 2⟩).attempt
      Sink.collect #[] = .done r #[] (.ok (some 0)) := rfl
  have hr : r.Reachable := (reachable_withSettings _ _ (by decide)).done hread
  have haccepts : ∀ s f, (Sink.collect s f).2 = .ok () := fun _ _ => rfl
  have hhang : Source.Item.hang ∉ r.source.items := by decide
  have hcall : r.readChunk pauses whole (0, [], #[]) =
      some (⟨⟨later, 2⟩, d, 2⟩, (0, [], #[]), .error (.truncatedStream 2)) := by
    rw [readChunk]
    rfl
  obtain ⟨-, hgoesOn⟩ := source_failures_lose_nothing hr haccepts #[] (fun ms n => n + ms) 0
  obtain ⟨hatEnd, hall⟩ := hgoesOn rfl
  obtain ⟨hdecoder, hsink, hstop, hitems⟩ := hall 12 (by decide)
  have hgoes : p.stop? = none := by
    rcases hp : p.stop? with _ | e
    · rfl
    · cases (hstop e).mp hp
  obtain ⟨read, hahead, hanswer⟩ := hatEnd 0
  obtain rfl : read = [] := List.self_eq_append_left.mp hahead
  exact ⟨hr, haccepts, rfl, by decide, hhang, hcall, (hanswer _ _ _ hcall rfl).symm, hdecoder, hsink,
    hgoes, (hitems hhang).2 hgoes⟩

end Reader

end PrefixFraming
