import PrefixFraming.Proofs.Persisting
import PrefixFraming.Proofs.Reads

/-!
# No byte of a source is lost or invented

Every byte that a source has in store is, at any time, in one of four places: in a frame that a sink
was offered, in the part of a frame that the decoder holds, still in the source, or lost. Only a
failure loses bytes, and only those of its own chunk that are behind the byte at which it fails.

A read that a reader makes while it is not poisoned takes a chunk off the source
(`Source.poll_takes`), and the decoder accounts for the bytes of the chunk that it takes
(`Turn.ReadsOnce`). Reads that follow each other make up a record (`Reader.Recorded`), in which the
accounts add up (`Reader.Recorded.conserved`). A poisoned reader makes no read any more, so that a
record has at most one chunk of which a part is lost. What is said here of reads holds of all uses
of a reader, since these are sequences of reads, and each leads from a reachable reader to one.
-/

namespace PrefixFraming

variable {σ : Type}

namespace Source

/-! ## What a read takes from a source -/

/-- The item only makes a reader wait. -/
def Item.waits : Item → Bool
  | .pending => true
  | .delay _ => true
  | _ => false

/-- What the source has in store next, apart from waits. -/
def next? (s : Source) : Option Item := s.items.find? fun item => !item.waits

/-- An end of the input is next: a data item without bytes, or nothing. -/
def AtEnd (s : Source) : Prop := s.next? = none ∨ s.next? = some (.data [])

/-- A read takes its bytes from the head of those that remain. It brings none only if it fails or at
an end of the input. A wait takes nothing. -/
theorem poll_takes {capacity : ℕ} (hcapacity : 0 < capacity) (s : Source) :
    match s.poll capacity with
    | .ready (.ok chunk) rest => rest.reads = s.reads + 1 ∧ chunk.length ≤ capacity ∧
        s.remaining = chunk ++ rest.remaining ∧ (chunk = [] → s.AtEnd)
    | .ready (.error _) rest => rest.reads = s.reads + 1 ∧ s.remaining = rest.remaining
    | .later _ rest => rest.reads = s.reads ∧ s.remaining = rest.remaining ∧ s.next? = rest.next?
    | .never => True := by
  obtain ⟨items, reads⟩ := s
  simp only [poll, remaining, AtEnd, next?]
  fun_induction pollItems capacity reads items with
  | case1 => exact ⟨rfl, Nat.zero_le _, rfl, fun _ => .inl rfl⟩
  | case2 bytes more hdrop =>
    refine ⟨rfl, List.drop_eq_nil_iff.mp hdrop, rfl, ?_⟩
    rintro rfl
    exact .inr rfl
  | case3 bytes more hdrop =>
    -- The item is cut, and the buffer has room for a byte of it.
    have hbytes : bytes ≠ [] := by
      rintro rfl
      exact hdrop List.drop_nil
    refine ⟨rfl, List.length_take_le _ _, ?_, ?_⟩
    · rw [List.flatMap_cons, List.flatMap_cons, Item.bytes, Item.bytes, ← List.append_assoc,
        List.take_append_drop]
    · intro htake
      rcases List.take_eq_nil_iff.mp htake with hzero | hnil
      · omega
      · exact absurd hnil hbytes
  | case4 cause more => exact ⟨rfl, rfl⟩
  | case5 more ih => exact ih
  | case6 more ih => exact ih
  | case7 ms more => exact ⟨rfl, rfl, rfl⟩
  | case8 => trivial

end Source

/-! ## One read -/

/-- The frames that sinks are offered in some turns, in order. -/
def Turn.handed {α ρ : Type} (turns : List (Turn α ρ)) : List Frame :=
  turns.flatMap fun t => t.log.map Prod.fst

/-- What a read does that finds the reader not poisoned: it brings the bytes `taken`, which go to
the decoder, and the bytes `lost`, which a failure leaves behind. -/
structure Turn.ReadsOnce (t : Turn Reader (Option ℕ)) (taken lost : List UInt8) : Prop where
  /-- The source finishes one read. -/
  once : t.after.source.reads = t.before.source.reads + 1
  /-- The buffer stays the same. -/
  capacity : t.after.capacity = t.before.capacity
  /-- What the read brings was the head of what remained. -/
  brought : t.before.source.remaining = taken ++ lost ++ t.after.source.remaining
  /-- It fits into the buffer. -/
  fits : (taken ++ lost).length ≤ t.before.capacity
  /-- The decoder accounts for the bytes that it takes. -/
  accounts : t.before.decoder.Accounts taken (t.log.map Prod.fst) t.after.decoder
  /-- As long as nothing fails in the decoder, nothing is lost. -/
  usable : t.after.decoder.poisoned = false → lost = [] ∧ t.after.decoder.Ready
  /-- If something does, at least a byte was taken. -/
  broken : t.after.decoder.poisoned = true → taken ≠ []
  /-- A clean end is answered at an end of the input. -/
  clean : t.result = .ok none → t.before.source.AtEnd
  /-- And so is a truncation, unless it is the error with which the sink has refused a frame. -/
  truncated : ∀ n, t.result = .error (.truncatedStream n) → t.before.source.AtEnd ∨
    ∃ before f, t.log = before ++ [(f, .error (.truncatedStream n))]

namespace Reader

variable {sink : Sink σ} {r r' : Reader} {s : σ} {t' : Sink.Log × σ}

/-- Waits before a read take nothing. -/
theorem readsOnce_of_wait {rest : Source} {log : Sink.Log} {result : Except Error (Option ℕ)}
    {taken lost : List UInt8}
    (h : Turn.ReadsOnce ⟨{ r with source := rest }, r', log, result⟩ taken lost)
    (hreads : rest.reads = r.source.reads) (hremaining : r.source.remaining = rest.remaining)
    (hnext : r.source.next? = rest.next?) :
    Turn.ReadsOnce ⟨r, r', log, result⟩ taken lost where
  once := by rw [h.once, hreads]
  capacity := h.capacity
  brought := hremaining.trans h.brought
  fits := h.fits
  accounts := h.accounts
  usable := h.usable
  broken := h.broken
  clean := by
    unfold Source.AtEnd
    rw [hnext]
    exact h.clean
  truncated := by
    unfold Source.AtEnd
    rw [hnext]
    exact h.truncated

/-- A read that brings no bytes leaves the decoder alone. -/
theorem readsOnce_of_nothing (hr : r.decoder.Ready) {rest : Source}
    {result : Except Error (Option ℕ)} (hreads : rest.reads = r.source.reads + 1)
    (hremaining : r.source.remaining = rest.remaining)
    (hend : (∃ cause, result = .error (.io cause)) ∨ r.source.AtEnd) :
    Turn.ReadsOnce ⟨r, { r with source := rest }, [], result⟩ [] [] where
  once := hreads
  capacity := rfl
  brought := hremaining
  fits := Nat.zero_le _
  accounts := .refl _
  usable := fun _ => ⟨rfl, hr⟩
  broken := fun h => absurd h hr.not_poisoned
  clean := fun h => by
    obtain ⟨cause, hcause⟩ | hend := hend
    · rw [hcause] at h
      cases h
    · exact hend
  truncated := fun n h => by
    obtain ⟨cause, hcause⟩ | hend := hend
    · rw [hcause] at h
      cases h
    · exact .inl hend

/-- A read that brings bytes feeds them. -/
theorem readsOnce_of_feed (hr : r.decoder.Ready) {rest : Source} {chunk : List UInt8}
    (hreads : rest.reads = r.source.reads + 1) (hfits : chunk.length ≤ r.capacity)
    (hremaining : r.source.remaining = chunk ++ rest.remaining) (sink : Sink σ) (s : σ) :
    let fed := r.decoder.feed sink.logging ([], s) chunk
    ∃ taken lost, Turn.ReadsOnce
      ⟨r, ⟨rest, fed.decoder, r.capacity⟩, fed.sink.1, fed.result.map some⟩ taken lost := by
  intro fed
  have htakes := hr.takes sink.logging ([], s) chunk
  obtain ⟨taken, lost, rfl, haccounts, hok, herror⟩ := (hr.takes sink s chunk).accounts
  -- The log of the feed has the frames that it offers, and the decoder is the same without it.
  have hlog : fed.sink.1.map Prod.fst = r.decoder.offered sink s (taken ++ lost) :=
    r.decoder.turn_offered ⟨σ, sink, s, taken ++ lost⟩
  have hdecoder : fed.decoder = (r.decoder.feed sink s (taken ++ lost)).decoder :=
    r.decoder.turn_after ⟨σ, sink, s, taken ++ lost⟩
  have hresult : fed.result = (r.decoder.feed sink s (taken ++ lost)).result :=
    r.decoder.turn_result ⟨σ, sink, s, taken ++ lost⟩
  rw [← hlog, ← hdecoder] at haccounts
  rw [← hresult] at hok herror
  refine ⟨taken, lost, hreads, rfl, hremaining, hfits, haccounts, ?_, ?_, ?_, ?_⟩
  · intro hsound
    rcases hfed : fed.result with e | n
    · rw [(htakes.error_failed hfed).poisoned_eq] at hsound
      cases hsound
    · exact ⟨hok n hfed, (htakes.ok_ready hfed).1⟩
  · intro hpoisoned
    rcases hfed : fed.result with e | n
    · exact herror e hfed
    · exact absurd hpoisoned (htakes.ok_ready hfed).1.not_poisoned
  · intro hclean
    rcases hfed : fed.result with e | n <;> rw [hfed] at hclean <;> cases hclean
  · intro n htruncated
    rcases hfed : fed.result with e | m
    · rw [hfed] at htruncated
      obtain rfl : e = .truncatedStream n := Except.error.inj htruncated
      -- A length above the maximum fails otherwise, so it was the sink.
      obtain ⟨-, hfailed⟩ := htakes.failed hfed
      cases hfailed with
      | refused last => exact .inr ⟨_, _, last⟩
    · rw [hfed] at htruncated
      cases htruncated

/-- A read that ends, with all waits before it. -/
theorem readsOnce_of_readChunk {pause : ℕ → σ → σ} (hr : r.decoder.Ready)
    (hcapacity : 0 < r.capacity) {result : Except Error (Option ℕ)}
    (h : r.readChunk (fun ms => Prod.map id (pause ms)) sink.logging ([], s) =
      some (r', t', result)) :
    ∃ taken lost, Turn.ReadsOnce ⟨r, r', t'.1, result⟩ taken lost := by
  generalize hstart : (([], s) : Sink.Log × σ) = t at h
  fun_induction readChunk (fun ms => Prod.map id (pause ms)) r sink.logging t
    generalizing s with
  | case1 r t r₁ t₁ result₁ hdone =>
    subst hstart
    cases h
    have hattempted := r.attempted sink.logging ([], s)
    have hpoll := Source.poll_takes hcapacity r.source
    rw [hdone] at hattempted
    cases hattempted with
    | poisoned hpoisoned => exact absurd hpoisoned hr.not_poisoned
    | @failure cause rest _ hread =>
      rw [hread] at hpoll
      exact ⟨[], [], readsOnce_of_nothing hr hpoll.1 hpoll.2 (.inl ⟨cause, rfl⟩)⟩
    | clean _ hread hidle =>
      rw [hread] at hpoll
      obtain ⟨hreads, -, hremaining, hend⟩ := hpoll
      exact ⟨[], [], readsOnce_of_nothing hr hreads hremaining (.inr (hend rfl))⟩
    | truncated _ hread hidle =>
      rw [hread] at hpoll
      obtain ⟨hreads, -, hremaining, hend⟩ := hpoll
      exact ⟨[], [], readsOnce_of_nothing hr hreads hremaining (.inr (hend rfl))⟩
    | @fed chunk rest n _ hread hne hok =>
      rw [hread] at hpoll
      obtain ⟨hreads, hfits, hremaining, -⟩ := hpoll
      have hfeed := readsOnce_of_feed hr hreads hfits hremaining sink s
      dsimp only at hfeed
      rw [hok] at hfeed
      exact hfeed
    | @failed chunk rest e _ hread hne herror =>
      rw [hread] at hpoll
      obtain ⟨hreads, hfits, hremaining, -⟩ := hpoll
      have hfeed := readsOnce_of_feed hr hreads hfits hremaining sink s
      dsimp only at hfeed
      rw [herror] at hfeed
      exact hfeed
  | case2 r t ms r₁ t₁ hlater ih =>
    subst hstart
    obtain ⟨rest, rfl, rfl, hread⟩ := poll_of_attempt_later hlater
    have hpoll := Source.poll_takes hcapacity r.source
    rw [hread] at hpoll
    obtain ⟨hreads, hremaining, hnext⟩ := hpoll
    obtain ⟨taken, lost, honce⟩ := ih hr hcapacity rfl h
    exact ⟨taken, lost, readsOnce_of_wait honce hreads hremaining hnext⟩
  | case3 => cases h

/-! ## Reads one after the other -/

/-- Reads of a reader, one after the other, and the reader behind them. A poisoned reader refuses
them. -/
inductive Recorded : Reader → List (Turn Reader (Option ℕ)) → Reader → Prop where
  /-- No read. -/
  | none (r : Reader) : Recorded r [] r
  /-- A read, and what follows it. -/
  | read {t : Turn Reader (Option ℕ)} {turns : List (Turn Reader (Option ℕ))} {now : Reader}
      {taken lost : List UInt8} (ready : t.before.decoder.Ready) (once : t.ReadsOnce taken lost)
      (others : Recorded t.after turns now) : Recorded t.before (t :: turns) now
  /-- A read that is refused, and what follows it. -/
  | refused {t : Turn Reader (Option ℕ)} {turns : List (Turn Reader (Option ℕ))} {now : Reader}
      (poisoned : t.before.decoder.poisoned = true) (refused : t.Refused)
      (others : Recorded t.after turns now) : Recorded t.before (t :: turns) now

/-- Two records one after the other. -/
theorem Recorded.trans {r₁ r₂ r₃ : Reader} {turns more : List (Turn Reader (Option ℕ))}
    (h₁ : Recorded r₁ turns r₂) (h₂ : Recorded r₂ more r₃) : Recorded r₁ (turns ++ more) r₃ := by
  induction h₁ with
  | none => exact h₂
  | read ready once others ih => exact .read ready once (ih h₂)
  | refused poisoned refused others ih => exact .refused poisoned refused (ih h₂)

/-- A record can be cut in two. -/
theorem Recorded.cut {turns more : List (Turn Reader (Option ℕ))}
    (h : Recorded r (turns ++ more) r') : ∃ now, Recorded r turns now ∧ Recorded now more r' := by
  induction turns generalizing r with
  | nil => exact ⟨r, .none r, h⟩
  | cons t turns ih =>
    cases h with
    | read ready once others =>
      obtain ⟨now, hturns, hmore⟩ := ih others
      exact ⟨now, .read ready once hturns, hmore⟩
    | refused poisoned refused others =>
      obtain ⟨now, hturns, hmore⟩ := ih others
      exact ⟨now, .refused poisoned refused hturns, hmore⟩

/-- The buffer stays the same. -/
theorem Recorded.capacity_eq {turns : List (Turn Reader (Option ℕ))} (h : Recorded r turns r') :
    r'.capacity = r.capacity := by
  induction h with
  | none => rfl
  | read ready once others ih => exact ih.trans once.capacity
  | refused poisoned refused others ih => exact ih.trans (congrArg capacity refused.unchanged)

/-- A poisoned reader stays as it is, and no sink is asked. -/
theorem Recorded.of_poisoned {turns : List (Turn Reader (Option ℕ))} (h : Recorded r turns r')
    (hr : r.decoder.poisoned = true) : r' = r ∧ Turn.handed turns = [] := by
  induction h with
  | none => exact ⟨rfl, rfl⟩
  | read ready once others ih => exact absurd hr ready.not_poisoned
  | @refused t turns now poisoned refused others ih =>
    rw [refused.unchanged] at ih
    obtain ⟨rfl, hnone⟩ := ih poisoned
    refine ⟨rfl, ?_⟩
    unfold Turn.handed at hnone ⊢
    rw [List.flatMap_cons, hnone, refused.log]
    rfl

/-- In one of some reads a chunk was fed that failed, and these bytes are the part of the chunk
behind the failure. -/
structure Lost (capacity : ℕ) (turns : List (Turn Reader (Option ℕ))) (lost : List UInt8) :
    Prop where
  /-- The read in question, and the part of its chunk that the decoder took. -/
  tail : ∃ earlier failure later taken, turns = earlier ++ failure :: later ∧
    failure.before.decoder.poisoned = false ∧ failure.after.decoder.poisoned = true ∧
    failure.before.source.remaining = taken ++ lost ++ failure.after.source.remaining ∧
    failure.before.decoder.Accounts taken (failure.log.map Prod.fst) failure.after.decoder ∧
    taken ≠ [] ∧ (taken ++ lost).length ≤ capacity
  /-- They are fewer than a read can bring. -/
  length_lt : lost.length < capacity

/-- What has become of all the bytes of a source, after some reads that have led to this reader. -/
structure Conserved (bytes : List UInt8) (capacity : ℕ) (turns : List (Turn Reader (Option ℕ)))
    (now : Reader) : Prop where
  /-- As long as the reader is not poisoned, they have been handed out, are held, or remain. -/
  whole : now.decoder.poisoned = false →
    bytes = Frame.wires (Turn.handed turns) ++ now.decoder.held ++ now.source.remaining
  /-- Once it is, some are lost besides: the tail of the chunk that failed. -/
  torn : now.decoder.poisoned = true → ∃ lost, Lost capacity turns lost ∧
    bytes = Frame.wires (Turn.handed turns) ++ now.decoder.held ++ lost ++ now.source.remaining

/-- One more read in front of others. -/
theorem Conserved.cons {t : Turn Reader (Option ℕ)} {turns : List (Turn Reader (Option ℕ))}
    {taken : List UInt8} {capacity : ℕ} {now : Reader} (honce : t.ReadsOnce taken [])
    (h : Conserved (t.after.decoder.held ++ t.after.source.remaining) capacity turns now) :
    Conserved (t.before.decoder.held ++ t.before.source.remaining) capacity (t :: turns) now := by
  have hhanded : Frame.wires (Turn.handed (t :: turns)) =
      Frame.wires (t.log.map Prod.fst) ++ Frame.wires (Turn.handed turns) := by
    unfold Turn.handed Frame.wires
    rw [List.flatMap_cons, List.flatMap_append]
  have hbytes : t.before.decoder.held ++ t.before.source.remaining =
      Frame.wires (t.log.map Prod.fst) ++ (t.after.decoder.held ++ t.after.source.remaining) := by
    calc t.before.decoder.held ++ t.before.source.remaining
        = t.before.decoder.held ++ taken ++ t.after.source.remaining := by
          rw [honce.brought, List.append_nil, List.append_assoc]
      _ = Frame.wires (t.log.map Prod.fst) ++ t.after.decoder.held ++ t.after.source.remaining := by
          rw [honce.accounts.bytes]
      _ = Frame.wires (t.log.map Prod.fst) ++
            (t.after.decoder.held ++ t.after.source.remaining) := List.append_assoc _ _ _
  constructor
  · intro hsound
    rw [hbytes, h.whole hsound, hhanded]
    simp only [List.append_assoc]
  · intro hpoisoned
    obtain ⟨lost, ⟨⟨earlier, failure, later, taken', rfl, hfailure⟩, hshort⟩, htorn⟩ :=
      h.torn hpoisoned
    refine ⟨lost, ⟨⟨t :: earlier, failure, later, taken', rfl, hfailure⟩, hshort⟩, ?_⟩
    rw [hbytes, htorn, hhanded]
    simp only [List.append_assoc]

/-- The accounts of reads that follow each other add up. -/
theorem Recorded.conserved {turns : List (Turn Reader (Option ℕ))} (h : Recorded r turns r')
    (hr : r.decoder.Ready) :
    Conserved (r.decoder.held ++ r.source.remaining) r.capacity turns r' := by
  induction h with
  | none r => exact ⟨fun _ => rfl, fun hpoisoned => absurd hpoisoned hr.not_poisoned⟩
  | @read t turns now taken lost ready once others ih =>
    rcases hafter : t.after.decoder.poisoned with _ | _
    · obtain ⟨rfl, hready⟩ := once.usable hafter
      have hlater := ih hready
      rw [once.capacity] at hlater
      exact .cons once hlater
    · -- This is the read that fails, and what follows it is refused.
      obtain ⟨rfl, hnone⟩ := others.of_poisoned hafter
      refine ⟨fun hsound => ?_, fun _ => ⟨lost, ⟨?_, ?_⟩, ?_⟩⟩
      · rw [hafter] at hsound
        cases hsound
      · exact ⟨[], t, turns, taken, rfl, ready.poisoned_eq, hafter, once.brought, once.accounts,
          once.broken hafter, once.fits⟩
      · have hfits := once.fits
        have hpos := List.length_pos_iff.mpr (once.broken hafter)
        rw [List.length_append] at hfits
        omega
      · have hhanded : Turn.handed (t :: turns) = t.log.map Prod.fst := by
          unfold Turn.handed at hnone ⊢
          rw [List.flatMap_cons, hnone, List.append_nil]
        rw [hhanded, ← once.accounts.bytes, once.brought]
        simp only [List.append_assoc]
  | refused poisoned refused others ih => exact absurd poisoned hr.not_poisoned

/-! ## Uses -/

/-- A single read of a reachable reader is recorded. -/
theorem Reachable.recorded_read {pause : ℕ → σ → σ} (hr : r.Reachable)
    {result : Except Error (Option ℕ)}
    (h : r.readChunk (fun ms => Prod.map id (pause ms)) sink.logging ([], s) =
      some (r', t', result)) :
    Recorded r [⟨r, r', t'.1, result⟩] r' := by
  obtain ⟨hdecoder, hcapacity⟩ := hr.decoder_and_capacity
  rcases hpoisoned : r.decoder.poisoned with _ | _
  · have hready := hdecoder.ready hpoisoned
    obtain ⟨taken, lost, honce⟩ := readsOnce_of_readChunk hready hcapacity h
    exact .read hready honce (.none r')
  · rw [readChunk_of_poisoned hpoisoned] at h
    cases h
    have hrefused : Turn.Refused ⟨r, r, [], (.error .poisoned : Except Error (Option ℕ))⟩ :=
      ⟨rfl, rfl, rfl⟩
    exact .refused hpoisoned hrefused (.none r)

/-- The reads of a use of a reachable reader are recorded. -/
theorem Reachable.recorded_readsOf (hr : r.Reachable) (pause : ℕ → σ → σ) (sink : Sink σ)
    (toEnd : Bool) (s : σ) : ∃ now, Recorded r (r.readsOf pause sink toEnd s) now := by
  fun_induction Reader.readsOf pause sink toEnd r s with
  | case1 r s r₁ log s₁ n hread ih =>
    have hfirst := hr.recorded_read hread
    split_ifs with htoEnd
    · obtain ⟨now, hothers⟩ := ih (hr.readChunk hread)
      exact ⟨now, hfirst.trans hothers⟩
    · exact ⟨r₁, hfirst⟩
  | case2 r s r₁ log s₁ hread => exact ⟨r₁, hr.recorded_read hread⟩
  | case3 r s r₁ log s₁ e hread => exact ⟨r₁, hr.recorded_read hread⟩
  | case4 r s hread => exact ⟨r, .none r⟩

/-- Without a read nothing changes. -/
theorem Recorded.eq_of_nil {turns : List (Turn Reader (Option ℕ))} (h : Recorded r turns r')
    (hnone : turns = []) : r' = r := by
  cases h with
  | none => rfl
  | read => cases hnone
  | refused => cases hnone

/-- A record ends where its last read ends. -/
theorem Recorded.eq_after {earlier : List (Turn Reader (Option ℕ))} {last : Turn Reader (Option ℕ)}
    (h : Recorded r (earlier ++ [last]) r') : r' = last.after := by
  obtain ⟨now, -, hlast⟩ := h.cut
  cases hlast with
  | read ready once others => exact others.eq_of_nil rfl
  | refused poisoned refused others => exact others.eq_of_nil rfl

/-- What a use leaves behind is what its reads leave behind. -/
theorem Reachable.recorded_use (hr : r.Reachable) {u : Use} {t : Turn Reader Reply}
    (h : r.use u = some t) :
    Recorded r (r.readsOf u.pause u.sink u.toEnd u.state) t.after := by
  obtain ⟨now, hrecorded⟩ := hr.recorded_readsOf u.pause u.sink u.toEnd u.state
  obtain ⟨earlier, last, hreads, hcomprises⟩ := use_comprises h
  rw [hreads] at hrecorded ⊢
  obtain rfl := hrecorded.eq_after
  rw [hcomprises.after]
  exact hrecorded

/-- The reads of all uses of a reachable reader are recorded. -/
theorem Reachable.recorded_reads (hr : r.Reachable) (uses : List Use) :
    ∃ now, Recorded r (r.reads uses) now := by
  induction uses generalizing r with
  | nil => exact ⟨r, .none r⟩
  | cons u uses ih =>
    rw [Reader.reads]
    rcases huse : r.use u with _ | t
    · obtain ⟨now, hrecorded⟩ := hr.recorded_readsOf u.pause u.sink u.toEnd u.state
      exact ⟨now, hrecorded.trans (.none now)⟩
    · obtain ⟨now, hothers⟩ := ih (hr.use huse)
      exact ⟨now, (hr.recorded_use huse).trans hothers⟩

/-- The frames of turns are those of their logs. -/
theorem handed_eq {α ρ : Type} (turns : List (Turn α ρ)) :
    Turn.handed turns = (turns.flatMap Turn.log).map Prod.fst := by
  rw [Turn.handed, List.map_flatMap]

/-- Some of the reads of all uses, from the first, lead up to the end of each use. -/
theorem Reachable.reads_of_turns (hr : r.Reachable) {uses : List Use}
    {before after : List (Turn Reader Reply)} {t : Turn Reader Reply}
    (h : r.turns uses = before ++ t :: after) :
    ∃ reads more, r.reads uses = reads ++ more ∧
      Turn.handed (before ++ [t]) = Turn.handed reads ∧ Recorded r reads t.after := by
  induction uses generalizing r before with
  | nil => simp [turns] at h
  | cons u uses ih =>
    rw [turns] at h
    rcases huse : r.use u with _ | first
    · rw [huse] at h
      simp at h
    · rw [huse] at h
      dsimp only at h
      have hrecorded := hr.recorded_use huse
      obtain ⟨earlier, last, hreads, hcomprises⟩ := use_comprises huse
      have hlog := hcomprises.log
      rw [← hreads] at hlog
      rw [Reader.reads, huse]
      dsimp only
      cases before with
      | nil =>
        obtain ⟨rfl, -⟩ := List.cons.inj h
        refine ⟨_, _, rfl, ?_, hrecorded⟩
        rw [handed_eq, handed_eq, ← hlog, List.nil_append, List.flatMap_singleton]
      | cons t₀ before =>
        obtain ⟨rfl, hothers⟩ := List.cons.inj h
        obtain ⟨reads, more, hsplit, hhanded, hlater⟩ := ih (hr.use huse) hothers
        refine ⟨r.readsOf u.pause u.sink u.toEnd u.state ++ reads, more, ?_, ?_,
          hrecorded.trans hlater⟩
        · rw [hsplit, List.append_assoc]
        · rw [handed_eq, handed_eq] at hhanded
          rw [handed_eq, handed_eq, List.cons_append, List.flatMap_cons, List.map_append, hhanded,
            hlog, List.flatMap_append, List.map_append]

/-- A new reader is reachable, ready, and holds no bytes. -/
theorem reachable_of_new {source : Source}
    (h : r = new source ∨ ∃ c, ofConfig source c = .ok r) :
    r.Reachable ∧ r.decoder.Ready ∧ r.decoder.held = [] ∧ r.source = source := by
  obtain rfl | ⟨c, hc⟩ := h
  · exact ⟨.new source, Decoder.ready_fresh _, rfl, rfl⟩
  · obtain ⟨rfl, -⟩ := capacity_pos_of_ofConfig hc
    exact ⟨.ofConfig hc, Decoder.ready_fresh _, rfl, rfl⟩

/-- A reader neither loses nor invents bytes of its source. Take a new reader, with the default
settings or with any that pass the check, over any source, and use it as often as you like, to read
once or to the end, with any sinks. Its buffer has the size that the settings give it. Then each of
its reads that finds it not poisoned makes one read of the source, which brings no more than fits
into the buffer, and answers with the end of the input only where an end of the input is next. At
any point, behind each read and behind each use, all the bytes of the source are, in order, those of
the frames that the sinks were offered, those held, and those that remain. Once the reader is
poisoned, there are those lost besides, before the ones that remain: the tail, behind the bytes
taken, of the one chunk that was being fed in the read that failed. -/
theorem no_byte_is_lost_or_invented (source : Source)
    (h : r = new source ∨ ∃ c, ofConfig source c = .ok r) (uses : List Use) :
    ((r = new source → r.capacity = Config.default.readBufferSize.toNat) ∧
      ∀ c, ofConfig source c = .ok r → r.capacity = c.readBufferSize.toNat) ∧
    (∀ before t after, r.reads uses = before ++ t :: after →
      t.before.capacity = r.capacity ∧
        (t.before.decoder.poisoned = false → ∃ taken lost, t.ReadsOnce taken lost) ∧
        (t.before.decoder.poisoned = true → t.Refused) ∧
        Conserved source.remaining r.capacity (before ++ [t]) t.after) ∧
      ∀ before t after, r.turns uses = before ++ t :: after →
        ∃ reads more, r.reads uses = reads ++ more ∧
          Turn.handed (before ++ [t]) = Turn.handed reads ∧
          Conserved source.remaining r.capacity reads t.after := by
  obtain ⟨hreachable, hready, hheld, rfl⟩ := reachable_of_new h
  have hconserved : ∀ {turns now}, Recorded r turns now →
      Conserved r.source.remaining r.capacity turns now := by
    intro turns now hrecorded
    have hall := hrecorded.conserved hready
    rw [hheld, List.nil_append] at hall
    exact hall
  refine ⟨⟨?_, fun c => capacity_of_ofConfig⟩, ?_, ?_⟩
  · intro hnew
    rw [hnew]
    exact capacity_new _
  · intro before t after hreads
    obtain ⟨now, hrecorded⟩ := hreachable.recorded_reads uses
    rw [hreads, List.append_cons] at hrecorded
    obtain ⟨middle, hfirst, -⟩ := hrecorded.cut
    obtain rfl := hfirst.eq_after
    obtain ⟨start, hbefore, hlast⟩ := hfirst.cut
    have hcapacity := hbefore.capacity_eq
    cases hlast with
    | @read _ _ _ taken lost ready once others =>
      exact ⟨hcapacity, fun _ => ⟨taken, lost, once⟩,
        fun hpoisoned => absurd hpoisoned ready.not_poisoned, hconserved hfirst⟩
    | refused poisoned refused others =>
      refine ⟨hcapacity, fun hsound => ?_, fun _ => refused, hconserved hfirst⟩
      rw [hsound] at poisoned
      cases poisoned
  · intro before t after hturns
    obtain ⟨reads, more, hsplit, hhanded, hrecorded⟩ := hreachable.reads_of_turns hturns
    exact ⟨reads, more, hsplit, hhanded, hconserved hrecorded⟩

/-- A reader with a buffer of six bytes, which has to wait and then reads an empty frame and a
length that it refuses, with two bytes behind it. -/
theorem no_byte_is_lost_or_invented_refused_length :
    let source := Source.ofItems [.pending, .data [0, 0, 0, 0, 9], .data [0, 0, 0, 5, 6], .data [7]]
    let r := withSettings source ⟨3, 6⟩
    let u : Use := ⟨Array Frame, Sink.collect, #[], fun _ => id, false⟩
    let r₁ : Reader := ⟨⟨[.data [0, 0, 0, 5, 6], .data [7]], 1⟩,
      ⟨.header ⟨1, 9⟩, 3, false, ⟨1, 0, 5, 0⟩⟩, 6⟩
    let r₂ : Reader := ⟨⟨[.data [7]], 2⟩, ⟨.header ⟨4, 9⟩, 3, true, ⟨1, 0, 8, 0⟩⟩, 6⟩
    ofConfig source ⟨3, 6⟩ = .ok r ∧ r.capacity = 6 ∧
      r.turns [u, u] = [⟨r, r₁, [(⟨0, []⟩, .ok ())], .ok (.read (some 1))⟩,
        ⟨r₁, r₂, [], .error (.frameTooLarge 9 3)⟩] ∧
      source.remaining = [0, 0, 0, 0, 9, 0, 0, 0, 5, 6, 7] ∧
      ∃ reads, Conserved [0, 0, 0, 0, 9, 0, 0, 0, 5, 6, 7] 6 reads r₂ ∧
        Turn.handed reads = [⟨0, []⟩] := by
  intro source r u r₁ r₂
  have hnew : ofConfig source ⟨3, 6⟩ = .ok r := rfl
  have hfirst : r.readChunk (fun ms => Prod.map id (u.pause ms)) u.sink.logging ([], u.state) =
      some (r₁, ([(⟨0, []⟩, .ok ())], #[⟨0, []⟩]), .ok (some 1)) := by
    rw [readChunk]
    rfl
  have hsecond : r₁.readChunk (fun ms => Prod.map id (u.pause ms)) u.sink.logging ([], u.state) =
      some (r₂, ([], #[]), .error (.frameTooLarge 9 3)) := by
    rw [readChunk]
    rfl
  have huse₁ : r.use u = some ⟨r, r₁, [(⟨0, []⟩, .ok ())], .ok (.read (some 1))⟩ := by
    rw [use, if_neg (by decide), hfirst]
    rfl
  have huse₂ : r₁.use u = some ⟨r₁, r₂, [], .error (.frameTooLarge 9 3)⟩ := by
    rw [use, if_neg (by decide), hsecond]
    rfl
  have hturns : r.turns [u, u] = [⟨r, r₁, [(⟨0, []⟩, .ok ())], .ok (.read (some 1))⟩,
      ⟨r₁, r₂, [], .error (.frameTooLarge 9 3)⟩] := by
    rw [turns, huse₁]
    dsimp only
    rw [turns, huse₂]
    rfl
  obtain ⟨⟨-, hcapacity⟩, -, huses⟩ := no_byte_is_lost_or_invented source (.inr ⟨_, hnew⟩) [u, u]
  obtain ⟨reads, -, -, hhanded, hconserved⟩ := huses [_] _ [] hturns
  exact ⟨hnew, hcapacity _ hnew, hturns, rfl, reads, hconserved, hhanded.symm⟩

end Reader

end PrefixFraming
