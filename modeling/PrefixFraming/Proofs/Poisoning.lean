import PrefixFraming.Proofs.History
import PrefixFraming.Proofs.Logging

/-!
# A failure is final

A decoder and a reader live through sequences of calls, and a `Turn` is what one call shows. All
sequences have the same shape (`Disciplined`): turns that are in order and leave the decoder as
usable as it was, then at most one turn that fails by itself, and behind it only turns that the
guard of a poisoned decoder refuses.

A poisoned decoder refuses every call without a change, so that an induction over the calls is left
with one question: what one call can make of a decoder that is ready. A feed answers it in
`Ready.turn_inOrder_or_fails`. A read either feeds or meets an end or a failure of the source, which
do not touch the decoder (`Reader.Explained`), and this carries over from one try to a whole use.
-/

namespace PrefixFraming

variable {σ α ρ : Type}

/-! ## Turns -/

/-- What one call shows. -/
structure Turn (α ρ : Type) where
  /-- The state before the call. -/
  before : α
  /-- The state after the call. -/
  after : α
  /-- The frames that the call's sink was offered, with its answers. -/
  log : Sink.Log
  /-- What the call returned. -/
  result : Except Error ρ

namespace Turn

/-- The guard of a poisoned decoder: the call fails, its sink is not asked, and nothing changes. -/
structure Refused (t : Turn α ρ) : Prop where
  /-- The call says that the decoder is poisoned. -/
  result : t.result = .error .poisoned
  /-- The sink is not called. -/
  log : t.log = []
  /-- No part of the state changes. -/
  unchanged : t.after = t.before

/-- At most one turn fails by itself. After all turns before it the decoder is not poisoned; after
it and after all later turns it is, and these are refused. -/
def Disciplined (poisoned : α → Bool) (InOrder Fails : Turn α ρ → Prop) (turns : List (Turn α ρ)) :
    Prop :=
  (∀ t ∈ turns, poisoned t.after = false ∧ InOrder t) ∨
    ∃ before failure after, turns = before ++ failure :: after ∧
      (∀ t ∈ before, poisoned t.after = false ∧ InOrder t) ∧
      (poisoned failure.after = true ∧ Fails failure) ∧
      ∀ t ∈ after, poisoned t.after = true ∧ t.Refused

variable {poisoned : α → Bool} {InOrder Fails : Turn α ρ → Prop}

/-- A turn in order can be put before other turns. -/
theorem Disciplined.cons {t : Turn α ρ} {turns : List (Turn α ρ)}
    (ht : poisoned t.after = false ∧ InOrder t) (h : Disciplined poisoned InOrder Fails turns) :
    Disciplined poisoned InOrder Fails (t :: turns) := by
  rcases h with hall | ⟨before, failure, after, rfl, hbefore, hfailure, hafter⟩
  · exact .inl (List.forall_mem_cons.mpr ⟨ht, hall⟩)
  · exact .inr ⟨t :: before, failure, after, rfl, List.forall_mem_cons.mpr ⟨ht, hbefore⟩, hfailure,
      hafter⟩

/-- A turn that fails can be put before turns that are refused. -/
theorem Disciplined.of_failure {t : Turn α ρ} {turns : List (Turn α ρ)}
    (ht : poisoned t.after = true ∧ Fails t)
    (h : ∀ t ∈ turns, poisoned t.after = true ∧ t.Refused) :
    Disciplined poisoned InOrder Fails (t :: turns) :=
  .inr ⟨[], t, turns, rfl, List.forall_mem_nil _, ht, h⟩

end Turn

/-! ## Decoders -/

/-- The call that a push makes: its sink collects the frames. -/
def Call.pushing (chunk : List UInt8) : Call := ⟨Array Frame, Sink.collect, #[], chunk⟩

namespace Decoder

/-- What one call shows. -/
def turn (d : Decoder) (c : Call) : Turn Decoder ℕ :=
  let fed := d.feed c.sink.logging ([], c.state) c.chunk
  ⟨d, fed.decoder, fed.sink.1, fed.result⟩

/-- What a sequence of calls shows, one call after the other. -/
def turns (d : Decoder) : List Call → List (Turn Decoder ℕ)
  | [] => []
  | c :: calls => d.turn c :: (d.turn c).after.turns calls

/-- The call succeeds, and its sink takes all frames. -/
def InOrder (t : Turn Decoder ℕ) : Prop :=
  (∃ n, t.result = .ok n) ∧ ∀ entry ∈ t.log, entry.2 = .ok ()

/-- The call fails by itself: on a length above the maximum, or with the error of its sink. -/
def Fails (t : Turn Decoder ℕ) : Prop := ∃ e, t.result = .error e ∧ FailedWith t.after t.log e

/-- A push is a call. -/
theorem push_eq_call (d : Decoder) (chunk : List UInt8) :
    d.push chunk =
      ((d.call (.pushing chunk)).decoder,
        (d.call (.pushing chunk)).result.map fun _ => (d.call (.pushing chunk)).sink) := by
  unfold push call Call.pushing
  rcases d.feed Sink.collect #[] chunk with ⟨d', frames, _ | n⟩ <;> rfl

/-- A turn leaves what the call leaves. -/
theorem turn_after (d : Decoder) (c : Call) : (d.turn c).after = (d.call c).decoder := by
  have hplain := feed_mapSink (Sink.logging_projects c.sink) d ([], c.state) c.chunk
  exact (congrArg Fed.decoder hplain).symm

/-- A turn shows the result of the call. -/
theorem turn_result (d : Decoder) (c : Call) : (d.turn c).result = (d.call c).result := by
  have hplain := feed_mapSink (Sink.logging_projects c.sink) d ([], c.state) c.chunk
  exact (congrArg Fed.result hplain).symm

/-- The frames of a turn are those that the call offers its sink. -/
theorem turn_offered (d : Decoder) (c : Call) :
    (d.turn c).log.map Prod.fst = d.offered c.sink c.state c.chunk := by
  have hframes := feed_mapSink (Sink.logging_projects_recording c.sink) d ([], c.state) c.chunk
  exact (congrArg (fun fed => fed.sink.1) hframes).symm

/-- The turns of a sequence of calls can be cut in two. -/
theorem turns_append (d : Decoder) (before after : List Call) :
    d.turns (before ++ after) = d.turns before ++ (d.afterCalls before).turns after := by
  induction before generalizing d with
  | nil => rfl
  | cons c before ih =>
    rw [List.cons_append, turns, turns, ih, turn_after]
    rfl

/-- A call finds a decoder that is ready either usable or broken at its end. -/
theorem Ready.turn_inOrder_or_fails {d : Decoder} (hd : d.Ready) (c : Call) :
    ((d.turn c).after.Ready ∧ InOrder (d.turn c)) ∨
      ((d.turn c).after.poisoned = true ∧ Fails (d.turn c)) := by
  have htakes := hd.takes c.sink.logging ([], c.state) c.chunk
  rcases hresult : (d.feed c.sink.logging ([], c.state) c.chunk).result with e | n
  · obtain ⟨hpoisoned, hfailed⟩ := htakes.failed hresult
    exact .inr ⟨hpoisoned, e, hresult, hfailed⟩
  · have haccepted := htakes.accepted_all hresult (List.forall_mem_nil _)
    exact .inl ⟨(htakes.ok_ready hresult).1, ⟨n, hresult⟩, haccepted⟩

/-- All turns of a poisoned decoder are refused. -/
theorem turns_of_poisoned {d : Decoder} (hd : d.poisoned = true) (calls : List Call) :
    ∀ t ∈ d.turns calls, t.after.poisoned = true ∧ t.Refused := by
  induction calls with
  | nil => exact List.forall_mem_nil _
  | cons c calls ih =>
    have hturn : d.turn c = ⟨d, d, [], .error .poisoned⟩ := by
      rw [turn, feed_of_poisoned hd]
    rw [turns, hturn]
    exact List.forall_mem_cons.mpr ⟨⟨hd, rfl, rfl, rfl⟩, ih⟩

/-- The turns of a decoder that is ready are disciplined. -/
theorem Ready.turns_disciplined {d : Decoder} (hd : d.Ready) (calls : List Call) :
    Turn.Disciplined poisoned InOrder Fails (d.turns calls) := by
  induction calls generalizing d with
  | nil => exact .inl (List.forall_mem_nil _)
  | cons c calls ih =>
    rw [turns]
    rcases hd.turn_inOrder_or_fails c with ⟨hready, hinOrder⟩ | hfails
    · exact .cons ⟨hready.poisoned_eq, hinOrder⟩ (ih hready)
    · exact .of_failure hfails (turns_of_poisoned hfails.1 calls)

end Decoder

/-! ## Readers -/

namespace Reader

/-- One use of a reader: a single read, or reading to the end of the stream. -/
structure Use where
  /-- The states of the sink. -/
  State : Type
  /-- The sink. -/
  sink : Sink State
  /-- The state that the sink is in at the time. -/
  state : State
  /-- What a wait does to the sink's state. -/
  pause : ℕ → State → State
  /-- Whether to read to the end of the stream. -/
  toEnd : Bool

/-- What a use returns when it does not fail. -/
inductive Reply where
  /-- A read delivered so many frames, or none at a clean end of the input. -/
  | read (delivered : Option ℕ)
  /-- The stream came to a clean end with these totals. -/
  | finished (stats : Stats)

/-- What one use shows; nothing if the source makes it wait forever. -/
def use (r : Reader) (u : Use) : Option (Turn Reader Reply) :=
  let pause := fun ms => Prod.map id (u.pause ms)
  if u.toEnd then
    match r.run pause u.sink.logging ([], u.state) with
    | (r', t, some result) => some ⟨r, r', t.1, result.map .finished⟩
    | (_, _, none) => none
  else
    match r.readChunk pause u.sink.logging ([], u.state) with
    | some (r', t, result) => some ⟨r, r', t.1, result.map .read⟩
    | none => none

/-- What a sequence of uses shows, one use after the other. A use that waits forever is the last. -/
def turns (r : Reader) : List Use → List (Turn Reader Reply)
  | [] => []
  | u :: uses =>
    match r.use u with
    | some t => t :: t.after.turns uses
    | none => []

/-- Reading succeeds, also at a clean end, or it ends with a failure of the source or a truncation;
in all cases the sink takes all frames. -/
def Spared (log : Sink.Log) (result : Except Error ρ) : Prop :=
  (∀ entry ∈ log, entry.2 = .ok ()) ∧
    ((∃ reply, result = .ok reply) ∨ (∃ cause, result = .error (.io cause)) ∨
      ∃ buffered, result = .error (.truncatedStream buffered))

/-- The use does the decoder no harm. -/
def InOrder (t : Turn Reader Reply) : Prop := Spared t.log t.result

/-- The use fails by itself: on a length above the maximum, or with the error of its sink. -/
def Fails (t : Turn Reader Reply) : Prop :=
  ∃ e, t.result = .error e ∧ t.after.decoder.FailedWith t.log e

/-- What reading leaves behind is a decoder that is ready, whatever the source did, or one that has
failed by itself. -/
inductive Explained (r : Reader) (log : Sink.Log) : Except Error ρ → Prop where
  /-- The decoder is as usable as before. -/
  | spared {result : Except Error ρ} (ready : r.decoder.Ready) (spared : Spared log result) :
      Explained r log result
  /-- The decoder has failed. -/
  | failed {e : Error} (poisoned : r.decoder.poisoned = true) (why : r.decoder.FailedWith log e) :
      Explained r log (.error e)

/-- How a success is reported does not matter. -/
theorem Explained.map {r : Reader} {log : Sink.Log} {result : Except Error ρ}
    (h : r.Explained log result) (f : ρ → α) : r.Explained log (result.map f) := by
  cases h with
  | spared ready spared =>
    obtain ⟨hlog, ⟨reply, rfl⟩ | ⟨cause, rfl⟩ | ⟨buffered, rfl⟩⟩ := spared
    · exact .spared ready ⟨hlog, .inl ⟨f reply, rfl⟩⟩
    · exact .spared ready ⟨hlog, .inr (.inl ⟨cause, rfl⟩)⟩
    · exact .spared ready ⟨hlog, .inr (.inr ⟨buffered, rfl⟩)⟩
  | failed poisoned why => exact .failed poisoned why

variable {sink : Sink σ} {r : Reader} {t : Sink.Log × σ}

/-- One try at a read. -/
theorem attempt_explained (sink : Sink σ) (hr : r.decoder.Ready)
    (ht : ∀ entry ∈ t.1, entry.2 = .ok ()) :
    match r.attempt sink.logging t with
    | .done r' t' result => r'.Explained t'.1 result
    | .later _ r' t' => r'.decoder.Ready ∧ ∀ entry ∈ t'.1, entry.2 = .ok ()
    | .never _ _ => True := by
  have hattempted := r.attempted sink.logging t
  generalize r.attempt sink.logging t = tried at hattempted ⊢
  cases hattempted with
  | poisoned h =>
    rw [hr.poisoned_eq] at h
    cases h
  | never => trivial
  | later => exact ⟨hr, ht⟩
  | @failure cause => exact .spared hr ⟨ht, .inr (.inl ⟨cause, rfl⟩)⟩
  | clean => exact .spared hr ⟨ht, .inl ⟨none, rfl⟩⟩
  | truncated => exact .spared hr ⟨ht, .inr (.inr ⟨_, rfl⟩)⟩
  | @fed chunk rest n h hread hne hok =>
    have htakes := hr.takes sink.logging t chunk
    exact .spared (htakes.ok_ready hok).1 ⟨htakes.accepted_all hok ht, .inl ⟨some n, rfl⟩⟩
  | @failed chunk rest e h hread hne herror =>
    obtain ⟨hpoisoned, hwhy⟩ := (hr.takes sink.logging t chunk).failed herror
    exact .failed hpoisoned hwhy

/-- A single read, with the waits before it. -/
theorem readChunk_explained {pause : ℕ → Sink.Log × σ → Sink.Log × σ}
    (hpause : ∀ ms t, (pause ms t).1 = t.1) (hr : r.decoder.Ready)
    (ht : ∀ entry ∈ t.1, entry.2 = .ok ()) {r' : Reader} {t' : Sink.Log × σ}
    {result : Except Error (Option ℕ)}
    (h : r.readChunk pause sink.logging t = some (r', t', result)) :
    r'.Explained t'.1 result := by
  have htry := attempt_explained sink hr ht
  fun_induction readChunk pause r sink.logging t with
  | case1 r t r₁ t₁ result₁ hdone =>
    cases h
    rw [hdone] at htry
    exact htry
  | case2 r t ms r₁ t₁ hlater ih =>
    rw [hlater] at htry
    have ht₁ : ∀ entry ∈ (pause ms t₁).1, entry.2 = .ok () := by
      rw [hpause]
      exact htry.2
    exact ih htry.1 ht₁ h (attempt_explained sink htry.1 ht₁)
  | case3 => cases h

/-- Reading on until the first wait. -/
theorem advance_explained (sink : Sink σ) (hr : r.decoder.Ready)
    (ht : ∀ entry ∈ t.1, entry.2 = .ok ()) :
    match r.advance sink.logging t with
    | ⟨r', t', .ended result⟩ => r'.Explained t'.1 result
    | ⟨r', t', .waiting _⟩ => r'.decoder.Ready ∧ ∀ entry ∈ t'.1, entry.2 = .ok ()
    | ⟨_, _, .hanging⟩ => True := by
  have htry := attempt_explained sink hr ht
  fun_induction advance r sink.logging t with
  | case1 r t r' t' n hdone ih =>
    -- The read delivered frames, so the decoder is still ready.
    rw [hdone] at htry
    cases htry with
    | spared ready spared => exact ih ready spared.1 (attempt_explained sink ready spared.1)
  | case2 r t r' t' hdone =>
    rw [hdone] at htry
    cases htry with
    | spared ready spared => exact .spared ready ⟨spared.1, .inl ⟨_, rfl⟩⟩
  | case3 r t r' t' e hdone =>
    rw [hdone] at htry
    cases htry with
    | spared ready spared =>
      obtain ⟨hlog, ⟨reply, ⟨⟩⟩ | hsource⟩ := spared
      refine .spared ready ⟨hlog, .inr ?_⟩
      simpa using hsource
    | failed poisoned why => exact .failed poisoned why
  | case4 r t ms r' t' hlater =>
    rw [hlater] at htry
    exact htry
  | case5 => trivial

/-- Reading to the end of the stream, with all waits. -/
theorem run_explained {pause : ℕ → Sink.Log × σ → Sink.Log × σ}
    (hpause : ∀ ms t, (pause ms t).1 = t.1) (hr : r.decoder.Ready)
    (ht : ∀ entry ∈ t.1, entry.2 = .ok ()) {r' : Reader} {t' : Sink.Log × σ}
    {result : Except Error Stats} (h : r.run pause sink.logging t = (r', t', some result)) :
    r'.Explained t'.1 result := by
  have hadvance := advance_explained sink hr ht
  fun_induction run pause r sink.logging t with
  | case1 r t r₁ t₁ result₁ hreached =>
    cases h
    rw [hreached] at hadvance
    exact hadvance
  | case2 r t r₁ t₁ ms hreached ih =>
    rw [hreached] at hadvance
    have ht₁ : ∀ entry ∈ (pause ms t₁).1, entry.2 = .ok () := by
      rw [hpause]
      exact hadvance.2
    exact ih hadvance.1 ht₁ h (advance_explained sink hadvance.1 ht₁)
  | case3 => cases h

/-- A use finds a reader whose decoder is ready either usable or broken at its end. -/
theorem use_inOrder_or_fails (hr : r.decoder.Ready) {u : Use} {t : Turn Reader Reply}
    (h : r.use u = some t) :
    (t.after.decoder.Ready ∧ InOrder t) ∨ (t.after.decoder.poisoned = true ∧ Fails t) := by
  -- Both kinds of use end in the same way.
  have hexplained : t.after.Explained t.log t.result := by
    rw [use] at h
    have hpause : ∀ ms (t : Sink.Log × u.State), (Prod.map id (u.pause ms) t).1 = t.1 :=
      fun _ _ => rfl
    have hnothing : ∀ entry ∈ (([], u.state) : Sink.Log × u.State).1, entry.2 = .ok () :=
      List.forall_mem_nil _
    split_ifs at h with htoEnd
    · split at h
      · rename_i hrun
        cases h
        exact (run_explained hpause hr hnothing hrun).map _
      · cases h
    · split at h
      · rename_i hread
        cases h
        exact (readChunk_explained hpause hr hnothing hread).map _
      · cases h
  obtain ⟨before, after, log, result⟩ := t
  cases hexplained with
  | spared ready spared => exact .inl ⟨ready, spared⟩
  | failed poisoned why => exact .inr ⟨poisoned, _, rfl, why⟩

/-- A poisoned reader refuses every use, and the source is not asked. -/
theorem use_of_poisoned (h : r.decoder.poisoned = true) (u : Use) :
    r.use u = some ⟨r, r, [], .error .poisoned⟩ := by
  rw [use]
  split_ifs with htoEnd
  · rw [run, advance, attempt_of_poisoned h]
    rfl
  · rw [readChunk, attempt_of_poisoned h]
    rfl

/-- All turns of a poisoned reader are refused, and none is missing. -/
theorem turns_of_poisoned (h : r.decoder.poisoned = true) (uses : List Use) :
    (∀ t ∈ r.turns uses, t.after.decoder.poisoned = true ∧ t.Refused) ∧
      (r.turns uses).length = uses.length := by
  induction uses with
  | nil => exact ⟨List.forall_mem_nil _, rfl⟩
  | cons u uses ih =>
    rw [turns, use_of_poisoned h]
    exact ⟨List.forall_mem_cons.mpr ⟨⟨h, rfl, rfl, rfl⟩, ih.1⟩, congrArg (· + 1) ih.2⟩

/-- The turns of a reader whose decoder is ready are disciplined, and none is missing behind a
failure. -/
theorem turns_disciplined (hr : r.decoder.Ready) (uses : List Use) :
    Turn.Disciplined (·.decoder.poisoned) InOrder Fails (r.turns uses) ∧
      ((∃ t ∈ r.turns uses, t.after.decoder.poisoned = true) →
        (r.turns uses).length = uses.length) := by
  induction uses generalizing r with
  | nil => exact ⟨.inl (List.forall_mem_nil _), fun _ => rfl⟩
  | cons u uses ih =>
    rw [turns]
    rcases huse : r.use u with _ | t
    · refine ⟨.inl (List.forall_mem_nil _), ?_⟩
      rintro ⟨t, hmem, -⟩
      exact absurd hmem List.not_mem_nil
    · rcases use_inOrder_or_fails hr huse with ⟨hready, hinOrder⟩ | hfails
      · obtain ⟨hdisciplined, hlength⟩ := ih hready
        refine ⟨.cons ⟨hready.poisoned_eq, hinOrder⟩ hdisciplined, ?_⟩
        rintro ⟨t', hmem, hpoisoned⟩
        rcases List.mem_cons.mp hmem with rfl | hmem
        · rw [hready.poisoned_eq] at hpoisoned
          cases hpoisoned
        · exact congrArg (· + 1) (hlength ⟨t', hmem, hpoisoned⟩)
      · obtain ⟨hrefused, hlength⟩ := turns_of_poisoned hfails.1 uses
        exact ⟨.of_failure hfails hrefused, fun _ => congrArg (· + 1) hlength⟩

end Reader

/-- A failure is final. In every sequence of calls of a decoder, feeds and pushes alike, at most one
fails by itself, on a length above the maximum or with the error of its sink, even in the middle of
a chunk. The calls before it succeed and leave the decoder unpoisoned; from it on the decoder is
poisoned, and all later calls are refused, without asking a sink and without any change. The same
holds of every reader and its uses, over any source: those before a failure leave the decoder
unpoisoned even if the source fails, ends, or ends inside a frame, and those behind it are all
answered, and refused without touching the source. -/
theorem failure_is_final (max : UInt32) (calls : List Call) (source : Source) (c : Config)
    (uses : List Reader.Use) :
    (Turn.Disciplined Decoder.poisoned Decoder.InOrder Decoder.Fails
        ((Decoder.fresh max).turns calls) ∧
      ∀ (d : Decoder) (chunk : List UInt8), d.push chunk =
        ((d.call (.pushing chunk)).decoder,
          (d.call (.pushing chunk)).result.map fun _ => (d.call (.pushing chunk)).sink)) ∧
      (let turns := (Reader.withSettings source c).turns uses
      Turn.Disciplined (·.decoder.poisoned) Reader.InOrder Reader.Fails turns ∧
        ((∃ t ∈ turns, t.after.decoder.poisoned = true) → turns.length = uses.length)) :=
  ⟨⟨(Decoder.ready_fresh max).turns_disciplined calls, Decoder.push_eq_call⟩,
    Reader.turns_disciplined (Decoder.ready_fresh c.maxFrameSize) uses⟩

end PrefixFraming
