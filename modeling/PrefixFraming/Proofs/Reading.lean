import PrefixFraming.Reader
import PrefixFraming.Proofs.Chunking

/-!
# Reading is feeding

A reader that runs to its end takes what its source brings in many reads, with waits between them.
All that matters of it is the `stretch` of the source: its bytes up to the first end, and the
failure that the end consists in if it is one. What a run comes to is the `outcome`: the stretch fed
in one go, and then the conclusion that the end calls for.

Each read takes a chunk off the head of the stretch (`Source.stretch_of_poll`), and a chunk can be
fed before the rest (`outcome_of_chunk_ok`), so that the outcome is an invariant of the tries at a
read (`Working.attempt_outcome`), and by induction of `advance` and of `run`. The waits do not show
in it, because the items that only make a reader wait are not part of a stretch.

The invariant needs a reader that can go on (`Working`), and every reachable reader is one until its
decoder is poisoned or its source hangs.
-/

namespace PrefixFraming

variable {σ τ : Type}

namespace Source

/-! ## What a source brings up to an end -/

/-- What a source brings up to its first end: all the bytes, and the failure that the end consists
in if it is one. -/
structure Stretch where
  /-- The bytes, in order. -/
  bytes : List UInt8
  /-- The failure, or `none` for the end of the input. -/
  failure? : Option IoError

/-- The stretch at the head of some items. A data item without bytes is an end of the input, and so
is the end of the items. Items that only make a reader wait are passed over. -/
def stretch : List Item → Stretch
  | [] => ⟨[], none⟩
  | .data [] :: _ => ⟨[], none⟩
  | .data (b :: bytes) :: rest => ⟨b :: bytes ++ (stretch rest).bytes, (stretch rest).failure?⟩
  | .failure cause :: _ => ⟨[], some cause⟩
  | .pending :: rest => stretch rest
  | .delay _ :: rest => stretch rest
  | .hang :: rest => stretch rest

/-- A data item with bytes goes before what follows it. -/
theorem stretch_data {bytes : List UInt8} (h : bytes ≠ []) (rest : List Item) :
    stretch (.data bytes :: rest) =
      ⟨bytes ++ (stretch rest).bytes, (stretch rest).failure?⟩ := by
  cases bytes with
  | nil => exact absurd rfl h
  | cons b bytes => rw [stretch]

/-- What one read says about the stretch that it reads from, if the source never hangs. -/
theorem stretch_of_poll {capacity : ℕ} (hcapacity : 0 < capacity) (s : Source)
    (hhang : Item.hang ∉ s.items) :
    match s.poll capacity with
    | .ready (.ok []) rest => stretch s.items = ⟨[], none⟩ ∧ Item.hang ∉ rest.items
    | .ready (.ok (b :: chunk)) rest =>
      stretch s.items = ⟨b :: chunk ++ (stretch rest.items).bytes, (stretch rest.items).failure?⟩ ∧
        Item.hang ∉ rest.items
    | .ready (.error cause) rest => stretch s.items = ⟨[], some cause⟩ ∧ Item.hang ∉ rest.items
    | .later _ rest => stretch s.items = stretch rest.items ∧ Item.hang ∉ rest.items
    | .never => False := by
  obtain ⟨items, reads⟩ := s
  simp only [poll] at hhang ⊢
  fun_induction pollItems capacity reads items with
  | case1 => exact ⟨rfl, List.not_mem_nil⟩
  | case2 bytes more hdrop =>
    have hmore : Item.hang ∉ more := fun h => hhang (List.mem_cons_of_mem _ h)
    cases bytes with
    | nil => exact ⟨rfl, hmore⟩
    | cons b bytes => exact ⟨rfl, hmore⟩
  | case3 bytes more hdrop =>
    -- The item is cut; both parts hold bytes, since the buffer has room and the item has more.
    have hmore : Item.hang ∉ more := fun h => hhang (List.mem_cons_of_mem _ h)
    have hleft : bytes.drop capacity ≠ [] := fun h => hdrop h
    have hbytes : bytes ≠ [] := by
      rintro rfl
      exact hleft List.drop_nil
    have htake : bytes.take capacity ≠ [] := by
      rw [Ne, List.take_eq_nil_iff]
      rintro (h | h)
      · omega
      · exact hbytes h
    obtain ⟨b, chunk, hchunk⟩ := List.exists_cons_of_ne_nil htake
    rw [hchunk]
    refine ⟨?_, ?_⟩
    · rw [stretch_data hleft, ← hchunk, ← List.append_assoc, List.take_append_drop]
      exact stretch_data hbytes more
    · simpa using hmore
  | case4 cause more => exact ⟨rfl, fun h => hhang (List.mem_cons_of_mem _ h)⟩
  | case5 more ih => exact ih fun h => hhang (List.mem_cons_of_mem _ h)
  | case6 more ih => exact ih fun h => hhang (List.mem_cons_of_mem _ h)
  | case7 ms more => exact ⟨rfl, fun h => hhang (List.mem_cons_of_mem _ h)⟩
  | case8 more => exact hhang List.mem_cons_self

end Source

namespace Reader

/-! ## What reading comes to -/

/-- Where reading a stretch to its end leaves the decoder and the sink, and what it returns. -/
structure Outcome (σ : Type) where
  /-- The decoder afterwards. -/
  decoder : Decoder
  /-- The sink's state afterwards. -/
  sink : σ
  /-- The totals, or the error that ended the reading. -/
  result : Except Error Stats

/-- How reading ends behind the last byte: with the source's failure, or with the end of the input,
which is clean between two frames and truncates the stream inside one. -/
def conclusion (d : Decoder) : Option IoError → Except Error Stats
  | some cause => .error (.io cause)
  | none => if d.isIdle then .ok d.stats else .error (.truncatedStream d.buffered)

/-- Feeds the bytes of a stretch at once and ends as the stretch does, unless the feed fails. -/
def outcome (d : Decoder) (sink : Sink σ) (s : σ) (stretch : Source.Stretch) : Outcome σ :=
  let fed := d.feed sink s stretch.bytes
  ⟨fed.decoder, fed.sink,
    match fed.result with
    | .error e => .error e
    | .ok _ => conclusion fed.decoder stretch.failure?⟩

/-- At an end of the stretch there is nothing to feed. -/
theorem outcome_of_end {d : Decoder} (hd : d.Ready) (sink : Sink σ) (s : σ)
    (failure? : Option IoError) :
    outcome d sink s ⟨[], failure?⟩ = ⟨d, s, conclusion d failure?⟩ := by
  rw [outcome, hd.feed_nil]

/-- A chunk at the head of the stretch that is fed without a failure can be fed beforehand. -/
theorem outcome_of_chunk_ok {d : Decoder} (hd : d.Ready) {sink : Sink σ} {s : σ}
    {chunk : List UInt8} {n : ℕ} (hok : (d.feed sink s chunk).result = .ok n)
    (bytes : List UInt8) (failure? : Option IoError) :
    outcome d sink s ⟨chunk ++ bytes, failure?⟩ =
      outcome (d.feed sink s chunk).decoder sink (d.feed sink s chunk).sink ⟨bytes, failure?⟩ := by
  simp only [outcome]
  rw [hd.feed_append, Decoder.Fed.andThen_of_ok hok, Decoder.Fed.after]
  rcases ((d.feed sink s chunk).decoder.feed sink (d.feed sink s chunk).sink bytes).result <;> rfl

/-- A chunk at the head of the stretch that fails ends the reading. -/
theorem outcome_of_chunk_error {d : Decoder} (hd : d.Ready) {sink : Sink σ} {s : σ}
    {chunk : List UInt8} {e : Error} (herror : (d.feed sink s chunk).result = .error e)
    (bytes : List UInt8) (failure? : Option IoError) :
    outcome d sink s ⟨chunk ++ bytes, failure?⟩ =
      ⟨(d.feed sink s chunk).decoder, (d.feed sink s chunk).sink, .error e⟩ := by
  simp only [outcome]
  rw [hd.feed_append, Decoder.Fed.andThen_of_error herror, herror]

/-- The outcome for a part of a state is a part of the outcome. -/
theorem outcome_mapSink {view : τ → σ} {whole : Sink τ} {part : Sink σ}
    (h : Sink.Projects view whole part) (d : Decoder) (t : τ) (stretch : Source.Stretch) :
    outcome d part (view t) stretch =
      ⟨(outcome d whole t stretch).decoder, view (outcome d whole t stretch).sink,
        (outcome d whole t stretch).result⟩ := by
  simp only [outcome, Decoder.feed_mapSink h, Decoder.Fed.mapSink]

/-- With a sink that writes down its frames the outcome has these frames besides. -/
theorem outcome_recording (d : Decoder) (sink : Sink σ) (s : σ) (stretch : Source.Stretch) :
    outcome d sink.recording ([], s) stretch =
      ⟨(outcome d sink s stretch).decoder,
        (d.offered sink s stretch.bytes, (outcome d sink s stretch).sink),
        (outcome d sink s stretch).result⟩ := by
  simp only [outcome, Decoder.feed_recording, List.nil_append]

/-! ## Reading to the end -/

/-- The reader can go on: its decoder is ready, its buffer has room, and its source never hangs. -/
structure Working (r : Reader) : Prop where
  /-- The decoder is ready for the next byte. -/
  ready : r.decoder.Ready
  /-- A read can bring a byte. -/
  capacity_pos : 0 < r.capacity
  /-- The source never makes the reader wait forever. -/
  noHang : Source.Item.hang ∉ r.source.items

/-- The stretch of the source that the reader is at. -/
def stretch (r : Reader) : Source.Stretch := Source.stretch r.source.items

/-- What one try at a read can be. -/
inductive Attempted (sink : Sink σ) (r : Reader) (s : σ) : Attempt σ → Prop where
  /-- A poisoned decoder is not read for. -/
  | poisoned (h : r.decoder.poisoned = true) : Attempted sink r s (.done r s (.error .poisoned))
  /-- The source is never ready again. -/
  | never (h : r.decoder.poisoned = false) (hread : r.source.poll r.capacity = .never) :
      Attempted sink r s (.never r s)
  /-- The source is not ready yet. -/
  | later {ms : ℕ} {rest : Source} (h : r.decoder.poisoned = false)
      (hread : r.source.poll r.capacity = .later ms rest) :
      Attempted sink r s (.later ms { r with source := rest } s)
  /-- The read fails. -/
  | failure {cause : IoError} {rest : Source} (h : r.decoder.poisoned = false)
      (hread : r.source.poll r.capacity = .ready (.error cause) rest) :
      Attempted sink r s (.done { r with source := rest } s (.error (.io cause)))
  /-- The read brings nothing between two frames. -/
  | clean {rest : Source} (h : r.decoder.poisoned = false)
      (hread : r.source.poll r.capacity = .ready (.ok []) rest) (hidle : r.decoder.isIdle = true) :
      Attempted sink r s (.done { r with source := rest } s (.ok none))
  /-- The read brings nothing inside a frame. -/
  | truncated {rest : Source} (h : r.decoder.poisoned = false)
      (hread : r.source.poll r.capacity = .ready (.ok []) rest) (hidle : r.decoder.isIdle = false) :
      Attempted sink r s
        (.done { r with source := rest } s (.error (.truncatedStream r.decoder.buffered)))
  /-- The read brings a chunk, which is fed. -/
  | fed {chunk : List UInt8} {rest : Source} {n : ℕ} (h : r.decoder.poisoned = false)
      (hread : r.source.poll r.capacity = .ready (.ok chunk) rest) (hne : chunk ≠ [])
      (hok : (r.decoder.feed sink s chunk).result = .ok n) :
      Attempted sink r s
        (.done ⟨rest, (r.decoder.feed sink s chunk).decoder, r.capacity⟩
          (r.decoder.feed sink s chunk).sink (.ok (some n)))
  /-- The read brings a chunk, and feeding it fails. -/
  | failed {chunk : List UInt8} {rest : Source} {e : Error} (h : r.decoder.poisoned = false)
      (hread : r.source.poll r.capacity = .ready (.ok chunk) rest) (hne : chunk ≠ [])
      (herror : (r.decoder.feed sink s chunk).result = .error e) :
      Attempted sink r s
        (.done ⟨rest, (r.decoder.feed sink s chunk).decoder, r.capacity⟩
          (r.decoder.feed sink s chunk).sink (.error e))

/-- Every try at a read is one of these. -/
theorem attempted (r : Reader) (sink : Sink σ) (s : σ) :
    Attempted sink r s (r.attempt sink s) := by
  obtain ⟨source, d, capacity⟩ := r
  rw [attempt]
  split_ifs with hpoisoned
  · exact .poisoned hpoisoned
  · have h : d.poisoned = false := Bool.eq_false_iff.mpr hpoisoned
    split
    · rename_i hread
      exact .never h hread
    · rename_i hread
      exact .later h hread
    · rename_i hread
      exact .failure h hread
    · rename_i hread
      rw [endOfInput]
      split_ifs with hidle
      · exact .clean h hread hidle
      · exact .truncated h hread (Bool.eq_false_iff.mpr hidle)
    · -- A chunk with bytes is fed, and the feed decides.
      rename_i b chunk rest hread
      have hne : b :: chunk ≠ [] := List.cons_ne_nil _ _
      rcases hfed : d.feed sink s (b :: chunk) with ⟨d', s', e | n⟩
      · have hfailed : Attempted sink ⟨source, d, capacity⟩ s
            (.done ⟨rest, (d.feed sink s (b :: chunk)).decoder, capacity⟩
              (d.feed sink s (b :: chunk)).sink (.error e)) :=
          .failed h hread hne (by rw [hfed])
        rw [hfed] at hfailed
        exact hfailed
      · have hdone : Attempted sink ⟨source, d, capacity⟩ s
            (.done ⟨rest, (d.feed sink s (b :: chunk)).decoder, capacity⟩
              (d.feed sink s (b :: chunk)).sink (.ok (some n))) :=
          .fed h hread hne (by rw [hfed])
        rw [hfed] at hdone
        exact hdone

/-- A try at a read of a poisoned reader is over at once, and the source is not asked. -/
theorem attempt_of_poisoned {r : Reader} (h : r.decoder.poisoned = true) (sink : Sink σ) (s : σ) :
    r.attempt sink s = .done r s (.error .poisoned) := by
  rw [attempt, if_pos h]

/-- One try at a read keeps what the reading comes to, whatever the sink. -/
theorem Working.attempt_outcome {r : Reader} (hr : r.Working) (sink : Sink σ) (s : σ) :
    match r.attempt sink s with
    | .done r' s' (.ok (some _)) =>
      r'.Working ∧ outcome r.decoder sink s r.stretch = outcome r'.decoder sink s' r'.stretch
    | .done r' s' (.ok none) =>
      outcome r.decoder sink s r.stretch = ⟨r'.decoder, s', .ok r'.decoder.stats⟩
    | .done r' s' (.error e) => outcome r.decoder sink s r.stretch = ⟨r'.decoder, s', .error e⟩
    | .later _ r' s' =>
      r'.Working ∧ outcome r.decoder sink s r.stretch = outcome r'.decoder sink s' r'.stretch
    | .never _ _ => False := by
  have hpoll := Source.stretch_of_poll hr.capacity_pos r.source hr.noHang
  have hattempted := r.attempted sink s
  generalize r.attempt sink s = tried at hattempted ⊢
  -- Every way for the try to end, against what the read says about the stretch.
  cases hattempted with
  | poisoned h =>
    rw [hr.ready.poisoned_eq] at h
    cases h
  | never h hread =>
    rw [hread] at hpoll
    exact hpoll
  | later h hread =>
    rw [hread] at hpoll
    obtain ⟨hstretch, hhang⟩ := hpoll
    exact ⟨⟨hr.ready, hr.capacity_pos, hhang⟩, by rw [stretch, stretch, hstretch]⟩
  | failure h hread =>
    rw [hread] at hpoll
    dsimp only
    rw [stretch, hpoll.1, outcome_of_end hr.ready, conclusion]
  | clean h hread hidle =>
    rw [hread] at hpoll
    dsimp only
    rw [stretch, hpoll.1, outcome_of_end hr.ready, conclusion, if_pos hidle]
  | truncated h hread hidle =>
    rw [hread] at hpoll
    dsimp only
    rw [stretch, hpoll.1, outcome_of_end hr.ready, conclusion, if_neg (by simp [hidle])]
  | @fed chunk rest n h hread hne hok =>
    -- The chunk comes off the head of the stretch and can be fed beforehand.
    obtain ⟨b, chunk, rfl⟩ := List.exists_cons_of_ne_nil hne
    rw [hread] at hpoll
    obtain ⟨hstretch, hhang⟩ := hpoll
    have hready := ((hr.ready.takes sink s (b :: chunk)).ok_ready hok).1
    refine ⟨⟨hready, hr.capacity_pos, hhang⟩, ?_⟩
    rw [stretch, hstretch, outcome_of_chunk_ok hr.ready hok, stretch]
  | @failed chunk rest e h hread hne herror =>
    obtain ⟨b, chunk, rfl⟩ := List.exists_cons_of_ne_nil hne
    rw [hread] at hpoll
    dsimp only
    rw [stretch, hpoll.1, outcome_of_chunk_error hr.ready herror]

/-- Reading on until the first wait keeps what the reading comes to. -/
theorem Working.advance_outcome {r : Reader} (hr : r.Working) (sink : Sink σ) (s : σ) :
    match r.advance sink s with
    | ⟨r', s', .ended result⟩ =>
      outcome r.decoder sink s r.stretch = ⟨r'.decoder, s', result⟩
    | ⟨r', s', .waiting _⟩ =>
      r'.Working ∧ outcome r.decoder sink s r.stretch = outcome r'.decoder sink s' r'.stretch
    | ⟨_, _, .hanging⟩ => False := by
  have hstep := hr.attempt_outcome sink s
  fun_induction advance r sink s with
  | case1 r s r' s' n hdone ih =>
    -- The read brought a chunk, and what is left comes to the same.
    rw [hdone] at hstep
    obtain ⟨hr', hsame⟩ := hstep
    rw [hsame]
    exact ih hr' (hr'.attempt_outcome sink s')
  | case2 r s r' s' hdone =>
    rw [hdone] at hstep
    exact hstep
  | case3 r s r' s' e hdone =>
    rw [hdone] at hstep
    exact hstep
  | case4 r s ms r' s' hlater =>
    rw [hlater] at hstep
    exact hstep
  | case5 r s r' s' hnever =>
    rw [hnever] at hstep
    exact hstep

/-- A run comes to what feeding the stretch at once comes to, for the part of the state that the
sink works on. The waits may change the rest of the state as they like. -/
theorem Working.run_outcome {view : τ → σ} {whole : Sink τ} {part : Sink σ}
    (hview : Sink.Projects view whole part) (pause : ℕ → τ → τ)
    (hpause : ∀ ms t, view (pause ms t) = view t) {r : Reader} (hr : r.Working) (t : τ) :
    let o := outcome r.decoder part (view t) r.stretch
    (r.run pause whole t).1.decoder = o.decoder ∧ view (r.run pause whole t).2.1 = o.sink ∧
      (r.run pause whole t).2.2 = some o.result := by
  have hadvance := hr.advance_outcome whole t
  fun_induction run pause r whole t with
  | case1 r t r' t' result hreached =>
    rw [hreached] at hadvance
    rw [outcome_mapSink hview, hadvance]
    exact ⟨rfl, rfl, rfl⟩
  | case2 r t r' t' ms hreached ih =>
    -- The wait leaves the part that the sink works on alone.
    rw [hreached] at hadvance
    obtain ⟨hr', hsame⟩ := hadvance
    rw [outcome_mapSink hview, hsame, ← outcome_mapSink hview, ← hpause ms t']
    exact ih hr' (hr'.advance_outcome whole _)
  | case3 r t r' t' hreached =>
    rw [hreached] at hadvance
    exact hadvance.elim

/-! ## Readers that can come about -/

/-- The readers that can come about: fresh ones whose buffer has room, and what tries at reads make
of them, with a sink that can be another each time and in any state. A try that is over and a try
that has to wait both leave a reader behind, so a read that is given up while it waits is covered
too. -/
inductive Reachable : Reader → Prop where
  /-- A reader with the default settings. -/
  | new (source : Source) : Reachable (new source)
  /-- A reader with settings that pass the check. -/
  | ofConfig {source : Source} {c : Config} {r : Reader} (h : ofConfig source c = .ok r) :
      Reachable r
  /-- What a try that is over leaves behind. -/
  | done {σ : Type} {r r' : Reader} {sink : Sink σ} {s s' : σ}
      {result : Except Error (Option ℕ)} (hr : Reachable r)
      (h : r.attempt sink s = .done r' s' result) : Reachable r'
  /-- What a try that has to wait leaves behind. -/
  | later {σ : Type} {r r' : Reader} {sink : Sink σ} {s s' : σ} {ms : ℕ} (hr : Reachable r)
      (h : r.attempt sink s = .later ms r' s') : Reachable r'

/-- Reading once leads from reachable readers to reachable ones. -/
theorem Reachable.readChunk {pause : ℕ → σ → σ} {r r' : Reader} {sink : Sink σ} {s s' : σ}
    {result : Except Error (Option ℕ)} (hr : r.Reachable)
    (h : r.readChunk pause sink s = some (r', s', result)) : r'.Reachable := by
  fun_induction Reader.readChunk pause r sink s with
  | case1 r s r₁ s₁ result₁ hdone =>
    cases h
    exact hr.done hdone
  | case2 r s ms r₁ s₁ hlater ih => exact ih (hr.later hlater) h
  | case3 => cases h

/-- Reading on until the first wait leads from reachable readers to reachable ones. -/
theorem Reachable.advance {r : Reader} (hr : r.Reachable) (sink : Sink σ) (s : σ) :
    (r.advance sink s).reader.Reachable := by
  fun_induction Reader.advance r sink s with
  | case1 r s r' s' n hdone ih => exact ih (hr.done hdone)
  | case2 r s r' s' hdone => exact hr.done hdone
  | case3 r s r' s' e hdone => exact hr.done hdone
  | case4 r s ms r' s' hlater => exact hr.later hlater
  | case5 r s r' s' hnever =>
    have hattempted := r.attempted sink s
    rw [hnever] at hattempted
    cases hattempted
    exact hr

/-- Reading to the end leads from reachable readers to reachable ones. -/
theorem Reachable.run {r : Reader} (hr : r.Reachable) (pause : ℕ → σ → σ) (sink : Sink σ) (s : σ) :
    (r.run pause sink s).1.Reachable := by
  have hadvance := hr.advance sink s
  fun_induction Reader.run pause r sink s with
  | case1 r s r' s' result hreached =>
    rw [hreached] at hadvance
    exact hadvance
  | case2 r s r' s' ms hreached ih =>
    rw [hreached] at hadvance
    exact ih hadvance (hadvance.advance sink _)
  | case3 r s r' s' hreached =>
    rw [hreached] at hadvance
    exact hadvance

/-- A fresh reader whose buffer has room is reachable. -/
theorem reachable_withSettings (source : Source) (c : Config) (h : c.readBufferSize ≠ 0) :
    (withSettings source c).Reachable := by
  have hvalid : ofConfig source c = .ok (withSettings source c) := by
    rw [ofConfig, Config.validate, if_neg h]
  exact .ofConfig hvalid

/-- Settings that pass the check leave room in the buffer. -/
theorem capacity_pos_of_ofConfig {source : Source} {c : Config} {r : Reader}
    (h : ofConfig source c = .ok r) : r = withSettings source c ∧ 0 < r.capacity := by
  rw [Reader.ofConfig, Config.validate] at h
  split_ifs at h with hzero
  cases h
  refine ⟨rfl, Nat.pos_of_ne_zero fun hsize => hzero ?_⟩
  exact UInt64.toNat_inj.mp hsize

/-- A read of a new reader can bring as many bytes as the default size of the read buffer. -/
theorem capacity_new (source : Source) :
    (new source).capacity = Config.default.readBufferSize.toNat := rfl

/-- A read can bring as many bytes as the checked settings give the read buffer. -/
theorem capacity_of_ofConfig {source : Source} {c : Config} {r : Reader}
    (h : ofConfig source c = .ok r) : r.capacity = c.readBufferSize.toNat := by
  obtain ⟨rfl, -⟩ := capacity_pos_of_ofConfig h
  rfl

/-- The decoder of a reachable reader is reachable, and there is room in its buffer. -/
theorem Reachable.decoder_and_capacity {r : Reader} (hr : r.Reachable) :
    r.decoder.Reachable ∧ 0 < r.capacity := by
  induction hr with
  | new source => exact ⟨.fresh _, Nat.succ_pos _⟩
  | ofConfig h =>
    obtain ⟨rfl, hcapacity⟩ := capacity_pos_of_ofConfig h
    exact ⟨.fresh _, hcapacity⟩
  | @done σ r r' sink s s' result hr h ih =>
    have hattempted := r.attempted sink s
    rw [h] at hattempted
    cases hattempted with
    | fed => exact ⟨ih.1.feed _ _ _, ih.2⟩
    | failed => exact ⟨ih.1.feed _ _ _, ih.2⟩
    | _ => exact ih
  | @later σ r r' sink s s' ms hr h ih =>
    have hattempted := r.attempted sink s
    rw [h] at hattempted
    cases hattempted
    exact ih

/-- A reachable reader that is not poisoned and whose source never hangs can go on. -/
theorem Reachable.working {r : Reader} (hr : r.Reachable) (h : r.decoder.poisoned = false)
    (hhang : Source.Item.hang ∉ r.source.items) : r.Working :=
  ⟨hr.decoder_and_capacity.1.ready h, hr.decoder_and_capacity.2, hhang⟩

/-- Running a reader is one feed of what its source brings up to the next end. The sink is offered
the same frames in the same states, the decoder is left the same, and the run returns the feed's
error if there is one; otherwise it returns the failure that the end consists in, or the totals if
the end of the input comes between two frames, or a truncation with the number of bytes held.
Whatever the waits do to the world, they do nothing else. Hence the size of the buffer, the items
that the bytes come in, and the waits between them make no difference. -/
theorem run_refines_feed {ω : Type} {r : Reader} (hr : r.Reachable)
    (hpoisoned : r.decoder.poisoned = false) (hhang : Source.Item.hang ∉ r.source.items)
    (sink : Sink σ) (s : σ) (pause : ℕ → ω → ω) (w : ω) :
    let fed := r.decoder.feed sink s r.stretch.bytes
    let ended := r.run (fun ms => Prod.map (pause ms) id) sink.recording.onSecond (w, [], s)
    (ended.1.decoder = fed.decoder ∧
      ended.2.1.2 = (r.decoder.offered sink s r.stretch.bytes, fed.sink) ∧
      ended.2.2 = some
        (match fed.result, r.stretch.failure? with
        | .error e, _ => .error e
        | .ok _, some cause => .error (.io cause)
        | .ok _, none =>
          if fed.decoder.isIdle then .ok fed.decoder.stats
          else .error (.truncatedStream fed.decoder.buffered))) ∧
    ∀ {ω' : Type} (r' : Reader) (pause' : ℕ → ω' → ω') (w' : ω'), r'.Reachable →
      Source.Item.hang ∉ r'.source.items → r'.decoder = r.decoder → r'.stretch = r.stretch →
        let ended' := r'.run (fun ms => Prod.map (pause' ms) id) sink.recording.onSecond (w', [], s)
        ended'.1.decoder = ended.1.decoder ∧ ended'.2.1.2 = ended.2.1.2 ∧
          ended'.2.2 = ended.2.2 := by
  intro fed ended
  have hrun := (hr.working hpoisoned hhang).run_outcome sink.recording.onSecond_projects
    (fun ms => Prod.map (pause ms) id) (fun _ _ => rfl) (w, [], s)
  obtain ⟨hdecoder, hsink, hresult⟩ := hrun
  refine ⟨?_, ?_⟩
  · -- What the run comes to, with the notes of the recording sink split off.
    rw [outcome_recording] at hdecoder hsink hresult
    refine ⟨hdecoder, hsink, hresult.trans (congrArg some ?_)⟩
    simp only [outcome, fed]
    rcases (r.decoder.feed sink s r.stretch.bytes).result with e | n
    · rfl
    · rcases r.stretch.failure? with _ | cause <;> rfl
  · -- The outcome mentions nothing of a reader but its decoder and its stretch.
    intro ω' r' pause' w' hr' hhang' hsame hstretch ended'
    have hrun' := (hr'.working (hsame ▸ hpoisoned) hhang').run_outcome
      sink.recording.onSecond_projects (fun ms => Prod.map (pause' ms) id) (fun _ _ => rfl)
      (w', [], s)
    rw [hsame, hstretch] at hrun'
    obtain ⟨hdecoder', hsink', hresult'⟩ := hrun'
    exact ⟨hdecoder'.trans hdecoder.symm, hsink'.trans hsink.symm, hresult'.trans hresult.symm⟩

/-- A reader with a buffer of two bytes that stands inside a length prefix, in front of a source
that makes it wait twice and ends inside the second frame, and one that gets the same bytes at once.
-/
theorem run_refines_feed_mid_prefix :
    let d := ((Decoder.fresh 4).feed Sink.collect #[] [1, 0]).decoder
    let slow : Reader := ⟨⟨[.pending, .data [0, 0, 7, 2, 0], .delay 30, .data [0, 0, 9], .data [],
      .failure ⟨.other, none⟩], 1⟩, d, 2⟩
    let fast : Reader := ⟨⟨[.data [0, 0, 7, 2, 0, 0, 0, 9]], 1⟩, d, 100⟩
    let sink := Sink.collectUpTo 1 .sinkClosed
    let slowly := slow.run (fun ms => Prod.map (· + ms) id) sink.recording.onSecond (0, [], #[])
    let quickly := fast.run (fun ms => Prod.map (· + ms) id) sink.recording.onSecond (0, [], #[])
    slow.Reachable ∧ d.poisoned = false ∧ Source.Item.hang ∉ slow.source.items ∧ fast.Reachable ∧
      Source.Item.hang ∉ fast.source.items ∧ fast.stretch = slow.stretch ∧
      slowly.1.decoder = (d.feed sink #[] [0, 0, 7, 2, 0, 0, 0, 9]).decoder ∧
      slowly.2.1.2 = ([⟨0, [7]⟩], #[⟨0, [7]⟩]) ∧
      slowly.2.2 = some (.error (.truncatedStream 1)) ∧ quickly.2.2 = slowly.2.2 := by
  intro d slow fast sink slowly quickly
  have hread : (withSettings (.ofItems (.data [1, 0] :: slow.source.items)) ⟨4, 2⟩).attempt
      Sink.collect #[] = .done slow #[] (.ok (some 0)) := rfl
  have hread' : (withSettings (.ofItems (.data [1, 0] :: fast.source.items)) ⟨4, 100⟩).attempt
      Sink.collect #[] = .done fast #[] (.ok (some 0)) := rfl
  have hslow : slow.Reachable := (reachable_withSettings _ _ (by decide)).done hread
  have hfast : fast.Reachable := (reachable_withSettings _ _ (by decide)).done hread'
  have hhang : Source.Item.hang ∉ slow.source.items := by decide
  have hhang' : Source.Item.hang ∉ fast.source.items := by decide
  obtain ⟨⟨hdecoder, hsink, hresult⟩, hindependent⟩ :=
    run_refines_feed hslow rfl hhang sink #[] (fun ms n => n + ms) 0
  have hsame := hindependent fast (fun ms n => n + ms) 0 hfast hhang' rfl rfl
  exact ⟨hslow, rfl, hhang, hfast, hhang', rfl, hdecoder, hsink, hresult, hsame.2.2⟩

end Reader

end PrefixFraming
