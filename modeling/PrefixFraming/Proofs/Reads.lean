import PrefixFraming.Proofs.Poisoning

/-!
# Reading to the end is reading again and again

`Reader.run` is defined by reading on until the next wait. Here it is taken apart into single reads:
as long as a read brings frames or parts of frames the run goes on behind it, and any other answer
ends it (`run_of_readChunk`). So all that a sequence of uses does to a reader are single reads, one
after the other (`Reader.reads`), also if some of the uses are runs, and each use shows what its
reads show together (`use_comprises`). A use that waits forever shows nothing of its own, but its
reads before that wait are among them. Readers that uses lead to are reachable (`Reachable.use`).
-/

namespace PrefixFraming

variable {σ τ : Type}

namespace Reader

/-! ## One run -/

/-- A run goes on behind a try at a read that waits or brings something. -/
theorem run_of_attempt (pause : ℕ → σ → σ) (r : Reader) (sink : Sink σ) (s : σ) :
    r.run pause sink s =
      match r.attempt sink s with
      | .done r' s' (.ok (some _)) => r'.run pause sink s'
      | .done r' s' (.ok none) => (r', s', some (.ok r'.decoder.stats))
      | .done r' s' (.error e) => (r', s', some (.error e))
      | .later ms r' s' => r'.run pause sink (pause ms s')
      | .never r' s' => (r', s', none) := by
  rw [run, advance]
  rcases r.attempt sink s with ⟨r', s', e | _ | n⟩ | ⟨ms, r', s'⟩ | ⟨r', s'⟩
  · rfl
  · rfl
  · exact (run.eq_1 pause r' sink s').symm
  · rfl
  · rfl

/-- A run goes on behind a read that brings something. It ends with any other answer, and never if
the read never ends. -/
theorem run_of_readChunk (pause : ℕ → σ → σ) (r : Reader) (sink : Sink σ) (s : σ) :
    match r.readChunk pause sink s with
    | some (r', s', .ok (some _)) => r.run pause sink s = r'.run pause sink s'
    | some (r', s', .ok none) => r.run pause sink s = (r', s', some (.ok r'.decoder.stats))
    | some (r', s', .error e) => r.run pause sink s = (r', s', some (.error e))
    | none => (r.run pause sink s).2.2 = none := by
  fun_induction readChunk pause r sink s with
  | case1 r s r' s' result hdone =>
    have hrun := run_of_attempt pause r sink s
    rw [hdone] at hrun
    rcases result with e | _ | n <;> exact hrun
  | case2 r s ms r' s' hlater ih =>
    -- The wait does not show, neither in the read nor in the run.
    have hrun := run_of_attempt pause r sink s
    rw [hlater] at hrun
    rw [hrun]
    exact ih
  | case3 r s r' s' hnever => rw [run_of_attempt, hnever]

/-- A run for a part of a state is a part of the run, if the waits are. -/
theorem run_mapSink {view : τ → σ} {whole : Sink τ} {part : Sink σ} {pause : ℕ → τ → τ}
    {pausePart : ℕ → σ → σ} (h : Sink.Projects view whole part)
    (hpause : ∀ ms t, view (pause ms t) = pausePart ms (view t)) (r : Reader) (t : τ) :
    r.run pausePart part (view t) =
      ((r.run pause whole t).1, view (r.run pause whole t).2.1, (r.run pause whole t).2.2) := by
  have hadvance := advance_mapSink h r t
  fun_induction run pause r whole t with
  | case1 r t r' t' result hreached =>
    rw [hreached, Progress.mapSink] at hadvance
    rw [run, hadvance]
  | case2 r t r' t' ms hreached ih =>
    rw [hreached, Progress.mapSink] at hadvance
    rw [run, hadvance]
    dsimp only
    rw [← hpause]
    exact ih (advance_mapSink h r' (pause ms t'))
  | case3 r t r' t' hreached =>
    rw [hreached, Progress.mapSink] at hadvance
    rw [run, hadvance]

/-- Earlier entries of the log of a run only stand before later ones. -/
theorem run_logging_append (pause : ℕ → σ → σ) (r : Reader) (sink : Sink σ) (log : Sink.Log)
    (s : σ) :
    let ended := r.run (fun ms => Prod.map id (pause ms)) sink.logging ([], s)
    r.run (fun ms => Prod.map id (pause ms)) sink.logging (log, s) =
      (ended.1, (log ++ ended.2.1.1, ended.2.1.2), ended.2.2) := by
  have hview : Sink.Projects (Prod.map (log ++ ·) id) sink.logging sink.logging := by
    intro t f
    simp [Sink.logging]
  have hpause : ∀ ms (t : Sink.Log × σ), Prod.map (log ++ ·) id (Prod.map id (pause ms) t) =
      Prod.map id (pause ms) (Prod.map (log ++ ·) id t) := fun _ _ => rfl
  have hrun := run_mapSink hview hpause r ([], s)
  simpa only [Prod.map, List.append_nil, id] using hrun

/-! ## The reads of a use -/

/-- A read that goes on to the decoder leaves less in the source, whatever the waits before it. -/
theorem size_lt_of_readChunk {pause : ℕ → σ → σ} {r r' : Reader} {sink : Sink σ} {s s' : σ} {n : ℕ}
    (h : r.readChunk pause sink s = some (r', s', .ok (some n))) :
    r'.source.size < r.source.size := by
  fun_induction readChunk pause r sink s with
  | case1 r s r₁ s₁ result hdone =>
    cases h
    exact size_lt_of_attempt_done hdone
  | case2 r s ms r₁ s₁ hlater ih => exact (ih h).trans (size_lt_of_attempt_later hlater)
  | case3 => cases h

/-- What single reads show, one after the other: one read, or as many as a run makes, which ends
with the first that brings nothing or fails. A read that waits forever shows nothing. -/
def readsOf (pause : ℕ → σ → σ) (sink : Sink σ) (toEnd : Bool) (r : Reader) (s : σ) :
    List (Turn Reader (Option ℕ)) :=
  match _read : r.readChunk (fun ms => Prod.map id (pause ms)) sink.logging ([], s) with
  | some (r', (log, s'), .ok (some n)) =>
    ⟨r, r', log, .ok (some n)⟩ :: if toEnd then readsOf pause sink toEnd r' s' else []
  | some (r', (log, _), .ok none) => [⟨r, r', log, .ok none⟩]
  | some (r', (log, _), .error e) => [⟨r, r', log, .error e⟩]
  | none => []
termination_by r.source.size
decreasing_by exact size_lt_of_readChunk _read

/-- What the single reads of a sequence of uses show, one after the other. -/
def reads (r : Reader) : List Use → List (Turn Reader (Option ℕ))
  | [] => []
  | u :: uses =>
    r.readsOf u.pause u.sink u.toEnd u.state ++
      match r.use u with
      | some t => t.after.reads uses
      | none => []

/-- A use shows together what its reads show one after the other: the log is theirs, it leaves the
reader as the last of them leaves it, and it returns what that one returns. -/
structure Comprises (u : Use) (t : Turn Reader Reply)
    (earlier : List (Turn Reader (Option ℕ))) (last : Turn Reader (Option ℕ)) : Prop where
  /-- The sink is asked what it is asked in the reads. -/
  log : t.log = (earlier ++ [last]).flatMap Turn.log
  /-- The last read is the end of it. -/
  after : t.after = last.after
  /-- A single read is answered as such, and a run with the totals at its end. -/
  result : t.result =
    last.result.map fun n => if u.toEnd then .finished last.after.decoder.stats else .read n
  /-- Only a run makes several reads, and it goes on only behind those that bring something. -/
  goesOn : ∀ t ∈ earlier, u.toEnd = true ∧ ∃ n, t.result = .ok (some n)

/-- A run that ends is its reads. -/
theorem run_comprises {u : Use} (htoEnd : u.toEnd = true) {r r' : Reader} {t : Sink.Log × u.State}
    (s : u.State) {result : Except Error Stats}
    (h : r.run (fun ms => Prod.map id (u.pause ms)) u.sink.logging ([], s) =
      (r', t, some result)) :
    ∃ earlier last, r.readsOf u.pause u.sink true s = earlier ++ [last] ∧
      Comprises u ⟨r, r', t.1, result.map .finished⟩ earlier last := by
  have hrun := run_of_readChunk (fun ms => Prod.map id (u.pause ms)) r u.sink.logging ([], s)
  fun_induction readsOf u.pause u.sink true r s generalizing t with
  | case1 r s r₁ log s₁ n hread ih =>
    rw [hread] at hrun
    -- The rest of the run writes its log behind that of the first read.
    have hrest := run_logging_append u.pause r₁ u.sink log s₁
    rw [hrun] at h
    rw [h] at hrest
    dsimp only at hrest
    generalize hended : r₁.run (fun ms => Prod.map id (u.pause ms)) u.sink.logging ([], s₁) = ended
      at hrest
    obtain ⟨r₂, t₂, result₂⟩ := ended
    cases hrest
    obtain ⟨earlier, last, hreads, hall⟩ := ih hended
      (run_of_readChunk (fun ms => Prod.map id (u.pause ms)) r₁ u.sink.logging ([], s₁))
    refine ⟨⟨r, r₁, log, .ok (some n)⟩ :: earlier, last, ?_, ?_, hall.after, hall.result, ?_⟩
    · rw [if_pos rfl, hreads, List.cons_append]
    · rw [List.cons_append, List.flatMap_cons, ← hall.log]
    · exact List.forall_mem_cons.mpr ⟨⟨htoEnd, n, rfl⟩, hall.goesOn⟩
  | case2 r s r₁ log s₁ hread =>
    rw [hread] at hrun
    rw [hrun] at h
    cases h
    refine ⟨[], _, rfl, ?_, rfl, ?_, List.forall_mem_nil _⟩
    · rw [List.nil_append, List.flatMap_singleton]
    · rw [htoEnd]
      rfl
  | case3 r s r₁ log s₁ e hread =>
    rw [hread] at hrun
    rw [hrun] at h
    cases h
    refine ⟨[], _, rfl, ?_, rfl, rfl, List.forall_mem_nil _⟩
    rw [List.nil_append, List.flatMap_singleton]
  | case4 r s hread =>
    rw [hread, h] at hrun
    cases hrun

/-- A single read that ends is its own only read. -/
theorem read_comprises {u : Use} (htoEnd : u.toEnd = false) {r r' : Reader} {t : Sink.Log × u.State}
    {s : u.State} {result : Except Error (Option ℕ)}
    (h : r.readChunk (fun ms => Prod.map id (u.pause ms)) u.sink.logging ([], s) =
      some (r', t, result)) :
    r.readsOf u.pause u.sink false s = [⟨r, r', t.1, result⟩] ∧
      Comprises u ⟨r, r', t.1, result.map .read⟩ [] ⟨r, r', t.1, result⟩ := by
  constructor
  · rw [readsOf]
    -- In each case the answer is the one that is given.
    split <;> rename_i hread <;> rw [h] at hread <;> cases hread <;> rfl
  · refine ⟨?_, rfl, ?_, List.forall_mem_nil _⟩
    · rw [List.nil_append, List.flatMap_singleton]
    · rw [htoEnd]
      rfl

/-- A use that ends comprises its reads. -/
theorem use_comprises {u : Use} {r : Reader} {t : Turn Reader Reply} (h : r.use u = some t) :
    ∃ earlier last, r.readsOf u.pause u.sink u.toEnd u.state = earlier ++ [last] ∧
      Comprises u t earlier last := by
  rw [use] at h
  split_ifs at h with htoEnd
  · split at h
    · rename_i hrun
      cases h
      rw [htoEnd]
      exact run_comprises htoEnd u.state hrun
    · cases h
  · split at h
    · rename_i hread
      cases h
      rw [Bool.not_eq_true] at htoEnd
      obtain ⟨hreads, hcomprises⟩ := read_comprises htoEnd hread
      rw [htoEnd]
      exact ⟨[], _, hreads, hcomprises⟩
    · cases h

/-- A use that ends leads from reachable readers to reachable ones. -/
theorem Reachable.use {r : Reader} (hr : r.Reachable) {u : Use} {t : Turn Reader Reply}
    (h : r.use u = some t) : t.after.Reachable := by
  have hended := hr.run (fun ms => Prod.map id (u.pause ms)) u.sink.logging ([], u.state)
  rw [Reader.use] at h
  split_ifs at h
  · split at h
    · rename_i hrun
      cases h
      rw [hrun] at hended
      exact hended
    · cases h
  · split at h
    · rename_i hread
      cases h
      exact hr.readChunk hread
    · cases h

end Reader

end PrefixFraming
