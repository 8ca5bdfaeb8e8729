import PrefixFraming.Decoder
import PrefixFraming.Source

/-!
# Readers

A reader drives a decoder from a source: it takes a read's worth of bytes and feeds them to the
decoder as one chunk. A read without bytes is the end of the stream, which is clean between two
frames and a truncation inside one. Neither an end nor a failure of the source harms the decoder, so
reading may go on after it; a poisoned decoder is never read for.

A source may make the reader wait. `attempt` is one try at a read, which tells of the wait.
`readChunk` and `run` wait as they must, and what waiting does to the world is up to the caller
(`pause`). `advance` reads on until the first wait and hands the reader back, for a caller that has
other things to do meanwhile.
-/

namespace PrefixFraming

/-- A source and the decoder that its bytes go to. -/
structure Reader where
  /-- Where the bytes come from. -/
  source : Source
  /-- Where the bytes go. -/
  decoder : Decoder
  /-- The most bytes that one read may bring. -/
  capacity : Nat
deriving DecidableEq

namespace Reader

/-- A reader with these settings, usable or not. Its read buffer is allocated here. A size that
cannot be allocated ends the program instead, and one of `2 ^ 63` bytes or more always does so, with
a panic. There is no reader then, and what this definition says of such a size means nothing. -/
def withSettings (source : Source) (c : Config) : Reader :=
  ⟨source, .ofConfig c, c.readBufferSize.toNat⟩

/-- A reader with the default settings. -/
def new (source : Source) : Reader := withSettings source .default

/-- A reader with settings that are checked first. The check only asks for a buffer that is not
empty, so here too a size that cannot be allocated is outside of what is described. -/
def ofConfig (source : Source) (c : Config) : Except Error Reader :=
  match c.validate with
  | .error e => .error e
  | .ok () => .ok (withSettings source c)

/-! ## One read -/

/-- What comes of one try at a read. -/
inductive Attempt (σ : Type) where
  /-- The read is over: so many frames were delivered, or `none` for a clean end, or an error. -/
  | done (reader : Reader) (sink : σ) (result : Except Error (Option Nat))
  /-- The source is not ready before some milliseconds have passed. -/
  | later (ms : Nat) (reader : Reader) (sink : σ)
  /-- The source is never ready again. -/
  | never (reader : Reader) (sink : σ)

/-- What a read without bytes means to a decoder. -/
def endOfInput (d : Decoder) : Except Error (Option Nat) :=
  if d.isIdle then .ok none else .error (.truncatedStream d.buffered)

/-- Tries to read once and to feed what the read brings. -/
def attempt {σ : Type} (r : Reader) (sink : Sink σ) (s : σ) : Attempt σ :=
  match r with
  | ⟨source, decoder, capacity⟩ =>
    if decoder.poisoned then .done ⟨source, decoder, capacity⟩ s (.error .poisoned)
    else
      match source.poll capacity with
      | .never => .never ⟨source, decoder, capacity⟩ s
      | .later ms source => .later ms ⟨source, decoder, capacity⟩ s
      | .ready (.error cause) source => .done ⟨source, decoder, capacity⟩ s (.error (.io cause))
      | .ready (.ok []) source => .done ⟨source, decoder, capacity⟩ s (endOfInput decoder)
      | .ready (.ok (b :: chunk)) source =>
        match decoder.feed sink s (b :: chunk) with
        | ⟨decoder, s, .ok delivered⟩ => .done ⟨source, decoder, capacity⟩ s (.ok (some delivered))
        | ⟨decoder, s, .error e⟩ => .done ⟨source, decoder, capacity⟩ s (.error e)

/-- A read that goes on to the decoder leaves less in the source. -/
theorem size_lt_of_attempt_done {σ : Type} {r r' : Reader} {sink : Sink σ} {s s' : σ} {n : Nat}
    (h : r.attempt sink s = .done r' s' (.ok (some n))) : r'.source.size < r.source.size := by
  obtain ⟨source, decoder, capacity⟩ := r
  simp only [attempt] at h
  split at h
  · cases h
  · split at h
    · cases h
    · cases h
    · cases h
    · simp only [Attempt.done.injEq, endOfInput] at h
      split at h <;> simp at h
    · rename_i hpoll
      split at h
      · cases h
        exact Source.size_lt_of_poll_ready hpoll (List.cons_ne_nil _ _)
      · cases h

/-- A delay leaves less in the source. -/
theorem size_lt_of_attempt_later {σ : Type} {r r' : Reader} {sink : Sink σ} {s s' : σ} {ms : Nat}
    (h : r.attempt sink s = .later ms r' s') : r'.source.size < r.source.size := by
  obtain ⟨source, decoder, capacity⟩ := r
  simp only [attempt] at h
  split at h
  · cases h
  · split at h
    · cases h
    · rename_i hpoll
      cases h
      exact Source.size_lt_of_poll_later hpoll
    · cases h
    · cases h
    · split at h <;> cases h

/-! ## Reading on until the first wait -/

/-- Why a reader stops for now or for good. -/
inductive Standing where
  /-- The stream has ended cleanly with these totals, or an error has ended it. -/
  | ended (result : Except Error Stats)
  /-- The source is not ready before some milliseconds have passed. -/
  | waiting (ms : Nat)
  /-- The source is never ready again. -/
  | hanging

/-- Where reading on has led. -/
structure Progress (σ : Type) where
  /-- The reader afterwards. -/
  reader : Reader
  /-- The sink's state afterwards. -/
  sink : σ
  /-- Why the reader stopped. -/
  standing : Standing

/-- Reads until the stream ends or the source makes the reader wait. -/
def advance {σ : Type} (r : Reader) (sink : Sink σ) (s : σ) : Progress σ :=
  match _try : r.attempt sink s with
  | .done r s (.ok (some _)) => advance r sink s
  | .done r s (.ok none) => ⟨r, s, .ended (.ok r.decoder.stats)⟩
  | .done r s (.error e) => ⟨r, s, .ended (.error e)⟩
  | .later ms r s => ⟨r, s, .waiting ms⟩
  | .never r s => ⟨r, s, .hanging⟩
termination_by r.source.size
decreasing_by exact size_lt_of_attempt_done _try

/-- A wait takes something away from the source, however far the reader came before it. -/
theorem size_advance_lt {σ : Type} {r : Reader} {sink : Sink σ} {s : σ} {ms : Nat}
    (h : (r.advance sink s).standing = .waiting ms) :
    (r.advance sink s).reader.source.size < r.source.size := by
  fun_induction advance r sink s with
  | case1 r s r' s' n hdone ih => exact Nat.lt_trans (ih h) (size_lt_of_attempt_done hdone)
  | case2 => cases h
  | case3 => cases h
  | case4 r s ms r' s' hlater => exact size_lt_of_attempt_later hlater
  | case5 => cases h

/-! ## Reading with waits -/

/-- Reads once, waiting first as long as the source demands; `none` if that is forever. `pause` says
what a wait does to the state that the sink works on. -/
def readChunk {σ : Type} (pause : Nat → σ → σ) (r : Reader) (sink : Sink σ) (s : σ) :
    Option (Reader × σ × Except Error (Option Nat)) :=
  match _try : r.attempt sink s with
  | .done r s result => some (r, s, result)
  | .later ms r s => readChunk pause r sink (pause ms s)
  | .never _ _ => none
termination_by r.source.size
decreasing_by exact size_lt_of_attempt_later _try

/-- Reads to the end of the stream or to the first error, waiting as the source demands; the result
is `none` if the source makes the reader wait forever. -/
def run {σ : Type} (pause : Nat → σ → σ) (r : Reader) (sink : Sink σ) (s : σ) :
    Reader × σ × Option (Except Error Stats) :=
  match _reached : r.advance sink s with
  | ⟨r', s', .ended result⟩ => (r', s', some result)
  | ⟨r', s', .waiting ms⟩ => run pause r' sink (pause ms s')
  | ⟨r', s', .hanging⟩ => (r', s', none)
termination_by r.source.size
decreasing_by
  have hlt := @size_advance_lt _ r sink s ms
  simpa [_reached] using hlt

end Reader

end PrefixFraming
