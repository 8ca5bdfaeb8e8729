import PrefixFraming.Proofs.Parsing
import PrefixFraming.Proofs.Poisoning

/-!
# The shapes of a decoder

Between two calls a decoder has one of four shapes. It waits for the rest of a length prefix or for
the rest of a payload, and then it always lacks something; or it has failed, behind a prefix that it
refuses or behind a frame that the sink refused. A feed completes what it can before it returns and
before it fails, so no other shape is left behind, and the four exclude each other.

The shapes of a decoder that is ready and of one that has failed are read off from `Ready` and
`Failed`, which cover every decoder that feeds and pushes can produce. That nothing complete is held
back is read off from the parser, which finds no payload in the bytes held.
-/

namespace PrefixFraming

namespace Decoder

variable {σ : Type}

/-! ## Feeds and pushes -/

/-- Something that is done to a decoder. -/
inductive Operation where
  /-- A chunk is fed, with a sink in any state. -/
  | feed (c : Call)
  /-- A chunk is fed and its frames are collected. -/
  | push (chunk : List UInt8)

/-- What an operation leaves behind. -/
def operate (d : Decoder) : Operation → Decoder
  | .feed c => (d.feed c.sink c.state c.chunk).decoder
  | .push chunk => (d.push chunk).1

/-- What a sequence of operations leaves behind, of which some may have failed. -/
def operateAll (d : Decoder) (operations : List Operation) : Decoder :=
  operations.foldl operate d

/-- The call that an operation makes. -/
def Operation.call : Operation → Call
  | .feed c => c
  | .push chunk => .pushing chunk

/-- An operation is a call. -/
theorem operate_eq_call (d : Decoder) (operation : Operation) :
    d.operate operation = (d.call operation.call).decoder := by
  cases operation with
  | feed c => rfl
  | push chunk => exact congrArg Prod.fst (d.push_eq_call chunk)

/-- A sequence of operations is a sequence of calls. -/
theorem operateAll_eq_afterCalls (d : Decoder) (operations : List Operation) :
    d.operateAll operations = d.afterCalls (operations.map Operation.call) := by
  induction operations generalizing d with
  | nil => rfl
  | cons operation operations ih =>
    have hrest := ih (d.operate operation)
    rw [operate_eq_call] at hrest
    rw [operateAll, List.foldl_cons, operate_eq_call]
    exact hrest

/-! ## The maximum -/

/-- A feed leaves the maximum alone. -/
theorem Takes.maxFrameSize_eq {sink : Sink σ} {d : Decoder} {s : σ} {chunk : List UInt8}
    {frames : List Frame} {fed : Fed σ} (h : Takes sink d s chunk frames fed) :
    fed.decoder.maxFrameSize = d.maxFrameSize := by
  induction h with
  | nil => rfl
  | kept ready held more ih => exact ih
  | accepted ready wire allowed taken more ih => exact ih
  | refused => rfl
  | rejected => rfl

/-- A sequence of calls leaves the maximum alone. -/
theorem Ready.maxFrameSize_afterCalls {d : Decoder} (hd : d.Ready) (calls : List Call) :
    (d.afterCalls calls).maxFrameSize = d.maxFrameSize := by
  induction calls generalizing d with
  | nil => rfl
  | cons c calls ih =>
    have htakes : Takes c.sink d c.state c.chunk (d.offered c.sink c.state c.chunk) (d.call c) :=
      hd.takes c.sink c.state c.chunk
    have hfirst := htakes.maxFrameSize_eq
    rw [afterCalls]
    rcases hresult : (d.call c).result with e | n
    · rw [afterCalls_of_poisoned (htakes.error_failed hresult).poisoned_eq, hfirst]
    · rw [ih (htakes.ok_ready hresult).1, hfirst]

/-! ## Shapes -/

/-- What a decoder can look like between two calls. -/
inductive Shape where
  /-- It waits for the rest of a length prefix, or for the first byte of one. -/
  | inPrefix
  /-- It waits for the rest of a payload. -/
  | inPayload
  /-- It has refused a length prefix. -/
  | rejected
  /-- Its sink has refused a frame. -/
  | refused
deriving DecidableEq

/-- The decoder looks like that. -/
def Fits (d : Decoder) : Shape → Prop
  | .inPrefix =>
    d.poisoned = false ∧ ∃ p, d.phase = .header p ∧ p.collected ≤ 3 ∧
      p.accumulated.toNat < 256 ^ p.collected
  | .inPayload =>
    d.poisoned = false ∧ ∃ declared filled, d.phase = .body declared filled ∧
      filled.size < declared.toNat ∧ declared ≤ d.maxFrameSize
  | .rejected =>
    d.poisoned = true ∧ ∃ p, d.phase = .header p ∧ p.collected = 4 ∧
      d.maxFrameSize < p.accumulated
  | .refused => d.poisoned = true ∧ d.phase = .header ⟨0, 0⟩

/-- The only shape that the flag and the phase of a decoder leave open. -/
def likelyShape (d : Decoder) : Shape :=
  match d.poisoned, d.phase with
  | false, .header _ => .inPrefix
  | false, .body _ _ => .inPayload
  | true, _ => if d.isIdle then .refused else .rejected

/-- A decoder has no other shape than the one that its flag and its phase leave open. -/
theorem Fits.eq_likelyShape {d : Decoder} {shape : Shape} (h : d.Fits shape) :
    shape = d.likelyShape := by
  cases shape with
  | inPrefix =>
    obtain ⟨hflag, p, hphase, -⟩ := h
    rw [likelyShape, hflag, hphase]
  | inPayload =>
    obtain ⟨hflag, declared, filled, hphase, -⟩ := h
    rw [likelyShape, hflag, hphase]
  | rejected =>
    obtain ⟨hflag, p, hphase, hcollected, -⟩ := h
    simp [likelyShape, hflag, isIdle, hphase, hcollected]
  | refused =>
    obtain ⟨hflag, hphase⟩ := h
    simp [likelyShape, hflag, isIdle, hphase]

/-- A decoder with a shape has exactly one. -/
theorem Fits.existsUnique {d : Decoder} {shape : Shape} (h : d.Fits shape) :
    ∃! shape, d.Fits shape :=
  ⟨shape, h, fun _ h' => h'.eq_likelyShape.trans h.eq_likelyShape.symm⟩

/-- A decoder that is ready has one of the first two shapes. -/
theorem Ready.fits {d : Decoder} (hd : d.Ready) : d.Fits .inPrefix ∨ d.Fits .inPayload := by
  cases hd with
  | @header p max stats placed free =>
    exact .inl ⟨rfl, p, rfl, Nat.le_of_lt_succ free, placed.accumulated_lt⟩
  | @body declared max filled stats lacking allowed =>
    exact .inr ⟨rfl, declared, filled, rfl, lacking, allowed⟩

/-- A decoder that has failed has one of the last two shapes. -/
theorem Failed.fits {d : Decoder} (hd : d.Failed) : d.Fits .rejected ∨ d.Fits .refused := by
  cases hd with
  | @rejected declared max stats exceeds =>
    exact .inl ⟨rfl, .whole declared, rfl, rfl, exceeds⟩
  | refused => exact .inr ⟨rfl, rfl⟩

/-! ## What the shapes exclude -/

/-- What is held is not a whole frame, with or without more behind it. -/
def HoldsNoFrame (d : Decoder) : Prop :=
  ∀ payload rest, payload.length ≤ d.maxFrameSize.toNat → d.held ≠ Frame.wire payload ++ rest

/-- If the parser finds no payload in the bytes held, there is none. -/
theorem holdsNoFrame_of_parse {d : Decoder}
    (h : (Stream.parse d.maxFrameSize d.held).payloads = []) : d.HoldsNoFrame := by
  intro payload rest hallowed hheld
  rw [hheld, Stream.parse_wire_append hallowed] at h
  cases h

/-- A decoder that has failed holds nothing that the parser takes for a payload. -/
theorem Failed.parse_held {d : Decoder} (hd : d.Failed) :
    (Stream.parse d.maxFrameSize d.held).payloads = [] := by
  cases hd with
  | @rejected declared max stats exceeds =>
    have hbytes : LengthPrefix.Partial.bytes (.whole declared) =
        LengthPrefix.encode declared ++ [] := by
      rw [LengthPrefix.Partial.bytes_of_complete rfl, List.append_nil]
      rfl
    dsimp only [held]
    rw [hbytes, Stream.parse_encode_append, if_pos exceeds]
  | refused =>
    dsimp only [held]
    rw [Stream.parse_of_short (by decide)]

/-- What holds of a decoder with the maximum `max` between two calls. -/
structure Represented (max : UInt32) (d : Decoder) : Prop where
  /-- It has exactly one of the four shapes. -/
  shape : ∃! shape, d.Fits shape
  /-- An idle decoder has nothing left in its accumulator. -/
  idle : d.isIdle = true → d.phase = .header ⟨0, 0⟩
  /-- No frame is held that could be delivered. -/
  delivered : d.HoldsNoFrame ∧ d.takeCompleted = (d, none)
  /-- A payload in progress is one whose length is accepted. -/
  allowed : ∀ declared filled, d.phase = .body declared filled → declared ≤ max
  /-- A frame that is shown as pending is not empty and not too long. -/
  pending : ∀ n, d.pending? = some n → 1 ≤ n ∧ n ≤ max
  /-- A poisoned decoder has no pending frame. -/
  poisoned : d.poisoned = true → d.pending? = none
  /-- The maximum is the one that the decoder was made with. -/
  maximum : d.maxFrameSize = max

/-- A decoder that is ready is represented properly. -/
theorem Ready.represented {d : Decoder} (hd : d.Ready) : Represented d.maxFrameSize d where
  shape := hd.fits.elim Fits.existsUnique Fits.existsUnique
  idle hidle := by
    cases hd with
    | header placed free => rw [placed.eq_empty (of_decide_eq_true hidle)]; rfl
    | body => cases hidle
  delivered := ⟨holdsNoFrame_of_parse hd.parse_held.1, hd.takeCompleted_eq⟩
  allowed declared filled hphase := by
    cases hd with
    | header => cases hphase
    | body lacking allowed =>
      cases hphase
      exact allowed
  pending n hpending := by
    cases hd with
    | header => cases hpending
    | body lacking allowed =>
      cases hpending
      exact ⟨UInt32.le_iff_toNat_le.mpr (Nat.zero_lt_of_lt lacking), allowed⟩
  poisoned hpoisoned := by
    rw [hd.poisoned_eq] at hpoisoned
    cases hpoisoned
  maximum := rfl

/-- A decoder that has failed is represented properly. -/
theorem Failed.represented {d : Decoder} (hd : d.Failed) : Represented d.maxFrameSize d where
  shape := hd.fits.elim Fits.existsUnique Fits.existsUnique
  idle hidle := by
    cases hd with
    | rejected => cases hidle
    | refused => rfl
  delivered := by
    refine ⟨holdsNoFrame_of_parse hd.parse_held, ?_⟩
    cases hd <;> rfl
  allowed declared filled hphase := by cases hd <;> cases hphase
  pending n hpending := by cases hd <;> cases hpending
  poisoned _ := by cases hd <;> rfl
  maximum := rfl

/-- A decoder keeps its representation. Make one with any maximum, by itself or from a
configuration, and feed it and push to it as often as you like, with chunks and sinks that can be
different each time. Afterwards it has exactly one of the four shapes: it lacks a byte of a length
prefix, with an accumulator that has no digits beyond those that have arrived; or it lacks a byte of
a payload whose length is accepted; or it is poisoned behind the four bytes of a length above the
maximum; or it is poisoned, idle, and empty. So no frame is ever held back, no length above the
maximum comes to a payload, a pending frame has a length from 1 to the maximum, a poisoned decoder
has none, and the maximum stays what it was. -/
theorem represented_operateAll (max : UInt32) (c : Config) (operations : List Operation) :
    Represented max ((fresh max).operateAll operations) ∧
      Represented c.maxFrameSize ((ofConfig c).operateAll operations) := by
  have hfresh : ∀ max, Represented max ((fresh max).operateAll operations) := by
    intro max
    have hmax : ((fresh max).afterCalls (operations.map Operation.call)).maxFrameSize = max :=
      (ready_fresh max).maxFrameSize_afterCalls _
    have hafter := (ready_fresh max).afterCalls_ready_or_failed (operations.map Operation.call)
    rw [operateAll_eq_afterCalls]
    generalize (fresh max).afterCalls (operations.map Operation.call) = d at hmax hafter
    subst hmax
    exact hafter.elim Ready.represented Failed.represented
  exact ⟨hfresh max, hfresh c.maxFrameSize⟩

end Decoder

end PrefixFraming
