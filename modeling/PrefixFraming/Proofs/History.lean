import PrefixFraming.Proofs.Feeding

/-!
# What can become of a decoder

A decoder lives through a sequence of calls (`Call`): each feeds it a chunk, with a sink that can be
another each time and in any state. The decoders that such a sequence can produce are `Reachable`.
Every one of them is ready for the next byte or has failed for good (`Reachable.ready_or_failed`): a
feed takes a decoder that is ready to one that is ready if it succeeds and to one that has failed if
it does not, and a decoder that has failed is never changed again.
-/

namespace PrefixFraming

/-- One feed: a chunk, and the sink that gets its frames. -/
structure Call where
  /-- The states of the sink. -/
  State : Type
  /-- The sink. -/
  sink : Sink State
  /-- The state that the sink is in at the time. -/
  state : State
  /-- The bytes to be fed. -/
  chunk : List UInt8

namespace Decoder

variable {σ : Type}

/-! ## Decoders that have failed -/

/-- The decoder is poisoned: it stopped behind a length prefix that it refuses, or between two
frames of which the sink refused the first. -/
inductive Failed : Decoder → Prop where
  /-- The last length exceeds the maximum. -/
  | rejected {declared max : UInt32} {stats : Stats} (exceeds : max < declared) :
      Failed ⟨.header (.whole declared), max, true, stats⟩
  /-- The sink refused the last frame. -/
  | refused {max : UInt32} {stats : Stats} : Failed ⟨.idle, max, true, stats⟩

/-- A decoder that has failed is poisoned. -/
theorem Failed.poisoned_eq {d : Decoder} (hd : d.Failed) : d.poisoned = true := by
  cases hd <;> rfl

/-- A feed that succeeds leaves the decoder ready and counts the frames that it offered. -/
theorem Takes.ok_ready {sink : Sink σ} {d : Decoder} {s : σ} {chunk : List UInt8}
    {frames : List Frame} {fed : Fed σ} (h : Takes sink d s chunk frames fed) {n : ℕ}
    (hok : fed.result = .ok n) : fed.decoder.Ready ∧ n = frames.length := by
  induction h generalizing n with
  | nil ready =>
    cases hok
    exact ⟨ready, rfl⟩
  | kept ready held more ih => exact ih hok
  | accepted ready wire allowed taken more ih =>
    obtain ⟨k, hk, rfl⟩ := Fed.after_eq_ok_iff.mp hok
    obtain ⟨hready, rfl⟩ := ih hk
    exact ⟨hready, Nat.add_comm _ _⟩
  | refused => cases hok
  | rejected => cases hok

/-- A feed that fails leaves the decoder failed. -/
theorem Takes.error_failed {sink : Sink σ} {d : Decoder} {s : σ} {chunk : List UInt8}
    {frames : List Frame} {fed : Fed σ} (h : Takes sink d s chunk frames fed) {e : Error}
    (herror : fed.result = .error e) : fed.decoder.Failed := by
  induction h with
  | nil => cases herror
  | kept ready held more ih => exact ih herror
  | accepted ready wire allowed taken more ih => exact ih (Fed.after_eq_error_iff.mp herror)
  | refused => exact .refused
  | rejected ready wire exceeds => exact .rejected exceeds

/-! ## Sequences of calls -/

/-- Makes one call. -/
def call (d : Decoder) (c : Call) : Fed c.State := d.feed c.sink c.state c.chunk

/-- The decoder after a sequence of calls, of which some may have failed. -/
def afterCalls (d : Decoder) : List Call → Decoder
  | [] => d
  | c :: calls => (d.call c).decoder.afterCalls calls

/-- Some sequence of calls takes a fresh decoder to this one. -/
def Reachable (d : Decoder) : Prop := ∃ max calls, d = (fresh max).afterCalls calls

/-- A sequence of calls can be cut in two. -/
theorem afterCalls_append (d : Decoder) (before after : List Call) :
    d.afterCalls (before ++ after) = (d.afterCalls before).afterCalls after := by
  induction before generalizing d with
  | nil => rfl
  | cons c before ih => exact ih _

/-- A fresh decoder is reachable. -/
theorem Reachable.fresh (max : UInt32) : (fresh max).Reachable := ⟨max, [], rfl⟩

/-- What a feed makes of a reachable decoder is reachable. -/
theorem Reachable.feed {d : Decoder} (hd : d.Reachable) (sink : Sink σ) (s : σ)
    (chunk : List UInt8) : (d.feed sink s chunk).decoder.Reachable := by
  obtain ⟨max, calls, rfl⟩ := hd
  have hlast := afterCalls_append (Decoder.fresh max) calls [⟨σ, sink, s, chunk⟩]
  exact ⟨max, _, hlast.symm⟩

/-- What calls make of a reachable decoder is reachable. -/
theorem Reachable.afterCalls {d : Decoder} (hd : d.Reachable) (calls : List Call) :
    (d.afterCalls calls).Reachable := by
  induction calls generalizing d with
  | nil => exact hd
  | cons c calls ih => exact ih (hd.feed c.sink c.state c.chunk)

/-- A fresh decoder is ready. -/
theorem ready_fresh (max : UInt32) : (fresh max).Ready := ready_idle max .zero

/-- A poisoned decoder outlives any calls unchanged. -/
theorem afterCalls_of_poisoned {d : Decoder} (hd : d.poisoned = true) (calls : List Call) :
    d.afterCalls calls = d := by
  induction calls with
  | nil => rfl
  | cons c calls ih => rw [afterCalls, call, feed_of_poisoned hd, ih]

/-- Calls leave a decoder that is ready either ready or failed. -/
theorem Ready.afterCalls_ready_or_failed {d : Decoder} (hd : d.Ready) (calls : List Call) :
    (d.afterCalls calls).Ready ∨ (d.afterCalls calls).Failed := by
  induction calls generalizing d with
  | nil => exact .inl hd
  | cons c calls ih =>
    have htakes := hd.takes c.sink c.state c.chunk
    rw [afterCalls, call]
    rcases hresult : (d.feed c.sink c.state c.chunk).result with e | n
    · -- A failure is final, whatever calls follow.
      have hfailed := htakes.error_failed hresult
      rw [afterCalls_of_poisoned hfailed.poisoned_eq]
      exact .inr hfailed
    · exact ih (htakes.ok_ready hresult).1

/-- A reachable decoder is ready for the next byte or has failed for good. -/
theorem Reachable.ready_or_failed {d : Decoder} (hd : d.Reachable) : d.Ready ∨ d.Failed := by
  obtain ⟨max, calls, rfl⟩ := hd
  exact (ready_fresh max).afterCalls_ready_or_failed calls

/-- A reachable decoder is ready unless it is poisoned. -/
theorem Reachable.ready {d : Decoder} (hd : d.Reachable) (h : d.poisoned = false) : d.Ready := by
  rcases hd.ready_or_failed with hready | hfailed
  · exact hready
  · rw [hfailed.poisoned_eq] at h
    cases h

/-- A feed of a reachable decoder that succeeds leaves it ready. -/
theorem Reachable.ready_of_feed_ok {d : Decoder} (hd : d.Reachable) {sink : Sink σ} {s : σ}
    {chunk : List UInt8} {n : ℕ} (hok : (d.feed sink s chunk).result = .ok n) :
    (d.feed sink s chunk).decoder.Ready := by
  rcases hd.ready_or_failed with hready | hfailed
  · exact ((hready.takes sink s chunk).ok_ready hok).1
  · rw [feed_of_poisoned hfailed.poisoned_eq] at hok
    cases hok

end Decoder

end PrefixFraming
