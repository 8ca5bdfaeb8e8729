import PrefixFraming.Error

/-!
# Sources of bytes

A source is known by what it has in store: bytes, failures, and times at which it is not ready.
`poll` asks it for one read. The read brings bytes, of which there are at most as many as the buffer
holds and which all come from one item, or it fails, or it has to be asked again later, or never.
A read that brings no bytes is how a source says that it has ended; it can still have more in store.

This is what can be seen of an `AsyncRead` of `tokio` through its `read`, which is over at the first
bytes, the end or the failure that the source has for it.
-/

namespace PrefixFraming

namespace Source

/-- Something that a source has in store. -/
inductive Item where
  /-- Bytes, for one read or several. -/
  | data (bytes : List UInt8)
  /-- One read fails. -/
  | failure (cause : IoError)
  /-- The source is not ready, but it is when it is asked again. -/
  | pending
  /-- The source is not ready until some milliseconds have passed. -/
  | delay (ms : Nat)
  /-- The source is never ready again. -/
  | hang
deriving DecidableEq

/-- A measure of what an item has in store. -/
def Item.size : Item → Nat
  | .data bytes => bytes.length + 1
  | _ => 1

end Source

/-- A source of bytes. -/
structure Source where
  /-- What it has in store, in order. -/
  items : List Source.Item
  /-- The number of reads it has finished; ends and failures count. -/
  reads : Nat
deriving DecidableEq

namespace Source

/-- A source that has finished no read. -/
def ofItems (items : List Item) : Source := ⟨items, 0⟩

/-- A measure of what the source has in store. -/
def size (s : Source) : Nat := s.items.foldr (fun i n => i.size + n) 0

/-- The bytes of an item. -/
def Item.bytes : Item → List UInt8
  | .data bytes => bytes
  | _ => []

/-- The bytes that no read has taken yet. -/
def remaining (s : Source) : List UInt8 := s.items.flatMap Item.bytes

/-- What comes of asking a source for one read. -/
inductive Poll where
  /-- The read is finished: it brought bytes or it failed. -/
  | ready (arrival : Except IoError (List UInt8)) (rest : Source)
  /-- Nothing comes before some milliseconds have passed. -/
  | later (ms : Nat) (rest : Source)
  /-- Nothing comes any more. -/
  | never

/-- Asks for one read of at most `capacity` bytes from these items. -/
def pollItems (capacity reads : Nat) : List Item → Poll
  | [] => .ready (.ok []) ⟨[], reads + 1⟩
  | .data bytes :: rest =>
    match bytes.drop capacity with
    | [] => .ready (.ok bytes) ⟨rest, reads + 1⟩
    | left => .ready (.ok (bytes.take capacity)) ⟨.data left :: rest, reads + 1⟩
  | .failure cause :: rest => .ready (.error cause) ⟨rest, reads + 1⟩
  | .pending :: rest => pollItems capacity reads rest
  | .delay 0 :: rest => pollItems capacity reads rest
  | .delay (ms + 1) :: rest => .later (ms + 1) ⟨rest, reads⟩
  | .hang :: _ => .never

/-- Asks for one read of at most `capacity` bytes. -/
def poll (s : Source) (capacity : Nat) : Poll := pollItems capacity s.reads s.items

/-- A read that brings bytes leaves less in store. -/
theorem size_lt_of_poll_ready {s rest : Source} {capacity : Nat} {chunk : List UInt8}
    (h : s.poll capacity = .ready (.ok chunk) rest) (hne : chunk ≠ []) : rest.size < s.size := by
  obtain ⟨items, reads⟩ := s
  simp only [poll, size] at h ⊢
  fun_induction pollItems capacity reads items with
  | case1 => cases h; exact absurd rfl hne
  | case2 bytes more hdrop => cases h; simp [Item.size]
  | case3 bytes more hdrop =>
    cases h
    have htake : capacity ≠ 0 := by rintro rfl; simp at hne
    have hlen : bytes ≠ [] := by rintro rfl; simp at hne
    have := List.length_pos_iff.mpr hlen
    simp only [List.foldr_cons, Item.size, List.length_drop]
    omega
  | case4 => cases h
  | case5 more ih => simpa [Item.size, Nat.add_comm] using Nat.lt_succ_of_lt (ih h)
  | case6 more ih => simpa [Item.size, Nat.add_comm] using Nat.lt_succ_of_lt (ih h)
  | case7 => cases h
  | case8 => cases h

/-- A delay leaves less in store. -/
theorem size_lt_of_poll_later {s rest : Source} {capacity ms : Nat}
    (h : s.poll capacity = .later ms rest) : rest.size < s.size := by
  obtain ⟨items, reads⟩ := s
  simp only [poll, size] at h ⊢
  fun_induction pollItems capacity reads items with
  | case1 => cases h
  | case2 => cases h
  | case3 => cases h
  | case4 => cases h
  | case5 more ih => simpa [Item.size, Nat.add_comm] using Nat.lt_succ_of_lt (ih h)
  | case6 more ih => simpa [Item.size, Nat.add_comm] using Nat.lt_succ_of_lt (ih h)
  | case7 => cases h; simp [Item.size]
  | case8 => cases h

end Source

end PrefixFraming
