import GltfAsset.Stream.Basic

/-!
# Transports

Four ways in which bytes come: `Slice` holds all of them, `Cursor` moves about in a file, `Buffered`
does so through a buffer of its own, and `Sequential` gives pieces of its own choosing, may
interrupt reads and may fail. The first jumps over bytes, the next two seek, and the last one has to
read what it passes over.
-/

namespace GltfAsset

/-! ### All bytes at hand -/

/-- Bytes that are all at hand. -/
structure Slice where
  /-- The bytes that are left. -/
  rest : Bytes
  /-- The number of bytes taken. -/
  taken : Nat := 0
deriving DecidableEq, Repr

/-- One read of a list of bytes: as many as are asked for, or all. -/
def ReadResult.ofBytes (b : Bytes) : ReadResult := if b = [] then .ended else .bytes b

namespace Slice

/-- Takes bytes from the front. -/
def read (n : Nat) (s : Slice) : ReadResult × Slice :=
  let b := s.rest.take n
  (.ofBytes b, ⟨s.rest.drop n, s.taken + b.length⟩)

/-- Passes over bytes at the front. -/
def skip (n : Nat) (s : Slice) : Except Failure Unit × Slice :=
  if n ≤ s.rest.length then (.ok (), ⟨s.rest.drop n, s.taken + n⟩)
  else (.error ⟨.unexpectedEnd, none⟩, ⟨[], s.taken + s.rest.length⟩)

instance : Stream Slice where
  read := read
  position s := s.taken
  patience s := s.rest.length
  patience_lt_of_bytes {n s t b} hn h := by
    simp only [read, ReadResult.ofBytes, Prod.mk.injEq] at h
    obtain ⟨h, rfl⟩ := h
    split at h
    · contradiction
    · rename_i hb
      simp only [List.length_drop]
      have : s.rest.length ≠ 0 := by
        intro h0
        simp [List.length_eq_zero_iff.1 h0] at hb
      omega
  patience_lt_of_interrupted {n s t} _ h := by
    simp only [read, ReadResult.ofBytes, Prod.mk.injEq] at h
    split at h <;> simp at h
  skip := skip

end Slice

/-! ### Seeking -/

/-- The first position that does not fit 64 bits. -/
def positionLimit : Nat := 1 <<< 64

/-- Where a seek over `n` bytes from `position` goes, in a file of the given length; nowhere if the
place does not fit 64 bits or is beyond the end. -/
def seekTarget? (length position n : Nat) : Option Nat :=
  if position + n < positionLimit ∧ position + n ≤ length then some (position + n) else none

/-- A place in a file. -/
structure Cursor where
  /-- The bytes of the file. -/
  content : Bytes
  /-- The place. -/
  position : Nat := 0
deriving DecidableEq, Repr

namespace Cursor

/-- Takes bytes at the place. -/
def read (n : Nat) (s : Cursor) : ReadResult × Cursor :=
  let b := (s.content.drop s.position).take n
  (.ofBytes b, { s with position := s.position + b.length })

/-- Goes to the end, and from there to the place after the bytes if there is one. -/
def skip (n : Nat) (s : Cursor) : Except Failure Unit × Cursor :=
  match seekTarget? s.content.length s.position n with
  | some p => (.ok (), { s with position := p })
  | none => (.error ⟨.unexpectedEnd, none⟩, { s with position := s.content.length })

/-- A read that gives bytes leaves fewer after the position. -/
theorem patience_lt {n : Nat} {s t : Cursor} {b : Bytes} (h : read n s = (.bytes b, t)) :
    t.content.length - t.position < s.content.length - s.position := by
  simp only [read, ReadResult.ofBytes, Prod.mk.injEq] at h
  obtain ⟨h, rfl⟩ := h
  split at h
  · contradiction
  · rename_i hb
    have hl : ((s.content.drop s.position).take n).length ≠ 0 :=
      fun h0 => hb (List.length_eq_zero_iff.1 h0)
    simp only [List.length_take, List.length_drop] at *
    omega

instance : Stream Cursor where
  read := read
  position := position
  patience s := s.content.length - s.position
  patience_lt_of_bytes _ h := patience_lt h
  patience_lt_of_interrupted {n s t} _ h := by
    simp only [read, ReadResult.ofBytes, Prod.mk.injEq] at h
    split at h <;> simp at h
  skip := skip

end Cursor

/-- A place in a file that is read through a buffer. -/
structure Buffered where
  /-- The bytes of the file. -/
  content : Bytes
  /-- The place in the file, after the buffered bytes. -/
  ahead : Nat := 0
  /-- The bytes that are read from the file, but not taken yet. -/
  buffer : Bytes := []
  /-- The number of bytes that the buffer holds at most, less one. -/
  capacityPred : Nat
deriving DecidableEq, Repr

namespace Buffered

/-- Takes bytes from the buffer. An empty buffer is filled first, unless more bytes are asked for
than it holds. -/
def read (n : Nat) (s : Buffered) : ReadResult × Buffered :=
  if s.buffer = [] then
    let piece := (s.content.drop s.ahead).take (max n (s.capacityPred + 1))
    (.ofBytes (piece.take n),
      { s with ahead := s.ahead + piece.length, buffer := piece.drop n })
  else (.bytes (s.buffer.take n), { s with buffer := s.buffer.drop n })

/-- The place of the next byte. -/
def position (s : Buffered) : Nat := s.ahead - s.buffer.length

/-- Forgets the buffer and seeks in the file. -/
def skip (n : Nat) (s : Buffered) : Except Failure Unit × Buffered :=
  match seekTarget? s.content.length s.position n with
  | some p => (.ok (), { s with ahead := p, buffer := [] })
  | none => (.error ⟨.unexpectedEnd, none⟩, { s with ahead := s.content.length, buffer := [] })

/-- The number of bytes that may still be taken. -/
def patience (s : Buffered) : Nat := s.content.length - s.ahead + s.buffer.length

/-- A read that gives bytes leaves fewer that may still be taken. -/
theorem patience_lt {n : Nat} {s t : Buffered} {b : Bytes} (hn : n ≠ 0)
    (h : read n s = (.bytes b, t)) : t.patience < s.patience := by
  unfold read at h
  split at h
  · rename_i hs
    simp only [ReadResult.ofBytes, Prod.mk.injEq] at h
    obtain ⟨h, rfl⟩ := h
    split at h
    · contradiction
    · rename_i hb
      have hl :
          (((s.content.drop s.ahead).take (max n (s.capacityPred + 1))).take n).length ≠ 0 :=
        fun h0 => hb (List.length_eq_zero_iff.1 h0)
      simp only [patience, hs, List.length_take, List.length_drop, List.length_nil] at *
      omega
  · rename_i hs
    simp only [Prod.mk.injEq] at h
    obtain ⟨_, rfl⟩ := h
    have : s.buffer.length ≠ 0 := by simpa using hs
    simp only [patience, List.length_drop]
    omega

instance : Stream Buffered where
  read := read
  position := position
  patience := patience
  patience_lt_of_bytes hn h := patience_lt hn h
  patience_lt_of_interrupted {n s t} _ h := by
    simp only [read, ReadResult.ofBytes] at h
    repeat' split at h
    all_goals simp at h
  skip := skip

end Buffered

/-! ### In sequence -/

/-- Bytes that come in sequence, in pieces that the transport chooses. -/
structure Sequential where
  /-- The bytes that are left. -/
  rest : Bytes
  /-- The number of bytes taken. -/
  taken : Nat := 0
  /-- The number of bytes that can still be taken before the transport fails, and the failure;
  absent if it does not fail. -/
  failure : Option (Nat × Failure) := none
  /-- The greatest number of bytes that a read gives, less one, by the number of reads before. -/
  pace : Nat → Nat
  /-- Whether a read is interrupted first, by the number of reads before. -/
  interrupts : Nat → Bool := fun _ => false
  /-- The number of reads that were not interrupted. -/
  turn : Nat := 0
  /-- Whether the next read was interrupted already. -/
  resumed : Bool := false

namespace Sequential

/-- The bytes that can be taken before the transport fails or ends. -/
def available (s : Sequential) : Bytes :=
  match s.failure with
  | none => s.rest
  | some (k, _) => s.rest.take k

/-- Gives a piece of the bytes, unless the read is interrupted. -/
def read (n : Nat) (s : Sequential) : ReadResult × Sequential :=
  if s.interrupts s.turn && !s.resumed then (.interrupted, { s with resumed := true })
  else
    let t := { s with turn := s.turn + 1, resumed := false }
    match s.available.take (min n (s.pace s.turn + 1)), s.failure with
    | [], some (0, e) => (.failed e, t)
    | [], _ => (.ended, t)
    | b :: bs, f =>
      let k := bs.length + 1
      (.bytes (b :: bs),
        { t with
          rest := s.rest.drop k, taken := s.taken + k, failure := f.map fun p => (p.1 - k, p.2) })

/-- The number of reads that may still give bytes or be interrupted. -/
def patience (s : Sequential) : Nat := 2 * s.rest.length + if s.resumed then 0 else 1

/-- No more is at hand than is left. -/
theorem length_available_le (s : Sequential) : s.available.length ≤ s.rest.length := by
  unfold available
  split
  · exact Nat.le_refl _
  · simp only [List.length_take]
    omega

/-- A read that gives bytes leaves fewer reads. -/
theorem patience_lt_of_bytes {n : Nat} {s t : Sequential} {b : Bytes}
    (h : read n s = (.bytes b, t)) : t.patience < s.patience := by
  unfold read at h
  split at h
  · simp at h
  · split at h
    · simp at h
    · simp at h
    · rename_i c cs _ hb
      have hl := congrArg List.length hb
      have ha := s.length_available_le
      simp only [List.length_take, List.length_cons] at hl
      simp only [Prod.mk.injEq] at h
      obtain ⟨_, rfl⟩ := h
      simp only [patience, List.length_drop, Bool.false_eq_true, if_false]
      omega

/-- A read that is interrupted leaves fewer reads. -/
theorem patience_lt_of_interrupted {n : Nat} {s t : Sequential}
    (h : read n s = (.interrupted, t)) : t.patience < s.patience := by
  unfold read at h
  split at h
  · rename_i hs
    simp only [Prod.mk.injEq] at h
    obtain ⟨_, rfl⟩ := h
    simp only [Bool.and_eq_true, Bool.not_eq_true'] at hs
    simp [patience, hs.2]
  · split at h <;> simp at h

instance : Source Sequential where
  read := read
  position s := s.taken
  patience := patience
  patience_lt_of_bytes _ h := patience_lt_of_bytes h
  patience_lt_of_interrupted _ h := patience_lt_of_interrupted h

instance : Stream Sequential where
  skip := Source.discard

end Sequential

end GltfAsset
