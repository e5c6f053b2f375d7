import GltfAsset.Stream.Basic

/-!
# Receivers of bytes

A `Receiver` takes bytes piece by piece. How many of the bytes that are offered one write takes is
up to the receiver, and a write may be interrupted and has then to be repeated.
`Receiver.writeAll` hides this: it goes on until all bytes are taken or the receiver fails. A `Sink`
is the receiver that keeps what it takes; the number of bytes that it takes may be limited.
-/

namespace GltfAsset

/-- What one write does. -/
inductive WriteResult where
  /-- So many bytes are taken, from the front of those that are offered. -/
  | taken (n : Nat)
  /-- Nothing is taken, and the write has to be repeated. -/
  | interrupted
  /-- A failure. -/
  | failed (e : Failure)

/-- Types whose values take bytes piece by piece. -/
class Receiver (σ : Type) where
  /-- Offers bytes, of which there is one at least. -/
  write : Bytes → σ → WriteResult × σ
  /-- The bytes that were taken so far. -/
  written : σ → Bytes
  /-- A bound on the number of writes that are interrupted one after the other. -/
  patience : σ → Nat
  /-- What is taken was offered, and goes behind what was taken before. -/
  written_of_taken : ∀ {b : Bytes} {s t : σ} {n : Nat},
    write b s = (.taken n, t) → n ≤ b.length ∧ written t = written s ++ b.take n
  /-- A write that is interrupted takes nothing. -/
  written_of_interrupted : ∀ {b : Bytes} {s t : σ},
    write b s = (.interrupted, t) → written t = written s
  /-- A write that fails takes nothing. -/
  written_of_failed : ∀ {b : Bytes} {s t : σ} {e : Failure},
    write b s = (.failed e, t) → written t = written s
  /-- A write that is interrupted uses up some of the patience. -/
  patience_lt_of_interrupted : ∀ {b : Bytes} {s t : σ},
    write b s = (.interrupted, t) → patience t < patience s

/-- Programs that write to a receiver and end with its first failure. -/
abbrev Writing (σ : Type) := ExceptT Failure (StateM σ)

/-- The failure of a receiver that takes none of the bytes that it is offered. -/
def Failure.nothingTaken : Failure := ⟨.other, some "failed to write whole buffer"⟩

namespace Receiver

variable {σ : Type} [Receiver σ]

/-- Writes bytes: the next write offers those that the one before did not take. -/
def writeAll (b : Bytes) (s : σ) : Except Failure Unit × σ :=
  if _hb : b = [] then (.ok (), s)
  else
    match _h : write b s with
    | (.taken n, t) => if _hn : n = 0 then (.error .nothingTaken, t) else writeAll (b.drop n) t
    | (.interrupted, t) => writeAll b t
    | (.failed e, t) => (.error e, t)
termination_by (b.length, patience s)
decreasing_by
  · have : b.length ≠ 0 := fun h => _hb (List.length_eq_zero_iff.1 h)
    rw [List.length_drop]
    exact Prod.Lex.left _ _ (by omega)
  · exact Prod.Lex.right _ (patience_lt_of_interrupted _h)

/-- Writes bytes, as a program. -/
def send (b : Bytes) : Writing σ Unit := fun s => writeAll b s

end Receiver

/-- The number of bytes that are taken yet, and the failure after them; absent if all are taken. -/
abbrev Limit := Option (Nat × Failure)

namespace Limit

/-- The greatest number of bytes that are taken yet of `n` bytes. -/
def most (n : Nat) (l : Limit) : Nat :=
  match l with
  | some (k, _) => min n k
  | none => n

/-- What is left of a limit when so many bytes were taken. -/
def less (n : Nat) (l : Limit) : Limit := l.map fun p => (p.1 - n, p.2)

/-- No more bytes are taken than there are. -/
theorem most_le (n : Nat) (l : Limit) : l.most n ≤ n := by
  unfold most
  split <;> omega

end Limit

/-- A place where bytes are kept. -/
structure Sink where
  /-- What was taken by each write, the last one first. -/
  pieces : List Bytes := []
  /-- What it takes yet. -/
  limit : Limit := none
  /-- The greatest number of bytes that one write takes, less one; absent if there is none. -/
  pace : Option Nat := none
  /-- Whether each write is interrupted first. -/
  interrupts : Bool := false
  /-- Whether the next write was interrupted already. -/
  resumed : Bool := false
deriving DecidableEq, Repr

namespace Sink

/-- The bytes that were taken. -/
def written (s : Sink) : Bytes := s.pieces.reverse.flatten

/-- How many of `n` bytes one write takes if the limit is not met. -/
def step (s : Sink) (n : Nat) : Nat :=
  match s.pace with
  | some p => min n (p + 1)
  | none => n

/-- How many of `n` bytes one write takes. -/
def portion (s : Sink) (n : Nat) : Nat := s.limit.most (s.step n)

/-- Takes a portion of the bytes, unless the write is interrupted or nothing more is taken. -/
def write (b : Bytes) (s : Sink) : WriteResult × Sink :=
  if s.interrupts && !s.resumed then (.interrupted, { s with resumed := true })
  else
    let t := { s with resumed := false }
    match s.limit with
    | some (0, e) => (.failed e, t)
    | l =>
      let n := s.portion b.length
      (.taken n, { t with pieces := b.take n :: s.pieces, limit := l.less n })

/-- No more bytes are taken at once than there are. -/
theorem step_le (s : Sink) (n : Nat) : s.step n ≤ n := by
  unfold step
  split <;> omega

/-- A portion has no more bytes than there are. -/
theorem portion_le (s : Sink) (n : Nat) : s.portion n ≤ n :=
  Nat.le_trans (s.limit.most_le (s.step n)) (s.step_le n)

/-- What a write can be. -/
theorem cases_of_write {b : Bytes} {s t : Sink} {r : WriteResult} (h : s.write b = (r, t)) :
    (r = .interrupted ∧ s.resumed = false ∧ t = { s with resumed := true }) ∨
    (∃ e, r = .failed e ∧ s.limit = some (0, e) ∧ t = { s with resumed := false }) ∨
    (r = .taken (s.portion b.length) ∧ (∀ e, s.limit ≠ some (0, e)) ∧
      t = { s with
        pieces := b.take (s.portion b.length) :: s.pieces
        limit := s.limit.less (s.portion b.length)
        resumed := false }) := by
  unfold write at h
  split at h
  · rename_i hs
    obtain ⟨rfl, rfl⟩ := Prod.mk.inj h
    simp only [Bool.and_eq_true, Bool.not_eq_true'] at hs
    exact .inl ⟨rfl, hs.2, rfl⟩
  · right
    split at h
    · rename_i e he
      obtain ⟨rfl, rfl⟩ := Prod.mk.inj h
      exact .inl ⟨e, rfl, he, rfl⟩
    · rename_i hl
      obtain ⟨rfl, rfl⟩ := Prod.mk.inj h
      exact .inr ⟨rfl, hl, rfl⟩

instance : Receiver Sink where
  write := write
  written := written
  patience s := if s.resumed then 0 else 1
  written_of_taken {b s t n} h := by
    obtain ⟨hr, -⟩ | ⟨e, hr, -⟩ | ⟨hr, -, rfl⟩ := cases_of_write h
    · contradiction
    · contradiction
    · obtain rfl := WriteResult.taken.inj hr
      refine ⟨s.portion_le b.length, ?_⟩
      simp only [written, List.reverse_cons, List.flatten_append, List.flatten_singleton]
  written_of_interrupted {b s t} h := by
    obtain ⟨-, -, rfl⟩ | ⟨e, hr, -⟩ | ⟨hr, -⟩ := cases_of_write h
    · rfl
    · contradiction
    · contradiction
  written_of_failed {b s t e} h := by
    obtain ⟨hr, -⟩ | ⟨e, -, -, rfl⟩ | ⟨hr, -⟩ := cases_of_write h
    · contradiction
    · rfl
    · contradiction
  patience_lt_of_interrupted {b s t} h := by
    obtain ⟨-, hs, rfl⟩ | ⟨e, hr, -⟩ | ⟨hr, -⟩ := cases_of_write h
    · simp [hs]
    · contradiction
    · contradiction

end Sink

end GltfAsset
