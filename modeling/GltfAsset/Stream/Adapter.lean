import GltfAsset.Stream.Transport

/-!
# Adapters

A source that can go to places of its choosing passes over bytes by seeking (`Seek.forward`), which
is what `Cursor` and `Buffered` do; `Seekable` makes a stream of any such source. A stream that is
held by another value is a stream too (`Held`).
-/

namespace GltfAsset

/-- Sources that can go to places of their bytes. -/
class Seek (σ : Type) [Source σ] where
  /-- Goes to the end, and gives its place. -/
  goToEnd : σ → Nat × σ
  /-- Goes to a place. -/
  goTo : Nat → σ → σ

namespace Seek

variable {σ : Type} [Source σ] [Seek σ]

/-- Passes over bytes: goes to the end, and from there to the place after the bytes if there is
one. -/
def forward (n : Nat) (s : σ) : Except Failure Unit × σ :=
  let (length, t) := goToEnd s
  match seekTarget? length (Source.position s) n with
  | some p => (.ok (), goTo p t)
  | none => (.error ⟨.unexpectedEnd, none⟩, t)

end Seek

instance : Seek Cursor where
  goToEnd s := (s.content.length, { s with position := s.content.length })
  goTo p s := { s with position := p }

/-- A place in a file moves by seeking. -/
theorem Cursor.skip_eq_forward (n : Nat) (s : Cursor) : Stream.skip n s = Seek.forward n s := rfl

instance : Seek Buffered where
  goToEnd s := (s.content.length, { s with ahead := s.content.length, buffer := [] })
  goTo p s := { s with ahead := p, buffer := [] }

/-- A place in a file that is read through a buffer moves by seeking. -/
theorem Buffered.skip_eq_forward (n : Nat) (s : Buffered) :
    Stream.skip n s = Seek.forward n s := rfl

/-- The stream of a source that passes over bytes by seeking. -/
structure Seekable (σ : Type) where
  /-- The source. -/
  source : σ
deriving DecidableEq, Repr

/-- A stream that is held by another value, which hands on what it is asked for. -/
structure Held (σ : Type) where
  /-- The stream. -/
  stream : σ
deriving DecidableEq, Repr

section Instances

variable {σ τ : Type}

/-- The source of a value that has one inside, from which all of its bytes come. -/
@[reducible] def Source.inside [Source σ] (inner : τ → σ) (outer : σ → τ)
    (inner_outer : ∀ s, inner (outer s) = s) : Source τ where
  read n s := let (r, t) := read n (inner s); (r, outer t)
  position s := position (inner s)
  patience s := patience (inner s)
  patience_lt_of_bytes hn h := by
    obtain ⟨hread, rfl⟩ := Prod.mk.inj h
    rw [inner_outer]
    exact patience_lt_of_bytes hn (Prod.ext hread rfl)
  patience_lt_of_interrupted hn h := by
    obtain ⟨hread, rfl⟩ := Prod.mk.inj h
    rw [inner_outer]
    exact patience_lt_of_interrupted hn (Prod.ext hread rfl)

instance [Source σ] : Source (Seekable σ) := .inside Seekable.source .mk fun _ => rfl

instance [Source σ] [Seek σ] : Stream (Seekable σ) where
  skip n s := let (r, t) := Seek.forward n s.source; (r, ⟨t⟩)

instance [Source σ] : Source (Held σ) := .inside Held.stream .mk fun _ => rfl

instance [Stream σ] : Stream (Held σ) where
  skip n s := let (r, t) := Stream.skip n s.stream; (r, ⟨t⟩)

end Instances

end GltfAsset
