import GltfAsset.Bytes

/-!
# Streams of bytes

A `Source` gives bytes piece by piece; a `Stream` can also pass over bytes. What one read gives is
up to the transport: it may be fewer bytes than are asked for, and a read may be interrupted and
has then to be repeated. `Source.gather` and `Source.gatherAll` hide this: they give as many bytes
as are asked for, fewer only at the end of the stream, or the failure that the transport met.
-/

namespace GltfAsset

/-- The kinds of failures outside of the library. -/
inductive FailureKind where
  /-- There is no such file. -/
  | notFound
  /-- What is asked for makes no sense. -/
  | invalidInput
  /-- The stream ended too early. -/
  | unexpectedEnd
  /-- Any other. -/
  | other
deriving DecidableEq, Repr

/-- A failure of a transport or of the files. -/
structure Failure where
  /-- Its kind. -/
  kind : FailureKind
  /-- Its own text, if it has one. -/
  text : Option String := none
deriving DecidableEq, Repr

/-- What one read gives. -/
inductive ReadResult where
  /-- Bytes, at least one. -/
  | bytes (b : Bytes)
  /-- Nothing, because the stream is at its end. -/
  | ended
  /-- Nothing, and the read has to be repeated. -/
  | interrupted
  /-- A failure. -/
  | failed (e : Failure)

/-- Types whose values give bytes piece by piece. -/
class Source (σ : Type) where
  /-- Asks for a number of bytes, which is not zero. -/
  read : Nat → σ → ReadResult × σ
  /-- The number of bytes that were taken so far. -/
  position : σ → Nat
  /-- A bound on the number of reads that give bytes or are interrupted. -/
  patience : σ → Nat
  /-- A read that gives bytes uses up some of it. -/
  patience_lt_of_bytes : ∀ {n : Nat} {s t : σ} {b : Bytes},
    n ≠ 0 → read n s = (.bytes b, t) → patience t < patience s
  /-- A read that is interrupted uses up some of it. -/
  patience_lt_of_interrupted : ∀ {n : Nat} {s t : σ},
    n ≠ 0 → read n s = (.interrupted, t) → patience t < patience s

namespace Source

variable {σ : Type} [Source σ]

/-- Takes bytes until as many are there as are asked for or the stream ends, given those taken
before in reverse. -/
def gather (n : Nat) (acc : Bytes) (s : σ) : Except Failure Bytes × σ :=
  if _hn : n = 0 then (.ok acc.reverse, s)
  else
    match _h : read n s with
    | (.bytes b, t) => gather (n - b.length) (b.reverse ++ acc) t
    | (.ended, t) => (.ok acc.reverse, t)
    | (.interrupted, t) => gather n acc t
    | (.failed e, t) => (.error e, t)
termination_by patience s
decreasing_by
  · exact patience_lt_of_bytes _hn _h
  · exact patience_lt_of_interrupted _hn _h

/-- The number of bytes that are asked for at once when all are wanted. -/
def pieceSize : Nat := 8192

/-- Takes all bytes up to the end of the stream, given those taken before in reverse. -/
def gatherAll (acc : Bytes) (s : σ) : Except Failure Bytes × σ :=
  match _h : read pieceSize s with
  | (.bytes b, t) => gatherAll (b.reverse ++ acc) t
  | (.ended, t) => (.ok acc.reverse, t)
  | (.interrupted, t) => gatherAll acc t
  | (.failed e, t) => (.error e, t)
termination_by patience s
decreasing_by
  · exact patience_lt_of_bytes (by decide) _h
  · exact patience_lt_of_interrupted (by decide) _h

/-- Takes up to `n` bytes; fewer only at the end of the stream. -/
def take (n : Nat) (s : σ) : Except Failure Bytes × σ := gather n [] s

/-- Takes all bytes up to the end of the stream. -/
def takeAll (s : σ) : Except Failure Bytes × σ := gatherAll [] s

/-- Passes over bytes by taking them. It fails if the stream has fewer. -/
def discard (n : Nat) (s : σ) : Except Failure Unit × σ :=
  match take n s with
  | (.ok b, t) => (if b.length < n then .error ⟨.unexpectedEnd, none⟩ else .ok (), t)
  | (.error e, t) => (.error e, t)

end Source

/-- Sources that can pass over bytes. -/
class Stream (σ : Type) extends Source σ where
  /-- Passes over bytes. If the stream has fewer, it fails and stands at its end. -/
  skip : Nat → σ → Except Failure Unit × σ

end GltfAsset
