import GltfAsset.Container.Layout

/-!
# Finding the chunks of a container

`recognize` tells whether a stream starts as a container does; `locateJson` and `locateBinary` walk
to the payload of a chunk and give its length. Each takes what it looks at and nothing more, and
after a failure the stream stays where the failure was met.
-/

namespace GltfAsset.Container

/-- A walk through a stream that can go wrong. -/
abbrev Walk (σ α : Type) := ExceptT Error (StateM σ) α

/-- Where a stream stands when a chunk is looked for. -/
inductive Origin where
  /-- At the start of the container. -/
  | start
  /-- After the part before the chunk. -/
  | current
deriving DecidableEq, Repr

variable {σ : Type}

section Source

variable [Source σ]

/-- Takes up to `n` bytes; fewer only at the end of the stream. -/
def takeUpTo (n : Nat) : Walk σ Bytes := fun s =>
  match Source.take n s with
  | (.ok b, t) => (.ok b, t)
  | (.error e, t) => (.error (.transport e), t)

/-- Takes `n` bytes. Nothing is there if the stream is at its end; a stream that ends within the
bytes is truncated. -/
def takeWhole? (n : Nat) : Walk σ (Option Bytes) := do
  let b ← takeUpTo n
  if b.length = n then return some b
  else if b = [] then return none
  else throw .truncated

/-- Takes the payload of a chunk, which is truncated if the stream ends before it does. -/
def takePayload (n : Nat) : Walk σ Bytes := do
  let b ← takeUpTo n
  if b.length < n then throw .truncated else return b

/-- The word that starts at the given byte. -/
def wordAt (i : Nat) (b : Bytes) : Nat := Bytes.toNat ((b.drop i).take 4)

/-- Takes the header and checks it. The length of the whole is not looked at. -/
def takeHeader : Walk σ Unit := do
  let some b ← takeWhole? headerLength | throw .truncated
  if wordAt 0 b ≠ magic then throw (.badMagic (wordAt 0 b))
  if wordAt 4 b ≠ version then throw (.unsupportedVersion (wordAt 4 b))

/-- The first two words of a chunk. -/
structure ChunkHeader where
  /-- The length of the payload. -/
  length : Nat
  /-- The word for its kind. -/
  kind : Nat
deriving DecidableEq, Repr

/-- Takes the header of the next chunk, if the stream is not at its end. -/
def takeChunkHeader? : Walk σ (Option ChunkHeader) := do
  let b? ← takeWhole? chunkHeaderLength
  return b?.map fun b => ⟨wordAt 0 b, wordAt 4 b⟩

/-- Whether a stream starts with the header of a container. A stream that is too short or fails does
not. -/
def recognize (s : σ) : Bool × σ :=
  match Source.take headerLength s with
  | (.ok b, t) =>
    (decide (b.length = headerLength ∧ wordAt 0 b = magic ∧ wordAt 4 b = version), t)
  | (.error _, t) => (false, t)

/-- Walks to the payload of the chunk with the document, and gives its length. -/
def locateJson (origin : Origin) : Walk σ Nat := do
  if origin = .start then takeHeader
  let some h ← takeChunkHeader? | throw .truncated
  if h.kind ≠ ChunkKind.json.code then throw (.unexpectedChunk .json h.kind)
  if h.length = 0 then throw .emptyJsonChunk
  return h.length

end Source

section Stream

variable [Stream σ]

/-- Passes over a payload, which is truncated if the stream ends before it does. -/
def skipPayload (n : Nat) : Walk σ Unit := fun s =>
  match Stream.skip n s with
  | (.ok (), t) => (.ok (), t)
  | (.error e, t) => (.error (if e.kind = .unexpectedEnd then .truncated else .transport e), t)

/-- Walks to the payload of the chunk with the bytes, and gives its length; nothing if the container
ends before it. -/
def locateBinary (origin : Origin) : Walk σ (Option Nat) := do
  if origin = .start then
    let n ← locateJson .start
    skipPayload n
  match ← takeChunkHeader? with
  | none => return none
  | some h =>
    if h.kind = ChunkKind.binary.code then return some h.length
    else throw (.unexpectedChunk .binary h.kind)

end Stream

end GltfAsset.Container
