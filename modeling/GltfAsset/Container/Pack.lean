import GltfAsset.Container.Layout
import GltfAsset.Json.Streamed

/-!
# Making a container

`packTo` writes the container of a document and its bytes to a receiver, part after part, and `pack`
gives it whole. A receiver may take a limited number of bytes only; it has then what it took before
it failed.
-/

namespace GltfAsset

/-- Writes the text of a document. -/
def Document.writeTo {σ : Type} [Receiver σ] (l : Json.Layout) (d : Document) (s : σ) :
    Except Document.Error Unit × σ :=
  match ((codec.toJson d).writeTo l 0).run.run s with
  | (.ok (), t) => (.ok (), t)
  | (.error e, t) => (.error (.transport e), t)

namespace Container

/-- A writer that can go wrong. -/
abbrev Writer (σ : Type) := ExceptT Error (StateM σ)

/-- The number of bytes of a chunk. -/
def chunkLength (payload : Bytes) : Nat := chunkHeaderLength + paddedLength payload.length

/-- The number of bytes of the container with the given text and bytes. -/
def totalLength (json bin : Bytes) : Nat :=
  headerLength + chunkLength json + if bin = [] then 0 else chunkLength bin

section Writer

variable {σ : Type} [Receiver σ]

/-- Writes one part. -/
def put (b : Bytes) : Writer σ Unit := fun s =>
  match Receiver.writeAll b s with
  | (.ok (), t) => (.ok (), t)
  | (.error e, t) => (.error (.transport e), t)

/-- Writes the header of a container of the given length. -/
def putHeader (total : Nat) : Writer σ Unit := do
  put (Bytes.ofWord magic)
  put (Bytes.ofWord version)
  put (Bytes.ofWord total)

/-- Writes a chunk. -/
def putChunk (k : ChunkKind) (payload : Bytes) : Writer σ Unit := do
  put (Bytes.ofWord (paddedLength payload.length))
  put (Bytes.ofWord k.code)
  put payload
  put (List.replicate (paddedLength payload.length - payload.length) k.padding)

/-- Writes the container of a document and its bytes. Without bytes there is no chunk for them.
Nothing is written if the length does not fit its word. -/
def packTo (d : Document) (bin : Bytes) : Writer σ Unit := do
  let json := d.encode .compact
  let total := totalLength json bin
  if Bytes.wordLimit ≤ total then throw (.lengthOverflow total)
  putHeader total
  putChunk .json json
  if bin ≠ [] then putChunk .binary bin

end Writer

/-- The container of a document and its bytes. -/
def pack (d : Document) (bin : Bytes) : Except Error Bytes :=
  match (packTo d bin).run.run ({} : Sink) with
  | (.ok (), s) => .ok s.written
  | (.error e, _) => .error e

end Container

end GltfAsset
