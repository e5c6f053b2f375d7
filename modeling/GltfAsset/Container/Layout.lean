import GltfAsset.Document.Error

/-!
# The layout of a container

A container holds a document and the bytes of its first buffer in one file. It is a header of three
words (a fixed number, the version and the length of the whole), then a chunk with the text of the
document, then, if there are bytes, a chunk with these. A chunk is the length of its payload, its
kind and the payload, which is padded to a multiple of four bytes. Words are four bytes, least
significant first.
-/

namespace GltfAsset.Container

/-- The number that a container starts with: the letters `glTF`. -/
def magic : Nat := 0x46546C67

/-- The version of the layout. -/
def version : Nat := 2

/-- The number of bytes of the header. -/
def headerLength : Nat := 12

/-- The number of bytes before the payload of a chunk. -/
def chunkHeaderLength : Nat := 8

/-- The kinds of chunks. -/
inductive ChunkKind where
  /-- The text of the document. -/
  | json
  /-- The bytes of the first buffer. -/
  | binary
deriving DecidableEq, Repr

namespace ChunkKind

/-- The word for the kind: four letters. -/
def code : ChunkKind → Nat
  | json => 0x4E4F534A
  | binary => 0x004E4942

/-- The byte that pads the payload. -/
def padding : ChunkKind → UInt8
  | json => 0x20
  | binary => 0

/-- The name of the kind. -/
def name : ChunkKind → String
  | json => "JSON"
  | binary => "BIN"

end ChunkKind

/-- The least multiple of four that is not below `n`. -/
def paddedLength (n : Nat) : Nat := (n + 3) / 4 * 4

/-- A payload with its padding. -/
def padded (k : ChunkKind) (b : Bytes) : Bytes :=
  b ++ List.replicate (paddedLength b.length - b.length) k.padding

/-- Why a container is refused or cannot be made. -/
inductive Error where
  /-- It starts with another number. -/
  | badMagic (found : Nat)
  /-- The first buffer declares a length that the chunk does not have. -/
  | bufferLength (declared : Int) (available : Nat)
  /-- The chunk with the document is empty. -/
  | emptyJsonChunk
  /-- The stream failed. -/
  | transport (e : Failure)
  /-- The container would be too long for its own header. -/
  | lengthOverflow (total : Nat)
  /-- There is no document in it. -/
  | transcoding (e : Document.Error)
  /-- It ends too early. -/
  | truncated
  /-- A chunk is of another kind. -/
  | unexpectedChunk (expected : ChunkKind) (found : Nat)
  /-- It is of another version. -/
  | unsupportedVersion (found : Nat)
deriving DecidableEq, Repr

/-- A word in eight hexadecimal digits. -/
def hexWord (n : Nat) : String :=
  let ds := (Nat.toDigits 16 n).map Char.toUpper
  "0x" ++ String.ofList (List.replicate (8 - ds.length) '0' ++ ds)

/-- The wording. -/
def Error.message : Error → String
  | badMagic n => "Not a GLB container: bad magic " ++ hexWord n
  | bufferLength d a => s!"Buffer declares {d} bytes but the BIN chunk holds {a}"
  | emptyJsonChunk => "JSON chunk is empty"
  | transport e => "IO Error: " ++ e.message
  | lengthOverflow n => s!"Container length {n} does not fit in 32 bits"
  | transcoding e => "Transcoding Error: " ++ e.message
  | truncated => "Container is truncated"
  | unexpectedChunk k n => s!"Expected a {k.name} chunk, found type " ++ hexWord n
  | unsupportedVersion n => s!"Unsupported GLB version {n}"

end GltfAsset.Container
