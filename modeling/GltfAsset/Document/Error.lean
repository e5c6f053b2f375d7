import GltfAsset.Document.Basic
import GltfAsset.Stream.Basic

/-!
# Reading a document from a stream

A document that comes through a stream can be refused, or the stream can fail.
`Document.readFrom` reads one up to the end of its stream.
-/

namespace GltfAsset

/-- The wording of a failure. -/
def Failure.message (e : Failure) : String := e.text.getD ""

namespace Document

/-- Why there is no document. -/
inductive Error where
  /-- The stream failed. -/
  | transport (e : Failure)
  /-- The text is refused. -/
  | text (e : Json.Error)
deriving DecidableEq, Repr

/-- The wording. -/
def Error.message : Error → String
  | transport e => "IO Error: " ++ e.message
  | text e => "JSON Syntax Error: " ++ e.message

/-- Reads the document whose text is the rest of a stream. -/
def readFrom {σ : Type} [Source σ] (s : σ) : Except Error Document × σ :=
  match Source.takeAll s with
  | (.ok b, t) => ((decode b).mapError .text, t)
  | (.error e, t) => (.error (.transport e), t)

end Document

end GltfAsset
