import GltfAsset.Check.Violation
import GltfAsset.Container.Layout

/-!
# Errors

`GltfAsset.Error` is why an asset cannot be read, checked or written. Failures of transports and
refused texts count as such wherever they are met, so a malformed container is one whose own layout
is wrong.
-/

namespace GltfAsset

/-- Why an asset cannot be read, checked or written. -/
inductive Error where
  /-- A transport or the files failed. -/
  | transport (e : Failure)
  /-- The layout of a container is wrong. -/
  | malformedContainer (e : Container.Error)
  /-- A document breaks a rule. -/
  | malformedDocument (v : Check.Violation)
  /-- The text of a document is refused. -/
  | transcoding (e : Json.Error)
deriving DecidableEq, Repr

/-- The wording. -/
def Error.message : Error → String
  | transport e => "IO Error: " ++ e.message
  | malformedContainer e => "Malformed container: " ++ e.message
  | malformedDocument v => "Malformed document: " ++ v.message
  | transcoding e => "Transcoding Error: " ++ (Document.Error.text e).message

/-- Why there is no document, among all errors. -/
def Document.Error.toError : Document.Error → GltfAsset.Error
  | transport e => .transport e
  | text e => .transcoding e

/-- Why a container is refused or cannot be made, among all errors. -/
def Container.Error.toError : Container.Error → GltfAsset.Error
  | transport e => .transport e
  | transcoding e => e.toError
  | e => .malformedContainer e

end GltfAsset
