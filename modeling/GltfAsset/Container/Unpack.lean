import GltfAsset.Container.Locate
import GltfAsset.Stream.Transport

/-!
# Opening a container

`unpackFrom` reads the document and the bytes of a container from a stream; `unpack` does so where
the whole container is at hand. How many of the bytes are kept is up to a policy: those of the
chunk, or as many as the first buffer of the document declares.
-/

namespace GltfAsset.Container

/-- How many bytes of the chunk are kept. -/
inductive LengthPolicy where
  /-- As many as the first buffer declares, if it is inside the container. -/
  | truncateToDeclared
  /-- All, padding included. -/
  | padded
deriving DecidableEq, Repr

instance : Inhabited LengthPolicy := ⟨.truncateToDeclared⟩

/-- That a chunk holds more bytes than the padding of the declared ones needs. -/
structure Surplus where
  /-- The number of bytes in the chunk. -/
  available : Nat
  /-- The number of bytes beyond the declared ones. -/
  extra : Nat
deriving DecidableEq, Repr

/-- The wording. -/
def Surplus.message (s : Surplus) : String :=
  s!"BIN chunk holds {s.available} bytes, {s.extra} more than buffer 0 declares"

/-- What a container holds. -/
structure Contents where
  /-- The document. -/
  document : Document
  /-- The bytes of the first buffer; none if there is no chunk for them. -/
  binary : Bytes
  /-- A warning that bytes were dropped. -/
  surplus : Option Surplus := none
deriving DecidableEq

/-- The number of bytes that pad a payload at most. -/
def maxPadding : Nat := 3

/-- The length that the first buffer of a document declares for the bytes inside the container. -/
def declaredLength? (d : Document) : Option Int :=
  match d.buffers[0]? with
  | some b => if b.uri.isNone then some b.byteLength.toInt else none
  | none => none

/-- What is kept of the payload of the chunk with the bytes. -/
def reconcile (policy : LengthPolicy) (d : Document) (payload : Bytes) : Except Error Contents :=
  let available := payload.length
  match policy, declaredLength? d with
  | .truncateToDeclared, some n =>
    if 0 ≤ n ∧ n ≤ available then
      let extra := available - n.toNat
      .ok ⟨d, payload.take n.toNat, if maxPadding < extra then some ⟨available, extra⟩ else none⟩
    else .error (.bufferLength n available)
  | _, _ => .ok ⟨d, payload, none⟩

/-- The document with the given text. -/
def document (text : Bytes) : Except Error Document :=
  (Document.decode text).mapError fun e => .transcoding (.text e)

/-- Reads a container from a stream, up to the end of its last chunk. -/
def unpackFrom {σ : Type} [Stream σ] (policy : LengthPolicy) : Walk σ Contents := do
  let n ← locateJson .start
  let text ← takePayload n
  let d ← document text
  match ← locateBinary .current with
  | none => return ⟨d, [], none⟩
  | some n =>
    let payload ← takePayload n
    reconcile policy d payload

/-- Opens a container that is at hand: the payloads are cut out of it. -/
def unpack (b : Bytes) : Except Error Contents := do
  let start : Slice := ⟨b, 0⟩
  let (n, s) ← match (locateJson .start).run.run start with
    | (.ok n, s) => .ok (n, s)
    | (.error e, _) => .error e
  if s.rest.length < n then throw .truncated
  let d ← document (s.rest.take n)
  let tail : Slice := ⟨s.rest.drop n, s.taken + n⟩
  match (locateBinary .current).run.run tail with
  | (.error e, _) => .error e
  | (.ok none, _) => .ok ⟨d, [], none⟩
  | (.ok (some n), s) =>
    if s.rest.length < n then .error .truncated
    else reconcile .truncateToDeclared d (s.rest.take n)

end GltfAsset.Container
