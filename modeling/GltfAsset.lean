import GltfAsset.Bytes
import GltfAsset.Check.Appearance
import GltfAsset.Check.Data
import GltfAsset.Check.Document
import GltfAsset.Check.Geometry
import GltfAsset.Check.Graph
import GltfAsset.Check.Hierarchy
import GltfAsset.Check.Motion
import GltfAsset.Check.Repetition
import GltfAsset.Check.Rule
import GltfAsset.Check.Violation
import GltfAsset.Container.Layout
import GltfAsset.Container.Locate
import GltfAsset.Container.Pack
import GltfAsset.Container.Unpack
import GltfAsset.Document.Appearance
import GltfAsset.Document.Basic
import GltfAsset.Document.Data
import GltfAsset.Document.Enumerations
import GltfAsset.Document.Error
import GltfAsset.Document.Geometry
import GltfAsset.Document.Hierarchy
import GltfAsset.Document.Motion
import GltfAsset.Error
import GltfAsset.Files
import GltfAsset.Json.Basic
import GltfAsset.Json.Error
import GltfAsset.Json.Number
import GltfAsset.Json.Reader
import GltfAsset.Json.Record
import GltfAsset.Json.Scan
import GltfAsset.Json.Skip
import GltfAsset.Json.Streamed
import GltfAsset.Json.Text
import GltfAsset.Json.Value
import GltfAsset.Number.Binary
import GltfAsset.Number.Literal
import GltfAsset.Number.Notation
import GltfAsset.Number.Shortest
import GltfAsset.Proofs.Container.Agreement
import GltfAsset.Proofs.Container.Consumption
import GltfAsset.Proofs.Container.Failure
import GltfAsset.Proofs.Container.Grammar
import GltfAsset.Proofs.Container.Locator
import GltfAsset.Proofs.Container.Packed
import GltfAsset.Proofs.Container.PackedLayout
import GltfAsset.Proofs.Container.Policy
import GltfAsset.Proofs.Container.Repacked
import GltfAsset.Proofs.Container.RoundTrip
import GltfAsset.Proofs.Container.Session
import GltfAsset.Proofs.Container.Streamed
import GltfAsset.Proofs.Container.Truncation
import GltfAsset.Proofs.Container.Views
import GltfAsset.Proofs.Container.Walk
import GltfAsset.Proofs.Document.Attributes
import GltfAsset.Proofs.Document.Cut
import GltfAsset.Proofs.Document.Decoded
import GltfAsset.Proofs.Document.Faithful
import GltfAsset.Proofs.Document.Held
import GltfAsset.Proofs.Document.Image
import GltfAsset.Proofs.Document.Induction
import GltfAsset.Proofs.Document.Leaves
import GltfAsset.Proofs.Document.Members
import GltfAsset.Proofs.Document.RoundTrip
import GltfAsset.Proofs.Document.Settled
import GltfAsset.Proofs.Document.Steady
import GltfAsset.Proofs.Extension.Documents
import GltfAsset.Proofs.Extension.Readers
import GltfAsset.Proofs.Extension.Scan
import GltfAsset.Proofs.Files.Dispatch
import GltfAsset.Proofs.Files.Load
import GltfAsset.Proofs.Files.Save
import GltfAsset.Proofs.Hierarchy.Acceptance
import GltfAsset.Proofs.Hierarchy.Culprit
import GltfAsset.Proofs.Hierarchy.Forest
import GltfAsset.Proofs.Hierarchy.Indices
import GltfAsset.Proofs.Hierarchy.Reported
import GltfAsset.Proofs.Hierarchy.Rounds
import GltfAsset.Proofs.Hierarchy.Scene
import GltfAsset.Proofs.Hierarchy.Search
import GltfAsset.Proofs.Json.Cut
import GltfAsset.Proofs.Json.Entries
import GltfAsset.Proofs.Json.Floats
import GltfAsset.Proofs.Json.Fragile
import GltfAsset.Proofs.Json.Grammar
import GltfAsset.Proofs.Json.Image
import GltfAsset.Proofs.Json.Levels
import GltfAsset.Proofs.Json.Listed
import GltfAsset.Proofs.Json.Numeral
import GltfAsset.Proofs.Json.Range
import GltfAsset.Proofs.Json.Records
import GltfAsset.Proofs.Json.Scalars
import GltfAsset.Proofs.Json.Steady
import GltfAsset.Proofs.Json.Streamed
import GltfAsset.Proofs.Json.Values
import GltfAsset.Proofs.Json.Written
import GltfAsset.Proofs.Number.Shortest
import GltfAsset.Proofs.Stream.Agreement
import GltfAsset.Proofs.Stream.Delivery
import GltfAsset.Proofs.Stream.Failure
import GltfAsset.Proofs.Stream.Place
import GltfAsset.Proofs.Stream.Reception
import GltfAsset.Proofs.Text.Order
import GltfAsset.Proofs.Validity.Acceptance
import GltfAsset.Proofs.Validity.Appended
import GltfAsset.Proofs.Validity.Offending
import GltfAsset.Proofs.Validity.Order
import GltfAsset.Proofs.Validity.References
import GltfAsset.Proofs.Validity.Relaxed
import GltfAsset.Proofs.Validity.Reported
import GltfAsset.Proofs.Validity.Rules
import GltfAsset.Proofs.Validity.Valid
import GltfAsset.Stream.Adapter
import GltfAsset.Stream.Basic
import GltfAsset.Stream.Receiver
import GltfAsset.Stream.Transport
import GltfAsset.Text.Quoted

/-!
# Assets in the glTF 2.0 format

A document is the tree of entities that a JSON text describes (`GltfAsset.Document`), and a binary
container holds one together with a blob of bytes. The modules under `Json` read and write the text,
those under `Document` say what the entities are, those under `Container`, `Stream` and `Files` open
and save containers, at hand or from streams, and those under `Check` find the first violation of a
rule.

The theory is under `Proofs`. Its main results are that documents are read back from their text,
just in case that it can be done (`Document`), that containers are opened as they were packed, cut
or not, from every stream (`Container`, `Stream`, `Files`), and that a document without violation is
valid and its nodes are a forest (`Validity`, `Hierarchy`).
-/
