import GltfAsset.Check.Appearance
import GltfAsset.Check.Data
import GltfAsset.Check.Geometry
import GltfAsset.Check.Graph
import GltfAsset.Check.Hierarchy
import GltfAsset.Check.Motion
import GltfAsset.Number.Literal

/-!
# Checking a document

`Document.checks` lists the checks of a document in a fixed order: what is said about it and its
first scene, every element of every collection, the graph of the nodes, and the lists of
extensions. `Document.violation?` gives the violation that the first failed check found; there is
none exactly if no check fails.
-/

namespace GltfAsset

/-- What is checked. -/
structure Check.Config where
  /-- The number of sets of texture coordinates that a material may use. -/
  maxTexCoordSets : Nat := 2
  /-- Whether the nodes have to form a hierarchy. -/
  checkHierarchy : Bool := true
  /-- Whether the lists of extensions have to agree. -/
  checkExtensions : Bool := true
deriving DecidableEq, Repr

open Check Rule

/-- The version is `2.x`. A least version is looked at only if it is a number, and must not be `3`
or more. -/
def Asset.rules (a : Asset) : List Rule :=
  [need (Double.ofText? a.version).isSome ["asset", "version"] (.invalidText a.version)] ++
  ifGiven a.minVersion (fun s =>
    [need (¬ ∃ x ∈ Double.ofText? s, 3 ≤ x) ["asset", "minVersion"] (.unsupportedVersion s)]) ++
  [need (∃ x ∈ Double.ofText? a.version, 2 ≤ x ∧ x < 3) ["asset", "version"]
    (.unsupportedVersion a.version)]

namespace Document

/-- The scene that is shown first is there. -/
def sceneRules (d : Document) : List Rule :=
  ifGiven d.scene fun i => [index ["scene"] i d.scenes.size]

/-- No name is given twice. -/
def distinctRules (field : Field) (names : List String) : List Rule :=
  (markRepeated names).map fun (s, again) => need (again = false) field (.repeatedName s)

/-- The extensions that a reader must know are among those that occur, and both lists are without
repetition. -/
def extensionRules (d : Document) : List Rule :=
  let used := Std.TreeSet.ofList d.extensionsUsed
  distinctRules ["extensionsUsed"] d.extensionsUsed ++
  distinctRules ["extensionsRequired"] d.extensionsRequired ++
  d.extensionsRequired.zipIdx.map fun (s, k) =>
    need (s ∈ used) ["extensionsRequired", k] (.mismatch (.requiredNotUsed s))

/-- The graph of the nodes. -/
def graph (d : Document) : Graph := ⟨d.nodes.map fun n => n.children.toArray⟩

/-- The check of the document itself under the given rules. -/
def ownCheck (rules : List Rule) : Option Violation :=
  (firstFault? rules).map fun f => ⟨.document, none, f⟩

/-- The check of the element at the given place of a collection under its rules. -/
def elementCheck (kind : EntityKind) (i : Nat) (rules : List Rule) : Option Violation :=
  (firstFault? rules).map fun f => ⟨kind, some i, f⟩

/-- The checks of the elements of a collection. -/
def elementChecks {α : Type} (kind : EntityKind) (xs : Array α) (rules : Nat → α → List Rule) :
    List (Option Violation) :=
  xs.toList.zipIdx.map fun (x, i) => elementCheck kind i (rules i x)

/-- The checks of all elements of all collections. -/
def entityChecks (c : Config) (d : Document) : List (Option Violation) :=
  elementChecks .accessor d.accessors (fun _ => Accessor.rules d) ++
  elementChecks .animation d.animations (fun _ => Animation.rules d) ++
  elementChecks .buffer d.buffers (fun _ => Buffer.rules) ++
  elementChecks .bufferView d.bufferViews (fun _ => BufferView.rules d) ++
  elementChecks .camera d.cameras (fun _ => Camera.rules) ++
  elementChecks .image d.images (fun _ => Image.rules d) ++
  elementChecks .material d.materials (fun _ => Material.rules d c.maxTexCoordSets) ++
  elementChecks .mesh d.meshes (fun _ => Mesh.rules d) ++
  elementChecks .node d.nodes (Node.rules d) ++
  elementChecks .sampler d.samplers (fun _ => Sampler.rules) ++
  elementChecks .scene d.scenes (fun _ => Scene.rules d) ++
  elementChecks .skin d.skins (fun _ => Skin.rules d) ++
  elementChecks .texture d.textures (fun _ => Texture.rules d)

/-- All checks in order, each with the violation that it found. -/
def checks (c : Config) (d : Document) : List (Option Violation) :=
  [ownCheck d.asset.rules, ownCheck d.sceneRules] ++
  d.entityChecks c ++
  (if c.checkHierarchy then [d.graph.violation?] else []) ++
  (if c.checkExtensions then [ownCheck d.extensionRules] else [])

/-- The violation that the first failed check found. -/
def violation? (c : Config) (d : Document) : Option Violation := (d.checks c).findSome? id

/-- A document is accepted if no check finds anything. -/
theorem violation?_eq_none_iff {c : Config} {d : Document} :
    d.violation? c = none ↔ ∀ v ∈ d.checks c, v = none := by
  simp [violation?]

end Document

end GltfAsset
