import GltfAsset.Check.Rule
import GltfAsset.Document.Basic

/-!
# The rules for geometry

What meshes have to satisfy, in the order in which it is looked at.
-/

namespace GltfAsset

open Check Rule

/-- The attribute that every primitive has. -/
def Attributes.position : String := "POSITION"

/-- The accessors of all attributes are there. -/
def Attributes.rules (d : Document) (as : Attributes) : List Rule :=
  as.map fun (k, i) => index [k] i d.accessors.size

/-- A primitive has positions. -/
def Primitive.rules (d : Document) (p : Primitive) : List Rule :=
  [need (Attributes.position ∈ p.attributes.map Prod.fst) ["attributes", Attributes.position]
    .missing] ++
  (Attributes.rules d p.attributes).map (within ["attributes"]) ++
  ifGiven p.indices (fun i => [index ["indices"] i d.accessors.size]) ++
  ifGiven p.material (fun i => [index ["material"] i d.materials.size]) ++
  ifGiven p.mode (fun n => [coded PrimitiveMode ["mode"] n]) ++
  each ["targets"] p.targets (Attributes.rules d)

/-- A mesh has primitives and, if it has weights, one for each morph target of the first of them. -/
def Mesh.rules (d : Document) (m : Mesh) : List Rule :=
  [nonempty ["primitives"] m.primitives] ++
  each ["primitives"] m.primitives (Primitive.rules d) ++
  ifGiven m.primitives.head? fun p =>
    ifGiven m.weights fun xs =>
      [need (xs.length = p.targets.length) ["weights"]
        (.mismatch (.weights xs.length p.targets.length))]

end GltfAsset
