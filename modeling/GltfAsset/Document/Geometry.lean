import GltfAsset.Json.Record

/-!
# Geometry

Meshes, their primitives, and the attributes of vertices. Attributes are kept in the order in which
their names first occur.
-/

namespace GltfAsset

/-- Accessors by the names of vertex attributes, in order. -/
abbrev Attributes := List (String × Int64)

namespace Attributes

/-- Gives an attribute its accessor: in its place if the name is there, at the end if not. -/
def put (name : String) (accessor : Int64) : Attributes → Attributes
  | [] => [(name, accessor)]
  | (k, a) :: as => if k = name then (k, accessor) :: as else (k, a) :: put name accessor as

/-- The attributes that are given one after the other: each name in the place of its first
occurrence, with the accessor of its last. -/
def ofEntries (es : List (String × Int64)) : Attributes :=
  es.foldl (fun as e => put e.1 e.2 as) []

/-- How attributes are written and read. -/
def codec : Json.Codec Attributes := .map ofEntries .integer

end Attributes

/-- A part of a mesh that is drawn at once. -/
structure Primitive where
  /-- The accessors of the vertex attributes. -/
  attributes : Attributes := []
  /-- The accessor of the vertex indices. -/
  indices : Option Int64 := none
  /-- The material. -/
  material : Option Int64 := none
  /-- The code of the way in which vertices are joined. -/
  mode : Option Int64 := none
  /-- The morph targets. -/
  targets : List Attributes := []
  /-- Data for extensions of the format. -/
  extensions : Option Value := none
  /-- Data of the application. -/
  extras : Option Value := none
deriving DecidableEq

namespace Primitive

/-- The members of primitives in a text. -/
def schema : Json.Schema Primitive where
  name := "Primitive"
  initial := {}
  fields := [
    .always "attributes" Attributes.codec (·.attributes) fun x r => { r with attributes := x },
    .optional "indices" .integer (·.indices) fun x r => { r with indices := x },
    .optional "material" .integer (·.material) fun x r => { r with material := x },
    .optional "mode" .integer (·.mode) fun x r => { r with mode := x },
    .many "targets" Attributes.codec (·.targets) fun x r => { r with targets := x },
    .optional "extensions" .value (·.extensions) fun x r => { r with extensions := x },
    .optional "extras" .value (·.extras) fun x r => { r with extras := x }]

/-- How primitives are written and read. -/
def codec : Json.Codec Primitive := schema.codec

end Primitive

/-- A set of primitives. -/
structure Mesh where
  /-- The primitives. -/
  primitives : List Primitive := []
  /-- The weights of the morph targets. -/
  weights : Option (List Single) := none
  /-- The name that people give it. -/
  name : Option String := none
  /-- Data for extensions of the format. -/
  extensions : Option Value := none
  /-- Data of the application. -/
  extras : Option Value := none
deriving DecidableEq

namespace Mesh

/-- The members of meshes in a text. -/
def schema : Json.Schema Mesh where
  name := "Mesh"
  initial := {}
  fields := [
    .always "primitives" (.list Primitive.codec) (·.primitives)
      fun x r => { r with primitives := x },
    .optional "weights" (.list .single) (·.weights) fun x r => { r with weights := x },
    .optional "name" .string (·.name) fun x r => { r with name := x },
    .optional "extensions" .value (·.extensions) fun x r => { r with extensions := x },
    .optional "extras" .value (·.extras) fun x r => { r with extras := x }]

/-- How meshes are written and read. -/
def codec : Json.Codec Mesh := schema.codec

end Mesh

end GltfAsset
