import GltfAsset.Json.Record

/-!
# Hierarchy

Cameras, nodes and scenes.
-/

namespace GltfAsset

/-- A camera without foreshortening. -/
structure Orthographic where
  /-- Half of the width. -/
  xmag : Single := 0
  /-- Half of the height. -/
  ymag : Single := 0
  /-- The distance of the far plane. -/
  zfar : Single := 0
  /-- The distance of the near plane. -/
  znear : Single := 0
  /-- Data for extensions of the format. -/
  extensions : Option Value := none
  /-- Data of the application. -/
  extras : Option Value := none
deriving DecidableEq

namespace Orthographic

/-- The members of orthographic cameras in a text. -/
def schema : Json.Schema Orthographic where
  name := "Orthographic"
  initial := {}
  fields := [
    .always "xmag" .single (·.xmag) fun x r => { r with xmag := x },
    .always "ymag" .single (·.ymag) fun x r => { r with ymag := x },
    .always "zfar" .single (·.zfar) fun x r => { r with zfar := x },
    .always "znear" .single (·.znear) fun x r => { r with znear := x },
    .optional "extensions" .value (·.extensions) fun x r => { r with extensions := x },
    .optional "extras" .value (·.extras) fun x r => { r with extras := x }]

/-- How orthographic cameras are written and read. -/
def codec : Json.Codec Orthographic := schema.codec

end Orthographic

/-- A camera with foreshortening. -/
structure Perspective where
  /-- The width by the height. -/
  aspectRatio : Option Single := none
  /-- The vertical field of view, in radians. -/
  yfov : Single := 0
  /-- The distance of the far plane. -/
  zfar : Option Single := none
  /-- The distance of the near plane. -/
  znear : Single := 0
  /-- Data for extensions of the format. -/
  extensions : Option Value := none
  /-- Data of the application. -/
  extras : Option Value := none
deriving DecidableEq

namespace Perspective

/-- The members of perspective cameras in a text. -/
def schema : Json.Schema Perspective where
  name := "Perspective"
  initial := {}
  fields := [
    .optional "aspectRatio" .single (·.aspectRatio) fun x r => { r with aspectRatio := x },
    .always "yfov" .single (·.yfov) fun x r => { r with yfov := x },
    .optional "zfar" .single (·.zfar) fun x r => { r with zfar := x },
    .always "znear" .single (·.znear) fun x r => { r with znear := x },
    .optional "extensions" .value (·.extensions) fun x r => { r with extensions := x },
    .optional "extras" .value (·.extras) fun x r => { r with extras := x }]

/-- How perspective cameras are written and read. -/
def codec : Json.Codec Perspective := schema.codec

end Perspective

/-- A camera of either kind. -/
structure Camera where
  /-- The orthographic projection. -/
  orthographic : Option Orthographic := none
  /-- The perspective projection. -/
  perspective : Option Perspective := none
  /-- The name of the kind. -/
  type : String := ""
  /-- The name that people give it. -/
  name : Option String := none
  /-- Data for extensions of the format. -/
  extensions : Option Value := none
  /-- Data of the application. -/
  extras : Option Value := none
deriving DecidableEq

namespace Camera

/-- The members of cameras in a text. -/
def schema : Json.Schema Camera where
  name := "Camera"
  initial := {}
  fields := [
    .optional "orthographic" Orthographic.codec (·.orthographic)
      fun x r => { r with orthographic := x },
    .optional "perspective" Perspective.codec (·.perspective)
      fun x r => { r with perspective := x },
    .always "type" .string (·.type) fun x r => { r with type := x },
    .optional "name" .string (·.name) fun x r => { r with name := x },
    .optional "extensions" .value (·.extensions) fun x r => { r with extensions := x },
    .optional "extras" .value (·.extras) fun x r => { r with extras := x }]

/-- How cameras are written and read. -/
def codec : Json.Codec Camera := schema.codec

end Camera

/-- A place in the hierarchy, with what stands there. -/
structure Node where
  /-- The camera. -/
  camera : Option Int64 := none
  /-- The nodes below. -/
  children : List Int64 := []
  /-- The skin. -/
  skin : Option Int64 := none
  /-- The transformation, column by column. -/
  matrix : Option (Vector Single 16) := none
  /-- The mesh. -/
  mesh : Option Int64 := none
  /-- The rotation, as a quaternion. -/
  rotation : Option (Vector Single 4) := none
  /-- The scale. -/
  scale : Option (Vector Single 3) := none
  /-- The translation. -/
  translation : Option (Vector Single 3) := none
  /-- The weights of the morph targets. -/
  weights : Option (List Single) := none
  /-- The name that people give it. -/
  name : Option String := none
  /-- Data for extensions of the format. -/
  extensions : Option Value := none
  /-- Data of the application. -/
  extras : Option Value := none
deriving DecidableEq

namespace Node

/-- The members of nodes in a text. -/
def schema : Json.Schema Node where
  name := "Node"
  initial := {}
  fields := [
    .optional "camera" .integer (·.camera) fun x r => { r with camera := x },
    .many "children" .integer (·.children) fun x r => { r with children := x },
    .optional "skin" .integer (·.skin) fun x r => { r with skin := x },
    .optional "matrix" (.vector 16 .single) (·.matrix) fun x r => { r with matrix := x },
    .optional "mesh" .integer (·.mesh) fun x r => { r with mesh := x },
    .optional "rotation" (.vector 4 .single) (·.rotation) fun x r => { r with rotation := x },
    .optional "scale" (.vector 3 .single) (·.scale) fun x r => { r with scale := x },
    .optional "translation" (.vector 3 .single) (·.translation)
      fun x r => { r with translation := x },
    .optional "weights" (.list .single) (·.weights) fun x r => { r with weights := x },
    .optional "name" .string (·.name) fun x r => { r with name := x },
    .optional "extensions" .value (·.extensions) fun x r => { r with extensions := x },
    .optional "extras" .value (·.extras) fun x r => { r with extras := x }]

/-- How nodes are written and read. -/
def codec : Json.Codec Node := schema.codec

end Node

/-- Whether the transformation is given in parts: translation, rotation or scale. -/
def Node.hasParts (n : Node) : Bool :=
  n.translation.isSome || n.rotation.isSome || n.scale.isSome

/-- The roots of what is shown together. -/
structure Scene where
  /-- The root nodes. -/
  nodes : List Int64 := []
  /-- The name that people give it. -/
  name : Option String := none
  /-- Data for extensions of the format. -/
  extensions : Option Value := none
  /-- Data of the application. -/
  extras : Option Value := none
deriving DecidableEq

namespace Scene

/-- The members of scenes in a text. -/
def schema : Json.Schema Scene where
  name := "Scene"
  initial := {}
  fields := [
    .many "nodes" .integer (·.nodes) fun x r => { r with nodes := x },
    .optional "name" .string (·.name) fun x r => { r with name := x },
    .optional "extensions" .value (·.extensions) fun x r => { r with extensions := x },
    .optional "extras" .value (·.extras) fun x r => { r with extras := x }]

/-- How scenes are written and read. -/
def codec : Json.Codec Scene := schema.codec

end Scene

end GltfAsset
