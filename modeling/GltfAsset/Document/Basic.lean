import GltfAsset.Document.Appearance
import GltfAsset.Document.Data
import GltfAsset.Document.Geometry
import GltfAsset.Document.Hierarchy
import GltfAsset.Document.Motion

/-!
# Documents

A document holds every entity in a collection of its own. `Document.decode` reads the JSON text of
one and `Document.encode` writes it.
-/

namespace GltfAsset

/-- What is said about the document as a whole. -/
structure Asset where
  /-- Who may be credited. -/
  copyright : Option String := none
  /-- The program that made it. -/
  generator : Option String := none
  /-- The version of the format. -/
  version : String := ""
  /-- The least version of the format that a reader must know. -/
  minVersion : Option String := none
  /-- Data for extensions of the format. -/
  extensions : Option Value := none
  /-- Data of the application. -/
  extras : Option Value := none
deriving DecidableEq

namespace Asset

/-- The members of assets in a text. -/
def schema : Json.Schema Asset where
  name := "Asset"
  initial := {}
  fields := [
    .optional "copyright" .string (·.copyright) fun x r => { r with copyright := x },
    .optional "generator" .string (·.generator) fun x r => { r with generator := x },
    .always "version" .string (·.version) fun x r => { r with version := x },
    .optional "minVersion" .string (·.minVersion) fun x r => { r with minVersion := x },
    .optional "extensions" .value (·.extensions) fun x r => { r with extensions := x },
    .optional "extras" .value (·.extras) fun x r => { r with extras := x }]

/-- How assets are written and read. -/
def codec : Json.Codec Asset := schema.codec

end Asset

/-- A whole document: one collection for each kind of entity, in which entities are named by their
places. -/
structure Document where
  /-- The extensions that occur. -/
  extensionsUsed : List String := []
  /-- The extensions that a reader must know. -/
  extensionsRequired : List String := []
  /-- The accessors. -/
  accessors : Array Accessor := #[]
  /-- The animations. -/
  animations : Array Animation := #[]
  /-- What is said about the document. -/
  asset : Asset := {}
  /-- The buffers. -/
  buffers : Array Buffer := #[]
  /-- The buffer views. -/
  bufferViews : Array BufferView := #[]
  /-- The cameras. -/
  cameras : Array Camera := #[]
  /-- The images. -/
  images : Array Image := #[]
  /-- The materials. -/
  materials : Array Material := #[]
  /-- The meshes. -/
  meshes : Array Mesh := #[]
  /-- The nodes. -/
  nodes : Array Node := #[]
  /-- The samplers. -/
  samplers : Array Sampler := #[]
  /-- The scene that is shown first. -/
  scene : Option Int64 := none
  /-- The scenes. -/
  scenes : Array Scene := #[]
  /-- The skins. -/
  skins : Array Skin := #[]
  /-- The textures. -/
  textures : Array Texture := #[]
  /-- Data for extensions of the format. -/
  extensions : Option Value := none
  /-- Data of the application. -/
  extras : Option Value := none
deriving DecidableEq

namespace Document

/-- The members of documents in a text. -/
def schema : Json.Schema Document where
  name := "Document"
  initial := {}
  fields := [
    .many "extensionsUsed" .string (·.extensionsUsed) fun x r => { r with extensionsUsed := x },
    .many "extensionsRequired" .string (·.extensionsRequired)
      fun x r => { r with extensionsRequired := x },
    .collection "accessors" Accessor.codec (·.accessors) fun x r => { r with accessors := x },
    .collection "animations" Animation.codec (·.animations) fun x r => { r with animations := x },
    .always "asset" Asset.codec (·.asset) fun x r => { r with asset := x },
    .collection "buffers" Buffer.codec (·.buffers) fun x r => { r with buffers := x },
    .collection "bufferViews" BufferView.codec (·.bufferViews)
      fun x r => { r with bufferViews := x },
    .collection "cameras" Camera.codec (·.cameras) fun x r => { r with cameras := x },
    .collection "images" Image.codec (·.images) fun x r => { r with images := x },
    .collection "materials" Material.codec (·.materials) fun x r => { r with materials := x },
    .collection "meshes" Mesh.codec (·.meshes) fun x r => { r with meshes := x },
    .collection "nodes" Node.codec (·.nodes) fun x r => { r with nodes := x },
    .collection "samplers" Sampler.codec (·.samplers) fun x r => { r with samplers := x },
    .optional "scene" .integer (·.scene) fun x r => { r with scene := x },
    .collection "scenes" Scene.codec (·.scenes) fun x r => { r with scenes := x },
    .collection "skins" Skin.codec (·.skins) fun x r => { r with skins := x },
    .collection "textures" Texture.codec (·.textures) fun x r => { r with textures := x },
    .optional "extensions" .value (·.extensions) fun x r => { r with extensions := x },
    .optional "extras" .value (·.extras) fun x r => { r with extras := x }]

/-- How documents are written and read. -/
def codec : Json.Codec Document := schema.codec

end Document

namespace Document

/-- A document without entities, of version 2.0. -/
def new : Document := { asset := { version := "2.0" } }

/-- The text of a document. -/
def encode (l : Json.Layout) (d : Document) : Bytes := (codec.toJson d).render l

/-- Reads a document from its text. Members that are not known are passed over; whether references,
codes and names make sense is not looked at. -/
def decode (text : Bytes) : Except Json.Error Document :=
  (codec.reader Json.maxNesting).all text

end Document

end GltfAsset
