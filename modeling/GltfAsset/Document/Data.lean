import GltfAsset.Json.Record

/-!
# Binary data

Buffers, the views of parts of them, and the accessors that give the bytes of a view a type.
References are indices into the collections of a document and, like all integers, kept as they are
written, in range or not.
-/

namespace GltfAsset

/-- A block of bytes, in a file of its own or inside the container. -/
structure Buffer where
  /-- Where the bytes are; absent if they are inside the container. -/
  uri : Option String := none
  /-- The number of bytes. -/
  byteLength : Int64 := 0
  /-- The name that people give it. -/
  name : Option String := none
  /-- Data for extensions of the format. -/
  extensions : Option Value := none
  /-- Data of the application. -/
  extras : Option Value := none
deriving DecidableEq

namespace Buffer

/-- The members of buffers in a text. -/
def schema : Json.Schema Buffer where
  name := "Buffer"
  initial := {}
  fields := [
    .optional "uri" .string (·.uri) fun x r => { r with uri := x },
    .always "byteLength" .integer (·.byteLength) fun x r => { r with byteLength := x },
    .optional "name" .string (·.name) fun x r => { r with name := x },
    .optional "extensions" .value (·.extensions) fun x r => { r with extensions := x },
    .optional "extras" .value (·.extras) fun x r => { r with extras := x }]

/-- How buffers are written and read. -/
def codec : Json.Codec Buffer := schema.codec

end Buffer

/-- A part of a buffer. -/
structure BufferView where
  /-- The buffer. -/
  buffer : Int64 := 0
  /-- Where the part starts. -/
  byteOffset : Option Int64 := none
  /-- The number of bytes. -/
  byteLength : Int64 := 0
  /-- The distance between the starts of consecutive elements. -/
  byteStride : Option Int64 := none
  /-- The code of the use the part is made for. -/
  target : Option Int64 := none
  /-- The name that people give it. -/
  name : Option String := none
  /-- Data for extensions of the format. -/
  extensions : Option Value := none
  /-- Data of the application. -/
  extras : Option Value := none
deriving DecidableEq

namespace BufferView

/-- The members of parts of buffers in a text. -/
def schema : Json.Schema BufferView where
  name := "BufferView"
  initial := {}
  fields := [
    .always "buffer" .integer (·.buffer) fun x r => { r with buffer := x },
    .optional "byteOffset" .integer (·.byteOffset) fun x r => { r with byteOffset := x },
    .always "byteLength" .integer (·.byteLength) fun x r => { r with byteLength := x },
    .optional "byteStride" .integer (·.byteStride) fun x r => { r with byteStride := x },
    .optional "target" .integer (·.target) fun x r => { r with target := x },
    .optional "name" .string (·.name) fun x r => { r with name := x },
    .optional "extensions" .value (·.extensions) fun x r => { r with extensions := x },
    .optional "extras" .value (·.extras) fun x r => { r with extras := x }]

/-- How parts of buffers are written and read. -/
def codec : Json.Codec BufferView := schema.codec

end BufferView

/-- Where the replaced elements of an accessor stand. -/
structure SparseIndices where
  /-- The buffer view with the indices. -/
  bufferView : Int64 := 0
  /-- Where they start in it. -/
  byteOffset : Option Int64 := none
  /-- The code of their type. -/
  componentType : Int64 := 0
  /-- Data for extensions of the format. -/
  extensions : Option Value := none
  /-- Data of the application. -/
  extras : Option Value := none
deriving DecidableEq

namespace SparseIndices

/-- The members of sparse indices in a text. -/
def schema : Json.Schema SparseIndices where
  name := "SparseIndices"
  initial := {}
  fields := [
    .always "bufferView" .integer (·.bufferView) fun x r => { r with bufferView := x },
    .optional "byteOffset" .integer (·.byteOffset) fun x r => { r with byteOffset := x },
    .always "componentType" .integer (·.componentType) fun x r => { r with componentType := x },
    .optional "extensions" .value (·.extensions) fun x r => { r with extensions := x },
    .optional "extras" .value (·.extras) fun x r => { r with extras := x }]

/-- How sparse indices are written and read. -/
def codec : Json.Codec SparseIndices := schema.codec

end SparseIndices

/-- The elements that replace others of an accessor. -/
structure SparseValues where
  /-- The buffer view with the elements. -/
  bufferView : Int64 := 0
  /-- Where they start in it. -/
  byteOffset : Option Int64 := none
  /-- Data for extensions of the format. -/
  extensions : Option Value := none
  /-- Data of the application. -/
  extras : Option Value := none
deriving DecidableEq

namespace SparseValues

/-- The members of sparse values in a text. -/
def schema : Json.Schema SparseValues where
  name := "SparseValues"
  initial := {}
  fields := [
    .always "bufferView" .integer (·.bufferView) fun x r => { r with bufferView := x },
    .optional "byteOffset" .integer (·.byteOffset) fun x r => { r with byteOffset := x },
    .optional "extensions" .value (·.extensions) fun x r => { r with extensions := x },
    .optional "extras" .value (·.extras) fun x r => { r with extras := x }]

/-- How sparse values are written and read. -/
def codec : Json.Codec SparseValues := schema.codec

end SparseValues

/-- The elements of an accessor that differ from its buffer view. -/
structure Sparse where
  /-- The number of such elements. -/
  count : Int64 := 0
  /-- Where they stand. -/
  indices : SparseIndices := {}
  /-- What they are. -/
  values : SparseValues := {}
  /-- Data for extensions of the format. -/
  extensions : Option Value := none
  /-- Data of the application. -/
  extras : Option Value := none
deriving DecidableEq

namespace Sparse

/-- The members of sparse overlays in a text. -/
def schema : Json.Schema Sparse where
  name := "Sparse"
  initial := {}
  fields := [
    .always "count" .integer (·.count) fun x r => { r with count := x },
    .always "indices" SparseIndices.codec (·.indices) fun x r => { r with indices := x },
    .always "values" SparseValues.codec (·.values) fun x r => { r with values := x },
    .optional "extensions" .value (·.extensions) fun x r => { r with extensions := x },
    .optional "extras" .value (·.extras) fun x r => { r with extras := x }]

/-- How sparse overlays are written and read. -/
def codec : Json.Codec Sparse := schema.codec

end Sparse

/-- A sequence of numbers, vectors or matrices in a buffer view. -/
structure Accessor where
  /-- The buffer view; absent if all elements are zero. -/
  bufferView : Option Int64 := none
  /-- Where the elements start in it. -/
  byteOffset : Option Int64 := none
  /-- The code of the type of the components. -/
  componentType : Int64 := 0
  /-- Whether integers stand for fractions. -/
  normalized : Option Bool := none
  /-- The number of elements. -/
  count : Int64 := 0
  /-- The name of the type of the elements. -/
  type : String := ""
  /-- The greatest value of each component. -/
  max : Option (List Single) := none
  /-- The least value of each component. -/
  min : Option (List Single) := none
  /-- The elements that differ from the buffer view. -/
  sparse : Option Sparse := none
  /-- The name that people give it. -/
  name : Option String := none
  /-- Data for extensions of the format. -/
  extensions : Option Value := none
  /-- Data of the application. -/
  extras : Option Value := none
deriving DecidableEq

namespace Accessor

/-- The members of accessors in a text. -/
def schema : Json.Schema Accessor where
  name := "Accessor"
  initial := {}
  fields := [
    .optional "bufferView" .integer (·.bufferView) fun x r => { r with bufferView := x },
    .optional "byteOffset" .integer (·.byteOffset) fun x r => { r with byteOffset := x },
    .always "componentType" .integer (·.componentType) fun x r => { r with componentType := x },
    .optional "normalized" .boolean (·.normalized) fun x r => { r with normalized := x },
    .always "count" .integer (·.count) fun x r => { r with count := x },
    .always "type" .string (·.type) fun x r => { r with type := x },
    .optional "max" (.list .single) (·.max) fun x r => { r with max := x },
    .optional "min" (.list .single) (·.min) fun x r => { r with min := x },
    .optional "sparse" Sparse.codec (·.sparse) fun x r => { r with sparse := x },
    .optional "name" .string (·.name) fun x r => { r with name := x },
    .optional "extensions" .value (·.extensions) fun x r => { r with extensions := x },
    .optional "extras" .value (·.extras) fun x r => { r with extras := x }]

/-- How accessors are written and read. -/
def codec : Json.Codec Accessor := schema.codec

end Accessor

end GltfAsset
