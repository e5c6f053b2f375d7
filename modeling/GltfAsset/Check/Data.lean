import GltfAsset.Check.Rule
import GltfAsset.Document.Basic

/-!
# The rules for binary data

What buffers, buffer views and accessors have to satisfy, in the order in which it is looked at.
-/

namespace GltfAsset

open Check Rule

/-- A buffer is not empty. -/
def Buffer.rules (b : Buffer) : List Rule := [atLeastOne ["byteLength"] b.byteLength]

namespace BufferView

/-- The least distance between consecutive elements. -/
def minStride : Int := 4

/-- The greatest distance between consecutive elements. -/
def maxStride : Int := 252

/-- Where the part starts; at the front of the buffer if nothing is said. -/
def offset (v : BufferView) : Int64 := v.byteOffset.getD 0

/-- A buffer view is a part of its buffer that is not empty. A distance of zero counts as none. -/
def rules (d : Document) (v : BufferView) : List Rule :=
  [index ["buffer"] v.buffer d.buffers.size,
    nonNegative ["byteOffset"] v.offset,
    atLeastOne ["byteLength"] v.byteLength] ++
  ifGiven (lookup? d.buffers v.buffer) (fun b =>
    [need (v.offset.toInt + v.byteLength.toInt ≤ b.byteLength.toInt) ["byteLength"]
      (.mismatch (.beyondBuffer v.byteLength v.offset v.buffer b.byteLength))]) ++
  ifGiven v.byteStride (fun n =>
    [integer (fun n => n = 0 ∨ minStride ≤ n ∧ n ≤ maxStride) ["byteStride"] n]) ++
  ifGiven v.target (fun n => [codedOrZero BufferTarget ["target"] n])

end BufferView

namespace Accessor

/-- The replaced elements are some of those of the accessor, and their places are unsigned
integers. -/
def sparseRules (d : Document) (count : Int64) (s : Sparse) : List Rule :=
  [integer (fun n => 1 ≤ n ∧ n ≤ count.toInt) ["count"] s.count,
    index ["indices", "bufferView"] s.indices.bufferView d.bufferViews.size] ++
  ifGiven s.indices.byteOffset (fun n => [nonNegative ["indices", "byteOffset"] n]) ++
  [need (∃ t ∈ Coded.ofCode? ComponentType s.indices.componentType, t.isUnsignedInteger = true)
      ["indices", "componentType"] (.invalidCode s.indices.componentType),
    index ["values", "bufferView"] s.values.bufferView d.bufferViews.size] ++
  ifGiven s.values.byteOffset fun n => [nonNegative ["values", "byteOffset"] n]

/-- A bound has one value for each component. -/
def boundRule (field : Field) (type : AccessorType) (values : List Single) : Rule :=
  need (values.length = type.components) field (.mismatch (.components values.length type))

/-- An accessor has elements of a known type. -/
def rules (d : Document) (a : Accessor) : List Rule :=
  ifGiven a.bufferView (fun i => [index ["bufferView"] i d.bufferViews.size]) ++
  ifGiven a.byteOffset (fun n => [nonNegative ["byteOffset"] n]) ++
  [coded ComponentType ["componentType"] a.componentType,
    atLeastOne ["count"] a.count,
    named AccessorType ["type"] a.type] ++
  ifGiven a.sparse (fun s => (sparseRules d a.count s).map (within ["sparse"])) ++
  ifGiven (Named.ofName? AccessorType a.type) fun t =>
    ifGiven a.min (fun xs => [boundRule ["min"] t xs]) ++
    ifGiven a.max (fun xs => [boundRule ["max"] t xs])

end Accessor

end GltfAsset
