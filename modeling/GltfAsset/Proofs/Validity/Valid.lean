import GltfAsset.Check.Document
import GltfAsset.Proofs.Hierarchy.Forest

/-!
# Valid documents

What a document has to satisfy, entity by entity and apart from the order in which it is looked at
and from what is said if it does not hold. Codes and names are written out here, so that the
enumerations are checked against them, and sums are taken without bound. Floats are compared as
floats: a NaN is in no range.
-/

namespace GltfAsset

namespace Check

/-- An index names the given one of some entities. -/
def Names {α : Type} (xs : Array α) (i : Int64) (x : α) : Prop :=
  ∃ k : Nat, i.toInt = k ∧ xs[k]? = some x

/-- The indices in a list name distinct ones of `n` entities. -/
def AllDistinct (is : List Int64) (n : Nat) : Prop := (∀ i ∈ is, InRange i n) ∧ is.Nodup

/-- A factor is from zero to one. -/
def IsFraction (x : Single) : Prop := 0 ≤ x ∧ x ≤ 1

end Check

open Check

/-- What is said about the document. -/
structure Asset.Valid (a : Asset) : Prop where
  /-- The version is a number from `2` to below `3`. -/
  version : ∃ x, Double.ofText? a.version = some x ∧ 2 ≤ x ∧ x < 3
  /-- The least version is no number from `3` on. -/
  minVersion : ∀ s ∈ a.minVersion, ∀ x, Double.ofText? s = some x → ¬ 3 ≤ x

/-! ## Binary data -/

/-- The elements of an accessor with `count` elements that are replaced. -/
structure Sparse.Valid (d : Document) (count : Int64) (s : Sparse) : Prop where
  /-- Some are replaced, and no more than there are. -/
  count : 1 ≤ s.count.toInt ∧ s.count.toInt ≤ count.toInt
  /-- Their places are in a buffer view. -/
  indicesView : InRange s.indices.bufferView d.bufferViews.size
  /-- Their places start in it. -/
  indicesOffset : ∀ n ∈ s.indices.byteOffset, 0 ≤ n.toInt
  /-- Their places are integers without sign, of one, two or four bytes. -/
  indicesType : s.indices.componentType ∈ [5121, 5123, 5125]
  /-- Their values are in a buffer view. -/
  valuesView : InRange s.values.bufferView d.bufferViews.size
  /-- Their values start in it. -/
  valuesOffset : ∀ n ∈ s.values.byteOffset, 0 ≤ n.toInt

/-- The types of the elements of an accessor with their numbers of components. -/
def Accessor.shapes : List (String × Nat) :=
  [("SCALAR", 1), ("VEC2", 2), ("VEC3", 3), ("VEC4", 4), ("MAT2", 4), ("MAT3", 9), ("MAT4", 16)]

/-- Accessors. -/
structure Accessor.Valid (d : Document) (a : Accessor) : Prop where
  /-- The elements are in a buffer view, if they are in one. -/
  bufferView : ∀ i ∈ a.bufferView, InRange i d.bufferViews.size
  /-- They start in it. -/
  byteOffset : ∀ n ∈ a.byteOffset, 0 ≤ n.toInt
  /-- The type of the components is known. -/
  componentType : a.componentType ∈ [5120, 5121, 5122, 5123, 5125, 5126]
  /-- There are elements. -/
  count : 1 ≤ a.count.toInt
  /-- The type of the elements is known. -/
  type : ∃ n, (a.type, n) ∈ shapes
  /-- What is replaced is valid. -/
  sparse : ∀ s ∈ a.sparse, s.Valid d a.count
  /-- The lower bound has the components of an element. -/
  min : ∀ xs ∈ a.min, (a.type, xs.length) ∈ shapes
  /-- The upper bound has the components of an element. -/
  max : ∀ xs ∈ a.max, (a.type, xs.length) ∈ shapes

/-- Buffers. -/
structure Buffer.Valid (b : Buffer) : Prop where
  /-- There are bytes. -/
  byteLength : 1 ≤ b.byteLength.toInt

/-- Buffer views. -/
structure BufferView.Valid (d : Document) (v : BufferView) : Prop where
  /-- The part starts in the buffer, at its front if nothing is said. -/
  byteOffset : 0 ≤ (v.byteOffset.getD 0).toInt
  /-- There are bytes. -/
  byteLength : 1 ≤ v.byteLength.toInt
  /-- The buffer is there, and the part ends in it. -/
  buffer : ∃ b, Names d.buffers v.buffer b ∧
    (v.byteOffset.getD 0).toInt + v.byteLength.toInt ≤ b.byteLength.toInt
  /-- The distance between elements is none, or from four bytes to 252. -/
  byteStride : ∀ n ∈ v.byteStride, n.toInt = 0 ∨ 4 ≤ n.toInt ∧ n.toInt ≤ 252
  /-- The use is open or known. -/
  target : ∀ n ∈ v.target, n ∈ [0, 34962, 34963]

/-! ## Motion -/

/-- Channels of an animation with the given number of samplers. -/
structure Channel.Valid (d : Document) (samplers : Nat) (c : Channel) : Prop where
  /-- The sampler is one of the same animation. -/
  sampler : InRange c.sampler samplers
  /-- The node is there. -/
  node : ∀ i ∈ c.target.node, InRange i d.nodes.size
  /-- The property can be moved. -/
  path : c.target.path ∈ ["translation", "rotation", "scale", "weights"]

/-- Samplers of animations. -/
structure AnimationSampler.Valid (d : Document) (s : AnimationSampler) : Prop where
  /-- The points in time are there. -/
  input : InRange s.input d.accessors.size
  /-- The way between the values is known. -/
  interpolation : ∀ t ∈ s.interpolation, t ∈ ["LINEAR", "STEP", "CUBICSPLINE"]
  /-- The values are there. -/
  output : InRange s.output d.accessors.size

/-- Animations. -/
structure Animation.Valid (d : Document) (a : Animation) : Prop where
  /-- There are channels. -/
  someChannel : a.channels ≠ []
  /-- There are samplers. -/
  someSampler : a.samplers ≠ []
  /-- The channels are valid. -/
  channels : ∀ c ∈ a.channels, c.Valid d a.samplers.length
  /-- The samplers are valid. -/
  samplers : ∀ s ∈ a.samplers, s.Valid d

/-- Skins. -/
structure Skin.Valid (d : Document) (s : Skin) : Prop where
  /-- The matrices are there, and at least one for each joint. -/
  inverseBindMatrices : ∀ i ∈ s.inverseBindMatrices, ∃ a, Names d.accessors i a ∧
    a.type = "MAT4" ∧ s.joints.length ≤ a.count.toInt
  /-- The root of the skeleton is there. -/
  skeleton : ∀ i ∈ s.skeleton, InRange i d.nodes.size
  /-- There are joints. -/
  someJoint : s.joints ≠ []
  /-- The joints are there and distinct. -/
  joints : AllDistinct s.joints d.nodes.size

/-! ## Hierarchy -/

/-- Projections without foreshortening. -/
structure Orthographic.Valid (o : Orthographic) : Prop where
  /-- There is width. -/
  xmag : 0 < o.xmag
  /-- There is height. -/
  ymag : 0 < o.ymag
  /-- The far plane is not at zero, and behind the near one. -/
  zfar : ¬ o.zfar.Same 0 ∧ o.znear < o.zfar

/-- Projections with foreshortening. -/
structure Perspective.Valid (p : Perspective) : Prop where
  /-- There is width and height. -/
  aspectRatio : ∀ x ∈ p.aspectRatio, 0 < x
  /-- Less than half of all is seen; the angle is compared with that of a half turn as a 64-bit
  float. -/
  yfov : p.yfov.convert .double < halfTurn
  /-- The near plane is in front. -/
  znear : 0 < p.znear
  /-- The far plane is none, or behind the near one. -/
  zfar : ∀ z ∈ p.zfar, z.Same 0 ∨ p.znear < z

/-- Cameras. -/
structure Camera.Valid (c : Camera) : Prop where
  /-- The kind is known. -/
  type : c.type ∈ ["perspective", "orthographic"]
  /-- A camera without foreshortening has the projection of this kind and not the other. -/
  orthographic : c.type = "orthographic" → c.perspective = none ∧ ∃ o ∈ c.orthographic, o.Valid
  /-- A camera with foreshortening has the projection of this kind and not the other. -/
  perspective : c.type = "perspective" → c.orthographic = none ∧ ∃ p ∈ c.perspective, p.Valid

/-- The node at the given place. -/
structure Node.Valid (d : Document) (place : Nat) (n : Node) : Prop where
  /-- The camera is there. -/
  camera : ∀ i ∈ n.camera, InRange i d.cameras.size
  /-- The skin is there. -/
  skin : ∀ i ∈ n.skin, InRange i d.skins.size
  /-- The mesh is there. -/
  mesh : ∀ i ∈ n.mesh, InRange i d.meshes.size
  /-- The transformation is not given both as a whole and in parts. -/
  transformation : n.matrix = none ∨ n.translation = none ∧ n.rotation = none ∧ n.scale = none
  /-- The children are there and distinct. -/
  children : AllDistinct n.children d.nodes.size
  /-- None of the children is the node itself. -/
  notOwnChild : ∀ i ∈ n.children, i.toInt ≠ place

/-- Scenes. -/
structure Scene.Valid (d : Document) (s : Scene) : Prop where
  /-- The roots are there and distinct. -/
  nodes : AllDistinct s.nodes d.nodes.size

/-! ## Geometry -/

/-- Primitives. -/
structure Primitive.Valid (d : Document) (p : Primitive) : Prop where
  /-- There are positions. -/
  position : ∃ i, ("POSITION", i) ∈ p.attributes
  /-- The values of the attributes are there. -/
  attributes : ∀ e ∈ p.attributes, InRange e.2 d.accessors.size
  /-- The indices are there. -/
  indices : ∀ i ∈ p.indices, InRange i d.accessors.size
  /-- The material is there. -/
  material : ∀ i ∈ p.material, InRange i d.materials.size
  /-- The way in which vertices are joined is known. -/
  mode : ∀ n ∈ p.mode, n ∈ [0, 1, 2, 3, 4, 5, 6]
  /-- The values of the attributes of the morph targets are there. -/
  targets : ∀ t ∈ p.targets, ∀ e ∈ t, InRange e.2 d.accessors.size

/-- Meshes. -/
structure Mesh.Valid (d : Document) (m : Mesh) : Prop where
  /-- There are primitives. -/
  somePrimitive : m.primitives ≠ []
  /-- The primitives are valid. -/
  primitives : ∀ p ∈ m.primitives, p.Valid d
  /-- There is one weight for each morph target of the first primitive. -/
  weights : ∀ xs ∈ m.weights, ∀ p ∈ m.primitives.head?, xs.length = p.targets.length

/-! ## Appearance -/

/-- Images. -/
structure Image.Valid (d : Document) (i : Image) : Prop where
  /-- The image is in a file, for which an empty text does not count, or in a buffer view, and not
  in both. -/
  source : (∃ s ∈ i.uri, s ≠ "") ↔ i.bufferView = none
  /-- The buffer view is there. -/
  bufferView : ∀ v ∈ i.bufferView, InRange v d.bufferViews.size
  /-- In a buffer view it has a known media type. -/
  mimeType : i.bufferView ≠ none → ∃ s ∈ i.mimeType, s ∈ ["image/jpeg", "image/png"]

/-- Samplers of textures. -/
structure Sampler.Valid (s : Sampler) : Prop where
  /-- The filter for magnification is open or known. -/
  magFilter : ∀ n ∈ s.magFilter, n ∈ [0, 9728, 9729]
  /-- The filter for reduction is open or known. -/
  minFilter : ∀ n ∈ s.minFilter, n ∈ [0, 9728, 9729, 9984, 9985, 9986, 9987]
  /-- The continuation in the first direction is open or known. -/
  wrapS : ∀ n ∈ s.wrapS, n ∈ [0, 33071, 33648, 10497]
  /-- The continuation in the second direction is open or known. -/
  wrapT : ∀ n ∈ s.wrapT, n ∈ [0, 33071, 33648, 10497]

/-- Textures. -/
structure Texture.Valid (d : Document) (t : Texture) : Prop where
  /-- The sampler is there. -/
  sampler : ∀ i ∈ t.sampler, InRange i d.samplers.size
  /-- The image is there. -/
  source : ∀ i ∈ t.source, InRange i d.images.size

/-- Uses of a texture, where the first `sets` sets of texture coordinates may be used. -/
structure Material.UseValid (d : Document) (sets : Nat) (texture : Int64)
    (texCoord : Option Int64) : Prop where
  /-- The texture is there. -/
  index : InRange texture d.textures.size
  /-- The set of texture coordinates may be used. -/
  texCoord : ∀ n ∈ texCoord, 0 ≤ n.toInt ∧ n.toInt < sets

/-- Metallic-roughness parameters. -/
structure MetallicRoughness.Valid (d : Document) (sets : Nat) (m : MetallicRoughness) : Prop where
  /-- The factors of the base colour are fractions. -/
  baseColorFactor : ∀ xs ∈ m.baseColorFactor, ∀ x ∈ xs, IsFraction x
  /-- The texture of the base colour is valid. -/
  baseColorTexture : ∀ t ∈ m.baseColorTexture, Material.UseValid d sets t.index t.texCoord
  /-- The factor of the metalness is a fraction. -/
  metallicFactor : ∀ x ∈ m.metallicFactor, IsFraction x
  /-- The factor of the roughness is a fraction. -/
  roughnessFactor : ∀ x ∈ m.roughnessFactor, IsFraction x
  /-- The texture of both is valid. -/
  metallicRoughnessTexture :
    ∀ t ∈ m.metallicRoughnessTexture, Material.UseValid d sets t.index t.texCoord

/-- Materials, where the first `sets` sets of texture coordinates may be used. -/
structure Material.Valid (d : Document) (sets : Nat) (m : Material) : Prop where
  /-- The metallic-roughness parameters are valid. -/
  metallicRoughness : ∀ p ∈ m.metallicRoughness, p.Valid d sets
  /-- The texture of the normals is valid. -/
  normalTexture : ∀ t ∈ m.normalTexture, UseValid d sets t.index t.texCoord
  /-- The texture of the occlusion is valid. -/
  occlusionTexture : ∀ t ∈ m.occlusionTexture, UseValid d sets t.index t.texCoord
  /-- The amount of occlusion is a fraction. -/
  strength : ∀ t ∈ m.occlusionTexture, ∀ x ∈ t.strength, IsFraction x
  /-- The texture of the light given off is valid. -/
  emissiveTexture : ∀ t ∈ m.emissiveTexture, UseValid d sets t.index t.texCoord
  /-- The factors of the light given off are fractions. -/
  emissiveFactor : ∀ xs ∈ m.emissiveFactor, ∀ x ∈ xs, IsFraction x
  /-- The use of alpha is open or known. -/
  alphaMode : ∀ s ∈ m.alphaMode, s = "" ∨ s ∈ ["OPAQUE", "MASK", "BLEND"]
  /-- A least alpha is not negative and goes with a use of alpha that is not open. -/
  alphaCutoff : ∀ x ∈ m.alphaCutoff, (∃ s ∈ m.alphaMode, s ≠ "") ∧ 0 ≤ x

/-! ## Documents -/

namespace Document

/-- The lists of extensions. -/
structure ExtensionsValid (d : Document) : Prop where
  /-- No extension occurs twice. -/
  used : d.extensionsUsed.Nodup
  /-- No extension has to be known twice. -/
  required : d.extensionsRequired.Nodup
  /-- What has to be known occurs. -/
  requiredUsed : ∀ s ∈ d.extensionsRequired, s ∈ d.extensionsUsed

/-- Documents, under the given choice of what is checked. -/
structure Valid (c : Config) (d : Document) : Prop where
  /-- What is said about the document. -/
  asset : d.asset.Valid
  /-- The scene that is shown first is there. -/
  scene : ∀ i ∈ d.scene, InRange i d.scenes.size
  /-- The accessors. -/
  accessors : ∀ a ∈ d.accessors, a.Valid d
  /-- The animations. -/
  animations : ∀ a ∈ d.animations, a.Valid d
  /-- The buffers. -/
  buffers : ∀ b ∈ d.buffers, b.Valid
  /-- The buffer views. -/
  bufferViews : ∀ v ∈ d.bufferViews, v.Valid d
  /-- The cameras. -/
  cameras : ∀ a ∈ d.cameras, a.Valid
  /-- The images. -/
  images : ∀ i ∈ d.images, i.Valid d
  /-- The materials. -/
  materials : ∀ m ∈ d.materials, m.Valid d c.maxTexCoordSets
  /-- The meshes. -/
  meshes : ∀ m ∈ d.meshes, m.Valid d
  /-- The nodes. -/
  nodes : ∀ (k : Nat) (n : Node), d.nodes[k]? = some n → n.Valid d k
  /-- The samplers. -/
  samplers : ∀ s ∈ d.samplers, s.Valid
  /-- The scenes. -/
  scenes : ∀ s ∈ d.scenes, s.Valid d
  /-- The skins. -/
  skins : ∀ s ∈ d.skins, s.Valid d
  /-- The textures. -/
  textures : ∀ t ∈ d.textures, t.Valid d
  /-- The nodes form a hierarchy, if this is looked at. -/
  hierarchy : c.checkHierarchy = true → d.graph.IsForest
  /-- The lists of extensions agree, if this is looked at. -/
  extensions : c.checkExtensions = true → d.ExtensionsValid

end Document

end GltfAsset
