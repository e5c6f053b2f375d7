import GltfAsset.Check.Rule
import GltfAsset.Document.Basic

/-!
# The rules for the look of surfaces

What images, samplers, textures and materials have to satisfy, in the order in which it is looked
at.
-/

namespace GltfAsset

open Check Rule

/-- Where the file of an image is, if it is in one. An empty place counts as none. -/
def Image.place (i : Image) : Option String := i.uri.filter (· ≠ "")

/-- An image is either in a file of its own or in a buffer view, and there with its media type. -/
def Image.rules (d : Document) (i : Image) : List Rule :=
  [need (¬ (i.place.isSome ∧ i.bufferView.isSome)) ["bufferView"] (.conflicting "uri"),
    need (i.place.isSome ∨ i.bufferView.isSome) ["uri"] .missing] ++
  ifGiven i.bufferView fun v =>
    [index ["bufferView"] v d.bufferViews.size,
      need i.mimeType.isSome ["mimeType"] .missing] ++
    ifGiven i.mimeType fun s => [named MimeType ["mimeType"] s]

/-- The codes of a sampler are known. Zero leaves the choice open. -/
def Sampler.rules (s : Sampler) : List Rule :=
  ifGiven s.magFilter (fun n => [codedOrZero MagFilter ["magFilter"] n]) ++
  ifGiven s.minFilter (fun n => [codedOrZero MinFilter ["minFilter"] n]) ++
  ifGiven s.wrapS (fun n => [codedOrZero WrappingMode ["wrapS"] n]) ++
  ifGiven s.wrapT fun n => [codedOrZero WrappingMode ["wrapT"] n]

/-- The parts of a texture are there. -/
def Texture.rules (d : Document) (t : Texture) : List Rule :=
  ifGiven t.sampler (fun i => [index ["sampler"] i d.samplers.size]) ++
  ifGiven t.source fun i => [index ["source"] i d.images.size]

namespace Material

/-- A use of a texture names a texture and one of the first `sets` sets of texture coordinates. -/
def useRules (d : Document) (sets : Nat) (texture : Int64) (texCoord : Option Int64) : List Rule :=
  [index ["index"] texture d.textures.size] ++
  ifGiven texCoord fun n =>
    [nonNegative ["texCoord"] n,
      need (n.toInt < sets) ["texCoord"] (.unsupportedTexCoord n)]

/-- The factors of a list are from zero to one. -/
def factorRules (xs : List Single) : List Rule :=
  xs.zipIdx.map fun (x, k) => unitInterval [k] x

/-- The rules for metallic-roughness parameters. -/
def metallicRoughnessRules (d : Document) (sets : Nat) (m : MetallicRoughness) : List Rule :=
  ifGiven m.baseColorFactor (fun xs =>
    (factorRules xs.toList).map (within ["baseColorFactor"])) ++
  ifGiven m.baseColorTexture (fun t =>
    (useRules d sets t.index t.texCoord).map (within ["baseColorTexture"])) ++
  ifGiven m.metallicFactor (fun x => [unitInterval ["metallicFactor"] x]) ++
  ifGiven m.roughnessFactor (fun x => [unitInterval ["roughnessFactor"] x]) ++
  ifGiven m.metallicRoughnessTexture fun t =>
    (useRules d sets t.index t.texCoord).map (within ["metallicRoughnessTexture"])

/-- The name of the way in which alpha is used, if it is chosen. An empty name is no choice. -/
def chosenAlphaMode (m : Material) : Option String := m.alphaMode.filter (· ≠ "")

/-- The textures of a material are there, its factors are in their ranges, and it has a least alpha
only if it says how alpha is used. -/
def rules (d : Document) (sets : Nat) (m : Material) : List Rule :=
  ifGiven m.metallicRoughness (fun p =>
    (metallicRoughnessRules d sets p).map (within ["pbrMetallicRoughness"])) ++
  ifGiven m.normalTexture (fun t =>
    (useRules d sets t.index t.texCoord).map (within ["normalTexture"])) ++
  ifGiven m.occlusionTexture (fun t =>
    (useRules d sets t.index t.texCoord).map (within ["occlusionTexture"]) ++
    ifGiven t.strength fun x => [unitInterval ["occlusionTexture", "strength"] x]) ++
  ifGiven m.emissiveTexture (fun t =>
    (useRules d sets t.index t.texCoord).map (within ["emissiveTexture"])) ++
  ifGiven m.emissiveFactor (fun xs =>
    (factorRules xs.toList).map (within ["emissiveFactor"])) ++
  ifGiven m.chosenAlphaMode (fun s => [named AlphaMode ["alphaMode"] s]) ++
  ifGiven m.alphaCutoff fun x =>
    [need m.chosenAlphaMode.isSome ["alphaCutoff"] (.mismatch .cutoffWithoutMode),
      float (0 ≤ ·) ["alphaCutoff"] x]

end Material

end GltfAsset
