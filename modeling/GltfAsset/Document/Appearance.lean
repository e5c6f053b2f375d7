import GltfAsset.Json.Record

/-!
# Appearance

Images, samplers, textures and the materials that use them.
-/

namespace GltfAsset

/-- A picture, in a file of its own or in a buffer view. -/
structure Image where
  /-- Where the picture is. -/
  uri : Option String := none
  /-- The media type of its format. -/
  mimeType : Option String := none
  /-- The buffer view that holds it. -/
  bufferView : Option Int64 := none
  /-- The name that people give it. -/
  name : Option String := none
  /-- Data for extensions of the format. -/
  extensions : Option Value := none
  /-- Data of the application. -/
  extras : Option Value := none
deriving DecidableEq

namespace Image

/-- The members of images in a text. -/
def schema : Json.Schema Image where
  name := "Image"
  initial := {}
  fields := [
    .optional "uri" .string (·.uri) fun x r => { r with uri := x },
    .optional "mimeType" .string (·.mimeType) fun x r => { r with mimeType := x },
    .optional "bufferView" .integer (·.bufferView) fun x r => { r with bufferView := x },
    .optional "name" .string (·.name) fun x r => { r with name := x },
    .optional "extensions" .value (·.extensions) fun x r => { r with extensions := x },
    .optional "extras" .value (·.extras) fun x r => { r with extras := x }]

/-- How images are written and read. -/
def codec : Json.Codec Image := schema.codec

end Image

/-- How a picture is magnified, reduced and continued beyond its edges. -/
structure Sampler where
  /-- The code of the filter for magnification. -/
  magFilter : Option Int64 := none
  /-- The code of the filter for reduction. -/
  minFilter : Option Int64 := none
  /-- The code of the continuation in the first direction. -/
  wrapS : Option Int64 := none
  /-- The code of the continuation in the second direction. -/
  wrapT : Option Int64 := none
  /-- The name that people give it. -/
  name : Option String := none
  /-- Data for extensions of the format. -/
  extensions : Option Value := none
  /-- Data of the application. -/
  extras : Option Value := none
deriving DecidableEq

namespace Sampler

/-- The members of samplers in a text. -/
def schema : Json.Schema Sampler where
  name := "Sampler"
  initial := {}
  fields := [
    .optional "magFilter" .integer (·.magFilter) fun x r => { r with magFilter := x },
    .optional "minFilter" .integer (·.minFilter) fun x r => { r with minFilter := x },
    .optional "wrapS" .integer (·.wrapS) fun x r => { r with wrapS := x },
    .optional "wrapT" .integer (·.wrapT) fun x r => { r with wrapT := x },
    .optional "name" .string (·.name) fun x r => { r with name := x },
    .optional "extensions" .value (·.extensions) fun x r => { r with extensions := x },
    .optional "extras" .value (·.extras) fun x r => { r with extras := x }]

/-- How samplers are written and read. -/
def codec : Json.Codec Sampler := schema.codec

end Sampler

/-- A picture with its sampler. -/
structure Texture where
  /-- The sampler. -/
  sampler : Option Int64 := none
  /-- The image. -/
  source : Option Int64 := none
  /-- The name that people give it. -/
  name : Option String := none
  /-- Data for extensions of the format. -/
  extensions : Option Value := none
  /-- Data of the application. -/
  extras : Option Value := none
deriving DecidableEq

namespace Texture

/-- The members of textures in a text. -/
def schema : Json.Schema Texture where
  name := "Texture"
  initial := {}
  fields := [
    .optional "sampler" .integer (·.sampler) fun x r => { r with sampler := x },
    .optional "source" .integer (·.source) fun x r => { r with source := x },
    .optional "name" .string (·.name) fun x r => { r with name := x },
    .optional "extensions" .value (·.extensions) fun x r => { r with extensions := x },
    .optional "extras" .value (·.extras) fun x r => { r with extras := x }]

/-- How textures are written and read. -/
def codec : Json.Codec Texture := schema.codec

end Texture

/-- A use of a texture. -/
structure TextureInfo where
  /-- The texture. -/
  index : Int64 := 0
  /-- The set of texture coordinates. -/
  texCoord : Option Int64 := none
  /-- Data for extensions of the format. -/
  extensions : Option Value := none
  /-- Data of the application. -/
  extras : Option Value := none
deriving DecidableEq

namespace TextureInfo

/-- The members of uses of textures in a text. -/
def schema : Json.Schema TextureInfo where
  name := "TextureInfo"
  initial := {}
  fields := [
    .always "index" .integer (·.index) fun x r => { r with index := x },
    .optional "texCoord" .integer (·.texCoord) fun x r => { r with texCoord := x },
    .optional "extensions" .value (·.extensions) fun x r => { r with extensions := x },
    .optional "extras" .value (·.extras) fun x r => { r with extras := x }]

/-- How uses of textures are written and read. -/
def codec : Json.Codec TextureInfo := schema.codec

end TextureInfo

/-- A use of a texture for surface normals. -/
structure NormalTextureInfo where
  /-- The texture. -/
  index : Int64 := 0
  /-- The set of texture coordinates. -/
  texCoord : Option Int64 := none
  /-- The factor of the first two components. -/
  scale : Option Single := none
  /-- Data for extensions of the format. -/
  extensions : Option Value := none
  /-- Data of the application. -/
  extras : Option Value := none
deriving DecidableEq

namespace NormalTextureInfo

/-- The members of uses of textures for normals in a text. -/
def schema : Json.Schema NormalTextureInfo where
  name := "NormalTextureInfo"
  initial := {}
  fields := [
    .always "index" .integer (·.index) fun x r => { r with index := x },
    .optional "texCoord" .integer (·.texCoord) fun x r => { r with texCoord := x },
    .optional "scale" .single (·.scale) fun x r => { r with scale := x },
    .optional "extensions" .value (·.extensions) fun x r => { r with extensions := x },
    .optional "extras" .value (·.extras) fun x r => { r with extras := x }]

/-- How uses of textures for normals are written and read. -/
def codec : Json.Codec NormalTextureInfo := schema.codec

end NormalTextureInfo

/-- A use of a texture for occlusion. -/
structure OcclusionTextureInfo where
  /-- The texture. -/
  index : Int64 := 0
  /-- The set of texture coordinates. -/
  texCoord : Option Int64 := none
  /-- The amount of occlusion. -/
  strength : Option Single := none
  /-- Data for extensions of the format. -/
  extensions : Option Value := none
  /-- Data of the application. -/
  extras : Option Value := none
deriving DecidableEq

namespace OcclusionTextureInfo

/-- The members of uses of textures for occlusion in a text. -/
def schema : Json.Schema OcclusionTextureInfo where
  name := "OcclusionTextureInfo"
  initial := {}
  fields := [
    .always "index" .integer (·.index) fun x r => { r with index := x },
    .optional "texCoord" .integer (·.texCoord) fun x r => { r with texCoord := x },
    .optional "strength" .single (·.strength) fun x r => { r with strength := x },
    .optional "extensions" .value (·.extensions) fun x r => { r with extensions := x },
    .optional "extras" .value (·.extras) fun x r => { r with extras := x }]

/-- How uses of textures for occlusion are written and read. -/
def codec : Json.Codec OcclusionTextureInfo := schema.codec

end OcclusionTextureInfo

/-- The parameters of the metallic-roughness model. -/
structure MetallicRoughness where
  /-- The factor of the base colour. -/
  baseColorFactor : Option (Vector Single 4) := none
  /-- The texture of the base colour. -/
  baseColorTexture : Option TextureInfo := none
  /-- The factor of the metalness. -/
  metallicFactor : Option Single := none
  /-- The factor of the roughness. -/
  roughnessFactor : Option Single := none
  /-- The texture of both. -/
  metallicRoughnessTexture : Option TextureInfo := none
  /-- Data for extensions of the format. -/
  extensions : Option Value := none
  /-- Data of the application. -/
  extras : Option Value := none
deriving DecidableEq

namespace MetallicRoughness

/-- The members of metallic-roughness parameters in a text. -/
def schema : Json.Schema MetallicRoughness where
  name := "PbrMetallicRoughness"
  initial := {}
  fields := [
    .optional "baseColorFactor" (.vector 4 .single) (·.baseColorFactor)
      fun x r => { r with baseColorFactor := x },
    .optional "baseColorTexture" TextureInfo.codec (·.baseColorTexture)
      fun x r => { r with baseColorTexture := x },
    .optional "metallicFactor" .single (·.metallicFactor)
      fun x r => { r with metallicFactor := x },
    .optional "roughnessFactor" .single (·.roughnessFactor)
      fun x r => { r with roughnessFactor := x },
    .optional "metallicRoughnessTexture" TextureInfo.codec (·.metallicRoughnessTexture)
      fun x r => { r with metallicRoughnessTexture := x },
    .optional "extensions" .value (·.extensions) fun x r => { r with extensions := x },
    .optional "extras" .value (·.extras) fun x r => { r with extras := x }]

/-- How metallic-roughness parameters are written and read. -/
def codec : Json.Codec MetallicRoughness := schema.codec

end MetallicRoughness

/-- The look of a surface. -/
structure Material where
  /-- The metallic-roughness parameters. -/
  metallicRoughness : Option MetallicRoughness := none
  /-- The texture of the normals. -/
  normalTexture : Option NormalTextureInfo := none
  /-- The texture of the occlusion. -/
  occlusionTexture : Option OcclusionTextureInfo := none
  /-- The texture of the light given off. -/
  emissiveTexture : Option TextureInfo := none
  /-- The factor of the light given off. -/
  emissiveFactor : Option (Vector Single 3) := none
  /-- The name of the way in which alpha is used. -/
  alphaMode : Option String := none
  /-- The least alpha that is seen. -/
  alphaCutoff : Option Single := none
  /-- Whether both sides are seen. -/
  doubleSided : Option Bool := none
  /-- The name that people give it. -/
  name : Option String := none
  /-- Data for extensions of the format. -/
  extensions : Option Value := none
  /-- Data of the application. -/
  extras : Option Value := none
deriving DecidableEq

namespace Material

/-- The members of materials in a text. -/
def schema : Json.Schema Material where
  name := "Material"
  initial := {}
  fields := [
    .optional "pbrMetallicRoughness" MetallicRoughness.codec (·.metallicRoughness)
      fun x r => { r with metallicRoughness := x },
    .optional "normalTexture" NormalTextureInfo.codec (·.normalTexture)
      fun x r => { r with normalTexture := x },
    .optional "occlusionTexture" OcclusionTextureInfo.codec (·.occlusionTexture)
      fun x r => { r with occlusionTexture := x },
    .optional "emissiveTexture" TextureInfo.codec (·.emissiveTexture)
      fun x r => { r with emissiveTexture := x },
    .optional "emissiveFactor" (.vector 3 .single) (·.emissiveFactor)
      fun x r => { r with emissiveFactor := x },
    .optional "alphaMode" .string (·.alphaMode) fun x r => { r with alphaMode := x },
    .optional "alphaCutoff" .single (·.alphaCutoff) fun x r => { r with alphaCutoff := x },
    .optional "doubleSided" .boolean (·.doubleSided) fun x r => { r with doubleSided := x },
    .optional "name" .string (·.name) fun x r => { r with name := x },
    .optional "extensions" .value (·.extensions) fun x r => { r with extensions := x },
    .optional "extras" .value (·.extras) fun x r => { r with extras := x }]

/-- How materials are written and read. -/
def codec : Json.Codec Material := schema.codec

end Material

end GltfAsset
