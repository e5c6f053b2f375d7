import GltfAsset.Json.Record

/-!
# Motion

Animations and skins.
-/

namespace GltfAsset

/-- What a channel moves. -/
structure Target where
  /-- The node. -/
  node : Option Int64 := none
  /-- The name of the property that is moved. -/
  path : String := ""
  /-- Data for extensions of the format. -/
  extensions : Option Value := none
  /-- Data of the application. -/
  extras : Option Value := none
deriving DecidableEq

namespace Target

/-- The members of targets in a text. -/
def schema : Json.Schema Target where
  name := "Target"
  initial := {}
  fields := [
    .optional "node" .integer (·.node) fun x r => { r with node := x },
    .always "path" .string (·.path) fun x r => { r with path := x },
    .optional "extensions" .value (·.extensions) fun x r => { r with extensions := x },
    .optional "extras" .value (·.extras) fun x r => { r with extras := x }]

/-- How targets are written and read. -/
def codec : Json.Codec Target := schema.codec

end Target

/-- A target with the sampler that moves it. -/
structure Channel where
  /-- The sampler, among those of the animation. -/
  sampler : Int64 := 0
  /-- The target. -/
  target : Target := {}
  /-- Data for extensions of the format. -/
  extensions : Option Value := none
  /-- Data of the application. -/
  extras : Option Value := none
deriving DecidableEq

namespace Channel

/-- The members of channels in a text. -/
def schema : Json.Schema Channel where
  name := "Channel"
  initial := {}
  fields := [
    .always "sampler" .integer (·.sampler) fun x r => { r with sampler := x },
    .always "target" Target.codec (·.target) fun x r => { r with target := x },
    .optional "extensions" .value (·.extensions) fun x r => { r with extensions := x },
    .optional "extras" .value (·.extras) fun x r => { r with extras := x }]

/-- How channels are written and read. -/
def codec : Json.Codec Channel := schema.codec

end Channel

/-- Values at points in time. -/
structure AnimationSampler where
  /-- The accessor of the points in time. -/
  input : Int64 := 0
  /-- The name of the way between them. -/
  interpolation : Option String := none
  /-- The accessor of the values. -/
  output : Int64 := 0
  /-- Data for extensions of the format. -/
  extensions : Option Value := none
  /-- Data of the application. -/
  extras : Option Value := none
deriving DecidableEq

namespace AnimationSampler

/-- The members of samplers of animations in a text. -/
def schema : Json.Schema AnimationSampler where
  name := "AnimationSampler"
  initial := {}
  fields := [
    .always "input" .integer (·.input) fun x r => { r with input := x },
    .optional "interpolation" .string (·.interpolation) fun x r => { r with interpolation := x },
    .always "output" .integer (·.output) fun x r => { r with output := x },
    .optional "extensions" .value (·.extensions) fun x r => { r with extensions := x },
    .optional "extras" .value (·.extras) fun x r => { r with extras := x }]

/-- How samplers of animations are written and read. -/
def codec : Json.Codec AnimationSampler := schema.codec

end AnimationSampler

/-- Movements that belong together. -/
structure Animation where
  /-- The channels. -/
  channels : List Channel := []
  /-- The samplers of the channels. -/
  samplers : List AnimationSampler := []
  /-- The name that people give it. -/
  name : Option String := none
  /-- Data for extensions of the format. -/
  extensions : Option Value := none
  /-- Data of the application. -/
  extras : Option Value := none
deriving DecidableEq

namespace Animation

/-- The members of animations in a text. -/
def schema : Json.Schema Animation where
  name := "Animation"
  initial := {}
  fields := [
    .always "channels" (.list Channel.codec) (·.channels) fun x r => { r with channels := x },
    .always "samplers" (.list AnimationSampler.codec) (·.samplers)
      fun x r => { r with samplers := x },
    .optional "name" .string (·.name) fun x r => { r with name := x },
    .optional "extensions" .value (·.extensions) fun x r => { r with extensions := x },
    .optional "extras" .value (·.extras) fun x r => { r with extras := x }]

/-- How animations are written and read. -/
def codec : Json.Codec Animation := schema.codec

end Animation

/-- The joints that bend a mesh. -/
structure Skin where
  /-- The accessor of the inverse bind matrices. -/
  inverseBindMatrices : Option Int64 := none
  /-- The node at the root of the skeleton. -/
  skeleton : Option Int64 := none
  /-- The nodes of the joints. -/
  joints : List Int64 := []
  /-- The name that people give it. -/
  name : Option String := none
  /-- Data for extensions of the format. -/
  extensions : Option Value := none
  /-- Data of the application. -/
  extras : Option Value := none
deriving DecidableEq

namespace Skin

/-- The members of skins in a text. -/
def schema : Json.Schema Skin where
  name := "Skin"
  initial := {}
  fields := [
    .optional "inverseBindMatrices" .integer (·.inverseBindMatrices)
      fun x r => { r with inverseBindMatrices := x },
    .optional "skeleton" .integer (·.skeleton) fun x r => { r with skeleton := x },
    .always "joints" (.list .integer) (·.joints) fun x r => { r with joints := x },
    .optional "name" .string (·.name) fun x r => { r with name := x },
    .optional "extensions" .value (·.extensions) fun x r => { r with extensions := x },
    .optional "extras" .value (·.extras) fun x r => { r with extras := x }]

/-- How skins are written and read. -/
def codec : Json.Codec Skin := schema.codec

end Skin

end GltfAsset
