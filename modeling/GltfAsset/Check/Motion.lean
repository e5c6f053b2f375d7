import GltfAsset.Check.Rule
import GltfAsset.Document.Basic

/-!
# The rules for motion

What animations and skins have to satisfy, in the order in which it is looked at.
-/

namespace GltfAsset

open Check Rule

/-- A channel names one of the samplers of its animation and a property that can be moved. -/
def Channel.rules (d : Document) (samplers : Nat) (c : Channel) : List Rule :=
  [index ["sampler"] c.sampler samplers] ++
  ifGiven c.target.node (fun i => [index ["target", "node"] i d.nodes.size]) ++
  [named Path ["target", "path"] c.target.path]

/-- The accessors of a sampler are there, and the way between its values is known. -/
def AnimationSampler.rules (d : Document) (s : AnimationSampler) : List Rule :=
  [index ["input"] s.input d.accessors.size] ++
  ifGiven s.interpolation (fun t => [named Interpolation ["interpolation"] t]) ++
  [index ["output"] s.output d.accessors.size]

/-- An animation has channels and samplers. -/
def Animation.rules (d : Document) (a : Animation) : List Rule :=
  [nonempty ["channels"] a.channels, nonempty ["samplers"] a.samplers] ++
  each ["channels"] a.channels (Channel.rules d a.samplers.length) ++
  each ["samplers"] a.samplers (AnimationSampler.rules d)

/-- A skin has joints and, if it has inverse bind matrices, at least one for each of them. -/
def Skin.rules (d : Document) (s : Skin) : List Rule :=
  ifGiven s.inverseBindMatrices (fun i =>
    [index ["inverseBindMatrices"] i d.accessors.size] ++
    ifGiven (lookup? d.accessors i) fun a =>
      [need (a.type = Named.name AccessorType.mat4 ∧ s.joints.length ≤ a.count.toInt)
        ["inverseBindMatrices"]
        (.mismatch (.inverseBindMatrices i a.count a.type s.joints.length))]) ++
  ifGiven s.skeleton (fun i => [index ["skeleton"] i d.nodes.size]) ++
  [nonempty ["joints"] s.joints] ++
  indices ["joints"] s.joints d.nodes.size

end GltfAsset
