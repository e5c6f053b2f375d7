import GltfAsset.Document.Enumerations
import GltfAsset.Number.Notation
import GltfAsset.Text.Quoted

/-!
# Violations

A violation says which entity of a document breaks a rule, at which field, and why. The reason is
data; `Reason.message` puts it into words.
-/

namespace GltfAsset.Check

/-- The kinds of entities of a document. -/
inductive EntityKind where
  /-- The document itself: what is said about it, its first scene and its extensions. -/
  | document
  /-- The accessors. -/
  | accessor
  /-- The animations. -/
  | animation
  /-- The buffers. -/
  | buffer
  /-- The buffer views. -/
  | bufferView
  /-- The cameras. -/
  | camera
  /-- The images. -/
  | image
  /-- The materials. -/
  | material
  /-- The meshes. -/
  | mesh
  /-- The nodes. -/
  | node
  /-- The samplers. -/
  | sampler
  /-- The scenes. -/
  | scene
  /-- The skins. -/
  | skin
  /-- The textures. -/
  | texture
deriving DecidableEq, Repr

/-- The name of the collection of a kind of entities. -/
def EntityKind.collection : EntityKind → String
  | document => "glTF"
  | accessor => "accessors"
  | animation => "animations"
  | buffer => "buffers"
  | bufferView => "bufferViews"
  | camera => "cameras"
  | image => "images"
  | material => "materials"
  | mesh => "meshes"
  | node => "nodes"
  | sampler => "samplers"
  | scene => "scenes"
  | skin => "skins"
  | texture => "textures"

/-- One step from an entity towards a field of it. -/
inductive Step where
  /-- To the member of the given name. -/
  | member (name : String)
  /-- To the element at the given place of a list. -/
  | element (place : Nat)
deriving DecidableEq, Repr

instance : Coe String Step := ⟨.member⟩

instance : Coe Nat Step := ⟨.element⟩

/-- The way from an entity to a field of it. -/
abbrev Field := List Step

/-- The steps after the first: members follow a point, places stand in brackets. -/
def Step.text : Step → String
  | member name => "." ++ name
  | element i => s!"[{i}]"

/-- The written form of a way, such as `channels[0].target.node`. -/
def Field.text : Field → String
  | [] => ""
  | .member name :: steps => steps.foldl (fun t s => t ++ s.text) name
  | steps => steps.foldl (fun t s => t ++ s.text) ""

/-- Two parts of a document that do not go together. -/
inductive Mismatch where
  /-- A bound of an accessor has a wrong number of components. -/
  | components (given : Nat) (type : AccessorType)
  /-- A buffer view ends after its buffer does. -/
  | beyondBuffer (length offset buffer bufferLength : Int64)
  /-- A mesh has not one weight for each morph target. -/
  | weights (given targets : Nat)
  /-- A skin has not a matrix for each joint. -/
  | inverseBindMatrices (accessor count : Int64) (type : String) (joints : Nat)
  /-- A material has a least alpha, but no way in which alpha is used. -/
  | cutoffWithoutMode
  /-- An extension has to be known, but is not among those that occur. -/
  | requiredNotUsed (name : String)
deriving DecidableEq, Repr

/-- Why a field breaks a rule. -/
inductive Reason where
  /-- It is there together with the given field. -/
  | conflicting (field : String)
  /-- It makes a node an ancestor of itself. -/
  | cycle (node : Nat)
  /-- It names an entity for the second time. -/
  | repeatedIndex (index : Int64)
  /-- It holds a name for the second time. -/
  | repeatedName (name : String)
  /-- It is a list without elements. -/
  | empty
  /-- It names none of the entities. -/
  | indexOutOfRange (index : Int64) (count : Nat)
  /-- It holds a number that is no code. -/
  | invalidCode (code : Int64)
  /-- It holds a text that stands for nothing. -/
  | invalidText (text : String)
  /-- It does not go together with another part. -/
  | mismatch (m : Mismatch)
  /-- It is not there. -/
  | missing
  /-- It makes a node the child of a second node. -/
  | multipleParents (node firstParent : Nat)
  /-- It is an integer out of its range. -/
  | integerOutOfRange (value : Int64)
  /-- It is a float out of its range. -/
  | floatOutOfRange (value : Single)
  /-- It is a version that is not known. -/
  | unsupportedVersion (version : String)
  /-- It is a set of texture coordinates that cannot be used. -/
  | unsupportedTexCoord (set : Int64)
deriving DecidableEq, Repr

/-- Floats in messages are positional, without `.0`; of two equally near decimals the greater one
is taken. -/
def messageStyle : FloatStyle := ⟨none, false, .up⟩

/-- The wording. -/
def Mismatch.message : Mismatch → String
  | components n t =>
    s!"{n} components for a " ++ Named.name t ++ s!" accessor, expected {t.components}"
  | beyondBuffer length offset buffer bufferLength =>
    s!"{length} bytes at offset {offset} exceed buffer {buffer} of {bufferLength} bytes"
  | weights n targets => s!"{n} weights for {targets} morph targets"
  | inverseBindMatrices accessor count type joints =>
    s!"accessor {accessor} holds {count} {type} elements for {joints} joints"
  | cutoffWithoutMode => "alphaCutoff requires an explicit alphaMode"
  | requiredNotUsed name => name ++ " is required but missing from extensionsUsed"

/-- The wording. -/
def Reason.message : Reason → String
  | conflicting field => "conflicts with `" ++ field ++ "`"
  | cycle n => s!"child node {n} closes a cycle"
  | repeatedIndex i => s!"{i} appears more than once"
  | repeatedName s => s ++ " appears more than once"
  | empty => "must not be empty"
  | indexOutOfRange i n => s!"index {i} is out of range for {n} elements"
  | invalidCode n => s!"invalid value {n}"
  | invalidText s => "invalid value " ++ Text.quoted s
  | mismatch m => m.message
  | missing => "required value is missing"
  | multipleParents n p => s!"node {n} is already a child of node {p}"
  | integerOutOfRange n => s!"value {n} is out of range"
  | floatOutOfRange x => "value " ++ messageStyle.text x ++ " is out of range"
  | unsupportedVersion s => "unsupported value " ++ s
  | unsupportedTexCoord n => s!"unsupported value TEXCOORD_{n}"

/-- A broken rule of one entity. -/
structure Fault where
  /-- The field that breaks the rule. -/
  field : Field
  /-- Why it does. -/
  reason : Reason
deriving DecidableEq, Repr

/-- A broken rule of a document. -/
structure Violation where
  /-- The kind of the entity that breaks the rule. -/
  entity : EntityKind
  /-- The place of the entity in its collection; absent for the document itself. -/
  index : Option Nat
  /-- What is wrong with it. -/
  fault : Fault
deriving DecidableEq, Repr

namespace Violation

/-- The way from the document to the field. -/
def location (v : Violation) : String :=
  match v.index with
  | some i => v.entity.collection ++ s!"[{i}]." ++ v.fault.field.text
  | none => v.fault.field.text

/-- The wording. -/
def message (v : Violation) : String := v.location ++ ": " ++ v.fault.reason.message

end Violation

end GltfAsset.Check
