import GltfAsset.Proofs.Hierarchy.Reported
import GltfAsset.Proofs.Validity.Order
import GltfAsset.Proofs.Validity.Rules

/-!
# Where a violation points

Every field of a document that names an element of a collection is written down here once, with the
way to it from its entity, what is written in it, and the number of elements that it may name
(`Document.Refers`). An index that is reported as out of range stands in such a field, and is out of
the range of that collection and no other; an index that is reported as repeated stands in a list of
indices at the place that is reported, and once more before it (`violation?_pinpoints`).
-/

namespace GltfAsset

open Check Rule

/-! ## Fields that name elements -/

/-- An accessor names the given index, at the given field, as one of so many elements. -/
inductive Accessor.Refers (d : Document) (a : Accessor) : Field → Int64 → Nat → Prop
  | bufferView {i : Int64} (h : a.bufferView = some i) :
    Refers d a ["bufferView"] i d.bufferViews.size
  | indices {s : Sparse} (h : a.sparse = some s) :
    Refers d a ["sparse", "indices", "bufferView"] s.indices.bufferView d.bufferViews.size
  | values {s : Sparse} (h : a.sparse = some s) :
    Refers d a ["sparse", "values", "bufferView"] s.values.bufferView d.bufferViews.size

/-- The channels of an animation name samplers of the same animation. -/
inductive Animation.Refers (d : Document) (a : Animation) : Field → Int64 → Nat → Prop
  | sampler {k : Nat} {c : Channel} (h : a.channels[k]? = some c) :
    Refers d a ["channels", k, "sampler"] c.sampler a.samplers.length
  | node {k : Nat} {c : Channel} {i : Int64} (h : a.channels[k]? = some c)
    (hi : c.target.node = some i) : Refers d a ["channels", k, "target", "node"] i d.nodes.size
  | input {k : Nat} {s : AnimationSampler} (h : a.samplers[k]? = some s) :
    Refers d a ["samplers", k, "input"] s.input d.accessors.size
  | output {k : Nat} {s : AnimationSampler} (h : a.samplers[k]? = some s) :
    Refers d a ["samplers", k, "output"] s.output d.accessors.size

/-- A buffer view names its buffer. -/
inductive BufferView.Refers (d : Document) (v : BufferView) : Field → Int64 → Nat → Prop
  | buffer : Refers d v ["buffer"] v.buffer d.buffers.size

/-- An image names the buffer view in which it is. -/
inductive Image.Refers (d : Document) (m : Image) : Field → Int64 → Nat → Prop
  | bufferView {i : Int64} (h : m.bufferView = some i) :
    Refers d m ["bufferView"] i d.bufferViews.size

/-- A material names a texture at each of its uses of one. -/
inductive Material.Refers (d : Document) (m : Material) : Field → Int64 → Nat → Prop
  | baseColor {p : MetallicRoughness} {t : TextureInfo} (hp : m.metallicRoughness = some p)
    (ht : p.baseColorTexture = some t) :
    Refers d m ["pbrMetallicRoughness", "baseColorTexture", "index"] t.index d.textures.size
  | metallicRoughness {p : MetallicRoughness} {t : TextureInfo} (hp : m.metallicRoughness = some p)
    (ht : p.metallicRoughnessTexture = some t) :
    Refers d m ["pbrMetallicRoughness", "metallicRoughnessTexture", "index"] t.index
      d.textures.size
  | normal {t : NormalTextureInfo} (ht : m.normalTexture = some t) :
    Refers d m ["normalTexture", "index"] t.index d.textures.size
  | occlusion {t : OcclusionTextureInfo} (ht : m.occlusionTexture = some t) :
    Refers d m ["occlusionTexture", "index"] t.index d.textures.size
  | emissive {t : TextureInfo} (ht : m.emissiveTexture = some t) :
    Refers d m ["emissiveTexture", "index"] t.index d.textures.size

/-- The primitives of a mesh name accessors, also for their morph targets, and materials. -/
inductive Mesh.Refers (d : Document) (m : Mesh) : Field → Int64 → Nat → Prop
  | attribute {k : Nat} {p : Primitive} {name : String} {i : Int64} (h : m.primitives[k]? = some p)
    (hi : (name, i) ∈ p.attributes) :
    Refers d m ["primitives", k, "attributes", name] i d.accessors.size
  | indices {k : Nat} {p : Primitive} {i : Int64} (h : m.primitives[k]? = some p)
    (hi : p.indices = some i) : Refers d m ["primitives", k, "indices"] i d.accessors.size
  | material {k : Nat} {p : Primitive} {i : Int64} (h : m.primitives[k]? = some p)
    (hi : p.material = some i) : Refers d m ["primitives", k, "material"] i d.materials.size
  | target {k t : Nat} {p : Primitive} {as : Attributes} {name : String} {i : Int64}
    (h : m.primitives[k]? = some p) (ht : p.targets[t]? = some as) (hi : (name, i) ∈ as) :
    Refers d m ["primitives", k, "targets", t, name] i d.accessors.size

/-- A node names what stands at it, and its children. -/
inductive Node.Refers (d : Document) (n : Node) : Field → Int64 → Nat → Prop
  | camera {i : Int64} (h : n.camera = some i) : Refers d n ["camera"] i d.cameras.size
  | skin {i : Int64} (h : n.skin = some i) : Refers d n ["skin"] i d.skins.size
  | mesh {i : Int64} (h : n.mesh = some i) : Refers d n ["mesh"] i d.meshes.size
  | child {k : Nat} {i : Int64} (h : n.children[k]? = some i) :
    Refers d n ["children", k] i d.nodes.size

/-- A scene names its roots. -/
inductive Scene.Refers (d : Document) (s : Scene) : Field → Int64 → Nat → Prop
  | root {k : Nat} {i : Int64} (h : s.nodes[k]? = some i) : Refers d s ["nodes", k] i d.nodes.size

/-- A skin names an accessor, a node and nodes. -/
inductive Skin.Refers (d : Document) (s : Skin) : Field → Int64 → Nat → Prop
  | inverseBindMatrices {i : Int64} (h : s.inverseBindMatrices = some i) :
    Refers d s ["inverseBindMatrices"] i d.accessors.size
  | skeleton {i : Int64} (h : s.skeleton = some i) : Refers d s ["skeleton"] i d.nodes.size
  | joint {k : Nat} {i : Int64} (h : s.joints[k]? = some i) :
    Refers d s ["joints", k] i d.nodes.size

/-- A texture names a sampler and an image. -/
inductive Texture.Refers (d : Document) (t : Texture) : Field → Int64 → Nat → Prop
  | sampler {i : Int64} (h : t.sampler = some i) : Refers d t ["sampler"] i d.samplers.size
  | source {i : Int64} (h : t.source = some i) : Refers d t ["source"] i d.images.size

namespace Document

/-- The entity of the given kind and place names an index, at the given field, as one of so many
elements. The document itself names its first scene; buffers, cameras and samplers name nothing. -/
inductive Refers (d : Document) : EntityKind → Option Nat → Field → Int64 → Nat → Prop
  | firstScene {i : Int64} (h : d.scene = some i) :
    Refers d .document none ["scene"] i d.scenes.size
  | accessor {k : Nat} {a : Accessor} {f : Field} {i : Int64} {n : Nat}
    (ha : d.accessors[k]? = some a) (h : a.Refers d f i n) : Refers d .accessor (some k) f i n
  | animation {k : Nat} {a : Animation} {f : Field} {i : Int64} {n : Nat}
    (ha : d.animations[k]? = some a) (h : a.Refers d f i n) : Refers d .animation (some k) f i n
  | bufferView {k : Nat} {v : BufferView} {f : Field} {i : Int64} {n : Nat}
    (hv : d.bufferViews[k]? = some v) (h : v.Refers d f i n) : Refers d .bufferView (some k) f i n
  | image {k : Nat} {m : Image} {f : Field} {i : Int64} {n : Nat} (hm : d.images[k]? = some m)
    (h : m.Refers d f i n) : Refers d .image (some k) f i n
  | material {k : Nat} {m : Material} {f : Field} {i : Int64} {n : Nat}
    (hm : d.materials[k]? = some m) (h : m.Refers d f i n) : Refers d .material (some k) f i n
  | mesh {k : Nat} {m : Mesh} {f : Field} {i : Int64} {n : Nat} (hm : d.meshes[k]? = some m)
    (h : m.Refers d f i n) : Refers d .mesh (some k) f i n
  | node {k : Nat} {m : Node} {f : Field} {i : Int64} {n : Nat} (hm : d.nodes[k]? = some m)
    (h : m.Refers d f i n) : Refers d .node (some k) f i n
  | scene {k : Nat} {s : Scene} {f : Field} {i : Int64} {n : Nat} (hs : d.scenes[k]? = some s)
    (h : s.Refers d f i n) : Refers d .scene (some k) f i n
  | skin {k : Nat} {s : Skin} {f : Field} {i : Int64} {n : Nat} (hs : d.skins[k]? = some s)
    (h : s.Refers d f i n) : Refers d .skin (some k) f i n
  | texture {k : Nat} {t : Texture} {f : Field} {i : Int64} {n : Nat}
    (ht : d.textures[k]? = some t) (h : t.Refers d f i n) : Refers d .texture (some k) f i n

/-- An index stands at the given place of a list, and before it too. -/
def Again (is : List Int64) (k : Nat) (i : Int64) : Prop :=
  is[k]? = some i ∧ ∃ j < k, is[j]? = some i

/-- The entity of the given kind and place has a list in which an index stands again, at the given
field. -/
inductive Repeats (d : Document) : EntityKind → Option Nat → Field → Int64 → Prop
  | children {k j : Nat} {n : Node} {i : Int64} (hn : d.nodes[k]? = some n)
    (h : Again n.children j i) : Repeats d .node (some k) ["children", j] i
  | nodes {k j : Nat} {s : Scene} {i : Int64} (hs : d.scenes[k]? = some s)
    (h : Again s.nodes j i) : Repeats d .scene (some k) ["nodes", j] i
  | joints {k j : Nat} {s : Skin} {i : Int64} (hs : d.skins[k]? = some s)
    (h : Again s.joints j i) : Repeats d .skin (some k) ["joints", j] i

/-- The number of elements of the collection of a kind of entities. -/
def count (d : Document) : EntityKind → Nat
  | .document => 0
  | .accessor => d.accessors.size
  | .animation => d.animations.size
  | .buffer => d.buffers.size
  | .bufferView => d.bufferViews.size
  | .camera => d.cameras.size
  | .image => d.images.size
  | .material => d.materials.size
  | .mesh => d.meshes.size
  | .node => d.nodes.size
  | .sampler => d.samplers.size
  | .scene => d.scenes.size
  | .skin => d.skins.size
  | .texture => d.textures.size

end Document

/-! ## Rules that say what is so -/

namespace Check.Rule

open Document

variable {R S : Field → Int64 → Nat → Prop} {L : Field → Int64 → Prop}

/-- What a fault says of an index is so, where `R` says at which fields indices into collections
stand, and `L` at which fields they stand again in a list. That a node has a second parent cannot be
said of one entity. -/
def Told (R : Field → Int64 → Nat → Prop) (L : Field → Int64 → Prop) (f : Fault) : Prop :=
  match f.reason with
  | .indexOutOfRange i n => R f.field i n ∧ ¬ InRange i n
  | .repeatedIndex i => L f.field i
  | .multipleParents _ _ => False
  | _ => True

/-- A rule that does not hold says what is so. -/
def Honest (R : Field → Int64 → Nat → Prop) (L : Field → Int64 → Prop) (r : Rule) : Prop :=
  ¬ r.holds → Told R L r.fault

/-- All rules of a list are such rules. -/
def AllHonest (R : Field → Int64 → Nat → Prop) (L : Field → Int64 → Prop) (rs : List Rule) : Prop :=
  ∀ r ∈ rs, r.Honest R L

/-- Where indices stand may be told more widely. -/
theorem AllHonest.mono {rs : List Rule} (h : AllHonest R L rs) (hR : ∀ f i n, R f i n → S f i n) :
    AllHonest S L rs := by
  intro r hr hnot
  have htold := h r hr hnot
  unfold Told at *
  split
  · -- Only of an index that is out of range it is said where it stands.
    rename_i heq
    rw [heq] at htold
    exact ⟨hR _ _ _ htold.1, htold.2⟩
  · next heq => rwa [heq] at htold
  · next heq => rwa [heq] at htold
  · exact trivial

/-- Without rules nothing is said. -/
@[simp] theorem allHonest_nil : AllHonest R L [] := List.forall_mem_nil _

/-- A list of rules says what is so if its first rule and the others do. -/
@[simp] theorem allHonest_cons {r : Rule} {rs : List Rule} :
    AllHonest R L (r :: rs) ↔ r.Honest R L ∧ AllHonest R L rs := List.forall_mem_cons

/-- Two lists of rules say what is so together if each of them does. -/
@[simp] theorem allHonest_append {rs ss : List Rule} :
    AllHonest R L (rs ++ ss) ↔ AllHonest R L rs ∧ AllHonest R L ss := List.forall_mem_append

/-- Rules that are made of the elements of a list. -/
theorem allHonest_map {α : Type} {rule : α → Rule} {xs : List α} :
    AllHonest R L (xs.map rule) ↔ ∀ x ∈ xs, (rule x).Honest R L := List.forall_mem_map

/-- Behind a way, a rule speaks of the fields behind this way. -/
theorem honest_within {way : Field} {r : Rule} :
    (within way r).Honest R L ↔ r.Honest (fun f => R (way ++ f)) fun f => L (way ++ f) := Iff.rfl

/-- Behind a way, rules speak of the fields behind this way. -/
@[simp] theorem allHonest_map_within {way : Field} {rs : List Rule} :
    AllHonest R L (rs.map (within way)) ↔
      AllHonest (fun f => R (way ++ f)) (fun f => L (way ++ f)) rs := allHonest_map

/-- The rules of a value that may be absent speak only if it is there. -/
@[simp] theorem allHonest_ifGiven {α : Type} {x : Option α} {rules : α → List Rule} :
    AllHonest R L (ifGiven x rules) ↔ ∀ a ∈ x, AllHonest R L (rules a) := forall_mem_ifGiven

/-- The rules of each element speak of the fields behind its place. -/
@[simp] theorem allHonest_each {α : Type} {field : Field} {xs : List α} {rules : α → List Rule} :
    AllHonest R L (each field xs rules) ↔ ∀ k x, xs[k]? = some x →
      AllHonest (fun f => R (field ++ [.element k] ++ f)) (fun f => L (field ++ [.element k] ++ f))
        (rules x) := by
  unfold each AllHonest
  rw [List.forall_mem_flatMap]
  simp only [List.forall_mem_map, honest_within, Prod.forall, List.mk_mem_zipIdx_iff_getElem?]
  exact forall_comm

/-- The rule of an index speaks of an index that stands at its field. -/
theorem honest_index {field : Field} {i : Int64} {n : Nat} (h : R field i n) :
    (index field i n).Honest R L := fun hnot => ⟨h, hnot⟩

/-- A rule of any kind says what is so if its reason does. -/
@[simp] theorem honest_need {p : Prop} [Decidable p] {field : Field} {reason : Reason} :
    (need p field reason).Honest R L ↔ (¬ p → Told R L ⟨field, reason⟩) := Iff.rfl

/-- A rule of an integer says nothing of references. -/
@[simp] theorem honest_integer {p : Int → Prop} [DecidablePred p] {field : Field} {n : Int64} :
    (integer p field n).Honest R L := fun _ => trivial

/-- That an integer must not be negative says nothing of references. -/
@[simp] theorem honest_nonNegative {field : Field} {n : Int64} : (nonNegative field n).Honest R L :=
  honest_integer

/-- That an integer must be positive says nothing of references. -/
@[simp] theorem honest_atLeastOne {field : Field} {n : Int64} : (atLeastOne field n).Honest R L :=
  honest_integer

/-- A rule of a float says nothing of references. -/
@[simp] theorem honest_float {p : Single → Prop} [DecidablePred p] {field : Field} {x : Single} :
    (float p field x).Honest R L := fun _ => trivial

/-- That a float must be a fraction says nothing of references. -/
@[simp] theorem honest_unitInterval {field : Field} {x : Single} :
    (unitInterval field x).Honest R L :=
  honest_float

/-- That a float must be positive says nothing of references. -/
@[simp] theorem honest_positive {field : Field} {x : Single} : (positive field x).Honest R L :=
  honest_float

/-- That an integer must be a code says nothing of references. -/
@[simp] theorem honest_coded {α : Type} [Coded α] {field : Field} {n : Int64} :
    (coded α field n).Honest R L := fun _ => trivial

/-- That an integer must be a code or zero says nothing of references. -/
@[simp] theorem honest_codedOrZero {α : Type} [Coded α] {field : Field} {n : Int64} :
    (codedOrZero α field n).Honest R L := fun _ => trivial

/-- That a string must be a name says nothing of references. -/
@[simp] theorem honest_named {α : Type} [Named α] {field : Field} {s : String} :
    (named α field s).Honest R L := fun _ => trivial

/-- That a list must not be empty says nothing of references. -/
@[simp] theorem honest_nonempty {α : Type} {field : Field} {xs : List α} :
    (nonempty field xs).Honest R L := fun _ => trivial

/-- An index is marked in a list where it stands again. -/
theorem getElem?_markRepeated_eq_some {is : List Int64} {k : Nat} {i : Int64} {again : Bool}
    (h : (markRepeated is)[k]? = some (i, again)) :
    is[k]? = some i ∧ (again = true → Again is k i) := by
  rw [markRepeated_eq, List.getElem?_map, List.getElem?_zipIdx, Nat.zero_add] at h
  obtain ⟨⟨j, l⟩, hj, hmark⟩ := Option.map_eq_some_iff.mp h
  obtain ⟨i', hi', hpair⟩ := Option.map_eq_some_iff.mp hj
  obtain ⟨rfl, rfl⟩ := Prod.mk.inj hpair
  obtain ⟨rfl, rfl⟩ := Prod.mk.inj hmark
  refine ⟨hi', fun hagain => ⟨hi', ?_⟩⟩
  -- Before it means: among the first ones, as many as its place says.
  obtain ⟨j, hj, heq⟩ := List.mem_take_iff_getElem.mp (List.contains_iff_mem.mp hagain)
  exact ⟨j, by omega, List.getElem?_eq_some_iff.mpr ⟨_, heq⟩⟩

/-- The rules of a list of indices are about the entries of the list. -/
theorem allHonest_indices {field : Field} {is : List Int64} {n : Nat}
    (hR : ∀ k i, is[k]? = some i → R (field ++ [.element k]) i n)
    (hL : ∀ k i, Again is k i → L (field ++ [.element k]) i) :
    AllHonest R L (indices field is n) := by
  unfold indices
  rw [AllHonest, List.forall_mem_flatMap]
  rintro ⟨⟨i, again⟩, k⟩ hk
  obtain ⟨hi, hagain⟩ := getElem?_markRepeated_eq_some (List.mk_mem_zipIdx_iff_getElem?.mp hk)
  rw [List.forall_mem_cons, List.forall_mem_singleton]
  refine ⟨honest_index (hR k i hi), fun hnot => hL k i (hagain ?_)⟩
  exact Bool.eq_true_of_not_eq_false hnot

end Check.Rule

/-! ## The rules of the entities -/

open Document

section Entities

variable {L : Field → Int64 → Prop}

/-- The rules of the asset data speak of no reference. -/
theorem Asset.allHonest_rules {R : Field → Int64 → Nat → Prop} (a : Asset) :
    AllHonest R L a.rules := by
  simp [rules, Told]

/-- The rules of an accessor speak of its references. -/
theorem Accessor.allHonest_rules (d : Document) (a : Accessor) :
    AllHonest (a.Refers d) L (a.rules d) := by
  simp +contextual [rules, sparseRules, boundRule, Told, honest_index, honest_within,
    Refers.bufferView, Refers.indices, Refers.values]

/-- The rules of an animation speak of its references. -/
theorem Animation.allHonest_rules (d : Document) (a : Animation) :
    AllHonest (a.Refers d) L (a.rules d) := by
  simp +contextual [rules, Channel.rules, AnimationSampler.rules, honest_index, Refers.sampler,
    Refers.node, Refers.input, Refers.output]

/-- The rules of a buffer speak of no reference. -/
theorem Buffer.allHonest_rules {R : Field → Int64 → Nat → Prop} (b : Buffer) :
    AllHonest R L b.rules := by
  simp [rules]

/-- The rules of a buffer view speak of its references. -/
theorem BufferView.allHonest_rules (d : Document) (v : BufferView) :
    AllHonest (v.Refers d) L (v.rules d) := by
  simp [rules, Told, honest_index, Refers.buffer]

/-- The rules of a camera speak of no reference. -/
theorem Camera.allHonest_rules {R : Field → Int64 → Nat → Prop} (a : Camera) :
    AllHonest R L a.rules := by
  simp only [rules, allHonest_append, allHonest_cons, allHonest_nil, allHonest_ifGiven,
    honest_named, and_true, true_and]
  intro t _
  -- Which other rules there are depends on the type.
  cases t with
  | orthographic => simp [projectionRules, Orthographic.rules, honest_within, Told]
  | perspective => simp [projectionRules, Perspective.rules, honest_within, Told]

/-- The rules of an image speak of its references. -/
theorem Image.allHonest_rules (d : Document) (m : Image) :
    AllHonest (m.Refers d) L (m.rules d) := by
  simp +contextual [rules, Told, honest_index, Refers.bufferView]

/-- What is said of a use of a texture. -/
theorem Material.allHonest_useRules {R : Field → Int64 → Nat → Prop} {d : Document} {sets : Nat}
    {texture : Int64} {texCoord : Option Int64} (hR : R ["index"] texture d.textures.size) :
    AllHonest R L (useRules d sets texture texCoord) := by
  simp [useRules, Told, honest_index, hR]

/-- The rules of factors speak of no reference. -/
theorem Material.allHonest_factorRules {R : Field → Int64 → Nat → Prop} (xs : List Single) :
    AllHonest R L (factorRules xs) :=
  allHonest_map.mpr fun _ _ => honest_unitInterval

/-- The rules of a material speak of its references. -/
theorem Material.allHonest_rules (d : Document) (sets : Nat) (m : Material) :
    AllHonest (m.Refers d) L (m.rules d sets) := by
  simp +contextual [rules, metallicRoughnessRules, Told, allHonest_useRules,
    allHonest_factorRules, Refers.baseColor, Refers.metallicRoughness, Refers.normal,
    Refers.occlusion, Refers.emissive]

/-- The rules of a mesh speak of its references. -/
theorem Mesh.allHonest_rules (d : Document) (m : Mesh) :
    AllHonest (m.Refers d) L (m.rules d) := by
  simp +contextual [rules, Primitive.rules, Attributes.rules, Told, honest_within, honest_index,
    allHonest_map, Refers.attribute, Refers.indices, Refers.material, Refers.target]

/-- The rules of a node speak of its references, and of the children that are listed again. -/
theorem Node.allHonest_rules (d : Document) (place : Nat) (n : Node)
    (hL : ∀ k i, Again n.children k i → L ["children", k] i) :
    AllHonest (n.Refers d) L (n.rules d place) := by
  have hchildren : AllHonest (n.Refers d) L (indices ["children"] n.children d.nodes.size) :=
    allHonest_indices (fun _ _ => .child) hL
  simp +contextual [rules, Told, honest_index, hchildren, allHonest_map, Refers.camera,
    Refers.skin, Refers.mesh]

/-- The rules of a sampler speak of no reference. -/
theorem Sampler.allHonest_rules {R : Field → Int64 → Nat → Prop} (s : Sampler) :
    AllHonest R L s.rules := by
  simp [rules]

/-- The rules of a scene speak of its references, and of the nodes that are listed again. -/
theorem Scene.allHonest_rules (d : Document) (s : Scene)
    (hL : ∀ k i, Again s.nodes k i → L ["nodes", k] i) : AllHonest (s.Refers d) L (s.rules d) :=
  allHonest_indices (fun _ _ => .root) hL

/-- The rules of a skin speak of its references, and of the joints that are listed again. -/
theorem Skin.allHonest_rules (d : Document) (s : Skin)
    (hL : ∀ k i, Again s.joints k i → L ["joints", k] i) :
    AllHonest (s.Refers d) L (s.rules d) := by
  have hjoints : AllHonest (s.Refers d) L (indices ["joints"] s.joints d.nodes.size) :=
    allHonest_indices (fun _ _ => .joint) hL
  simp +contextual [rules, Told, honest_index, hjoints, Refers.inverseBindMatrices, Refers.skeleton]

/-- The rules of a texture speak of its references. -/
theorem Texture.allHonest_rules (d : Document) (t : Texture) :
    AllHonest (t.Refers d) L (t.rules d) := by
  simp +contextual [rules, honest_index, Refers.sampler, Refers.source]

end Entities

namespace Document

variable {c : Config} {d : Document} {p : Place} {v : Violation}

/-- What the rules of every element of a collection satisfy. -/
theorem forall_getElem?_ruled {α : Type} {P : Nat → List Rule → Prop} (xs : Array α)
    {rules : Nat → α → List Rule} (h : ∀ k x, xs[k]? = some x → P k (rules k x)) :
    ∀ k rs, (ruled xs rules)[k]? = some rs → P k rs := by
  intro k rs hrs
  rw [ruled, List.getElem?_map, List.getElem?_zipIdx, Nat.zero_add] at hrs
  obtain ⟨⟨x, l⟩, hl, rfl⟩ := Option.map_eq_some_iff.mp hrs
  obtain ⟨y, hy, hpair⟩ := Option.map_eq_some_iff.mp hl
  obtain ⟨rfl, rfl⟩ := Prod.mk.inj hpair
  rw [Array.getElem?_toList] at hy
  exact h k y hy

/-- The rules of an element say what is so of the element. -/
theorem allHonest_of_getElem? (c : Config) (d : Document) (kind : EntityKind) :
    ∀ k rs, (d.collectionRules c kind)[k]? = some rs →
      AllHonest (d.Refers kind (some k)) (d.Repeats kind (some k)) rs := by
  cases kind with
  | document => exact fun _ _ h => nomatch h
  | accessor =>
    exact forall_getElem?_ruled d.accessors fun _ a ha =>
      (a.allHonest_rules d).mono fun _ _ _ => .accessor ha
  | animation =>
    exact forall_getElem?_ruled d.animations fun _ a ha =>
      (a.allHonest_rules d).mono fun _ _ _ => .animation ha
  | buffer => exact forall_getElem?_ruled d.buffers fun _ b _ => b.allHonest_rules
  | bufferView =>
    exact forall_getElem?_ruled d.bufferViews fun _ v hv =>
      (v.allHonest_rules d).mono fun _ _ _ => .bufferView hv
  | camera => exact forall_getElem?_ruled d.cameras fun _ a _ => a.allHonest_rules
  | image =>
    exact forall_getElem?_ruled d.images fun _ m hm =>
      (m.allHonest_rules d).mono fun _ _ _ => .image hm
  | material =>
    exact forall_getElem?_ruled d.materials fun _ m hm =>
      (m.allHonest_rules d c.maxTexCoordSets).mono fun _ _ _ => .material hm
  | mesh =>
    exact forall_getElem?_ruled d.meshes fun _ m hm =>
      (m.allHonest_rules d).mono fun _ _ _ => .mesh hm
  | node =>
    exact forall_getElem?_ruled d.nodes fun k n hn =>
      (n.allHonest_rules d k fun _ _ => .children hn).mono fun _ _ _ => .node hn
  | sampler => exact forall_getElem?_ruled d.samplers fun _ s _ => s.allHonest_rules
  | scene =>
    exact forall_getElem?_ruled d.scenes fun _ s hs =>
      (s.allHonest_rules d fun _ _ => .nodes hs).mono fun _ _ _ => .scene hs
  | skin =>
    exact forall_getElem?_ruled d.skins fun _ s hs =>
      (s.allHonest_rules d fun _ _ => .joints hs).mono fun _ _ _ => .skin hs
  | texture =>
    exact forall_getElem?_ruled d.textures fun _ t ht =>
      (t.allHonest_rules d).mono fun _ _ _ => .texture ht

/-- There are as many lists of rules as there are entities of a kind. -/
theorem length_collectionRules (c : Config) (d : Document) (kind : EntityKind) :
    (d.collectionRules c kind).length = d.count kind := by
  cases kind with
  | document => rfl
  | _ => simp [collectionRules, ruled, count]

/-- The rules of the first scene speak of this reference. -/
theorem allHonest_sceneRules (d : Document) :
    AllHonest (d.Refers .document none) (d.Repeats .document none) d.sceneRules := by
  simp +contextual [sceneRules, honest_index, Refers.firstScene]

/-- The rules of the extensions speak of no reference. -/
theorem allHonest_extensionRules {R : Field → Int64 → Nat → Prop} {L : Field → Int64 → Prop}
    (d : Document) : AllHonest R L d.extensionRules := by
  simp [extensionRules, distinctRules, allHonest_map, Told]

/-! ## What is reported -/

/-- What is found under a list of rules is the fault of one that does not hold. -/
theorem exists_rule_of_firstFault? {rs : List Rule} {f : Fault} (h : firstFault? rs = some f) :
    ∃ r ∈ rs, ¬ r.holds ∧ r.fault = f := by
  obtain ⟨r, hr, hf⟩ := List.exists_of_findSome?_eq_some h
  unfold fault? at hf
  split at hf
  · contradiction
  · next hnot => exact ⟨r, hr, hnot, Option.some.inj hf⟩

/-- The document itself is reported for one of its rules. -/
theorem exists_of_ownCheck {rs : List Rule} (h : ownCheck rs = some v) :
    ∃ r ∈ rs, ¬ r.holds ∧ v = ⟨.document, none, r.fault⟩ := by
  obtain ⟨f, hf, rfl⟩ := Option.map_eq_some_iff.mp h
  obtain ⟨r, hr, hnot, rfl⟩ := exists_rule_of_firstFault? hf
  exact ⟨r, hr, hnot, rfl⟩

/-- An element is reported, at its place, for one of its rules. -/
theorem exists_of_check_element {kind : EntityKind} {i : Nat}
    (h : d.check c (.element kind i) = some v) :
    ∃ rs, (d.collectionRules c kind)[i]? = some rs ∧
      ∃ r ∈ rs, ¬ r.holds ∧ v = ⟨kind, some i, r.fault⟩ := by
  obtain ⟨rs, hrs, hcheck⟩ := Option.bind_eq_some_iff.mp h
  obtain ⟨f, hf, rfl⟩ := Option.map_eq_some_iff.mp hcheck
  obtain ⟨r, hr, hnot, rfl⟩ := exists_rule_of_firstFault? hf
  exact ⟨rs, hrs, r, hr, hnot, rfl⟩

/-- What is found anywhere but in the graph says what is so. -/
theorem told_of_check (hp : p ≠ .hierarchy) (h : d.check c p = some v) :
    Told (d.Refers v.entity v.index) (d.Repeats v.entity v.index) v.fault := by
  cases p with
  | asset =>
    obtain ⟨r, hr, hnot, rfl⟩ := exists_of_ownCheck h
    exact d.asset.allHonest_rules r hr hnot
  | firstScene =>
    obtain ⟨r, hr, hnot, rfl⟩ := exists_of_ownCheck h
    exact allHonest_sceneRules d r hr hnot
  | element kind i =>
    obtain ⟨rs, hrs, r, hr, hnot, rfl⟩ := exists_of_check_element h
    exact allHonest_of_getElem? c d kind i rs hrs r hr hnot
  | hierarchy => exact absurd rfl hp
  | extensions =>
    obtain ⟨r, hr, hnot, rfl⟩ := exists_of_ownCheck h
    exact allHonest_extensionRules d r hr hnot

end Document

end GltfAsset
