import GltfAsset.Document.Basic
import GltfAsset.Proofs.Json.Values

/-!
# The leaves of a document

Most of what a document holds is brought back by its text whatever it is. What may not be are its
leaves: 32-bit floats, free values and vertex attributes. `leaves` lists them, from those of the
single entities to those of the whole document.
-/

namespace GltfAsset

/-- A part of a document that its text may not bring back. -/
inductive Leaf where
  /-- A 32-bit float. -/
  | single (x : Single)
  /-- Data for extensions of the format or of the application. -/
  | free (v : Value)
  /-- Vertex attributes. -/
  | attributes (as : Attributes)

namespace Leaf

/-- The leaf can be held, and the numbers in it that are written are read back. -/
def Readable : Leaf → Prop
  | single x => x.IsFinite → x.ReadsBack
  | free v => v.WellFormed ∧ ∀ x ∈ v.floats, x.ReadsBack
  | attributes as => (as.map Prod.fst).Nodup

/-- The leaf has a text of its own, other than `null`. -/
def Writable : Leaf → Prop
  | single x => x.IsFinite
  | free v => v ≠ .null
  | attributes _ => True

/-- The leaf is one that is read from a text: a number, a free value that can be held and is not
`null`, or attributes with distinct names. -/
def Decoded : Leaf → Prop
  | single x => x ≠ .nan
  | free v => v ≠ .null ∧ v.WellFormed
  | attributes as => (as.map Prod.fst).Nodup

/-- The leaf can be held. -/
def WellFormed : Leaf → Prop
  | free v => v.WellFormed
  | _ => True

/-- A leaf whose numbers are read back can be held. -/
theorem Readable.wellFormed {l : Leaf} (h : l.Readable) : l.WellFormed := by
  cases l with
  | single x => trivial
  | free v => exact h.1
  | attributes as => trivial

/-- A leaf that is read from a text can be held. -/
theorem Decoded.wellFormed {l : Leaf} (h : l.Decoded) : l.WellFormed := by
  cases l with
  | single x => trivial
  | free v => exact h.2
  | attributes as => trivial

end Leaf

/-- A type of which the values have leaves. -/
class Leaves (α : Type) where
  /-- The leaves in a value. -/
  leaves : α → List Leaf

export Leaves (leaves)

/-- All leaves of a value have the property. -/
def AllLeaves {α : Type} [Leaves α] (p : Leaf → Prop) (x : α) : Prop := ∀ l ∈ leaves x, p l

/-- A property of leaves may be weakened. -/
theorem AllLeaves.imp {α : Type} [Leaves α] {p q : Leaf → Prop} {x : α} (h : AllLeaves p x)
    (hpq : ∀ l, p l → q l) : AllLeaves q x := fun l hl => hpq l (h l hl)

section

variable {α : Type} [Leaves α] {p : Leaf → Prop}

instance : Leaves String := ⟨fun _ => []⟩

instance : Leaves Bool := ⟨fun _ => []⟩

instance : Leaves Int64 := ⟨fun _ => []⟩

instance : Leaves Single := ⟨fun x => [.single x]⟩

instance : Leaves Value := ⟨fun v => [.free v]⟩

instance : Leaves Attributes := ⟨fun as => [.attributes as]⟩

instance : Leaves (Option α) := ⟨fun o => o.toList.flatMap leaves⟩

instance : Leaves (List α) := ⟨fun xs => xs.flatMap leaves⟩

instance (n : Nat) : Leaves (Vector α n) := ⟨fun v => v.toList.flatMap leaves⟩

instance : Leaves (Array α) := ⟨fun xs => xs.toList.flatMap leaves⟩

/-- The leaf in a float is the float. -/
theorem allLeaves_single {x : Single} : AllLeaves p x ↔ p (.single x) :=
  List.forall_mem_singleton

/-- The leaf in a free value is the value. -/
theorem allLeaves_value {v : Value} : AllLeaves p v ↔ p (.free v) := List.forall_mem_singleton

/-- The leaf in vertex attributes is all of them. -/
theorem allLeaves_attributes {as : Attributes} : AllLeaves p as ↔ p (.attributes as) :=
  List.forall_mem_singleton

/-- The leaves in a list are those in its elements. -/
theorem allLeaves_list {xs : List α} : AllLeaves p xs ↔ ∀ x ∈ xs, AllLeaves p x :=
  List.forall_mem_flatMap

/-- The leaves in a value that may be absent are those in the value if it is there. -/
theorem allLeaves_option {o : Option α} : AllLeaves p o ↔ ∀ x ∈ o, AllLeaves p x := by
  cases o with
  | none => simp [AllLeaves, leaves]
  | some x => simp [AllLeaves, leaves]

/-- The leaves in a collection are those in the list of its elements. -/
@[simp] theorem allLeaves_toList {xs : Array α} : AllLeaves p xs.toList ↔ AllLeaves p xs := Iff.rfl

/-- A collection of the elements of a list has the leaves of the list. -/
@[simp] theorem allLeaves_toArray {xs : List α} : AllLeaves p xs.toArray ↔ AllLeaves p xs := Iff.rfl

/-- The leaves in an array of fixed length are those in its elements. -/
theorem allLeaves_vector {n : Nat} {v : Vector α n} :
    AllLeaves p v ↔ ∀ x ∈ v.toList, AllLeaves p x := List.forall_mem_flatMap

/-- A type of which the values have no leaves. -/
class Leafless (α : Type) [Leaves α] : Prop where
  /-- There is none. -/
  leaves_eq_nil : ∀ x : α, leaves x = []

instance : Leafless String := ⟨fun _ => rfl⟩

instance : Leafless Bool := ⟨fun _ => rfl⟩

instance : Leafless Int64 := ⟨fun _ => rfl⟩

instance [Leafless α] : Leafless (Option α) :=
  ⟨fun _ => List.flatMap_eq_nil_iff.mpr fun x _ => Leafless.leaves_eq_nil x⟩

instance [Leafless α] : Leafless (List α) :=
  ⟨fun _ => List.flatMap_eq_nil_iff.mpr fun x _ => Leafless.leaves_eq_nil x⟩

/-- Without leaves, nothing is asked. -/
@[simp] theorem allLeaves_of_leafless [Leafless α] (x : α) : AllLeaves p x := by
  rw [AllLeaves, Leafless.leaves_eq_nil]
  exact List.forall_mem_nil p

end

variable {p : Leaf → Prop}

instance : Leaves Buffer := ⟨fun b => leaves b.extensions ++ leaves b.extras⟩

/-- The leaves in a buffer are those in its members. -/
@[simp] theorem Buffer.allLeaves_iff {b : Buffer} :
    AllLeaves p b ↔ AllLeaves p b.extensions ∧ AllLeaves p b.extras := List.forall_mem_append

instance : Leaves BufferView := ⟨fun v => leaves v.extensions ++ leaves v.extras⟩

/-- The leaves in a buffer view are those in its members. -/
@[simp] theorem BufferView.allLeaves_iff {v : BufferView} :
    AllLeaves p v ↔ AllLeaves p v.extensions ∧ AllLeaves p v.extras := List.forall_mem_append

instance : Leaves SparseIndices := ⟨fun i => leaves i.extensions ++ leaves i.extras⟩

/-- The leaves in the indices of a sparse overlay are those in their members. -/
@[simp] theorem SparseIndices.allLeaves_iff {i : SparseIndices} :
    AllLeaves p i ↔ AllLeaves p i.extensions ∧ AllLeaves p i.extras := List.forall_mem_append

instance : Leaves SparseValues := ⟨fun v => leaves v.extensions ++ leaves v.extras⟩

/-- The leaves in the values of a sparse overlay are those in their members. -/
@[simp] theorem SparseValues.allLeaves_iff {v : SparseValues} :
    AllLeaves p v ↔ AllLeaves p v.extensions ∧ AllLeaves p v.extras := List.forall_mem_append

instance : Leaves Sparse where
  leaves s :=
    leaves s.indices ++ leaves s.values ++ leaves s.extensions ++ leaves s.extras

/-- The leaves in a sparse overlay are those in its members. -/
@[simp] theorem Sparse.allLeaves_iff {s : Sparse} :
    AllLeaves p s ↔ AllLeaves p s.indices ∧ AllLeaves p s.values ∧ AllLeaves p s.extensions ∧
      AllLeaves p s.extras := by
  simp only [AllLeaves, leaves, List.forall_mem_append, and_assoc]

instance : Leaves Accessor where
  leaves a :=
    leaves a.max ++ leaves a.min ++ leaves a.sparse ++ leaves a.extensions ++ leaves a.extras

/-- The leaves in an accessor are those in its members. -/
@[simp] theorem Accessor.allLeaves_iff {a : Accessor} :
    AllLeaves p a ↔ AllLeaves p a.max ∧ AllLeaves p a.min ∧ AllLeaves p a.sparse ∧
      AllLeaves p a.extensions ∧ AllLeaves p a.extras := by
  simp only [AllLeaves, leaves, List.forall_mem_append, and_assoc]

instance : Leaves Target := ⟨fun t => leaves t.extensions ++ leaves t.extras⟩

/-- The leaves in the target of a channel are those in its members. -/
@[simp] theorem Target.allLeaves_iff {t : Target} :
    AllLeaves p t ↔ AllLeaves p t.extensions ∧ AllLeaves p t.extras := List.forall_mem_append

instance : Leaves Channel := ⟨fun c => leaves c.target ++ leaves c.extensions ++ leaves c.extras⟩

/-- The leaves in a channel are those in its members. -/
@[simp] theorem Channel.allLeaves_iff {c : Channel} :
    AllLeaves p c ↔ AllLeaves p c.target ∧ AllLeaves p c.extensions ∧ AllLeaves p c.extras := by
  simp only [AllLeaves, leaves, List.forall_mem_append, and_assoc]

instance : Leaves AnimationSampler := ⟨fun s => leaves s.extensions ++ leaves s.extras⟩

/-- The leaves in the sampler of an animation are those in its members. -/
@[simp] theorem AnimationSampler.allLeaves_iff {s : AnimationSampler} :
    AllLeaves p s ↔ AllLeaves p s.extensions ∧ AllLeaves p s.extras := List.forall_mem_append

instance : Leaves Animation where
  leaves a :=
    leaves a.channels ++ leaves a.samplers ++ leaves a.extensions ++ leaves a.extras

/-- The leaves in an animation are those in its members. -/
@[simp] theorem Animation.allLeaves_iff {a : Animation} :
    AllLeaves p a ↔ AllLeaves p a.channels ∧ AllLeaves p a.samplers ∧ AllLeaves p a.extensions ∧
      AllLeaves p a.extras := by
  simp only [AllLeaves, leaves, List.forall_mem_append, and_assoc]

instance : Leaves Skin := ⟨fun s => leaves s.extensions ++ leaves s.extras⟩

/-- The leaves in a skin are those in its members. -/
@[simp] theorem Skin.allLeaves_iff {s : Skin} :
    AllLeaves p s ↔ AllLeaves p s.extensions ∧ AllLeaves p s.extras := List.forall_mem_append

instance : Leaves Orthographic where
  leaves c :=
    leaves c.xmag ++ leaves c.ymag ++ leaves c.zfar ++ leaves c.znear ++ leaves c.extensions ++
      leaves c.extras

/-- The leaves in an orthographic projection are those in its members. -/
@[simp] theorem Orthographic.allLeaves_iff {c : Orthographic} :
    AllLeaves p c ↔ AllLeaves p c.xmag ∧ AllLeaves p c.ymag ∧ AllLeaves p c.zfar ∧
      AllLeaves p c.znear ∧ AllLeaves p c.extensions ∧ AllLeaves p c.extras := by
  simp only [AllLeaves, leaves, List.forall_mem_append, and_assoc]

instance : Leaves Perspective where
  leaves c :=
    leaves c.aspectRatio ++ leaves c.yfov ++ leaves c.zfar ++ leaves c.znear ++
      leaves c.extensions ++ leaves c.extras

/-- The leaves in a perspective projection are those in its members. -/
@[simp] theorem Perspective.allLeaves_iff {c : Perspective} :
    AllLeaves p c ↔ AllLeaves p c.aspectRatio ∧ AllLeaves p c.yfov ∧ AllLeaves p c.zfar ∧
      AllLeaves p c.znear ∧ AllLeaves p c.extensions ∧ AllLeaves p c.extras := by
  simp only [AllLeaves, leaves, List.forall_mem_append, and_assoc]

instance : Leaves Camera where
  leaves c :=
    leaves c.orthographic ++ leaves c.perspective ++ leaves c.extensions ++ leaves c.extras

/-- The leaves in a camera are those in its members. -/
@[simp] theorem Camera.allLeaves_iff {c : Camera} :
    AllLeaves p c ↔ AllLeaves p c.orthographic ∧ AllLeaves p c.perspective ∧
      AllLeaves p c.extensions ∧ AllLeaves p c.extras := by
  simp only [AllLeaves, leaves, List.forall_mem_append, and_assoc]

instance : Leaves Node where
  leaves n :=
    leaves n.matrix ++ leaves n.rotation ++ leaves n.scale ++ leaves n.translation ++
      leaves n.weights ++ leaves n.extensions ++ leaves n.extras

/-- The leaves in a node are those in its members. -/
@[simp] theorem Node.allLeaves_iff {n : Node} :
    AllLeaves p n ↔ AllLeaves p n.matrix ∧ AllLeaves p n.rotation ∧ AllLeaves p n.scale ∧
      AllLeaves p n.translation ∧ AllLeaves p n.weights ∧ AllLeaves p n.extensions ∧
      AllLeaves p n.extras := by
  simp only [AllLeaves, leaves, List.forall_mem_append, and_assoc]

instance : Leaves Scene := ⟨fun s => leaves s.extensions ++ leaves s.extras⟩

/-- The leaves in a scene are those in its members. -/
@[simp] theorem Scene.allLeaves_iff {s : Scene} :
    AllLeaves p s ↔ AllLeaves p s.extensions ∧ AllLeaves p s.extras := List.forall_mem_append

instance : Leaves Primitive where
  leaves r :=
    leaves r.attributes ++ leaves r.targets ++ leaves r.extensions ++ leaves r.extras

/-- The leaves in a primitive are those in its members. -/
@[simp] theorem Primitive.allLeaves_iff {r : Primitive} :
    AllLeaves p r ↔ AllLeaves p r.attributes ∧ AllLeaves p r.targets ∧ AllLeaves p r.extensions ∧
      AllLeaves p r.extras := by
  simp only [AllLeaves, leaves, List.forall_mem_append, and_assoc]

instance : Leaves Mesh where
  leaves m :=
    leaves m.primitives ++ leaves m.weights ++ leaves m.extensions ++ leaves m.extras

/-- The leaves in a mesh are those in its members. -/
@[simp] theorem Mesh.allLeaves_iff {m : Mesh} :
    AllLeaves p m ↔ AllLeaves p m.primitives ∧ AllLeaves p m.weights ∧ AllLeaves p m.extensions ∧
      AllLeaves p m.extras := by
  simp only [AllLeaves, leaves, List.forall_mem_append, and_assoc]

instance : Leaves Image := ⟨fun i => leaves i.extensions ++ leaves i.extras⟩

/-- The leaves in an image are those in its members. -/
@[simp] theorem Image.allLeaves_iff {i : Image} :
    AllLeaves p i ↔ AllLeaves p i.extensions ∧ AllLeaves p i.extras := List.forall_mem_append

instance : Leaves Sampler := ⟨fun s => leaves s.extensions ++ leaves s.extras⟩

/-- The leaves in a sampler are those in its members. -/
@[simp] theorem Sampler.allLeaves_iff {s : Sampler} :
    AllLeaves p s ↔ AllLeaves p s.extensions ∧ AllLeaves p s.extras := List.forall_mem_append

instance : Leaves Texture := ⟨fun t => leaves t.extensions ++ leaves t.extras⟩

/-- The leaves in a texture are those in its members. -/
@[simp] theorem Texture.allLeaves_iff {t : Texture} :
    AllLeaves p t ↔ AllLeaves p t.extensions ∧ AllLeaves p t.extras := List.forall_mem_append

instance : Leaves TextureInfo := ⟨fun t => leaves t.extensions ++ leaves t.extras⟩

/-- The leaves in a reference to a texture are those in its members. -/
@[simp] theorem TextureInfo.allLeaves_iff {t : TextureInfo} :
    AllLeaves p t ↔ AllLeaves p t.extensions ∧ AllLeaves p t.extras := List.forall_mem_append

instance : Leaves NormalTextureInfo where
  leaves t :=
    leaves t.scale ++ leaves t.extensions ++ leaves t.extras

/-- The leaves in a reference to a normal texture are those in its members. -/
@[simp] theorem NormalTextureInfo.allLeaves_iff {t : NormalTextureInfo} :
    AllLeaves p t ↔ AllLeaves p t.scale ∧ AllLeaves p t.extensions ∧ AllLeaves p t.extras := by
  simp only [AllLeaves, leaves, List.forall_mem_append, and_assoc]

instance : Leaves OcclusionTextureInfo where
  leaves t :=
    leaves t.strength ++ leaves t.extensions ++ leaves t.extras

/-- The leaves in a reference to an occlusion texture are those in its members. -/
@[simp] theorem OcclusionTextureInfo.allLeaves_iff {t : OcclusionTextureInfo} :
    AllLeaves p t ↔ AllLeaves p t.strength ∧ AllLeaves p t.extensions ∧ AllLeaves p t.extras := by
  simp only [AllLeaves, leaves, List.forall_mem_append, and_assoc]

instance : Leaves MetallicRoughness where
  leaves m :=
    leaves m.baseColorFactor ++ leaves m.baseColorTexture ++ leaves m.metallicFactor ++
      leaves m.roughnessFactor ++ leaves m.metallicRoughnessTexture ++ leaves m.extensions ++
      leaves m.extras

/-- The leaves in a metallic-roughness model are those in its members. -/
@[simp] theorem MetallicRoughness.allLeaves_iff {m : MetallicRoughness} :
    AllLeaves p m ↔ AllLeaves p m.baseColorFactor ∧ AllLeaves p m.baseColorTexture ∧
      AllLeaves p m.metallicFactor ∧ AllLeaves p m.roughnessFactor ∧
      AllLeaves p m.metallicRoughnessTexture ∧ AllLeaves p m.extensions ∧ AllLeaves p m.extras := by
  simp only [AllLeaves, leaves, List.forall_mem_append, and_assoc]

instance : Leaves Material where
  leaves m :=
    leaves m.metallicRoughness ++ leaves m.normalTexture ++ leaves m.occlusionTexture ++
      leaves m.emissiveTexture ++ leaves m.emissiveFactor ++ leaves m.alphaCutoff ++
      leaves m.extensions ++ leaves m.extras

/-- The leaves in a material are those in its members. -/
@[simp] theorem Material.allLeaves_iff {m : Material} :
    AllLeaves p m ↔ AllLeaves p m.metallicRoughness ∧ AllLeaves p m.normalTexture ∧
      AllLeaves p m.occlusionTexture ∧ AllLeaves p m.emissiveTexture ∧
      AllLeaves p m.emissiveFactor ∧ AllLeaves p m.alphaCutoff ∧ AllLeaves p m.extensions ∧
      AllLeaves p m.extras := by
  simp only [AllLeaves, leaves, List.forall_mem_append, and_assoc]

instance : Leaves Asset := ⟨fun a => leaves a.extensions ++ leaves a.extras⟩

/-- The leaves in the asset data are those in their members. -/
@[simp] theorem Asset.allLeaves_iff {a : Asset} :
    AllLeaves p a ↔ AllLeaves p a.extensions ∧ AllLeaves p a.extras := List.forall_mem_append

instance : Leaves Document where
  leaves d :=
    leaves d.accessors ++ leaves d.animations ++ leaves d.asset ++ leaves d.buffers ++
      leaves d.bufferViews ++ leaves d.cameras ++ leaves d.images ++ leaves d.materials ++
      leaves d.meshes ++ leaves d.nodes ++ leaves d.samplers ++ leaves d.scenes ++
      leaves d.skins ++ leaves d.textures ++ leaves d.extensions ++ leaves d.extras

/-- The leaves in a document are those in its members. -/
@[simp] theorem Document.allLeaves_iff {d : Document} :
    AllLeaves p d ↔ AllLeaves p d.accessors ∧ AllLeaves p d.animations ∧ AllLeaves p d.asset ∧
      AllLeaves p d.buffers ∧ AllLeaves p d.bufferViews ∧ AllLeaves p d.cameras ∧
      AllLeaves p d.images ∧ AllLeaves p d.materials ∧ AllLeaves p d.meshes ∧ AllLeaves p d.nodes ∧
      AllLeaves p d.samplers ∧ AllLeaves p d.scenes ∧ AllLeaves p d.skins ∧
      AllLeaves p d.textures ∧ AllLeaves p d.extensions ∧ AllLeaves p d.extras := by
  simp only [AllLeaves, leaves, List.forall_mem_append, and_assoc]

end GltfAsset
