import GltfAsset.Proofs.Validity.Reported

/-!
# Appending to a document

Elements name each other by their places, so that an element stays where it is and goes on naming
the same if further ones are put behind those of the collections (`Document.Extends`). What is valid
among fewer elements is valid among more of them: a place that is in range stays so, and the element
at it stays the same. So the check of a document that was accepted, and whose graph is not looked
at, comes to the appended elements only, and what it reports is one of these
(`violation?_of_extends`).
That the nodes form a hierarchy is not kept, since an appended node may have children that have a
parent already.
-/

namespace GltfAsset

open Check Rule

namespace Check

variable {α : Type} {xs ys : Array α} {i : Int64} {m n : Nat}

/-! ## Places -/

/-- A longer list has no fewer entries. -/
theorem size_le_of_isPrefix (h : xs.toList <+: ys.toList) : xs.size ≤ ys.size := by
  simpa using h.length_le

/-- An entry stays where it is in a longer list. -/
theorem getElem?_of_isPrefix (h : xs.toList <+: ys.toList) {k : Nat} {x : α}
    (hx : xs[k]? = some x) : ys[k]? = some x := by
  rw [← Array.getElem?_toList] at hx ⊢
  obtain ⟨hlt, -⟩ := List.getElem?_eq_some_iff.mp hx
  obtain ⟨more, hmore⟩ := h
  rw [← hmore, List.getElem?_append_left hlt, hx]

/-- An index that is in range stays so. -/
theorem InRange.mono (h : InRange i m) (hle : m ≤ n) : InRange i n := by
  unfold InRange at *
  omega

/-- Distinct indices that are in range stay so. -/
theorem AllDistinct.mono {is : List Int64} (h : AllDistinct is m) (hle : m ≤ n) :
    AllDistinct is n :=
  ⟨fun i hi => (h.1 i hi).mono hle, h.2⟩

/-- An index goes on naming the same element. -/
theorem Names.of_isPrefix {x : α} (h : Names xs i x) (hxs : xs.toList <+: ys.toList) :
    Names ys i x := by
  obtain ⟨k, hk, hx⟩ := h
  exact ⟨k, hk, getElem?_of_isPrefix hxs hx⟩

end Check

/-! ## Documents with further elements -/

/-- The second document has the elements of the first one, and maybe further ones behind them. What
is said about both, the scene that is shown first and the lists of extensions are the same. -/
structure Document.Extends (d d' : Document) : Prop where
  /-- What is said about the document. -/
  asset : d'.asset = d.asset
  /-- The scene that is shown first. -/
  scene : d'.scene = d.scene
  /-- The extensions that occur. -/
  extensionsUsed : d'.extensionsUsed = d.extensionsUsed
  /-- The extensions that a reader must know. -/
  extensionsRequired : d'.extensionsRequired = d.extensionsRequired
  /-- The accessors. -/
  accessors : d.accessors.toList <+: d'.accessors.toList
  /-- The animations. -/
  animations : d.animations.toList <+: d'.animations.toList
  /-- The buffers. -/
  buffers : d.buffers.toList <+: d'.buffers.toList
  /-- The buffer views. -/
  bufferViews : d.bufferViews.toList <+: d'.bufferViews.toList
  /-- The cameras. -/
  cameras : d.cameras.toList <+: d'.cameras.toList
  /-- The images. -/
  images : d.images.toList <+: d'.images.toList
  /-- The materials. -/
  materials : d.materials.toList <+: d'.materials.toList
  /-- The meshes. -/
  meshes : d.meshes.toList <+: d'.meshes.toList
  /-- The nodes. -/
  nodes : d.nodes.toList <+: d'.nodes.toList
  /-- The samplers. -/
  samplers : d.samplers.toList <+: d'.samplers.toList
  /-- The scenes. -/
  scenes : d.scenes.toList <+: d'.scenes.toList
  /-- The skins. -/
  skins : d.skins.toList <+: d'.skins.toList
  /-- The textures. -/
  textures : d.textures.toList <+: d'.textures.toList

/-! ## What is valid stays valid -/

section Valid

variable {d d' : Document} (h : d.Extends d')

include h

/-- A sparse overlay that is valid stays so. -/
theorem Sparse.Valid.of_extends {count : Int64} {s : Sparse} (hs : s.Valid d count) :
    s.Valid d' count :=
  { hs with
    indicesView := hs.indicesView.mono (size_le_of_isPrefix h.bufferViews)
    valuesView := hs.valuesView.mono (size_le_of_isPrefix h.bufferViews) }

/-- An accessor that is valid stays so. -/
theorem Accessor.Valid.of_extends {a : Accessor} (ha : a.Valid d) : a.Valid d' :=
  { ha with
    bufferView := fun i hi => (ha.bufferView i hi).mono (size_le_of_isPrefix h.bufferViews)
    sparse := fun s hs => (ha.sparse s hs).of_extends h }

/-- The end of a view is compared with the length of the same buffer. -/
theorem BufferView.Valid.of_extends {v : BufferView} (hv : v.Valid d) : v.Valid d' := by
  obtain ⟨b, hb, hend⟩ := hv.buffer
  exact { hv with buffer := ⟨b, hb.of_isPrefix h.buffers, hend⟩ }

/-- A channel that is valid stays so. -/
theorem Channel.Valid.of_extends {samplers : Nat} {c : Channel} (hc : c.Valid d samplers) :
    c.Valid d' samplers :=
  { hc with node := fun i hi => (hc.node i hi).mono (size_le_of_isPrefix h.nodes) }

/-- The sampler of an animation that is valid stays so. -/
theorem AnimationSampler.Valid.of_extends {s : AnimationSampler} (hs : s.Valid d) : s.Valid d' :=
  { hs with
    input := hs.input.mono (size_le_of_isPrefix h.accessors)
    output := hs.output.mono (size_le_of_isPrefix h.accessors) }

/-- An animation that is valid stays so. -/
theorem Animation.Valid.of_extends {a : Animation} (ha : a.Valid d) : a.Valid d' :=
  { ha with
    channels := fun c hc => (ha.channels c hc).of_extends h
    samplers := fun s hs => (ha.samplers s hs).of_extends h }

/-- The joints are counted against the matrices of the same accessor. -/
theorem Skin.Valid.of_extends {s : Skin} (hs : s.Valid d) : s.Valid d' :=
  { hs with
    inverseBindMatrices := fun i hi => by
      obtain ⟨a, ha, hmatrices⟩ := hs.inverseBindMatrices i hi
      exact ⟨a, ha.of_isPrefix h.accessors, hmatrices⟩
    skeleton := fun i hi => (hs.skeleton i hi).mono (size_le_of_isPrefix h.nodes)
    joints := hs.joints.mono (size_le_of_isPrefix h.nodes) }

/-- A node that is valid stays so. -/
theorem Node.Valid.of_extends {place : Nat} {n : Node} (hn : n.Valid d place) :
    n.Valid d' place :=
  { hn with
    camera := fun i hi => (hn.camera i hi).mono (size_le_of_isPrefix h.cameras)
    skin := fun i hi => (hn.skin i hi).mono (size_le_of_isPrefix h.skins)
    mesh := fun i hi => (hn.mesh i hi).mono (size_le_of_isPrefix h.meshes)
    children := hn.children.mono (size_le_of_isPrefix h.nodes) }

/-- A scene that is valid stays so. -/
theorem Scene.Valid.of_extends {s : Scene} (hs : s.Valid d) : s.Valid d' :=
  ⟨hs.nodes.mono (size_le_of_isPrefix h.nodes)⟩

/-- A primitive that is valid stays so. -/
theorem Primitive.Valid.of_extends {p : Primitive} (hp : p.Valid d) : p.Valid d' :=
  { hp with
    attributes := fun e he => (hp.attributes e he).mono (size_le_of_isPrefix h.accessors)
    indices := fun i hi => (hp.indices i hi).mono (size_le_of_isPrefix h.accessors)
    material := fun i hi => (hp.material i hi).mono (size_le_of_isPrefix h.materials)
    targets := fun t ht e he => (hp.targets t ht e he).mono (size_le_of_isPrefix h.accessors) }

/-- A mesh that is valid stays so. -/
theorem Mesh.Valid.of_extends {m : Mesh} (hm : m.Valid d) : m.Valid d' :=
  { hm with primitives := fun p hp => (hm.primitives p hp).of_extends h }

/-- An image that is valid stays so. -/
theorem Image.Valid.of_extends {i : Image} (hi : i.Valid d) : i.Valid d' :=
  { hi with
    bufferView := fun v hv => (hi.bufferView v hv).mono (size_le_of_isPrefix h.bufferViews) }

/-- A texture that is valid stays so. -/
theorem Texture.Valid.of_extends {t : Texture} (ht : t.Valid d) : t.Valid d' :=
  ⟨fun i hi => (ht.sampler i hi).mono (size_le_of_isPrefix h.samplers),
    fun i hi => (ht.source i hi).mono (size_le_of_isPrefix h.images)⟩

/-- A reference to a texture that is valid stays so. -/
theorem Material.UseValid.of_extends {sets : Nat} {texture : Int64} {texCoord : Option Int64}
    (hu : UseValid d sets texture texCoord) : UseValid d' sets texture texCoord :=
  { hu with index := hu.index.mono (size_le_of_isPrefix h.textures) }

/-- A metallic-roughness model that is valid stays so. -/
theorem MetallicRoughness.Valid.of_extends {sets : Nat} {m : MetallicRoughness}
    (hm : m.Valid d sets) : m.Valid d' sets :=
  { hm with
    baseColorTexture := fun t ht => (hm.baseColorTexture t ht).of_extends h
    metallicRoughnessTexture := fun t ht => (hm.metallicRoughnessTexture t ht).of_extends h }

/-- A material that is valid stays so. -/
theorem Material.Valid.of_extends {sets : Nat} {m : Material} (hm : m.Valid d sets) :
    m.Valid d' sets :=
  { hm with
    metallicRoughness := fun p hp => (hm.metallicRoughness p hp).of_extends h
    normalTexture := fun t ht => (hm.normalTexture t ht).of_extends h
    occlusionTexture := fun t ht => (hm.occlusionTexture t ht).of_extends h
    emissiveTexture := fun t ht => (hm.emissiveTexture t ht).of_extends h }

end Valid

namespace Document

variable {c : Config} {d d' : Document} {p : Place} {v : Violation} {kind : EntityKind} {i : Nat}

/-! ## What was passed is passed -/

/-- Nothing is found at an element if all its rules hold. -/
theorem check_element_eq_none_iff :
    d.check c (.element kind i) = none ↔
      ∀ rs, (d.collectionRules c kind)[i]? = some rs → All rs := by
  rw [check, Option.bind_eq_none_iff]
  simp only [elementCheck, Option.map_eq_none_iff, firstFault?_eq_none_iff]
  rfl

/-- The rules of an element hold in the longer collection if they follow from those in the shorter
one. -/
theorem all_ruled_of_isPrefix {α : Type} {xs ys : Array α} (hxs : xs.toList <+: ys.toList)
    {rules rules' : Nat → α → List Rule} (hrules : ∀ k x, All (rules k x) → All (rules' k x))
    (hi : i < xs.size) (hall : ∀ rs, (ruled xs rules)[i]? = some rs → All rs) :
    ∀ rs, (ruled ys rules')[i]? = some rs → All rs := by
  have hx : xs[i]? = some xs[i] := Array.getElem?_eq_getElem hi
  have hy := getElem?_of_isPrefix hxs hx
  have hrs : (ruled xs rules)[i]? = some (rules i xs[i]) := by simp [ruled, hx]
  have hrs' : (ruled ys rules')[i]? = some (rules' i xs[i]) := by simp [ruled, hy]
  rw [hrs']
  rintro _ ⟨⟩
  exact hrules i _ (hall _ hrs)

/-- An element that is passed among fewer elements is passed among more. -/
theorem check_eq_none_of_extends (h : d.Extends d') (hi : i < d.count kind)
    (hcheck : d.check c (.element kind i) = none) : d'.check c (.element kind i) = none := by
  rw [check_element_eq_none_iff] at hcheck ⊢
  unfold collectionRules at hcheck ⊢
  cases kind with
  | document => exact absurd hi (Nat.not_lt_zero i)
  | accessor =>
    refine all_ruled_of_isPrefix h.accessors (fun _ a ha => ?_) hi hcheck
    exact Accessor.all_rules_iff.mpr ((Accessor.all_rules_iff.mp ha).of_extends h)
  | animation =>
    refine all_ruled_of_isPrefix h.animations (fun _ a ha => ?_) hi hcheck
    exact Animation.all_rules_iff.mpr ((Animation.all_rules_iff.mp ha).of_extends h)
  | buffer => exact all_ruled_of_isPrefix h.buffers (fun _ _ => id) hi hcheck
  | bufferView =>
    refine all_ruled_of_isPrefix h.bufferViews (fun _ v hv => ?_) hi hcheck
    exact BufferView.all_rules_iff.mpr ((BufferView.all_rules_iff.mp hv).of_extends h)
  | camera => exact all_ruled_of_isPrefix h.cameras (fun _ _ => id) hi hcheck
  | image =>
    refine all_ruled_of_isPrefix h.images (fun _ m hm => ?_) hi hcheck
    exact Image.all_rules_iff.mpr ((Image.all_rules_iff.mp hm).of_extends h)
  | material =>
    refine all_ruled_of_isPrefix h.materials (fun _ m hm => ?_) hi hcheck
    exact Material.all_rules_iff.mpr ((Material.all_rules_iff.mp hm).of_extends h)
  | mesh =>
    refine all_ruled_of_isPrefix h.meshes (fun _ m hm => ?_) hi hcheck
    exact Mesh.all_rules_iff.mpr ((Mesh.all_rules_iff.mp hm).of_extends h)
  | node =>
    refine all_ruled_of_isPrefix h.nodes (fun _ n hn => ?_) hi hcheck
    exact Node.all_rules_iff.mpr ((Node.all_rules_iff.mp hn).of_extends h)
  | sampler => exact all_ruled_of_isPrefix h.samplers (fun _ _ => id) hi hcheck
  | scene =>
    refine all_ruled_of_isPrefix h.scenes (fun _ s hs => ?_) hi hcheck
    exact Scene.all_rules_iff.mpr ((Scene.all_rules_iff.mp hs).of_extends h)
  | skin =>
    refine all_ruled_of_isPrefix h.skins (fun _ s hs => ?_) hi hcheck
    exact Skin.all_rules_iff.mpr ((Skin.all_rules_iff.mp hs).of_extends h)
  | texture =>
    refine all_ruled_of_isPrefix h.textures (fun _ t ht => ?_) hi hcheck
    exact Texture.all_rules_iff.mpr ((Texture.all_rules_iff.mp ht).of_extends h)

/-! ## What is found is found at an appended element -/

/-- Behind the elements only the last places are checked. -/
theorem mem_lastPlaces_of_mem_places (hp : p ∈ d.places c)
    (hlast : p = .hierarchy ∨ p = .extensions) : p ∈ lastPlaces c := by
  rcases hlast with rfl | rfl <;> simpa [places, elementPlaces] using hp

/-- The scene that is shown first is there among more scenes too. -/
theorem check_firstScene_eq_none_of_extends (h : d.Extends d')
    (hcheck : d.check c .firstScene = none) : d'.check c .firstScene = none := by
  simp only [check, ownCheck_eq_none_iff, sceneRules, all_ifGiven, all_cons, all_nil, and_true,
    holds_index] at hcheck ⊢
  intro i hi
  rw [h.scene] at hi
  exact (hcheck i hi).mono (size_le_of_isPrefix h.scenes)

/-- Something is found at a place only if it is an appended element. -/
theorem check_eq_none_or_appended (h : d.Extends d') (hgraph : c.checkHierarchy = false)
    (haccepted : d.violation? c = none) (hp : p ∈ d'.places c) :
    d'.check c p = none ∨
      ∃ kind i, p = .element kind i ∧ d.count kind ≤ i ∧ i < d'.count kind := by
  rw [violation?_eq_none_iff_check] at haccepted
  cases p with
  | asset =>
    left
    have hasset := haccepted .asset (List.mem_append_left _ List.mem_cons_self)
    rwa [check, ← h.asset] at hasset
  | firstScene =>
    left
    refine check_firstScene_eq_none_of_extends h (haccepted _ (List.mem_append_left _ ?_))
    exact List.mem_append_left _ (List.mem_cons_of_mem _ List.mem_cons_self)
  | element kind i =>
    rcases Nat.lt_or_ge i (d.count kind) with hlt | hge
    · left
      refine check_eq_none_of_extends h hlt ?_
      exact (mem_places_or_check_eq_none c d kind i).elim (haccepted _) id
    · rcases Nat.lt_or_ge i (d'.count kind) with hlt' | hge'
      · exact .inr ⟨kind, i, rfl, hge, hlt'⟩
      · -- There is no such element.
        left
        rw [← length_collectionRules c] at hge'
        rw [check, List.getElem?_eq_none hge']
        rfl
  | hierarchy =>
    have hlast := mem_lastPlaces_of_mem_places hp (.inl rfl)
    simp [lastPlaces, hgraph] at hlast
  | extensions =>
    left
    have hlast := mem_lastPlaces_of_mem_places hp (.inr rfl)
    have hextensions := haccepted .extensions (List.mem_append_right _ hlast)
    rwa [check, extensionRules, ← h.extensionsUsed, ← h.extensionsRequired] at hextensions

/-- Appending to the collections of a document invalidates nothing: an element that is passed among
the old ones is passed among all. So, if a document was accepted without a look at its graph, it is
accepted with further elements exactly if these are passed, and what is reported otherwise is found
at one of them. -/
theorem violation?_of_extends {d d' : Document} (h : d.Extends d') (c : Config) :
    (∀ kind i, i < d.count kind → d.check c (.element kind i) = none →
      d'.check c (.element kind i) = none) ∧
    (c.checkHierarchy = false → d.violation? c = none →
      (d'.violation? c = none ↔ ∀ kind i, d.count kind ≤ i → i < d'.count kind →
        d'.check c (.element kind i) = none) ∧
      ∀ v, d'.violation? c = some v → ∃ i, v.index = some i ∧ d.count v.entity ≤ i ∧
        i < d'.count v.entity ∧ d'.check c (.element v.entity i) = some v) := by
  refine ⟨fun kind i hi hcheck => check_eq_none_of_extends h hi hcheck,
    fun hgraph haccepted => ⟨⟨?_, ?_⟩, ?_⟩⟩
  · intro haccepted' kind i _ _
    rw [violation?_eq_none_iff_check] at haccepted'
    exact (mem_places_or_check_eq_none c d' kind i).elim (haccepted' _) id
  · intro happended
    rw [violation?_eq_none_iff_check]
    intro p hp
    rcases check_eq_none_or_appended h hgraph haccepted hp with hnone | ⟨kind, i, rfl, hge, hlt⟩
    · exact hnone
    · exact happended kind i hge hlt
  · intro v hv
    obtain ⟨p, hreaches, hcheck⟩ := violation?_eq_some_iff.mp hv
    obtain ⟨before, after, hplaces, -⟩ := hreaches
    have hp : p ∈ d'.places c := hplaces ▸ List.mem_append_right _ List.mem_cons_self
    rcases check_eq_none_or_appended h hgraph haccepted hp with hnone | ⟨kind, i, rfl, hge, hlt⟩
    · rw [hnone] at hcheck
      contradiction
    · obtain ⟨rs, -, r, -, -, rfl⟩ := exists_of_check_element hcheck
      exact ⟨i, rfl, hge, hlt, hcheck⟩

/-- A view of the last byte of a buffer, and a node as the root of a scene. -/
def shortDocument : Document where
  asset := { version := "2.0" }
  buffers := #[{ byteLength := 4 }]
  bufferViews := #[{ buffer := 0, byteOffset := some 3, byteLength := 1 }]
  nodes := #[{}]
  scenes := #[{ nodes := [0] }]

/-- The same with a shorter buffer, a view of the old one and two nodes, of which the second one has
the child that the first one has, and another one that is not there. -/
def longDocument : Document :=
  { shortDocument with
    buffers := shortDocument.buffers ++ #[{ byteLength := 1 }]
    bufferViews := shortDocument.bufferViews ++ #[{ buffer := 0, byteLength := 4 }]
    nodes := shortDocument.nodes ++ #[{ children := [0] }, { children := [0, 3] }] }

/-- The view stays valid, and the child that is not there is reported of the last node. -/
theorem violation?_of_extends_longDocument :
    let c : Config := { checkHierarchy := false }
    let v : Violation := ⟨.node, some 2, ["children", .element 1], .indexOutOfRange 3 3⟩
    shortDocument.Extends longDocument ∧ shortDocument.violation? c = none ∧
      longDocument.check c (.element .bufferView 0) = none ∧
      longDocument.violation? c = some v ∧ longDocument.check c (.element .node 2) = some v := by
  intro c v
  have h : shortDocument.Extends longDocument :=
    { asset := rfl, scene := rfl, extensionsUsed := rfl, extensionsRequired := rfl
      accessors := List.prefix_rfl, animations := List.prefix_rfl, buffers := ⟨_, rfl⟩
      bufferViews := ⟨_, rfl⟩, cameras := List.prefix_rfl, images := List.prefix_rfl
      materials := List.prefix_rfl, meshes := List.prefix_rfl, nodes := ⟨_, rfl⟩
      samplers := List.prefix_rfl, scenes := List.prefix_rfl, skins := List.prefix_rfl
      textures := List.prefix_rfl }
  have haccepted : shortDocument.violation? c = none := by decide +kernel
  have hv : longDocument.violation? c = some v := by decide +kernel
  obtain ⟨hkept, hfound⟩ := violation?_of_extends h c
  obtain ⟨-, hfirst⟩ := hfound rfl haccepted
  obtain ⟨i, ⟨⟩, -, -, hcheck⟩ := hfirst v hv
  exact ⟨h, haccepted, hkept .bufferView 0 (by decide) (by decide +kernel), hv, hcheck⟩

end Document

end GltfAsset
