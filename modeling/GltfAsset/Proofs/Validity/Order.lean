import GltfAsset.Check.Document

/-!
# The order of the checks

The checks of a document as a list of places, each with its own check: what is said about the
document, its first scene, the elements of the collections in order, and then, if they are asked
for, the graph of the nodes and the lists of extensions. A document is refused at the first place at
which something is found, so whatever comes before the place of a violation is as it should be
(`Reaches.check_eq_none`).
-/

namespace GltfAsset

open Check Rule

/-- The kinds of entities of which there are collections, in the order in which these are
checked. -/
def Check.EntityKind.inOrder : List EntityKind :=
  [.accessor, .animation, .buffer, .bufferView, .camera, .image, .material, .mesh, .node, .sampler,
    .scene, .skin, .texture]

namespace Document

/-! ## Places -/

/-- What is checked of a document. -/
inductive Place where
  /-- What is said about it. -/
  | asset
  /-- The scene that is shown first. -/
  | firstScene
  /-- An element of a collection. -/
  | element (kind : EntityKind) (i : Nat)
  /-- The graph of the nodes. -/
  | hierarchy
  /-- The lists of extensions. -/
  | extensions
deriving DecidableEq, Repr

namespace Place

/-- The turn of a place among the others, all elements of a collection having the same. -/
def turn : Place → Nat
  | asset => 0
  | firstScene => 1
  | element kind _ => 2 + EntityKind.inOrder.idxOf kind
  | hierarchy => 3 + EntityKind.inOrder.length
  | extensions => 4 + EntityKind.inOrder.length

/-- The number of an element in its collection. -/
def number : Place → Nat
  | element _ i => i
  | _ => 0

/-- A place comes before another one. The elements of a collection come one after the other. -/
def Before (p q : Place) : Prop := p.turn < q.turn ∨ p.turn = q.turn ∧ p.number < q.number

instance (p q : Place) : Decidable (p.Before q) := inferInstanceAs (Decidable (_ ∨ _))

/-- Of two places, not both come before the other. -/
theorem Before.asymm {p q : Place} (h : p.Before q) : ¬ q.Before p := by
  unfold Before at *
  omega

/-- What comes before a place comes before all that come after it. -/
theorem Before.trans {p q r : Place} (h : p.Before q) (h' : q.Before r) : p.Before r := by
  unfold Before at *
  omega

/-- Every element comes before the graph. -/
theorem element_before_hierarchy (kind : EntityKind) (i : Nat) :
    (element kind i).Before hierarchy := by
  have hle : EntityKind.inOrder.idxOf kind ≤ EntityKind.inOrder.length := List.idxOf_le_length
  left
  dsimp only [turn]
  omega

/-- Every element comes before the lists of extensions. -/
theorem element_before_extensions (kind : EntityKind) (i : Nat) :
    (element kind i).Before extensions := by
  have hle : EntityKind.inOrder.idxOf kind ≤ EntityKind.inOrder.length := List.idxOf_le_length
  left
  dsimp only [turn]
  omega

end Place

/-- The rules of the elements of a collection, element by element. -/
def ruled {α : Type} (xs : Array α) (rules : Nat → α → List Rule) : List (List Rule) :=
  xs.toList.zipIdx.map fun (x, i) => rules i x

/-- The rules of the elements of the collection of a kind of entities. The document itself is in no
collection. -/
def collectionRules (c : Config) (d : Document) : EntityKind → List (List Rule)
  | .document => []
  | .accessor => ruled d.accessors fun _ => Accessor.rules d
  | .animation => ruled d.animations fun _ => Animation.rules d
  | .buffer => ruled d.buffers fun _ => Buffer.rules
  | .bufferView => ruled d.bufferViews fun _ => BufferView.rules d
  | .camera => ruled d.cameras fun _ => Camera.rules
  | .image => ruled d.images fun _ => Image.rules d
  | .material => ruled d.materials fun _ => Material.rules d c.maxTexCoordSets
  | .mesh => ruled d.meshes fun _ => Mesh.rules d
  | .node => ruled d.nodes (Node.rules d)
  | .sampler => ruled d.samplers fun _ => Sampler.rules
  | .scene => ruled d.scenes fun _ => Scene.rules d
  | .skin => ruled d.skins fun _ => Skin.rules d
  | .texture => ruled d.textures fun _ => Texture.rules d

/-- The places of the elements of a collection. -/
def elementPlaces (c : Config) (d : Document) (kind : EntityKind) : List Place :=
  (List.range (d.collectionRules c kind).length).map (.element kind)

/-- The places that are checked last, if they are asked for. -/
def lastPlaces (c : Config) : List Place :=
  (if c.checkHierarchy then [.hierarchy] else []) ++
  (if c.checkExtensions then [.extensions] else [])

/-- The places that are checked, in order. -/
def places (c : Config) (d : Document) : List Place :=
  [.asset, .firstScene] ++ EntityKind.inOrder.flatMap (d.elementPlaces c) ++ lastPlaces c

/-- The check of a place: the violation that is found there. At an element that is not there,
nothing is found. -/
def check (c : Config) (d : Document) : Place → Option Violation
  | .asset => ownCheck d.asset.rules
  | .firstScene => ownCheck d.sceneRules
  | .element kind i => (d.collectionRules c kind)[i]?.bind (elementCheck kind i)
  | .hierarchy => d.graph.violation?
  | .extensions => ownCheck d.extensionRules

/-- The checks come to a place: at all places before it nothing is found. -/
def Reaches (c : Config) (d : Document) (p : Place) : Prop :=
  ∃ before after, d.places c = before ++ p :: after ∧ ∀ q ∈ before, d.check c q = none

variable {c : Config} {d : Document} {p q : Place}

/-! ## The checks are those of the places -/

/-- The checks of a collection, by the numbers of its elements. -/
theorem elementChecks_eq {α : Type} (kind : EntityKind) (xs : Array α)
    (rules : Nat → α → List Rule) :
    elementChecks kind xs rules =
      (List.range (ruled xs rules).length).map fun i =>
        (ruled xs rules)[i]?.bind (elementCheck kind i) := by
  refine List.ext_getElem ?_ fun i hi hi' => ?_
  · simp [elementChecks, ruled]
  · -- The rules are looked up by the number that they were listed with.
    have hlt : i < xs.size := by simpa [elementChecks] using hi
    simp [elementChecks, ruled, hlt]

/-- The checks of a document are those of its places, in order. -/
theorem checks_eq_map (c : Config) (d : Document) :
    d.checks c = (d.places c).map (d.check c) := by
  have hentities : d.entityChecks c =
      EntityKind.inOrder.flatMap fun kind => (d.elementPlaces c kind).map (d.check c) := by
    simp only [entityChecks, elementChecks_eq, EntityKind.inOrder, elementPlaces, collectionRules,
      check, List.map_map, Function.comp_def, List.flatMap_cons, List.flatMap_nil, List.append_nil,
      List.append_assoc]
  have hlast : (if c.checkHierarchy then [d.graph.violation?] else []) ++
      (if c.checkExtensions then [ownCheck d.extensionRules] else []) =
        (lastPlaces c).map (d.check c) := by
    rw [lastPlaces, List.map_append]
    congr 1
    · split <;> rfl
    · split <;> rfl
  rw [checks, hentities, List.append_assoc _ (ite _ _ _), hlast, places, List.map_append,
    List.map_append, List.map_flatMap]
  rfl

/-- A document is accepted if nothing is found at any place. -/
theorem violation?_eq_none_iff_check :
    d.violation? c = none ↔ ∀ p ∈ d.places c, d.check c p = none := by
  rw [violation?_eq_none_iff, checks_eq_map, List.forall_mem_map]

/-- Otherwise it is refused at the first place at which something is found, for this. -/
theorem violation?_eq_some_iff {v : Violation} :
    d.violation? c = some v ↔ ∃ p, d.Reaches c p ∧ d.check c p = some v := by
  rw [violation?, checks_eq_map, List.findSome?_map, List.findSome?_eq_some_iff]
  constructor
  · rintro ⟨before, p, after, hplaces, hp, hbefore⟩
    exact ⟨p, ⟨before, after, hplaces, hbefore⟩, hp⟩
  · rintro ⟨p, ⟨before, after, hplaces, hbefore⟩, hp⟩
    exact ⟨before, p, after, hplaces, hp, hbefore⟩

/-! ## The places are in order -/

/-- The places of a collection are those of its elements. -/
theorem mem_elementPlaces {kind : EntityKind} :
    p ∈ d.elementPlaces c kind ↔
      ∃ i < (d.collectionRules c kind).length, p = .element kind i := by
  simp only [elementPlaces, List.mem_map, List.mem_range, eq_comm]

/-- The elements come collection by collection, and in a collection one after the other. -/
theorem pairwise_elements (c : Config) (d : Document) :
    (EntityKind.inOrder.flatMap (d.elementPlaces c)).Pairwise Place.Before := by
  rw [List.pairwise_flatMap]
  constructor
  · -- In one collection: all places have the same turn, and their numbers ascend.
    intro kind _
    rw [elementPlaces, List.pairwise_map]
    exact List.pairwise_lt_range.imp fun hlt => .inr ⟨rfl, hlt⟩
  · -- In two collections: each of them has one turn, given by its place in the list.
    have hkinds : EntityKind.inOrder.Pairwise fun k k' =>
        EntityKind.inOrder.idxOf k < EntityKind.inOrder.idxOf k' := by decide
    refine hkinds.imp fun {k k'} hlt p hp q hq => ?_
    obtain ⟨i, -, rfl⟩ := mem_elementPlaces.mp hp
    obtain ⟨j, -, rfl⟩ := mem_elementPlaces.mp hq
    exact .inl (Nat.add_lt_add_left hlt 2)

/-- The elements come after the first two places and before the last two. -/
theorem turn_of_mem_elements (h : p ∈ EntityKind.inOrder.flatMap (d.elementPlaces c)) :
    1 < p.turn ∧ p.turn < Place.hierarchy.turn := by
  obtain ⟨kind, -, hp⟩ := List.mem_flatMap.mp h
  obtain ⟨i, -, rfl⟩ := mem_elementPlaces.mp hp
  have hle : EntityKind.inOrder.idxOf kind ≤ EntityKind.inOrder.length := List.idxOf_le_length
  dsimp only [Place.turn]
  omega

/-- The last places are those of the graph and of the extension lists. -/
theorem mem_lastPlaces (h : p ∈ lastPlaces c) : p = .hierarchy ∨ p = .extensions := by
  rw [lastPlaces, List.mem_append, List.mem_ite_nil_right, List.mem_ite_nil_right] at h
  exact h.imp (fun h => List.mem_singleton.mp h.2) fun h => List.mem_singleton.mp h.2

/-- The places are in order. -/
theorem pairwise_places (c : Config) (d : Document) : (d.places c).Pairwise Place.Before := by
  have hfirst : [Place.asset, .firstScene].Pairwise Place.Before := by decide
  have hlast : (lastPlaces c).Pairwise Place.Before := by
    unfold lastPlaces
    split <;> split <;> decide
  have hlastTurn : ∀ q ∈ lastPlaces c, Place.hierarchy.turn ≤ q.turn := by
    intro q hq
    rcases mem_lastPlaces hq with rfl | rfl
    · exact Nat.le_refl _
    · decide
  rw [places, List.append_assoc, List.pairwise_append, List.pairwise_append]
  refine ⟨hfirst, ⟨pairwise_elements c d, hlast, fun p hp q hq => ?_⟩, fun p hp q hq => ?_⟩
  · exact .inl (Nat.lt_of_lt_of_le (turn_of_mem_elements hp).2 (hlastTurn q hq))
  · -- One of the first two places, and one after them.
    have hpTurn : p.turn ≤ 1 := by
      rw [List.mem_cons, List.mem_singleton] at hp
      rcases hp with rfl | rfl <;> decide
    have hqTurn : 1 < q.turn := by
      rcases List.mem_append.mp hq with hq | hq
      · exact (turn_of_mem_elements hq).1
      · exact Nat.lt_of_lt_of_le (by decide) (hlastTurn q hq)
    exact .inl (Nat.lt_of_le_of_lt hpTurn hqTurn)

/-- At the places before the one to which the checks come, nothing is found. -/
theorem Reaches.check_eq_none (h : d.Reaches c p) (hmem : q ∈ d.places c) (hq : q.Before p) :
    d.check c q = none := by
  obtain ⟨before, after, hplaces, hbefore⟩ := h
  have hsorted := pairwise_places c d
  rw [hplaces] at hmem hsorted
  rcases List.mem_append.mp hmem with hmem | hmem
  · exact hbefore q hmem
  · -- The places from `p` on do not come before it.
    have hrest := (List.pairwise_append.mp hsorted).2.1
    rcases List.mem_cons.mp hmem with rfl | hmem
    · exact absurd hq hq.asymm
    · exact absurd hq (List.rel_of_pairwise_cons hrest hmem).asymm

/-- At an element that is not there nothing is found. -/
theorem mem_places_or_check_eq_none (c : Config) (d : Document) (kind : EntityKind) (i : Nat) :
    .element kind i ∈ d.places c ∨ d.check c (.element kind i) = none := by
  rcases Nat.lt_or_ge i (d.collectionRules c kind).length with hlt | hge
  · left
    have hkind : kind ∈ EntityKind.inOrder := by
      cases kind with
      | document => exact absurd hlt (Nat.not_lt_zero i)
      | _ => decide
    have helement : .element kind i ∈ EntityKind.inOrder.flatMap (d.elementPlaces c) :=
      List.mem_flatMap.mpr ⟨kind, hkind, mem_elementPlaces.mpr ⟨i, hlt, rfl⟩⟩
    exact List.mem_append_left _ (List.mem_append_right _ helement)
  · right
    rw [check, List.getElem?_eq_none hge]
    rfl

/-- At the elements before the place to which the checks come, nothing is found. -/
theorem Reaches.check_element_eq_none (h : d.Reaches c p) {kind : EntityKind} {i : Nat}
    (hq : (Place.element kind i).Before p) : d.check c (.element kind i) = none :=
  (mem_places_or_check_eq_none c d kind i).elim (fun hmem => h.check_eq_none hmem hq) id

/-- If the checks come to an element or beyond it, then nothing is found before the element. -/
theorem Reaches.check_eq_none_of_before {kind : EntityKind} {i : Nat} (h : d.Reaches c p)
    (hp : p = .element kind i ∨ (Place.element kind i).Before p)
    (hq : q.Before (.element kind i)) : d.check c q = none := by
  have hqp : q.Before p := by
    rcases hp with rfl | hp
    · exact hq
    · exact hq.trans hp
  cases q with
  | asset => exact h.check_eq_none (List.mem_append_left _ List.mem_cons_self) hqp
  | firstScene =>
    exact h.check_eq_none
      (List.mem_append_left _ (List.mem_cons_of_mem _ List.mem_cons_self)) hqp
  | element k j => exact h.check_element_eq_none hqp
  | hierarchy => exact absurd hq (Place.element_before_hierarchy kind i).asymm
  | extensions => exact absurd hq (Place.element_before_extensions kind i).asymm

end Document

end GltfAsset
