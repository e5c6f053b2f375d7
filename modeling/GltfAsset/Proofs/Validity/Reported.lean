import GltfAsset.Proofs.Validity.Acceptance
import GltfAsset.Proofs.Validity.References

/-!
# What is reported of a document

The violation of a document is that of the first place at which one is found, and what it says tells
how far the checks came. A violation of an element comes after all elements before it. That a node
has a second parent is said by the check of the graph only, so it comes after all elements, and so
does what is said of the lists of extensions. And where the check of the graph comes to its turn,
the entries were looked at node by node, which leaves it less to say (`violation?_first`).
-/

namespace GltfAsset

open Check Rule

namespace Document

variable {c : Config} {d : Document} {p : Place} {v : Violation}

/-! ## The place of a violation -/

/-- A violation with the number of an element is found at the element or beyond it. -/
theorem element_or_before_of_check {i : Nat} (h : d.check c p = some v) (hi : v.index = some i) :
    p = .element v.entity i ∨ (Place.element v.entity i).Before p := by
  cases p with
  | asset | firstScene | extensions =>
    obtain ⟨r, -, -, rfl⟩ := exists_of_ownCheck h
    contradiction
  | element kind j =>
    obtain ⟨rs, -, r, -, -, rfl⟩ := exists_of_check_element h
    obtain rfl := Option.some.inj hi
    exact .inl rfl
  | hierarchy => exact .inr (Place.element_before_hierarchy _ i)

/-- What is said of a document after its elements were looked at: that a node has a second parent,
or something of the lists of extensions. -/
def SaidLast (v : Violation) : Prop :=
  (∃ n p, v.fault.reason = .multipleParents n p) ∨ v.entity = .document ∧
    (v.fault.field.head? = some (.member "extensionsUsed") ∨
      v.fault.field.head? = some (.member "extensionsRequired"))

/-- The rules for the asset name its fields. -/
theorem head_of_mem_assetRules (a : Asset) :
    ∀ r ∈ a.rules, r.fault.field.head? = some (.member "asset") := by
  simp only [Asset.rules, List.forall_mem_append, List.forall_mem_singleton, forall_mem_ifGiven]
  exact ⟨⟨rfl, fun _ _ => rfl⟩, rfl⟩

/-- The rules for the first scene name its field. -/
theorem head_of_mem_sceneRules (d : Document) :
    ∀ r ∈ d.sceneRules, r.fault.field.head? = some (.member "scene") := by
  simp only [sceneRules, forall_mem_ifGiven, List.forall_mem_singleton]
  exact fun _ _ => rfl

/-- What is found under the rules for a member of the document is said of this member. -/
theorem head_of_ownCheck {rs : List Rule} {name : String}
    (hhead : ∀ r ∈ rs, r.fault.field.head? = some (.member name)) (h : ownCheck rs = some v) :
    v.fault.field.head? = some (.member name) := by
  obtain ⟨r, hr, -, rfl⟩ := exists_of_ownCheck h
  exact hhead r hr

/-- It is said where the graph or the lists of extensions are checked. -/
theorem place_of_saidLast (hlast : SaidLast v) (h : d.check c p = some v) :
    p = .hierarchy ∨ p = .extensions := by
  by_cases hp : p = .hierarchy
  · exact .inl hp
  right
  have htold := told_of_check hp h
  rcases hlast with ⟨n, q, hreason⟩ | ⟨hentity, hfield⟩
  · rw [Told, hreason] at htold
    exact htold.elim
  · cases p with
    | asset =>
      rw [head_of_ownCheck (head_of_mem_assetRules d.asset) h] at hfield
      revert hfield
      decide
    | firstScene =>
      rw [head_of_ownCheck (head_of_mem_sceneRules d) h] at hfield
      revert hfield
      decide
    | element kind i =>
      -- The document itself is in no collection.
      obtain ⟨rs, hrs, r, -, -, rfl⟩ := exists_of_check_element h
      obtain rfl : kind = .document := hentity
      contradiction
    | hierarchy => exact absurd rfl hp
    | extensions => rfl

/-! ## The graph in its turn -/

/-- Where the checks come to the graph, the nodes are valid one by one. -/
theorem Reaches.node_valid (h : d.Reaches c .hierarchy) {k : Nat} {n : Node}
    (hn : d.nodes[k]? = some n) : n.Valid d k := by
  have hcheck := h.check_element_eq_none (Place.element_before_hierarchy .node k)
  have hrules : (d.collectionRules c .node)[k]? = some (n.rules d k) := by
    simp [collectionRules, ruled, hn]
  rw [check, hrules, Option.bind_some, elementCheck, Option.map_eq_none_iff] at hcheck
  exact Node.all_rules_iff.mp (firstFault?_eq_none_iff.mp hcheck)

/-- The lists of children in the graph are those of the nodes. -/
theorem exists_childrenOf_graph (d : Document) (p : Fin d.graph.size) :
    ∃ n, d.nodes[p.val]? = some n ∧ (d.graph.childrenOf p).toList = n.children := by
  have hp : p.val < d.nodes.size := by simpa [graph, Graph.size] using p.isLt
  refine ⟨d.nodes[p.val], Array.getElem?_eq_getElem hp, ?_⟩
  simp [graph, Graph.childrenOf]

/-- Where the checks come to the graph, the entries of each list of children are in range and
distinct. -/
theorem Reaches.allDistinct (h : d.Reaches c .hierarchy) (p : Fin d.graph.size) :
    AllDistinct (d.graph.childrenOf p).toList d.graph.size := by
  obtain ⟨n, hn, hchildren⟩ := exists_childrenOf_graph d p
  have hsize : d.graph.size = d.nodes.size := by simp [graph, Graph.size]
  rw [hchildren, hsize]
  exact (h.node_valid hn).children

/-- So it reports no entry for naming no node there, and for a second parent only one of a node
after the first parent. -/
theorem Reaches.reported_of_graph (h : d.Reaches c .hierarchy)
    (hcheck : d.check c .hierarchy = some v) :
    (∀ i n, v.fault.reason ≠ .indexOutOfRange i n) ∧
      ∀ n p, v.fault.reason = .multipleParents n p → ∃ q, v.index = some q ∧ p < q := by
  refine Graph.reported_of_listed (fun i hi => ?_) (fun p => (h.allDistinct p).2) hcheck
  obtain ⟨p, hp⟩ := Graph.mem_mentions_iff.mp hi
  exact (h.allDistinct p).1 i (Array.mem_toList_iff.mpr hp)

/-- A document is accepted if nothing is found at any of its places, and otherwise refused for what
is found at the first place at which there is something. So, if an element is reported, nothing is
found before it; if what is reported is said last, nothing is found at any element; and where the
checks come to the graph, no entry is reported for naming no node, and one that is reported for a
second parent is one of a node after the first parent. -/
theorem violation?_first (c : Config) (d : Document) :
    (d.violation? c = none ↔ ∀ p ∈ d.places c, d.check c p = none) ∧
    (∀ v, d.violation? c = some v ↔ ∃ p, d.Reaches c p ∧ d.check c p = some v) ∧
    (∀ v i, d.violation? c = some v → v.index = some i →
      ∀ q, q.Before (.element v.entity i) → d.check c q = none) ∧
    (∀ v, d.violation? c = some v → SaidLast v → ∀ kind i, d.check c (.element kind i) = none) ∧
    (∀ v, d.Reaches c .hierarchy → d.check c .hierarchy = some v →
      (∀ i n, v.fault.reason ≠ .indexOutOfRange i n) ∧
        ∀ n p, v.fault.reason = .multipleParents n p → ∃ q, v.index = some q ∧ p < q) := by
  refine ⟨violation?_eq_none_iff_check, fun v => violation?_eq_some_iff, ?_, ?_,
    fun v hreaches hcheck => hreaches.reported_of_graph hcheck⟩
  · -- The element is reported in its own turn or, if it is a node, in the turn of the graph.
    intro v i hv hi q hq
    obtain ⟨p, hp, hcheck⟩ := violation?_eq_some_iff.mp hv
    exact hp.check_eq_none_of_before (element_or_before_of_check hcheck hi) hq
  · intro v hv hlast kind i
    obtain ⟨p, hp, hcheck⟩ := violation?_eq_some_iff.mp hv
    rcases place_of_saidLast hlast hcheck with rfl | rfl
    · exact hp.check_element_eq_none (Place.element_before_hierarchy kind i)
    · exact hp.check_element_eq_none (Place.element_before_extensions kind i)

/-- A document of which two nodes have the same child, and an extension has to be known that does
not occur. -/
def twoFaults : Document where
  asset := { version := "2.0" }
  nodes := #[{ children := [2] }, { children := [2] }, {}]
  extensionsRequired := ["A"]

/-- The second parent is reported, which comes after the first one, and the elements are valid. -/
theorem violation?_first_twoFaults :
    twoFaults.violation? {} =
        some ⟨.node, some 1, ["children", .element 0], .multipleParents 2 0⟩ ∧
      (∀ kind i, twoFaults.check {} (.element kind i) = none) ∧
      twoFaults.Reaches {} .hierarchy := by
  have hv : twoFaults.violation? {} =
      some ⟨.node, some 1, ["children", .element 0], .multipleParents 2 0⟩ := by decide +kernel
  obtain ⟨-, hfirst, -, hlast, -⟩ := violation?_first {} twoFaults
  have hsaid : SaidLast ⟨.node, some 1, ["children", .element 0], .multipleParents 2 0⟩ :=
    .inl ⟨2, 0, rfl⟩
  refine ⟨hv, hlast _ hv hsaid, ?_⟩
  obtain ⟨p, hp, hcheck⟩ := (hfirst _).mp hv
  rcases place_of_saidLast hsaid hcheck with rfl | rfl
  · exact hp
  · obtain ⟨r, -, -, ⟨⟩⟩ := exists_of_ownCheck hcheck

end Document

end GltfAsset
