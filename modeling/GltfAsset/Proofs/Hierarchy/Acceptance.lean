import GltfAsset.Check.Document
import GltfAsset.Proofs.Hierarchy.Search

/-!
# Documents whose nodes form a hierarchy

What the check of the graph of the nodes gives to those who walk over an accepted document: upwards
there is one way from each node, and it ends; downwards a recursive walk ends and comes to no node
twice.
-/

namespace GltfAsset.Document

open Check

/-- The nodes of a document that is accepted with its hierarchy checked form a forest. -/
theorem isForest_of_violation?_eq_none {c : Config} {d : Document} (hc : c.checkHierarchy = true)
    (h : d.violation? c = none) : d.graph.IsForest := by
  rw [← Graph.violation?_eq_none_iff_isForest]
  refine violation?_eq_none_iff.mp h _ ?_
  rw [checks, if_pos hc]
  simp

/-- The check of the graph accepts exactly the forests. In an accepted document whose hierarchy was
checked, every node therefore has exactly one chain of parents, which ends in a node without a
parent, and the recursive walk down from a node ends, with every depth that is great enough, and
comes to no node twice. -/
theorem graph_accepted_iff_forest :
    (∀ g : Graph, g.violation? = none ↔ g.IsForest) ∧
      ∀ (c : Config) (d : Document), c.checkHierarchy = true → d.violation? c = none →
        ∀ n : Fin d.graph.size, (∃! ps, d.graph.IsAncestry n ps) ∧
          ∃ ns, (∃ k₀, ∀ k ≥ k₀, d.graph.walk k n = some ns) ∧ ns.Nodup := by
  refine ⟨Graph.violation?_eq_none_iff_isForest, fun c d hc h n => ?_⟩
  have hf := isForest_of_violation?_eq_none hc h
  obtain ⟨ns, hwalk, hnodup, -⟩ := hf.exists_walk n
  exact ⟨hf.existsUnique_ancestry n, ns, hwalk, hnodup⟩

/-- A document with two trees: one of three nodes, and one of a node alone. -/
def twoTrees : Document where
  asset := { version := "2.0" }
  nodes := #[{ children := [1, 2] }, {}, {}, {}]

/-- The chains and walks in a document with two trees. -/
theorem graph_accepted_twoTrees :
    ({} : Config).checkHierarchy = true ∧ twoTrees.violation? {} = none ∧
      ∀ n : Fin twoTrees.graph.size, (∃! ps, twoTrees.graph.IsAncestry n ps) ∧
        ∃ ns, (∃ k₀, ∀ k ≥ k₀, twoTrees.graph.walk k n = some ns) ∧ ns.Nodup :=
  have h : twoTrees.violation? {} = none := by decide +kernel
  ⟨rfl, h, graph_accepted_iff_forest.2 {} twoTrees rfl h⟩

end GltfAsset.Document
