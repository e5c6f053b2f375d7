import GltfAsset.Proofs.Validity.Acceptance

/-!
# Walks over scenes

A scene lists the nodes from which it is walked over, one after the other and down from each. That a
node that is listed is not a child is not looked at when a document is checked, and neither is that
it is not below another one that is listed. So what a walk comes to twice is settled by the list: if
no node of it is below another one, then nothing, and otherwise something
(`Document.exists_walk_scene`).
-/

namespace GltfAsset

open Check

/-- The recursive walks down from some nodes, one after the other. There is no result if one of them
goes down more than `k` levels. -/
def Check.Graph.walkAll (g : Graph) (k : Nat) (rs : List (Fin g.size)) :
    Option (List (Fin g.size)) :=
  (rs.mapM (g.walk k)).map List.flatten

/-- The nodes that a scene lists, in order. -/
def Scene.listed (d : Document) (s : Scene) : List (Fin d.graph.size) :=
  s.nodes.filterMap d.graph.node?

/-- The nodes that a valid scene lists are distinct. -/
theorem Scene.Valid.nodup_listed {d : Document} {s : Scene} (h : s.Valid d) :
    (s.listed d).Nodup :=
  h.nodes.2.filterMap fun _ _ _ hi hj => Graph.eq_of_node?_eq hi hj

namespace Document

/-- The walk over a scene of a document that is accepted with its hierarchy checked ends, with every
depth that is great enough, and comes to exactly the nodes that the scene lists and those below
them. It comes to no node twice exactly if the scene lists no node together with one below it; so it
does not if the nodes that the scene lists are no children. -/
theorem exists_walk_scene {c : Config} {d : Document} {s : Scene} (hc : c.checkHierarchy = true)
    (h : d.violation? c = none) (hs : s ∈ d.scenes) :
    ∃ ns, (∃ k₀, ∀ k ≥ k₀, d.graph.walkAll k (s.listed d) = some ns) ∧
      (∀ m, m ∈ ns ↔ ∃ r ∈ s.listed d, Relation.ReflTransGen d.graph.IsChild r m) ∧
      (ns.Nodup ↔
        ∀ a ∈ s.listed d, ∀ b ∈ s.listed d, ¬ Relation.TransGen d.graph.IsChild a b) ∧
      ((∀ r ∈ s.listed d, ∀ p, ¬ d.graph.IsChild p r) → ns.Nodup) := by
  -- Each listed node has a walk of its own, over a tree; what is left is how these trees overlap.
  have hvalid : d.Valid c := checks_eq_none_iff.mp (violation?_eq_none_iff.mp h)
  have hforest : d.graph.IsForest := hvalid.hierarchy hc
  choose below hwalk hnodup hmem using hforest.exists_walk
  have hiff := hforest.nodup_flatten_iff (hvalid.scenes s hs).nodup_listed
    (fun r _ => hnodup r) fun r _ => hmem r
  refine ⟨((s.listed d).map below).flatten, ?_, fun m => ?_, hiff, fun hroots => hiff.mpr ?_⟩
  · obtain ⟨k₀, hk₀⟩ := Graph.IsForest.exists_mapM_walk fun r (_ : r ∈ s.listed d) => hwalk r
    refine ⟨k₀, fun k hk => ?_⟩
    rw [Graph.walkAll, hk₀ k hk]
    rfl
  · simp only [List.mem_flatten, List.mem_map, exists_exists_and_eq_and, hmem]
  · -- A node below another one is a child.
    intro a _ b hb hab
    obtain ⟨p, -, hp⟩ := Relation.TransGen.tail'_iff.mp hab
    exact hroots b hb p hp

/-- A document with two trees and two scenes: one lists the roots of both trees, the other the root
of the first one and its child. -/
def twoScenes : Document where
  asset := { version := "2.0" }
  nodes := #[{ children := [1] }, {}, {}]
  scenes := #[{ nodes := [0, 2] }, { nodes := [0, 1] }]

/-- The walk over the first scene comes to no node twice. -/
theorem exists_walk_scene_twoScenes :
    ({} : Config).checkHierarchy = true ∧ twoScenes.violation? {} = none ∧
      ({ nodes := [0, 2] } : Scene) ∈ twoScenes.scenes ∧
      ∃ ns, (∃ k₀, ∀ k ≥ k₀,
        twoScenes.graph.walkAll k (Scene.listed twoScenes { nodes := [0, 2] }) = some ns) ∧
        ns.Nodup := by
  have h : twoScenes.violation? {} = none := by decide +kernel
  have hs : ({ nodes := [0, 2] } : Scene) ∈ twoScenes.scenes := by decide +kernel
  obtain ⟨ns, hwalk, -, -, hroots⟩ := exists_walk_scene rfl h hs
  exact ⟨rfl, h, hs, ns, hwalk, hroots (by decide +kernel)⟩

/-- The document is accepted though the second scene lists a node and its child, and the walk over
this scene comes to the child twice. -/
theorem walkAll_childListed :
    twoScenes.violation? {} = none ∧ ({ nodes := [0, 1] } : Scene) ∈ twoScenes.scenes ∧
      ∃ p r : Fin twoScenes.graph.size, r ∈ Scene.listed twoScenes { nodes := [0, 1] } ∧
        twoScenes.graph.IsChild p r ∧
        ∀ k ≥ 2, twoScenes.graph.walkAll k (Scene.listed twoScenes { nodes := [0, 1] }) =
          some [p, r, r] := by
  let root : Fin twoScenes.graph.size := ⟨0, by decide +kernel⟩
  let child : Fin twoScenes.graph.size := ⟨1, by decide +kernel⟩
  have hlisted : Scene.listed twoScenes { nodes := [0, 1] } = [root, child] := by decide +kernel
  have hroot : twoScenes.graph.childNodes root = [child] := by decide +kernel
  have hchild : twoScenes.graph.childNodes child = [] := by decide +kernel
  refine ⟨by decide +kernel, by decide +kernel, root, child, ?_, ?_, fun k hk => ?_⟩
  · rw [hlisted]
    exact List.mem_cons_of_mem _ List.mem_cons_self
  · rw [← Graph.mem_childNodes, hroot]
    exact List.mem_cons_self
  · obtain ⟨k, rfl⟩ := Nat.exists_eq_add_of_le' hk
    simp [Graph.walkAll, Graph.walk, hlisted, hroot, hchild]

end Document

end GltfAsset
