import Mathlib.Data.Fintype.EquivFin
import Mathlib.Data.List.Chain
import Mathlib.Data.Fintype.Order
import Mathlib.Tactic.Choose
import GltfAsset.Check.Graph

/-!
# Forests

What it means that the nodes of a document form a hierarchy, apart from how this is found out: every
entry of every list of children names a node, nothing is named twice, and no node is below itself.
From these three it follows that the way up from a node is a single chain that ends
(`IsForest.existsUnique_ancestry`), and that the way down is a finite tree in which no node occurs
twice (`IsForest.exists_walk`).
-/

namespace GltfAsset.Check.Graph

variable {g : Graph}

/-- An entry in the list of children of `p` is the index of `c`. -/
def IsChild (g : Graph) (p c : Fin g.size) : Prop := ∃ i ∈ g.childrenOf p, i.toInt = c.val

instance (p c : Fin g.size) : Decidable (g.IsChild p c) :=
  inferInstanceAs (Decidable (∃ i ∈ g.childrenOf p, _))

/-- What is written in all lists of children, one after the other. -/
def mentions (g : Graph) : List Int64 := g.children.toList.flatMap Array.toList

/-- The nodes form a hierarchy. -/
structure IsForest (g : Graph) : Prop where
  /-- Every entry names a node. -/
  inRange : ∀ i ∈ g.mentions, InRange i g.size
  /-- No index occurs twice in all lists together. -/
  nodup : g.mentions.Nodup
  /-- No node is below itself. -/
  acyclic : ∀ n, ¬ Relation.TransGen g.IsChild n n

/-- A list of nodes that starts at `n`, in which each node is followed by a node that has it as a
child, and whose last node is no child. -/
structure IsAncestry (g : Graph) (n : Fin g.size) (ps : List (Fin g.size)) : Prop where
  /-- It starts at the node. -/
  head : ps.head? = some n
  /-- Each node is followed by a parent of it. -/
  chain : ps.IsChain fun c p => g.IsChild p c
  /-- The last node has no parent. -/
  root : ∀ r ∈ ps.getLast?, ∀ p, ¬ g.IsChild p r

/-- The nodes that the entries in a list of children name, in order. -/
def childNodes (g : Graph) (n : Fin g.size) : List (Fin g.size) :=
  (g.childrenOf n).toList.filterMap g.node?

/-- The recursive walk down from a node: the nodes in the order in which it comes to them. There is
no result if it goes down more than `k` levels. -/
def walk (g : Graph) : Nat → Fin g.size → Option (List (Fin g.size))
  | 0, _ => none
  | k + 1, n => ((g.childNodes n).mapM (g.walk k)).map fun ls => n :: ls.flatten

/-! ## Entries and the nodes that they name -/

/-- An entry names the node whose index it is. -/
theorem node?_eq_some_iff {i : Int64} {c : Fin g.size} : g.node? i = some c ↔ i.toInt = c.val := by
  unfold node?
  split
  · rename_i h
    obtain ⟨h0, -⟩ := h
    rw [Option.some.injEq, Fin.ext_iff]
    constructor
    · intro h
      rw [← h]
      exact (Int.toNat_of_nonneg h0).symm
    · intro h
      show i.toInt.toNat = c.val
      omega
  · rename_i h
    constructor
    · intro h'
      contradiction
    · intro h'
      have := c.isLt
      exact absurd ⟨by omega, by omega⟩ h

/-- An entry that is no index names no node. -/
theorem node?_eq_none_iff {i : Int64} : g.node? i = none ↔ ¬ InRange i g.size := by
  unfold node?
  split <;> simp_all

/-- Two entries that name one node are equal. -/
theorem eq_of_node?_eq {i j : Int64} {c : Fin g.size} (hi : g.node? i = some c)
    (hj : g.node? j = some c) : i = j := by
  rw [node?_eq_some_iff] at hi hj
  exact Int64.toInt_inj.mp (hi.trans hj.symm)

/-- A node is a child of another one if an entry of that one names it. -/
theorem isChild_iff {p c : Fin g.size} :
    g.IsChild p c ↔ ∃ i ∈ g.childrenOf p, g.node? i = some c := by
  simp only [IsChild, node?_eq_some_iff]

/-- The children of a node are the nodes that its entries name. -/
theorem mem_childNodes {p c : Fin g.size} : c ∈ g.childNodes p ↔ g.IsChild p c := by
  simp only [childNodes, List.mem_filterMap, Array.mem_toList_iff, isChild_iff]

/-- The lists of children are those of the nodes. -/
theorem mem_children_iff {cs : Array Int64} :
    cs ∈ g.children.toList ↔ ∃ p, g.childrenOf p = cs := by
  rw [List.mem_iff_getElem]
  constructor
  · rintro ⟨p, hp, rfl⟩
    exact ⟨⟨p, by simpa [size] using hp⟩, rfl⟩
  · rintro ⟨p, rfl⟩
    exact ⟨p, by simpa [size] using p.isLt, rfl⟩

/-- All lists together hold the entries of the nodes. -/
theorem mem_mentions_iff {i : Int64} : i ∈ g.mentions ↔ ∃ p, i ∈ g.childrenOf p := by
  rw [mentions, List.mem_flatMap]
  constructor
  · rintro ⟨cs, hcs, hi⟩
    obtain ⟨p, rfl⟩ := mem_children_iff.mp hcs
    exact ⟨p, Array.mem_toList_iff.mp hi⟩
  · rintro ⟨p, hi⟩
    exact ⟨_, mem_children_iff.mpr ⟨p, rfl⟩, Array.mem_toList_iff.mpr hi⟩

/-- A chain of parents is a root alone, or goes on with a parent. -/
theorem IsAncestry.cases_cons {n : Fin g.size} {ps : List (Fin g.size)} (h : g.IsAncestry n ps) :
    (ps = [n] ∧ ∀ p, ¬ g.IsChild p n) ∨
      ∃ p qs, ps = n :: qs ∧ g.IsChild p n ∧ g.IsAncestry p qs := by
  obtain ⟨hhead, hchain, hroot⟩ := h
  rcases ps with _ | ⟨m, _ | ⟨p, qs⟩⟩
  · simp at hhead
  · obtain rfl : m = n := by simpa using hhead
    exact Or.inl ⟨rfl, hroot m rfl⟩
  · obtain rfl : m = n := by simpa using hhead
    rw [List.isChain_cons_cons] at hchain
    refine Or.inr ⟨p, p :: qs, rfl, hchain.1, rfl, hchain.2, ?_⟩
    rwa [List.getLast?_cons_cons] at hroot

/-- Above a parent, a chain of parents goes on with that of the parent. -/
theorem IsAncestry.cons {n p : Fin g.size} {ps : List (Fin g.size)} (hp : g.IsChild p n)
    (h : g.IsAncestry p ps) : g.IsAncestry n (n :: ps) := by
  obtain ⟨hhead, hchain, hroot⟩ := h
  obtain ⟨qs, rfl⟩ : ∃ qs, ps = p :: qs := by
    cases ps with
    | nil => simp at hhead
    | cons q qs => exact ⟨qs, by simpa using hhead⟩
  refine ⟨rfl, List.isChain_cons_cons.mpr ⟨hp, hchain⟩, ?_⟩
  rwa [List.getLast?_cons_cons]

/-! ## One parent -/

/-- No node is a child of two nodes if no index occurs twice. -/
theorem eq_of_isChild (h : g.mentions.Nodup) {p q c : Fin g.size} (hp : g.IsChild p c)
    (hq : g.IsChild q c) : p = q := by
  obtain ⟨i, hi, hic⟩ := hp
  obtain ⟨j, hj, hjc⟩ := hq
  -- The two entries are the same one, and it stands in the lists of both.
  obtain rfl : i = j := Int64.toInt_inj.mp (hic.trans hjc.symm)
  by_contra hpq
  have hdis := List.pairwise_iff_getElem.mp (List.nodup_flatMap.mp h).2
  have hlen : g.children.toList.length = g.size := by simp [size]
  -- Of two different nodes one comes first, and their lists have no entry in common.
  rcases lt_or_gt_of_ne (Fin.val_ne_of_ne hpq) with hlt | hlt
  · exact hdis p q (by omega) (by omega) hlt (Array.mem_toList_iff.mpr hi)
      (Array.mem_toList_iff.mpr hj)
  · exact hdis q p (by omega) (by omega) hlt (Array.mem_toList_iff.mpr hj)
      (Array.mem_toList_iff.mpr hi)

namespace IsForest

/-- No node is a child of two nodes. -/
theorem parent_unique (h : g.IsForest) {p q c : Fin g.size} (hp : g.IsChild p c)
    (hq : g.IsChild q c) : p = q := eq_of_isChild h.nodup hp hq

/-- The children of a node are distinct. -/
theorem nodup_childNodes (h : g.IsForest) (n : Fin g.size) : (g.childNodes n).Nodup := by
  have hn : (g.childrenOf n).toList.Nodup :=
    (List.nodup_flatMap.mp h.nodup).1 _ (mem_children_iff.mpr ⟨n, rfl⟩)
  exact hn.filterMap fun i j c hi hj => eq_of_node?_eq hi hj

/-- Of two nodes above a third one is above the other. -/
theorem above_total (h : g.IsForest) {a b n : Fin g.size}
    (ha : Relation.ReflTransGen g.IsChild a n) (hb : Relation.ReflTransGen g.IsChild b n) :
    Relation.ReflTransGen g.IsChild a b ∨ Relation.ReflTransGen g.IsChild b a := by
  -- Upwards there is one way only, so one of the two comes first on it.
  have hu : Relator.RightUnique (Function.swap g.IsChild) :=
    fun c p q hp hq => h.parent_unique hp hq
  rw [← Relation.reflTransGen_swap] at ha hb
  rcases Relation.ReflTransGen.total_of_right_unique hu ha hb with hab | hba
  · exact Or.inr (Relation.reflTransGen_swap.mp hab)
  · exact Or.inl (Relation.reflTransGen_swap.mp hba)

/-! ## The way up -/

/-- There is no endless way up. -/
theorem wellFounded_up (h : g.IsForest) : WellFounded g.IsChild := by
  have : Std.Irrefl (Relation.TransGen g.IsChild) := ⟨h.acyclic⟩
  exact Subrelation.wf Relation.TransGen.single (Finite.wellFounded_of_trans_of_irrefl _)

/-- There is no endless way down. -/
theorem wellFounded_down (h : g.IsForest) : WellFounded (Function.swap g.IsChild) := by
  have : Std.Irrefl (Relation.TransGen (Function.swap g.IsChild)) :=
    ⟨fun n hn => h.acyclic n (Relation.transGen_swap.mp hn)⟩
  exact Subrelation.wf Relation.TransGen.single (Finite.wellFounded_of_trans_of_irrefl _)

/-- Every node has exactly one chain of parents; it is finite and ends in a node without a
parent. -/
theorem existsUnique_ancestry (h : g.IsForest) (n : Fin g.size) : ∃! ps, g.IsAncestry n ps := by
  induction n using h.wellFounded_up.induction with
  | _ n ih =>
    by_cases hp : ∃ p, g.IsChild p n
    · -- The chain of the parent, which is the only one, with the node before it.
      obtain ⟨p, hp⟩ := hp
      obtain ⟨ps, hps, hu⟩ := ih p hp
      refine ⟨n :: ps, hps.cons hp, fun qs hqs => ?_⟩
      rcases hqs.cases_cons with ⟨-, hroot⟩ | ⟨q, qs, rfl, hq, hqs⟩
      · exact absurd hp (hroot p)
      · obtain rfl := h.parent_unique hp hq
        rw [hu qs hqs]
    · -- A node without a parent is a chain by itself.
      refine ⟨[n], ⟨rfl, List.isChain_singleton n, ?_⟩, fun qs hqs => ?_⟩
      · intro r hr p hpr
        obtain rfl : n = r := by simpa using hr
        exact hp ⟨p, hpr⟩
      · rcases hqs.cases_cons with ⟨rfl, -⟩ | ⟨q, qs, rfl, hq, -⟩
        · rfl
        · exact absurd ⟨q, hq⟩ hp

/-! ## The way down -/

/-- A child is not below another child of the same node. -/
theorem eq_of_siblings (h : g.IsForest) {n a b : Fin g.size} (ha : g.IsChild n a)
    (hb : g.IsChild n b) (hab : Relation.ReflTransGen g.IsChild a b) : a = b := by
  rcases hab.cases_tail with hba | ⟨p, hap, hpb⟩
  · exact hba.symm
  · -- The last step would come from the one parent, which is above `a`.
    obtain rfl := h.parent_unique hb hpb
    exact absurd (Relation.TransGen.head' ha hap) (h.acyclic n)

/-- Walks down from distinct nodes come to no node twice exactly if none of these is below another
one. -/
theorem nodup_flatten_iff (h : g.IsForest) {rs : List (Fin g.size)} (hrs : rs.Nodup)
    {below : Fin g.size → List (Fin g.size)} (hnodup : ∀ r ∈ rs, (below r).Nodup)
    (hmem : ∀ r ∈ rs, ∀ m, m ∈ below r ↔ Relation.ReflTransGen g.IsChild r m) :
    (rs.map below).flatten.Nodup ↔ ∀ a ∈ rs, ∀ b ∈ rs, ¬ Relation.TransGen g.IsChild a b := by
  rw [List.nodup_flatten, List.forall_mem_map, List.pairwise_map]
  constructor
  · rintro ⟨-, hdisjoint⟩ a ha b hb hab
    -- The walks from both come to `b`, so they are walks from one node.
    have hne : a ≠ b := by
      rintro rfl
      exact h.acyclic a hab
    have hsymm : Std.Symm fun a b => (below a).Disjoint (below b) := ⟨fun _ _ hd => hd.symm⟩
    exact hdisjoint.forall ha hb hne ((hmem a ha b).mpr hab.to_reflTransGen)
      ((hmem b hb b).mpr Relation.ReflTransGen.refl)
  · intro hapart
    refine ⟨hnodup, hrs.imp_of_mem fun {a b} ha hb hne m hma hmb => ?_⟩
    -- Of two nodes above a third one, one is above the other.
    rcases h.above_total ((hmem a ha m).mp hma) ((hmem b hb m).mp hmb) with hab | hba
    · rcases Relation.reflTransGen_iff_eq_or_transGen.mp hab with heq | hab
      · exact hne heq.symm
      · exact hapart a ha b hb hab
    · rcases Relation.reflTransGen_iff_eq_or_transGen.mp hba with heq | hba
      · exact hne heq
      · exact hapart b hb a ha hba

/-- Where each element gives a value, a list gives the list of them. -/
theorem mapM_eq_some_map {α β : Type} {f : α → Option β} {v : α → β} {xs : List α}
    (h : ∀ x ∈ xs, f x = some (v x)) : xs.mapM f = some (xs.map v) := by
  induction xs with
  | nil => rfl
  | cons x xs ih =>
    rw [List.forall_mem_cons] at h
    rw [List.mapM_cons, h.1, ih h.2]
    rfl

/-- Walks that end with enough levels end together. -/
theorem exists_mapM_walk {rs : List (Fin g.size)} {below : Fin g.size → List (Fin g.size)}
    (h : ∀ r ∈ rs, ∃ k₀, ∀ k, k₀ ≤ k → g.walk k r = some (below r)) :
    ∃ k₀, ∀ k, k₀ ≤ k → rs.mapM (g.walk k) = some (rs.map below) := by
  choose! depth hdepth using h
  -- What is enough for the deepest of the walks is enough for all.
  obtain ⟨deepest, hdeepest⟩ := Finite.bddAbove_range depth
  refine ⟨deepest, fun k hk => mapM_eq_some_map fun r hr => ?_⟩
  exact hdepth r hr k ((hdeepest (Set.mem_range_self r)).trans hk)

/-- The walk down from a node ends: with enough levels it gives one and the same list, in which
every node that is below the first one stands exactly once. -/
theorem exists_walk (h : g.IsForest) (n : Fin g.size) :
    ∃ ns, (∃ k₀, ∀ k, k₀ ≤ k → g.walk k n = some ns) ∧ ns.Nodup ∧
      ∀ m, m ∈ ns ↔ Relation.ReflTransGen g.IsChild n m := by
  induction n using h.wellFounded_down.induction with
  | _ n ih =>
    choose! below hwalk hnodup hmem using ih
    simp only [Function.swap, ← mem_childNodes] at hwalk hnodup hmem
    refine ⟨n :: ((g.childNodes n).map below).flatten, ?_, ?_, ?_⟩
    · -- One level more than the deepest of the walks from the children is enough.
      obtain ⟨deepest, hdeepest⟩ := exists_mapM_walk hwalk
      refine ⟨deepest + 1, fun k hk => ?_⟩
      obtain ⟨k, rfl⟩ : ∃ j, k = j + 1 := ⟨k - 1, by omega⟩
      rw [walk, hdeepest k (Nat.le_of_succ_le_succ hk)]
      rfl
    · -- The node is not below itself, and none of its children is below another.
      rw [List.nodup_cons]
      refine ⟨?_, (h.nodup_flatten_iff (h.nodup_childNodes n) hnodup hmem).mpr ?_⟩
      · intro hn
        obtain ⟨ms, hms, hn⟩ := List.mem_flatten.mp hn
        obtain ⟨c, hc, rfl⟩ := List.mem_map.mp hms
        exact h.acyclic n (Relation.TransGen.head' (mem_childNodes.mp hc) ((hmem c hc n).mp hn))
      · intro a ha b hb hab
        rw [mem_childNodes] at ha hb
        obtain rfl := h.eq_of_siblings ha hb hab.to_reflTransGen
        exact h.acyclic a hab
    · -- What is below a node is the node, or below one of its children.
      intro m
      rw [List.mem_cons]
      constructor
      · rintro (rfl | hm)
        · exact Relation.ReflTransGen.refl
        · obtain ⟨ms, hms, hm⟩ := List.mem_flatten.mp hm
          obtain ⟨c, hc, rfl⟩ := List.mem_map.mp hms
          exact Relation.ReflTransGen.head (mem_childNodes.mp hc) ((hmem c hc m).mp hm)
      · intro hm
        rcases hm.cases_head with rfl | ⟨c, hc, hcm⟩
        · exact Or.inl rfl
        · have hc := mem_childNodes.mpr hc
          exact Or.inr (List.mem_flatten.mpr ⟨_, List.mem_map_of_mem hc, (hmem c hc m).mpr hcm⟩)

end IsForest

end GltfAsset.Check.Graph
