import GltfAsset.Proofs.Hierarchy.Forest

/-!
# The search for what keeps nodes from being a hierarchy

`Graph.violation?` passes exactly the graphs that are forests (`violation?_eq_none_iff_isForest`).
Its first pass finds entries that name nothing and nodes that are named twice. Its second pass is a
walk in depth, and the invariant of the walk is `Search.Sound`: the nodes on the path are distinct,
each is a child of the next one, the entries that were passed name nodes that were left, and below a
node that was left there is no endless way down.
-/

namespace GltfAsset.Check.Graph

variable {g : Graph}

/-- What stands at an index after one element was set. -/
theorem get_set {α : Type} {n : Nat} (v : Vector α n) (c i : Fin n) (x : α) :
    (v.set c x c.isLt).get i = if c = i then x else v.get i := by
  show (v.set c x c.isLt)[i] = if c = i then x else v[i]
  simp [Vector.getElem_set, Fin.ext_iff]

/-- The element that was set stands at its index. -/
theorem get_set_self {α : Type} {n : Nat} (v : Vector α n) (c : Fin n) (x : α) :
    (v.set c x c.isLt).get c = x := by
  rw [get_set, if_pos rfl]

/-- The other elements stand where they stood. -/
theorem get_set_of_ne {α : Type} {n : Nat} (v : Vector α n) {c i : Fin n} (h : c ≠ i) (x : α) :
    (v.set c x c.isLt).get i = v.get i := by
  rw [get_set, if_neg h]

/-- At every index stands the element that the vector was filled with. -/
theorem get_replicate {α : Type} {n : Nat} (x : α) (i : Fin n) :
    (Vector.replicate n x).get i = x := by
  show (Vector.replicate n x)[i] = x
  simp

/-! ## Parents -/

/-- The entries in order hold what is written in the lists of children in order. -/
theorem map_child_entries (g : Graph) : g.entries.map Entry.child = g.mentions := by
  rw [entries, mentions, List.map_flatMap]
  have hmap : ∀ (cs : Array Int64) (p : Nat),
      (cs.toList.zipIdx.map fun e => (⟨p, e.2, e.1⟩ : Entry)).map Entry.child = cs.toList := by
    intro cs p
    rw [List.map_map]
    exact List.zipIdx_map_fst 0 cs.toList
  simp only [hmap]
  -- The places at which the lists stand do not matter any more.
  generalize 0 = start
  induction g.children.toList generalizing start with
  | nil => rfl
  | cons cs css ih => rw [List.zipIdx_cons, List.flatMap_cons, List.flatMap_cons, ih]

/-- After a parent of the node that an entry names was taken down, the nodes that later entries name
are without a parent if they were before, and if none of these entries is the same. -/
theorem forall_get_set_eq_none_iff {parents : Vector (Option Nat) g.size} {e : Entry}
    {es : List Entry} {c : Fin g.size} (hc : g.node? e.child = some c) :
    (∀ e' ∈ es, ∀ c', g.node? e'.child = some c' →
        (parents.set c (some e.parent) c.isLt).get c' = none) ↔
      e.child ∉ es.map Entry.child ∧
        ∀ e' ∈ es, ∀ c', g.node? e'.child = some c' → parents.get c' = none := by
  constructor
  · intro h
    refine ⟨?_, fun e' he' c' hc' => ?_⟩
    · intro hmem
      obtain ⟨e', he', heq⟩ := List.mem_map.mp hmem
      have := h e' he' c (heq ▸ hc)
      rw [get_set_self] at this
      contradiction
    · have := h e' he' c' hc'
      by_cases hcc : c = c'
      · subst hcc
        rw [get_set_self] at this
        contradiction
      · rwa [get_set_of_ne parents hcc] at this
  · rintro ⟨hnot, h⟩ e' he' c' hc'
    -- Another entry names another node, whose parent is what it was.
    have hcc : c ≠ c' := by
      rintro rfl
      exact hnot (List.mem_map.mpr ⟨e', he', eq_of_node?_eq hc' hc⟩)
    rw [get_set_of_ne parents hcc]
    exact h e' he' c' hc'

/-- The first pass finds nothing if all entries name nodes, none of which has a parent from before
or is named twice. -/
theorem parentViolation?_eq_none_iff (parents : Vector (Option Nat) g.size) (es : List Entry) :
    parentViolation? parents es = none ↔
      (∀ e ∈ es, InRange e.child g.size) ∧ (es.map Entry.child).Nodup ∧
        ∀ e ∈ es, ∀ c, g.node? e.child = some c → parents.get c = none := by
  induction es generalizing parents with
  | nil => simp [parentViolation?]
  | cons e es ih =>
    rw [parentViolation?]
    split
    · rename_i hnone
      have := node?_eq_none_iff.mp hnone
      simp [this]
    · rename_i c hc
      have hrange : InRange e.child g.size := by
        by_contra h
        rw [node?_eq_none_iff.mpr h] at hc
        contradiction
      split
      · -- The node was named before: both sides fail.
        rename_i p hp
        have hp : parents.get c = some p := hp
        refine iff_of_false (Option.some_ne_none _) ?_
        rintro ⟨-, -, h⟩
        have := h e List.mem_cons_self c hc
        rw [hp] at this
        contradiction
      · rename_i hp
        have hp : parents.get c = none := hp
        rw [ih, forall_get_set_eq_none_iff hc]
        simp only [List.forall_mem_cons, List.map_cons, List.nodup_cons, hrange, hc,
          Option.some.injEq, forall_eq', hp, true_and]
        tauto

/-- The first pass finds nothing exactly if all entries name nodes and no two the same. -/
theorem parentViolation?_entries_eq_none_iff :
    parentViolation? (.replicate g.size none) g.entries = none ↔
      (∀ i ∈ g.mentions, InRange i g.size) ∧ g.mentions.Nodup := by
  have hmentions : (∀ i ∈ g.mentions, InRange i g.size) ↔
      ∀ e ∈ g.entries, InRange e.child g.size := by
    rw [← map_child_entries, List.forall_mem_map]
  rw [parentViolation?_eq_none_iff, map_child_entries, hmentions]
  constructor
  · rintro ⟨hrange, hnodup, -⟩
    exact ⟨hrange, hnodup⟩
  · rintro ⟨hrange, hnodup⟩
    exact ⟨hrange, hnodup, fun _ _ c _ => get_replicate none c⟩

/-! ## The walk -/

/-- There is no endless way down from a node. -/
def Bottomed (g : Graph) (n : Fin g.size) : Prop := Acc (Function.swap g.IsChild) n

/-- The first `k` entries of a node were passed: each of them names a node that was left. -/
def Passed (marks : Vector Mark g.size) (n : Fin g.size) (k : Nat) : Prop :=
  k ≤ (g.childrenOf n).size ∧
    ∀ j < k, ∃ i c, (g.childrenOf n)[j]? = some i ∧ g.node? i = some c ∧ marks.get c = .done

/-- A path of a walk, from its last node back to its start. All entries before the place at a node
were passed, but for the last one of them if the path goes on there. -/
inductive Trail (marks : Vector Mark g.size) : List (Fin g.size × Nat) → Prop
  /-- The walk is over. -/
  | ended : Trail marks []
  /-- The walk is at its start. -/
  | start {n : Fin g.size} {k : Nat} (hn : Passed marks n k) : Trail marks [(n, k)]
  /-- The walk went down by the entry at place `j` of `p`. -/
  | down {n p : Fin g.size} {k j : Nat} {i : Int64} {path : List (Fin g.size × Nat)}
      (hn : Passed marks n k) (hi : (g.childrenOf p)[j]? = some i) (hin : g.node? i = some n)
      (hp : Trail marks ((p, j) :: path)) : Trail marks ((n, k) :: (p, j + 1) :: path)

/-- What holds of every state of a walk. -/
structure Search.Sound (s : Search g) : Prop where
  /-- No node is on the path twice. -/
  nodup : (s.path.map Prod.fst).Nodup
  /-- The nodes on the path are those that are marked so. -/
  onPath_iff : ∀ n, s.marks.get n = .onPath ↔ n ∈ s.path.map Prod.fst
  /-- Each node on the path is a child of the one after it, and what was passed was left. -/
  trail : Trail s.marks s.path
  /-- The way down from a node that was left ends. -/
  bottomed : ∀ n, s.marks.get n = .done → g.Bottomed n

/-- No entries were passed at first. -/
theorem Passed.zero (marks : Vector Mark g.size) (n : Fin g.size) : Passed marks n 0 :=
  ⟨Nat.zero_le _, fun _ h => absurd h (Nat.not_lt_zero _)⟩

/-- An entry that names a node that was left can be passed. -/
theorem Passed.succ {marks : Vector Mark g.size} {n c : Fin g.size} {k : Nat} {i : Int64}
    (h : Passed marks n k) (hi : (g.childrenOf n)[k]? = some i) (hc : g.node? i = some c)
    (hm : marks.get c = .done) : Passed marks n (k + 1) := by
  obtain ⟨hk, -⟩ := Array.getElem?_eq_some_iff.mp hi
  refine ⟨hk, fun j hj => ?_⟩
  rcases Nat.lt_succ_iff_lt_or_eq.mp hj with hj | rfl
  · exact h.2 j hj
  · exact ⟨i, c, hi, hc, hm⟩

/-- What was passed stays passed while no node that was left is marked otherwise. -/
theorem Passed.mono {marks marks' : Vector Mark g.size} {n : Fin g.size} {k : Nat}
    (hle : ∀ m : Fin g.size, marks.get m = .done → marks'.get m = .done) (h : Passed marks n k) :
    Passed marks' n k := by
  refine ⟨h.1, fun j hj => ?_⟩
  obtain ⟨i, c, hi, hc, hm⟩ := h.2 j hj
  exact ⟨i, c, hi, hc, hle c hm⟩

namespace Trail

/-- The entries before the place of the last node on a path were passed. -/
theorem passed {marks : Vector Mark g.size} {n : Fin g.size} {k : Nat}
    {path : List (Fin g.size × Nat)} (h : Trail marks ((n, k) :: path)) : Passed marks n k := by
  cases h with
  | start hn => exact hn
  | down hn => exact hn

/-- A path stays one while no node that was left is marked otherwise. -/
theorem mono {marks marks' : Vector Mark g.size} {path : List (Fin g.size × Nat)}
    (hle : ∀ m : Fin g.size, marks.get m = .done → marks'.get m = .done) (h : Trail marks path) :
    Trail marks' path := by
  induction h with
  | ended => exact .ended
  | start hn => exact .start (hn.mono hle)
  | down hn hi hin _ ih => exact .down (hn.mono hle) hi hin ih

/-- The walk passes the next entry at its last node. -/
theorem succ {marks : Vector Mark g.size} {n c : Fin g.size} {k : Nat} {i : Int64}
    {path : List (Fin g.size × Nat)} (h : Trail marks ((n, k) :: path))
    (hi : (g.childrenOf n)[k]? = some i) (hc : g.node? i = some c) (hm : marks.get c = .done) :
    Trail marks ((n, k + 1) :: path) := by
  cases h with
  | start hn => exact .start (hn.succ hi hc hm)
  | down hn hi' hin hp => exact .down (hn.succ hi hc hm) hi' hin hp

/-- The walk leaves its last node and passes the entry by which it came. -/
theorem leave {marks : Vector Mark g.size} {n : Fin g.size} {k : Nat}
    {path : List (Fin g.size × Nat)} (h : Trail marks ((n, k) :: path)) (hm : marks.get n = .done) :
    Trail marks path := by
  cases h with
  | start => exact .ended
  | down _ hi hin hp => exact hp.succ hi hin hm

/-- The walk came from every node on the path to its last node. -/
theorem reach {marks : Vector Mark g.size} {path : List (Fin g.size × Nat)} (h : Trail marks path) :
    ∀ e ∈ path.head?, ∀ m ∈ path.map Prod.fst, Relation.ReflTransGen g.IsChild m e.1 := by
  induction h with
  | ended => simp
  | start =>
    intro e he m hm
    obtain rfl := Option.mem_some.mp he
    rw [List.map_singleton, List.mem_singleton] at hm
    exact hm ▸ Relation.ReflTransGen.refl
  | @down n p k j i path hn hi hin hp ih =>
    intro e he m hm
    obtain rfl := Option.mem_some.mp he
    have hchild : g.IsChild p n := isChild_iff.mpr ⟨i, Array.mem_of_getElem? hi, hin⟩
    rcases List.mem_cons.mp hm with rfl | hm
    · exact Relation.ReflTransGen.refl
    · exact (ih (p, j) rfl m hm).tail hchild

end Trail

namespace Search

/-- A walk that starts at a node is sound if the marks before are. -/
theorem Sound.start {marks marks' : Vector Mark g.size} {root : Fin g.size}
    (h : Sound ⟨marks, []⟩) (hroot : marks'.get root = .onPath)
    (hother : ∀ n, root ≠ n → marks'.get n = marks.get n) : Sound ⟨marks', [(root, 0)]⟩ := by
  refine ⟨List.nodup_singleton root, fun n => ?_, .start (.zero _ root), fun n hn => ?_⟩
  · have hon := h.onPath_iff n
    by_cases hr : root = n
    · subst hr
      simp [hroot]
    · rw [hother n hr]
      simpa [Ne.symm hr] using hon
  · by_cases hr : root = n
    · subst hr
      rw [hroot] at hn
      contradiction
    · rw [hother n hr] at hn
      exact h.bottomed n hn

/-- Every node has no endless way down if all its entries were passed. -/
theorem bottomed_of_passed {marks : Vector Mark g.size} {n : Fin g.size}
    (hb : ∀ m : Fin g.size, marks.get m = .done → g.Bottomed m)
    (hp : Passed marks n (g.childrenOf n).size) : g.Bottomed n := by
  refine ⟨n, fun c hc => ?_⟩
  obtain ⟨i, hi, hic⟩ := isChild_iff.mp hc
  obtain ⟨j, hj, rfl⟩ := Array.getElem_of_mem hi
  obtain ⟨i', c', hi', hc', hm⟩ := hp.2 j hj
  obtain rfl : (g.childrenOf n)[j] = i' := by
    rw [Array.getElem?_eq_getElem hj] at hi'
    exact Option.some.inj hi'
  obtain rfl : c = c' := Option.some.inj (hic.symm.trans hc')
  exact hb c hm

/-- What a step of a walk that goes on can be. -/
inductive Advances (s : Search g) : Search g → Prop
  /-- All entries of the last node on the path were read, and it is left. -/
  | leave {n : Fin g.size} {k : Nat} {path : List (Fin g.size × Nat)}
      (hpath : s.path = (n, k) :: path) (hend : (g.childrenOf n)[k]? = none) :
      Advances s ⟨s.marks.set n .done n.isLt, path⟩
  /-- The next entry names a node that was not met, and the walk goes down to it. -/
  | down {n c : Fin g.size} {k : Nat} {i : Int64} {path : List (Fin g.size × Nat)}
      (hpath : s.path = (n, k) :: path) (hi : (g.childrenOf n)[k]? = some i)
      (hc : g.node? i = some c) (hm : s.marks.get c = .unvisited) :
      Advances s ⟨s.marks.set c .onPath c.isLt, (c, 0) :: (n, k + 1) :: path⟩
  /-- The next entry names a node that was left, and is passed. -/
  | pass {n c : Fin g.size} {k : Nat} {i : Int64} {path : List (Fin g.size × Nat)}
      (hpath : s.path = (n, k) :: path) (hi : (g.childrenOf n)[k]? = some i)
      (hc : g.node? i = some c) (hm : s.marks.get c = .done) :
      Advances s ⟨s.marks, (n, k + 1) :: path⟩

/-- A step that goes on leaves a node, goes down to a child or passes one. -/
theorem advances_of_step {s t : Search g} (hs : s.step = .continued t) : s.Advances t := by
  unfold Search.step at hs
  split at hs
  · contradiction
  rename_i n k path hpath
  split at hs
  · rename_i hend
    obtain rfl := Outcome.continued.inj hs
    exact .leave hpath hend
  rename_i i hi
  split at hs
  · contradiction
  rename_i c hc
  split at hs
  · rename_i hm
    obtain rfl := Outcome.continued.inj hs
    exact .down hpath hi hc hm
  · contradiction
  · rename_i hm
    obtain rfl := Outcome.continued.inj hs
    exact .pass hpath hi hc hm

/-- A walk that leaves its last node, of which all entries were passed, stays sound. -/
theorem Sound.leave {s : Search g} {n : Fin g.size} {k : Nat} {path : List (Fin g.size × Nat)}
    (h : s.Sound) (hpath : s.path = (n, k) :: path) (hend : (g.childrenOf n)[k]? = none) :
    Sound ⟨s.marks.set n .done n.isLt, path⟩ := by
  obtain ⟨hnodup, hon, htrail, hbot⟩ := h
  rw [hpath] at hnodup hon htrail
  rw [List.map_cons, List.nodup_cons] at hnodup
  have hmono : ∀ m, s.marks.get m = .done → (s.marks.set n .done n.isLt).get m = .done := by
    intro m hm
    rw [get_set]
    split
    · rfl
    · exact hm
  have hleft := (htrail.mono hmono).leave (get_set_self s.marks n .done)
  refine ⟨hnodup.2, fun m => ?_, hleft, fun m hm => ?_⟩
  · show (s.marks.set n .done n.isLt).get m = .onPath ↔ m ∈ path.map Prod.fst
    by_cases hnm : n = m
    · subst hnm
      rw [get_set_self]
      exact iff_of_false (by decide) hnodup.1
    · rw [get_set_of_ne s.marks hnm]
      simpa [Ne.symm hnm] using hon m
  · have hm : (s.marks.set n .done n.isLt).get m = .done := hm
    by_cases hnm : n = m
    · -- All nodes that the entries name were left, so there is no endless way down through them.
      subst hnm
      have hpassed := htrail.passed
      have hk : k = (g.childrenOf n).size :=
        le_antisymm hpassed.1 (Array.getElem?_eq_none_iff.mp hend)
      exact bottomed_of_passed hbot (hk ▸ hpassed)
    · rw [get_set_of_ne s.marks hnm] at hm
      exact hbot m hm

/-- A walk that goes down to a node that was not met stays sound. -/
theorem Sound.down {s : Search g} {n c : Fin g.size} {k : Nat} {i : Int64}
    {path : List (Fin g.size × Nat)} (h : s.Sound) (hpath : s.path = (n, k) :: path)
    (hi : (g.childrenOf n)[k]? = some i) (hc : g.node? i = some c)
    (hm : s.marks.get c = .unvisited) :
    Sound ⟨s.marks.set c .onPath c.isLt, (c, 0) :: (n, k + 1) :: path⟩ := by
  obtain ⟨hnodup, hon, htrail, hbot⟩ := h
  rw [hpath] at hnodup hon htrail
  have hcpath : c ∉ ((n, k) :: path).map Prod.fst := by
    rw [← hon, hm]
    decide
  have hmono : ∀ m, s.marks.get m = .done → (s.marks.set c .onPath c.isLt).get m = .done := by
    intro m hmd
    have hcm : c ≠ m := by
      rintro rfl
      rw [hm] at hmd
      contradiction
    rw [get_set_of_ne s.marks hcm]
    exact hmd
  refine ⟨?_, fun m => ?_, .down (.zero _ c) hi hc (htrail.mono hmono), fun m hmd => ?_⟩
  · rw [List.map_cons, List.nodup_cons]
    exact ⟨hcpath, hnodup⟩
  · show (s.marks.set c .onPath c.isLt).get m = .onPath ↔ m ∈ c :: n :: path.map Prod.fst
    by_cases hcm : c = m
    · subst hcm
      simp [get_set_self]
    · rw [get_set_of_ne s.marks hcm]
      simpa [Ne.symm hcm] using hon m
  · -- The node that it went down to is marked as on the path, so another one was left.
    have hmd : (s.marks.set c .onPath c.isLt).get m = .done := hmd
    by_cases hcm : c = m
    · subst hcm
      rw [get_set_self] at hmd
      contradiction
    · rw [get_set_of_ne s.marks hcm] at hmd
      exact hbot m hmd

/-- A walk that passes an entry that names a node that was left stays sound. -/
theorem Sound.pass {s : Search g} {n c : Fin g.size} {k : Nat} {i : Int64}
    {path : List (Fin g.size × Nat)} (h : s.Sound) (hpath : s.path = (n, k) :: path)
    (hi : (g.childrenOf n)[k]? = some i) (hc : g.node? i = some c) (hm : s.marks.get c = .done) :
    Sound ⟨s.marks, (n, k + 1) :: path⟩ := by
  obtain ⟨hnodup, hon, htrail, hbot⟩ := h
  rw [hpath] at hnodup hon htrail
  exact ⟨hnodup, hon, htrail.succ hi hc hm, hbot⟩

/-- A step keeps a walk sound. -/
theorem Sound.step {s t : Search g} (h : s.Sound) (hs : s.step = .continued t) : t.Sound := by
  cases advances_of_step hs with
  | leave hpath hend => exact h.leave hpath hend
  | down hpath hi hc hm => exact h.down hpath hi hc hm
  | pass hpath hi hc hm => exact h.pass hpath hi hc hm

/-- A walk stops at an entry of its last node that names no node or one on the path. -/
theorem cases_of_step_violated {s : Search g} {v : Violation} (hs : s.step = .violated v) :
    ∃ n k path i, s.path = (n, k) :: path ∧ (g.childrenOf n)[k]? = some i ∧
      (g.node? i = none ∧ v = Entry.violation ⟨n, k, i⟩ (.indexOutOfRange i g.size) ∨
        ∃ c, g.node? i = some c ∧ s.marks.get c = .onPath ∧
          v = Entry.violation ⟨n, k, i⟩ (.cycle c)) := by
  unfold step at hs
  split at hs
  · contradiction
  rename_i n k path hpath
  split at hs
  · contradiction
  rename_i i hi
  refine ⟨n, k, path, i, hpath, hi, ?_⟩
  split at hs
  · rename_i hnone
    exact .inl ⟨hnone, (Outcome.violated.inj hs).symm⟩
  rename_i c hc
  split at hs
  · contradiction
  · rename_i hm
    exact .inr ⟨c, hc, hm, (Outcome.violated.inj hs).symm⟩
  · contradiction

/-- An entry at which a walk stops stands against a forest. -/
theorem Sound.not_isForest {s : Search g} {v : Violation} (h : s.Sound)
    (hs : s.step = .violated v) : ¬ g.IsForest := by
  intro hf
  obtain ⟨n, k, path, i, hpath, hi, ⟨hnone, -⟩ | ⟨c, hc, hm, -⟩⟩ := cases_of_step_violated hs
  · have himem := Array.mem_of_getElem? hi
    exact node?_eq_none_iff.mp hnone (hf.inRange i (mem_mentions_iff.mpr ⟨n, himem⟩))
  · -- The walk came down from the node that is named to the one that names it.
    have hcn := h.trail.reach (n, k) (by rw [hpath]; rfl) c ((h.onPath_iff c).mp hm)
    have hchild : g.IsChild n c := isChild_iff.mpr ⟨i, Array.mem_of_getElem? hi, hc⟩
    exact hf.acyclic c (Relation.TransGen.tail' hcn hchild)

/-- A step takes no mark back to the node's not having been met. -/
theorem met_of_step {s t : Search g} (hs : s.step = .continued t) {n : Fin g.size}
    (hn : s.marks.get n ≠ .unvisited) : t.marks.get n ≠ .unvisited := by
  have hset : ∀ (c : Fin g.size) (m : Mark), m ≠ .unvisited →
      (s.marks.set c m c.isLt).get n ≠ .unvisited := by
    intro c m hm
    rw [get_set]
    split
    · exact hm
    · exact hn
  cases advances_of_step hs with
  | leave => exact hset _ _ (by decide)
  | down => exact hset _ _ (by decide)
  | pass => exact hn

/-- A step leads back to the same start. -/
theorem start_of_step {s t : Search g} (hs : s.step = .continued t) {root : Fin g.size}
    (h : ∀ r ∈ (s.path.map Prod.fst).getLast?, r = root) :
    ∀ r ∈ (t.path.map Prod.fst).getLast?, r = root := by
  cases advances_of_step hs with
  | @leave n k path hpath _ =>
    rw [hpath] at h
    -- Where the start is left, no path is left either.
    cases path with
    | nil => exact nofun
    | cons e path => exact h
  | down hpath =>
    rw [hpath] at h
    exact h
  | pass hpath =>
    rw [hpath] at h
    exact h

/-- What holds at first and is kept by the steps of a walk holds where it is over. -/
theorem of_run_ok {P : Search g → Prop}
    (hstep : ∀ s t, P s → s.step = .continued t → P t) {s : Search g}
    {marks : Vector Mark g.size} (h : P s) (hs : s.run = .ok marks) : P ⟨marks, []⟩ := by
  fun_induction Search.run s with
  | case1 s m hfinished =>
    obtain rfl := Except.ok.inj hs
    unfold Search.step at hfinished
    split at hfinished
    · rename_i hpath
      obtain rfl := Outcome.finished.inj hfinished
      rw [← hpath]
      exact h
    · repeat' split at hfinished
      all_goals contradiction
  | case2 => contradiction
  | case3 s t hcontinued ih => exact ih (hstep s t h hcontinued) hs

/-- What holds at first and is kept by the steps of a walk holds where it stops at an entry. -/
theorem exists_of_run_error {P : Search g → Prop}
    (hstep : ∀ s t, P s → s.step = .continued t → P t) {s : Search g} {v : Violation} (h : P s)
    (hs : s.run = .error v) : ∃ t, P t ∧ t.step = .violated v := by
  fun_induction Search.run s with
  | case1 => contradiction
  | case2 s w hviolated =>
    obtain rfl := Except.error.inj hs
    exact ⟨s, h, hviolated⟩
  | case3 s t hcontinued ih => exact ih (hstep s t h hcontinued) hs

/-- A walk that is over leaves sound marks, and every node that was met before or is on its path is
met then. -/
theorem Sound.run_ok {s : Search g} {marks : Vector Mark g.size} (h : s.Sound)
    (hs : s.run = .ok marks) :
    Sound ⟨marks, []⟩ ∧
      ∀ n : Fin g.size, s.marks.get n ≠ .unvisited → marks.get n ≠ .unvisited := by
  refine of_run_ok (P := fun t => t.Sound ∧
    ∀ n : Fin g.size, s.marks.get n ≠ .unvisited → t.marks.get n ≠ .unvisited) ?_
    ⟨h, fun _ hn => hn⟩ hs
  rintro t u ⟨hsound, hmet⟩ hstep
  exact ⟨hsound.step hstep, fun n hn => met_of_step hstep (hmet n hn)⟩

/-- A walk that stops at an entry is not in a forest. -/
theorem Sound.run_error {s : Search g} {v : Violation} (h : s.Sound) (hs : s.run = .error v) :
    ¬ g.IsForest := by
  obtain ⟨t, ht, hviolated⟩ := exists_of_run_error (fun _ _ => Sound.step) h hs
  exact ht.not_isForest hviolated

/-- A walk from a node that was not met, after walks that are over. -/
theorem Sound.walk {marks : Vector Mark g.size} (h : Sound ⟨marks, []⟩) (root : Fin g.size) :
    Sound ⟨marks.set root .onPath root.isLt, [(root, 0)]⟩ :=
  h.start (get_set_self marks root .onPath) fun _ hn => get_set_of_ne marks hn _

/-- If it is over too, then its start is met, and all that was met before. -/
theorem Sound.walk_ok {marks marks' : Vector Mark g.size} {root : Fin g.size}
    (h : Sound ⟨marks, []⟩)
    (hs : run ⟨marks.set root .onPath root.isLt, [(root, 0)]⟩ = .ok marks') :
    Sound ⟨marks', []⟩ ∧ marks'.get root ≠ .unvisited ∧
      ∀ n : Fin g.size, marks.get n ≠ .unvisited → marks'.get n ≠ .unvisited := by
  obtain ⟨hsound, hmet⟩ := (h.walk root).run_ok hs
  refine ⟨hsound, hmet root ?_, fun n hn => hmet n ?_⟩
  · show (marks.set root .onPath root.isLt).get root ≠ .unvisited
    rw [get_set_self]
    decide
  · show (marks.set root .onPath root.isLt).get n ≠ .unvisited
    rw [get_set]
    split
    · decide
    · exact hn

/-- Where no walk is under way, the way down from a node that was met ends. -/
theorem Sound.bottomed_of_met {marks : Vector Mark g.size} {n : Fin g.size}
    (h : Sound ⟨marks, []⟩) (hn : marks.get n ≠ .unvisited) : g.Bottomed n := by
  -- A node that was met and is on no path was left.
  have hon : marks.get n ≠ .onPath := fun heq => by simpa using (h.onPath_iff n).mp heq
  refine h.bottomed n ?_
  show marks.get n = .done
  cases hm : marks.get n with
  | unvisited => exact absurd hm hn
  | onPath => exact absurd hm hon
  | done => rfl

end Search

/-! ## All walks -/

/-- The walks from the given nodes that find nothing leave sound marks, and meet these nodes and
keep those that were met before. -/
theorem exists_marks_of_cycleViolation? {marks : Vector Mark g.size} {roots : List (Fin g.size)}
    (h : Search.Sound ⟨marks, []⟩) (hv : cycleViolation? marks roots = none) :
    ∃ marks' : Vector Mark g.size, Search.Sound ⟨marks', []⟩ ∧
      (∀ n ∈ roots, marks'.get n ≠ .unvisited) ∧
      ∀ n : Fin g.size, marks.get n ≠ .unvisited → marks'.get n ≠ .unvisited := by
  induction roots generalizing marks with
  | nil => exact ⟨marks, h, by simp, fun _ hn => hn⟩
  | cons root roots ih =>
    rw [cycleViolation?] at hv
    split at hv
    · -- A node that was not met: a walk from it, and then those from the other nodes.
      split at hv
      · rename_i marks₁ hrun
        obtain ⟨h₁, hroot, hmet₁⟩ := h.walk_ok hrun
        obtain ⟨marks₂, h₂, hroots, hmet₂⟩ := ih h₁ hv
        exact ⟨marks₂, h₂, List.forall_mem_cons.mpr ⟨hmet₂ root hroot, hroots⟩,
          fun n hn => hmet₂ n (hmet₁ n hn)⟩
      · contradiction
    · -- A walk from another node came by here.
      rename_i hroot
      obtain ⟨marks₂, h₂, hroots, hmet₂⟩ := ih h hv
      exact ⟨marks₂, h₂, List.forall_mem_cons.mpr ⟨hmet₂ root hroot, hroots⟩, hmet₂⟩

/-- If something is found, then by the walk from one of the nodes, which starts after all nodes
before this one were met. -/
theorem exists_walk_of_cycleViolation? {marks : Vector Mark g.size} {roots : List (Fin g.size)}
    {v : Violation} (h : Search.Sound ⟨marks, []⟩) (hv : cycleViolation? marks roots = some v) :
    ∃ (before : List (Fin g.size)) (root : Fin g.size) (after : List (Fin g.size))
      (marks' : Vector Mark g.size), roots = before ++ root :: after ∧
      Search.Sound ⟨marks', []⟩ ∧ (∀ n ∈ before, marks'.get n ≠ .unvisited) ∧
      (∀ n : Fin g.size, marks.get n ≠ .unvisited → marks'.get n ≠ .unvisited) ∧
      Search.run ⟨marks'.set root .onPath root.isLt, [(root, 0)]⟩ = .error v := by
  induction roots generalizing marks with
  | nil => contradiction
  | cons root roots ih =>
    rw [cycleViolation?] at hv
    split at hv
    · split at hv
      · rename_i marks₁ hrun
        obtain ⟨h₁, hroot, hmet₁⟩ := h.walk_ok hrun
        obtain ⟨before, r, after, marks₂, rfl, h₂, hbefore, hmet₂, hr⟩ := ih h₁ hv
        exact ⟨root :: before, r, after, marks₂, rfl, h₂,
          List.forall_mem_cons.mpr ⟨hmet₂ root hroot, hbefore⟩,
          fun n hn => hmet₂ n (hmet₁ n hn), hr⟩
      · rename_i hrun
        obtain rfl := Option.some.inj hv
        exact ⟨[], root, roots, marks, rfl, h, List.forall_mem_nil _, fun _ hn => hn, hrun⟩
    · rename_i hroot
      obtain ⟨before, r, after, marks₂, rfl, h₂, hbefore, hmet₂, hr⟩ := ih h hv
      exact ⟨root :: before, r, after, marks₂, rfl, h₂,
        List.forall_mem_cons.mpr ⟨hmet₂ root hroot, hbefore⟩, hmet₂, hr⟩

/-- The walks from any nodes find nothing in a forest. -/
theorem cycleViolation?_eq_none {marks : Vector Mark g.size} (hf : g.IsForest)
    (h : Search.Sound ⟨marks, []⟩) (roots : List (Fin g.size)) :
    cycleViolation? marks roots = none := by
  induction roots generalizing marks with
  | nil => rfl
  | cons root roots ih =>
    rw [cycleViolation?]
    split
    · split
      · rename_i hrun
        exact ih (h.walk_ok hrun).1
      · rename_i hrun
        exact absurd hf ((h.walk root).run_error hrun)
    · exact ih h

/-- Before any node is met, the marks are sound. -/
theorem sound_unvisited : Search.Sound (g := g) ⟨.replicate g.size .unvisited, []⟩ := by
  refine ⟨List.nodup_nil, fun n => iff_of_false ?_ List.not_mem_nil, .ended, fun n hn => ?_⟩
  · rw [get_replicate]
    decide
  · rw [get_replicate] at hn
    contradiction

/-- A node is not below itself if the way down from it ends. -/
theorem Bottomed.not_below {n : Fin g.size} (h : g.Bottomed n) :
    ¬ Relation.TransGen g.IsChild n n := by
  induction h with
  | intro n _ ih =>
    intro hn
    -- A child that leads back to the node is below itself too.
    obtain ⟨c, hc, hcn⟩ := Relation.TransGen.head'_iff.mp hn
    exact ih c hc (Relation.TransGen.tail' hcn hc)

/-- The graphs in which nothing is found are the forests. -/
theorem violation?_eq_none_iff_isForest (g : Graph) : g.violation? = none ↔ g.IsForest := by
  rw [violation?, Option.or_eq_none_iff, parentViolation?_entries_eq_none_iff]
  constructor
  · rintro ⟨⟨hrange, hnodup⟩, hcycle⟩
    -- There is a walk from every node, so every node is met in the end.
    obtain ⟨marks, hsound, hmet, -⟩ := exists_marks_of_cycleViolation? sound_unvisited hcycle
    refine ⟨hrange, hnodup, fun n => ?_⟩
    exact (hsound.bottomed_of_met (hmet n (List.mem_finRange n))).not_below
  · intro hf
    exact ⟨⟨hf.inRange, hf.nodup⟩, cycleViolation?_eq_none hf sound_unvisited _⟩

end GltfAsset.Check.Graph
