import Mathlib.Data.List.Nodup
import Mathlib.Data.List.FinRange
import GltfAsset.Proofs.Hierarchy.Search

/-!
# The rounds of the walks

A walk goes on in rounds: each one looks at the last node of the path and at the place of the next
entry there, and either reads the entry or leaves the node. The rounds of all walks together are
`Graph.rounds`. No two of them look at the same place of the same node (`nodup_lookedAt?_rounds`),
on any graph, also on one with cycles and shared nodes: a place is still to be looked at only if its
node is on the path with all places from there on, or was not met yet (`Search.Ahead`), and a round
takes away the place that it looks at and brings none back. It follows that every node comes to the
path once at most, that every entry is read once at most, and that there are no more rounds than
nodes and entries together.
-/

namespace GltfAsset.Check.Graph

variable {g : Graph}

namespace Search

/-- The states of a walk in which a round starts. -/
def rounds (s : Search g) : List (Search g) :=
  match _h : s.step with
  | .finished _ => []
  | .violated _ => [s]
  | .continued t => s :: rounds t
termination_by s.work
decreasing_by exact work_lt_of_step _h

/-- The node and the place in its list that a round looks at. -/
def lookedAt? (s : Search g) : Option (Fin g.size × Nat) := s.path.head?

/-- The node and the place of the entry that a round reads, unless there is no entry. -/
def entryRead? (s : Search g) : Option (Fin g.size × Nat) :=
  s.lookedAt?.filter fun e => e.2 < (g.childrenOf e.1).size

/-- The node that a round puts on the path, if it does. -/
def pushed? (s : Search g) : Option (Fin g.size) :=
  match s.step with
  | .continued t => if s.path.length < t.path.length then t.path.head?.map Prod.fst else none
  | _ => none

/-- The nodes that a walk puts on the path: its start, and then those to which it goes down. -/
def pushed (s : Search g) : List (Fin g.size) :=
  s.path.map Prod.fst ++ s.rounds.filterMap pushed?

/-- The state in which the walk from a node starts. -/
def start (marks : Vector Mark g.size) : Fin g.size → Search g
  | ⟨n, hn⟩ => ⟨marks.set n .onPath, [(⟨n, hn⟩, 0)]⟩

end Search

/-- The states in which the walks from the given nodes start, up to the walk that finds
something. -/
def walks (marks : Vector Mark g.size) : List (Fin g.size) → List (Search g)
  | [] => []
  | root :: roots =>
    if marks.get root = .unvisited then
      match (Search.start marks root).run with
      | .ok left => Search.start marks root :: walks left roots
      | .error _ => [Search.start marks root]
    else walks marks roots

/-- The states in which the walks from all nodes start. -/
def allWalks (g : Graph) : List (Search g) :=
  walks (.replicate g.size .unvisited) (List.finRange g.size)

/-- The rounds of all walks. -/
def rounds (g : Graph) : List (Search g) := g.allWalks.flatMap Search.rounds

/-- The nodes that are put on the path by all walks. -/
def pushed (g : Graph) : List (Fin g.size) := g.allWalks.flatMap Search.pushed

/-- The places of the entries that are read. -/
def entriesRead (g : Graph) : List (Fin g.size × Nat) := g.rounds.filterMap Search.entryRead?

/-! ## The rounds of one walk -/

namespace Search

/-- A walk is as its first step tells. -/
theorem run_eq (s : Search g) : s.run = match s.step with
    | .finished marks => .ok marks
    | .violated v => .error v
    | .continued t => t.run := by
  rw [run]
  split
  all_goals
    rename_i hstep
    rw [hstep]

/-- A walk is over where no path is left. -/
theorem path_eq_nil_of_step {s : Search g} {marks : Vector Mark g.size}
    (hs : s.step = .finished marks) : s.path = [] ∧ s.marks = marks := by
  unfold step at hs
  split at hs
  · rename_i hpath
    exact ⟨hpath, Outcome.finished.inj hs⟩
  · repeat' split at hs
    all_goals contradiction

/-- A walk goes on only from a path. -/
theorem exists_path_eq_cons {s t : Search g} (hstep : s.step = .continued t) :
    ∃ n k path, s.path = (n, k) :: path := by
  cases advances_of_step hstep with
  | leave hpath => exact ⟨_, _, _, hpath⟩
  | down hpath => exact ⟨_, _, _, hpath⟩
  | pass hpath => exact ⟨_, _, _, hpath⟩

/-- What is on the path after a step: nodes that were there before the last one, the last one at its
next place, or a node that was not met. -/
theorem cases_of_mem_path {s t : Search g} (hstep : s.step = .continued t) {n : Fin g.size}
    {k : Nat} {path : List (Fin g.size × Nat)} (hpath : s.path = (n, k) :: path)
    {e : Fin g.size × Nat} (he : e ∈ t.path) :
    e ∈ path ∨ e = (n, k + 1) ∨ s.marks.get e.1 = .unvisited := by
  cases advances_of_step hstep with
  | leave hpath' =>
    obtain ⟨-, rfl⟩ := List.cons.inj (hpath.symm.trans hpath')
    exact .inl he
  | down hpath' hi hc hm =>
    obtain ⟨heq, rfl⟩ := List.cons.inj (hpath.symm.trans hpath')
    obtain ⟨rfl, rfl⟩ := Prod.mk.inj heq
    rcases List.mem_cons.mp he with rfl | he
    · exact .inr (.inr hm)
    rcases List.mem_cons.mp he with rfl | he
    · exact .inr (.inl rfl)
    · exact .inl he
  | pass hpath' hi hc hm =>
    obtain ⟨heq, rfl⟩ := List.cons.inj (hpath.symm.trans hpath')
    obtain ⟨rfl, rfl⟩ := Prod.mk.inj heq
    rcases List.mem_cons.mp he with rfl | he
    · exact .inr (.inl rfl)
    · exact .inl he

/-- Every round looks at the last node of a path. -/
theorem exists_lookedAt? {s r : Search g} (hr : r ∈ s.rounds) : ∃ e, r.lookedAt? = some e := by
  fun_induction rounds s with
  | case1 => contradiction
  | case2 s v hstep =>
    obtain rfl := List.mem_singleton.mp hr
    obtain ⟨n, k, path, i, hpath, -⟩ := cases_of_step_violated hstep
    exact ⟨(n, k), by rw [lookedAt?, hpath]; rfl⟩
  | case3 s t hstep ih =>
    rcases List.mem_cons.mp hr with rfl | hr
    · obtain ⟨n, k, path, hpath⟩ := exists_path_eq_cons hstep
      exact ⟨(n, k), by rw [lookedAt?, hpath]; rfl⟩
    · exact ih hr

/-- What holds at first and is kept by steps holds in every round. -/
theorem of_mem_rounds {P : Search g → Prop}
    (hstep : ∀ s t, P s → s.step = .continued t → P t) {s r : Search g} (h : P s)
    (hr : r ∈ s.rounds) : P r := by
  fun_induction rounds s with
  | case1 => contradiction
  | case2 s v _ =>
    obtain rfl := List.mem_singleton.mp hr
    exact h
  | case3 s t hcontinued ih =>
    rcases List.mem_cons.mp hr with rfl | hr
    · exact h
    · exact ih (hstep s t h hcontinued) hr

/-- The place is still to be looked at: its node is on the path and the walk is not past the place,
or the node was not met. -/
def Ahead (s : Search g) (e : Fin g.size × Nat) : Prop :=
  (∃ k, (e.1, k) ∈ s.path ∧ k ≤ e.2) ∨ s.marks.get e.1 = .unvisited

/-- A round looks at a place that was ahead. -/
theorem ahead_of_lookedAt? {s : Search g} {e : Fin g.size × Nat} (he : s.lookedAt? = some e) :
    s.Ahead e := .inl ⟨e.2, List.mem_of_head? he, Nat.le_refl e.2⟩

/-- A step brings no place back. -/
theorem ahead_of_step {s t : Search g} (hstep : s.step = .continued t) {e : Fin g.size × Nat}
    (h : t.Ahead e) : s.Ahead e := by
  obtain ⟨n, j, path, hpath⟩ := exists_path_eq_cons hstep
  rcases h with ⟨k, hk, hle⟩ | hm
  · rcases cases_of_mem_path hstep hpath hk with hk | heq | hm
    · refine .inl ⟨k, ?_, hle⟩
      rw [hpath]
      exact List.mem_cons_of_mem (n, j) hk
    · obtain ⟨hn, rfl⟩ := Prod.mk.inj heq
      refine .inl ⟨j, ?_, Nat.le_of_succ_le hle⟩
      rw [hpath, hn]
      exact List.mem_cons_self
    · exact .inr hm
  · -- What is not met after the step was not met before.
    right
    by_contra hne
    exact met_of_step hstep hne hm

/-- A step takes away the place that is looked at. -/
theorem Sound.not_ahead_of_step {s t : Search g} (h : s.Sound) (hstep : s.step = .continued t)
    {e : Fin g.size × Nat} (he : s.lookedAt? = some e) : ¬ t.Ahead e := by
  obtain ⟨n, j, path, hpath⟩ := exists_path_eq_cons hstep
  rw [lookedAt?, hpath] at he
  obtain rfl := Option.some.inj he
  have hmem : n ∈ s.path.map Prod.fst := by
    rw [hpath]
    exact List.mem_cons_self
  have hmet : s.marks.get n ≠ .unvisited := by
    rw [(h.onPath_iff n).mpr hmem]
    decide
  rintro (⟨k, hk, hle⟩ | hm)
  · rcases cases_of_mem_path hstep hpath hk with hk | heq | hm
    · -- The node is on the path once only, so not among the nodes before it.
      have hnodup := h.nodup
      rw [hpath, List.map_cons, List.nodup_cons] at hnodup
      exact hnodup.1 (List.mem_map.mpr ⟨(n, k), hk, rfl⟩)
    · obtain ⟨-, rfl⟩ := Prod.mk.inj heq
      exact absurd hle (Nat.not_succ_le_self j)
    · exact hmet hm
  · exact met_of_step hstep hmet hm

/-- Every round of a walk looks at a place that was ahead at the start. -/
theorem ahead_of_mem_rounds {s r : Search g} (hr : r ∈ s.rounds) {e : Fin g.size × Nat}
    (he : r.lookedAt? = some e) : s.Ahead e := by
  fun_induction rounds s with
  | case1 => contradiction
  | case2 s v _ =>
    obtain rfl := List.mem_singleton.mp hr
    exact ahead_of_lookedAt? he
  | case3 s t hstep ih =>
    rcases List.mem_cons.mp hr with rfl | hr
    · exact ahead_of_lookedAt? he
    · exact ahead_of_step hstep (ih hr)

/-- No two rounds of a walk look at the same place. -/
theorem Sound.nodup_lookedAt? {s : Search g} (h : s.Sound) :
    (s.rounds.map lookedAt?).Nodup := by
  fun_induction rounds s with
  | case1 => exact List.nodup_nil
  | case2 s v _ => exact List.nodup_singleton _
  | case3 s t hstep ih =>
    rw [List.map_cons, List.nodup_cons]
    refine ⟨fun hmem => ?_, ih (h.step hstep)⟩
    obtain ⟨r, hr, heq⟩ := List.mem_map.mp hmem
    obtain ⟨e, he⟩ := exists_lookedAt? hr
    exact h.not_ahead_of_step hstep (heq ▸ he) (ahead_of_mem_rounds hr he)

/-- When a walk is over, every node that one of its rounds looked at is met. -/
theorem Sound.met_of_mem_rounds {s r : Search g} {marks : Vector Mark g.size} (h : s.Sound)
    (hs : s.run = .ok marks) (hr : r ∈ s.rounds) {e : Fin g.size × Nat}
    (he : r.lookedAt? = some e) : marks.get e.1 ≠ .unvisited := by
  fun_induction rounds s with
  | case1 => contradiction
  | case2 s v hstep =>
    rw [run_eq, hstep] at hs
    contradiction
  | case3 s t hstep ih =>
    rcases List.mem_cons.mp hr with rfl | hr
    · have hon : r.marks.get e.1 = .onPath :=
        (h.onPath_iff e.1).mpr (List.mem_map_of_mem (List.mem_of_head? he))
      exact (h.run_ok hs).2 e.1 (by rw [hon]; decide)
    · rw [run_eq, hstep] at hs
      exact ih (h.step hstep) hs hr

/-- If a walk is not over, its first round starts where it is. -/
theorem exists_rounds_eq_cons {s : Search g} (h : s.path ≠ []) : ∃ rs, s.rounds = s :: rs := by
  rw [rounds]
  split
  · rename_i hstep
    exact absurd (path_eq_nil_of_step hstep).1 h
  · exact ⟨[], rfl⟩
  · exact ⟨_, rfl⟩

/-- A node that a round puts on the path is looked at from its first place by the round after it. So
the first places of the nodes that are put on the path are among the places that are looked at, in
the same order and after the first of them. -/
theorem sublist_lookedAt? (s : Search g) :
    ((s.rounds.filterMap pushed?).map fun c => some (c, 0)).Sublist
      (s.rounds.map lookedAt?).tail := by
  fun_induction rounds s with
  | case1 => exact .slnil
  | case2 s v hstep =>
    have hnone : s.pushed? = none := by rw [pushed?, hstep]
    rw [List.filterMap_cons_none hnone]
    exact .slnil
  | case3 s t hstep ih =>
    show List.Sublist _ (t.rounds.map lookedAt?)
    have htail := ih.trans (List.tail_sublist _)
    -- Only a step down makes the path longer.
    cases advances_of_step hstep with
    | @leave n k path hpath hend =>
      have hnone : s.pushed? = none := by
        rw [pushed?, hstep, hpath]
        exact if_neg (by simp only [List.length_cons]; omega)
      rwa [List.filterMap_cons_none hnone]
    | @down n c k i path hpath hi hc hm =>
      have hsome : s.pushed? = some c := by
        rw [pushed?, hstep, hpath]
        exact if_pos (by simp only [List.length_cons]; omega)
      obtain ⟨rs, hrs⟩ := exists_rounds_eq_cons (s := ⟨_, (c, 0) :: (n, k + 1) :: path⟩) (by simp)
      rw [List.filterMap_cons_some hsome]
      rw [hrs] at ih ⊢
      exact ih.cons_cons (some (c, 0))
    | @pass n c k i path hpath hi hc hm =>
      have hnone : s.pushed? = none := by
        rw [pushed?, hstep, hpath]
        exact if_neg (by simp only [List.length_cons]; omega)
      rwa [List.filterMap_cons_none hnone]

end Search

/-! ## The rounds of all walks -/

/-- The walks start in sound states. -/
theorem sound_of_mem_walks {marks : Vector Mark g.size} {roots : List (Fin g.size)}
    (h : Search.Sound ⟨marks, []⟩) {s : Search g} (hs : s ∈ walks marks roots) : s.Sound := by
  induction roots generalizing marks with
  | nil => contradiction
  | cons root roots ih =>
    rw [walks] at hs
    split at hs
    · split at hs
      · rename_i marks₁ hrun
        rcases List.mem_cons.mp hs with rfl | hs
        · exact h.walk root
        · exact ih (h.walk_ok hrun).1 hs
      · obtain rfl := List.mem_singleton.mp hs
        exact h.walk root
    · exact ih h hs

/-- A walk starts at one node, which is at its first place. -/
theorem exists_path_eq_of_mem_walks {marks : Vector Mark g.size} {roots : List (Fin g.size)}
    {s : Search g} (hs : s ∈ walks marks roots) : ∃ root, s.path = [(root, 0)] := by
  induction roots generalizing marks with
  | nil => contradiction
  | cons root roots ih =>
    rw [walks] at hs
    split at hs
    · split at hs
      · rcases List.mem_cons.mp hs with rfl | hs
        · exact ⟨root, rfl⟩
        · exact ih hs
      · obtain rfl := List.mem_singleton.mp hs
        exact ⟨root, rfl⟩
    · exact ih hs

/-- The first places of the nodes that walks put on the path are among the places that they look at,
in the same order. -/
theorem sublist_pushed_walks {ss : List (Search g)} (hss : ∀ s ∈ ss, ∃ root, s.path = [(root, 0)]) :
    ((ss.flatMap Search.pushed).map fun c => some (c, 0)).Sublist
      ((ss.flatMap Search.rounds).map Search.lookedAt?) := by
  induction ss with
  | nil => exact .slnil
  | cons s ss ih =>
    obtain ⟨⟨root, hpath⟩, hss⟩ := List.forall_mem_cons.mp hss
    obtain ⟨rs, hrs⟩ := Search.exists_rounds_eq_cons (s := s) (by rw [hpath]; exact nofun)
    have hlook : s.lookedAt? = some (root, 0) := by rw [Search.lookedAt?, hpath]; rfl
    -- The start is looked at by the first round, and the other nodes by later ones.
    have hfirst := Search.sublist_lookedAt? s
    rw [hrs, List.map_cons, List.tail_cons] at hfirst
    have hwalk : (s.pushed.map fun c => some (c, 0)).Sublist (s.rounds.map Search.lookedAt?) := by
      rw [Search.pushed, hrs, hpath, List.map_cons (f := Search.lookedAt?), hlook]
      exact hfirst.cons_cons _
    simp only [List.flatMap_cons, List.map_append]
    exact hwalk.append (ih hss)

/-- The rounds of a walk look at nodes that were not met before it. -/
theorem unvisited_of_mem_rounds {marks : Vector Mark g.size} {root : Fin g.size}
    (hroot : marks.get root = .unvisited) {r : Search g}
    (hr : r ∈ (Search.start marks root).rounds)
    {e : Fin g.size × Nat} (he : r.lookedAt? = some e) : marks.get e.1 = .unvisited := by
  rcases Search.ahead_of_mem_rounds hr he with ⟨k, hk, -⟩ | hm
  · obtain ⟨heq, -⟩ := Prod.mk.inj (List.mem_singleton.mp hk)
    rw [heq]
    exact hroot
  · have hm : (marks.set root .onPath root.isLt).get e.1 = .unvisited := hm
    rw [get_set] at hm
    split at hm
    · contradiction
    · exact hm

/-- No two rounds of walks one after the other look at the same place, and they look at nodes that
were not met before. -/
theorem nodup_lookedAt?_walks {marks : Vector Mark g.size} {roots : List (Fin g.size)}
    (h : Search.Sound ⟨marks, []⟩) :
    (((walks marks roots).flatMap Search.rounds).map Search.lookedAt?).Nodup ∧
      ∀ r ∈ (walks marks roots).flatMap Search.rounds, ∀ e, r.lookedAt? = some e →
        marks.get e.1 = .unvisited := by
  induction roots generalizing marks with
  | nil => exact ⟨List.nodup_nil, fun r hr => absurd hr List.not_mem_nil⟩
  | cons root roots ih =>
    rw [walks]
    split
    · rename_i hroot
      have hsound : (Search.start marks root).Sound := h.walk root
      split
      · rename_i marks₁ hrun
        obtain ⟨h₁, -, hmet⟩ := h.walk_ok hrun
        obtain ⟨hnodup, hlater⟩ := ih h₁
        rw [List.flatMap_cons, List.map_append, List.nodup_append']
        refine ⟨⟨hsound.nodup_lookedAt?, hnodup, ?_⟩, fun r hr e he => ?_⟩
        · -- What the first walk looked at is met after it, and the later ones look at nothing met.
          intro o ho ho'
          obtain ⟨r, hr, rfl⟩ := List.mem_map.mp ho
          obtain ⟨r', hr', heq⟩ := List.mem_map.mp ho'
          obtain ⟨e, he⟩ := Search.exists_lookedAt? hr
          exact hsound.met_of_mem_rounds hrun hr he (hlater r' hr' e (heq.trans he))
        · rcases List.mem_append.mp hr with hr | hr
          · exact unvisited_of_mem_rounds hroot hr he
          · by_contra hne
            exact hmet e.1 hne (hlater r hr e he)
      · rw [List.flatMap_singleton]
        exact ⟨hsound.nodup_lookedAt?, fun r hr e he => unvisited_of_mem_rounds hroot hr he⟩
    · exact ih h

/-- No two rounds look at the same place. -/
theorem nodup_lookedAt?_rounds (g : Graph) : (g.rounds.map Search.lookedAt?).Nodup :=
  (nodup_lookedAt?_walks sound_unvisited).1

/-! ## What holds in every round -/

/-- The walk came to a node by the entry that it took last at the node above. -/
def CameFrom (e above : Fin g.size × Nat) : Prop :=
  ∃ j i, above.2 = j + 1 ∧ (g.childrenOf above.1)[j]? = some i ∧ g.node? i = some e.1

/-- A walk whose path is one way down. That the nodes on it are nodes of the graph is said by their
type. -/
structure Search.InOrder (s : Search g) : Prop where
  /-- No node is on the path twice. -/
  nodup : (s.path.map Prod.fst).Nodup
  /-- The nodes on the path are those that are marked so. -/
  onPath_iff : ∀ n, s.marks.get n = .onPath ↔ n ∈ s.path.map Prod.fst
  /-- At each node on the path, the place is one of an entry or the end of the list. -/
  place_le : ∀ e ∈ s.path, e.2 ≤ (g.childrenOf e.1).size
  /-- Each node on the path is named by the entry that was taken last at the node above. -/
  linked : s.path.IsChain CameFrom

/-- No place on a path is past the end of its list. -/
theorem Trail.place_le {marks : Vector Mark g.size} {path : List (Fin g.size × Nat)}
    (h : Trail marks path) : ∀ e ∈ path, e.2 ≤ (g.childrenOf e.1).size := by
  induction h with
  | ended => exact fun e he => absurd he List.not_mem_nil
  | start hn =>
    intro e he
    obtain rfl := List.mem_singleton.mp he
    exact hn.1
  | @down n p k j i path hn hi hin hp ih =>
    intro e he
    rcases List.mem_cons.mp he with rfl | he
    · exact hn.1
    rcases List.mem_cons.mp he with rfl | he
    · -- The entry before the place is there.
      obtain ⟨hj, -⟩ := Array.getElem?_eq_some_iff.mp hi
      exact hj
    · exact ih e (List.mem_cons_of_mem _ he)

/-- Each node on a path was come to by the entry that was taken last at the node above. -/
theorem Trail.linked {marks : Vector Mark g.size} {path : List (Fin g.size × Nat)}
    (h : Trail marks path) : path.IsChain CameFrom := by
  induction h with
  | ended => exact .nil
  | start => exact .singleton _
  | @down n p k j i path hn hi hin hp ih =>
    refine List.isChain_cons_cons.mpr ⟨⟨j, i, rfl, hi, hin⟩, ?_⟩
    -- How the walk came to a node does not depend on the place at which it is there.
    cases path with
    | nil => exact .singleton _
    | cons above path =>
      rw [List.isChain_cons_cons] at ih ⊢
      exact ih

/-- What holds of every state keeps its rounds in order. -/
theorem Search.Sound.inOrder {s : Search g} (h : s.Sound) : s.InOrder where
  nodup := h.nodup
  onPath_iff := h.onPath_iff
  place_le := h.trail.place_le
  linked := h.trail.linked

/-- Every round starts in a sound state. -/
theorem sound_of_mem_rounds {s : Search g} (hs : s ∈ g.rounds) : s.Sound := by
  obtain ⟨start, hstart, hs⟩ := List.mem_flatMap.mp hs
  have hsound := sound_of_mem_walks sound_unvisited hstart
  exact Search.of_mem_rounds (fun _ _ => Search.Sound.step) hsound hs

/-! ## The number of rounds -/

/-- The places at which a walk may look: those of the entries of each node, and the end of its
list. -/
def lookable (g : Graph) : List (Fin g.size × Nat) :=
  (List.finRange g.size).flatMap fun n =>
    (List.range ((g.childrenOf n).size + 1)).map fun k => (n, k)

/-- The children of all nodes, in order, are the lists that the graph was made of. -/
theorem map_childrenOf_finRange (g : Graph) :
    (List.finRange g.size).map g.childrenOf = g.children.toList := by
  refine List.ext_getElem ?_ fun i hi hi' => ?_
  · rw [List.length_map, List.length_finRange]
    rfl
  · rw [List.getElem_map, List.getElem_finRange]
    rfl

/-- There are as many of them as nodes and entries together. -/
theorem length_lookable (g : Graph) : g.lookable.length = g.size + g.mentions.length := by
  have hmentions :
      g.mentions = (List.finRange g.size).flatMap fun n => (g.childrenOf n).toList := by
    rw [mentions, ← map_childrenOf_finRange, List.flatMap_map]
  calc
    g.lookable.length = (List.finRange g.size).length +
        ((List.finRange g.size).flatMap fun n => (g.childrenOf n).toList).length := by
      unfold lookable
      -- Node by node: one place for each entry, and one for the end of the list.
      induction List.finRange g.size with
      | nil => rfl
      | cons n ns ih =>
        simp only [List.flatMap_cons, List.length_append, List.length_map, List.length_range,
          List.length_cons, Array.length_toList, ih]
        omega
    _ = g.size + g.mentions.length := by rw [List.length_finRange, ← hmentions]

/-- There are no more rounds than nodes and entries together. -/
theorem length_rounds_le (g : Graph) : g.rounds.length ≤ g.size + g.mentions.length := by
  have hsub : g.rounds.map Search.lookedAt? ⊆ g.lookable.map some := by
    intro o ho
    obtain ⟨r, hr, rfl⟩ := List.mem_map.mp ho
    obtain ⟨s, -, hrs⟩ := List.mem_flatMap.mp hr
    obtain ⟨e, he⟩ := Search.exists_lookedAt? hrs
    have hle := (sound_of_mem_rounds hr).inOrder.place_le e (List.mem_of_head? he)
    have hlook : e ∈ g.lookable := by
      refine List.mem_flatMap.mpr ⟨e.1, List.mem_finRange e.1, ?_⟩
      exact List.mem_map.mpr ⟨e.2, List.mem_range.mpr (Nat.lt_succ_of_le hle), rfl⟩
    rw [he]
    exact List.mem_map_of_mem hlook
  have hlength := (List.subperm_of_subset (nodup_lookedAt?_rounds g) hsub).length_le
  rw [List.length_map, List.length_map, length_lookable] at hlength
  exact hlength

/-- No entry is read twice. -/
theorem nodup_entriesRead (g : Graph) : g.entriesRead.Nodup := by
  have hread : g.entriesRead = (g.rounds.map Search.lookedAt?).filterMap fun o =>
      o.filter fun e => e.2 < (g.childrenOf e.1).size := by
    rw [entriesRead, List.filterMap_map]
    rfl
  rw [hread]
  refine (nodup_lookedAt?_rounds g).filterMap fun o o' e he he' => ?_
  rw [Option.mem_def, Option.filter_eq_some_iff] at he he'
  rw [he.1, he'.1]

/-- No node is put on the path twice. -/
theorem nodup_pushed (g : Graph) : g.pushed.Nodup := by
  have hstarts : ∀ s ∈ g.allWalks, ∃ root, s.path = [(root, 0)] :=
    fun s hs => exists_path_eq_of_mem_walks hs
  have hnodup := (nodup_lookedAt?_rounds g).sublist (sublist_pushed_walks hstarts)
  exact hnodup.of_map

end GltfAsset.Check.Graph
