import GltfAsset.Proofs.Hierarchy.Reported
import GltfAsset.Proofs.Hierarchy.Rounds

/-!
# The search by plain indices

`Graph.violation?` names nodes by indices that are below the number of nodes by their type, and each
walk goes on as long as there is something to do. `Plain.search` does the same with numbers for
indices, of which each is looked at when it is used, and with a number of rounds that is granted to
all walks together: it stops if an index is out of bounds or if the rounds are used up. Neither
happens if there are as many rounds as nodes and entries, so the search stops at what
`Graph.violation?` finds (`Plain.search_eq`).
-/

namespace GltfAsset.Check.Graph

/-- Why a search stops. -/
inductive Stop where
  /-- An entry stands against a hierarchy. -/
  | violated (v : Violation)
  /-- An index is out of bounds. -/
  | outOfBounds
  /-- More rounds are needed than are granted. -/
  | outOfRounds
deriving DecidableEq, Repr

/-- The search that stops at what was found. -/
def Stop.ofFound : Option Violation → Except Stop Unit
  | some v => .error (.violated v)
  | none => .ok ()

namespace Plain

variable {α : Type}

/-- What is at an index. -/
def get (xs : Array α) (i : Nat) : Except Stop α :=
  match xs[i]? with
  | some x => .ok x
  | none => .error .outOfBounds

/-- Puts something at an index. -/
def set (xs : Array α) (i : Nat) (x : α) : Except Stop (Array α) :=
  if h : i < xs.size then .ok (xs.set i x h) else .error .outOfBounds

/-- The violation at a place in the list of a node. -/
def violation (p k : Nat) (r : Reason) : Violation := ⟨.node, some p, ["children", k], r⟩

variable (g : Graph)

/-- The node that the entry at a place names. -/
def childAt (p k : Nat) : Except Stop Nat := do
  let i ← get (← get g.children p) k
  if InRange i g.size then .ok i.toInt.toNat
  else .error (.violated (violation p k (.indexOutOfRange i g.size)))

/-- The places of the entries, node by node. -/
def places : List (Nat × Nat) :=
  g.children.toList.zipIdx.flatMap fun (cs, p) => (List.range cs.size).map fun k => (p, k)

/-- Takes down the parent of each node that is named. -/
def passParents (parents : Array (Option Nat)) : List (Nat × Nat) → Except Stop Unit
  | [] => .ok ()
  | (p, k) :: rest => do
    let c ← childAt g p k
    match ← get parents c with
    | some q => .error (.violated (violation p k (.multipleParents c q)))
    | none => passParents (← set parents c (some p)) rest

/-- The rounds of a walk, and how many of those that are granted are left when it is over. -/
def walk : Nat → Array Mark → List (Nat × Nat) → Except Stop (Nat × Array Mark)
  | rounds, marks, [] => .ok (rounds, marks)
  | 0, _, _ :: _ => .error .outOfRounds
  | rounds + 1, marks, (n, k) :: path => do
    if k = (← get g.children n).size then
      walk rounds (← set marks n .done) path
    else
      let c ← childAt g n k
      match ← get marks c with
      | .unvisited => walk rounds (← set marks c .onPath) ((c, 0) :: (n, k + 1) :: path)
      | .onPath => .error (.violated (violation n k (.cycle c)))
      | .done => walk rounds marks ((n, k + 1) :: path)

/-- The walks from nodes that were not met. -/
def walkAll (rounds : Nat) (marks : Array Mark) : List Nat → Except Stop Unit
  | [] => .ok ()
  | root :: roots => do
    if (← get marks root) = .unvisited then
      let (left, marks) ← walk g rounds (← set marks root .onPath) [(root, 0)]
      walkAll left marks roots
    else walkAll rounds marks roots

/-- Both passes. -/
def search (rounds : Nat) : Except Stop Unit := do
  passParents g (Array.replicate g.size none) (places g)
  walkAll g rounds (Array.replicate g.size .unvisited) (List.range g.size)

variable {g}

/-! ## Indices within bounds -/

/-- Within the bounds there is an element to read. -/
theorem get_of_lt {xs : Array α} {i : Nat} (h : i < xs.size) : get xs i = .ok xs[i] := by
  rw [get, Array.getElem?_eq_getElem h]

/-- Within the bounds there is an element to be replaced. -/
theorem set_of_lt {xs : Array α} {i : Nat} (h : i < xs.size) (x : α) :
    set xs i x = .ok (xs.set i x h) := dif_pos h

/-- What is said of the nodes is there at their indices. -/
theorem get_toArray {n : Nat} (v : Vector α n) (i : Fin n) : get v.toArray i = .ok (v.get i) := by
  have hi : i.val < v.toArray.size := by rw [v.size_toArray]; exact i.isLt
  rw [get_of_lt hi]
  rfl

/-- What is noted of a node is noted at its index. -/
theorem set_toArray {n : Nat} (v : Vector α n) (i : Fin n) (x : α) :
    set v.toArray i x = .ok (v.set i x i.isLt).toArray := by
  have hi : i.val < v.toArray.size := by rw [v.size_toArray]; exact i.isLt
  rw [set_of_lt hi]
  rfl

/-- The children of a node are there at its index. -/
theorem get_children (n : Fin g.size) : get g.children n = .ok (g.childrenOf n) := get_of_lt n.isLt

/-- The entry at a place that is there names what it does. -/
theorem childAt_of_some {n c : Fin g.size} {k : Nat} {i : Int64}
    (hi : (g.childrenOf n)[k]? = some i) (hc : g.node? i = some c) : childAt g n k = .ok c.val := by
  have hrange : InRange i g.size := by
    by_contra h
    rw [node?_eq_none_iff.mpr h] at hc
    contradiction
  have hval : i.toInt.toNat = c.val := by
    rw [node?_eq_some_iff.mp hc, Int.toNat_natCast]
  unfold childAt
  rw [get_children]
  simp only [bind, Except.bind, get, hi, if_pos hrange, hval]

/-- The entry at a place that names no node is refused as out of range. -/
theorem childAt_of_none {n : Fin g.size} {k : Nat} {i : Int64}
    (hi : (g.childrenOf n)[k]? = some i) (hc : g.node? i = none) :
    childAt g n k = .error (.violated (violation n k (.indexOutOfRange i g.size))) := by
  unfold childAt
  rw [get_children]
  simp only [bind, Except.bind, get, hi, if_neg (node?_eq_none_iff.mp hc)]

/-! ## The first pass -/

/-- The places that the first pass goes through are those of the entries, in order. -/
theorem places_eq (g : Graph) : places g = g.entries.map fun e => (e.parent, e.place) := by
  unfold places entries
  rw [List.map_flatMap]
  congr 1
  funext ⟨cs, p⟩
  have hrange : cs.toList.zipIdx.map Prod.snd = List.range cs.size := by
    rw [List.zipIdx_map_snd, List.range_eq_range', Array.length_toList]
  show (List.range cs.size).map (fun k => (p, k)) = _
  rw [← hrange, List.map_map, List.map_map]
  rfl

/-- The first pass stops at what is found. -/
theorem passParents_eq (parents : Vector (Option Nat) g.size) {es : List Entry}
    (hes : ∀ e ∈ es, g.Lists e) :
    passParents g parents.toArray (es.map fun e => (e.parent, e.place)) =
      Stop.ofFound (parentViolation? parents es) := by
  induction es generalizing parents with
  | nil => rfl
  | cons e es ih =>
    obtain ⟨he, hes⟩ := List.forall_mem_cons.mp hes
    obtain ⟨p, hp, hi⟩ := he.exists_parent
    rw [List.map_cons, passParents, parentViolation?, ← hp]
    cases hc : g.node? e.child with
    | none =>
      rw [childAt_of_none hi hc]
      show _ = Stop.ofFound (some (e.violation _))
      rw [Entry.violation, ← hp]
      rfl
    | some c =>
      rw [childAt_of_some hi hc]
      show (get parents.toArray c.val >>= _) = _
      rw [get_toArray]
      show (match parents.get c with | some q => _ | none => _) =
        Stop.ofFound (match parents.get c with | some q => _ | none => _)
      cases hq : parents.get c with
      | some q =>
        show _ = Stop.ofFound (some (e.violation _))
        rw [Entry.violation, ← hp]
        rfl
      | none =>
        show (set parents.toArray c.val (some p.val) >>= _) = _
        rw [set_toArray, hp]
        exact ih _ hes

/-! ## The walks -/

/-- The path of a walk by plain indices. -/
def ofPath (path : List (Fin g.size × Nat)) : List (Nat × Nat) := path.map fun e => (e.1.val, e.2)

/-- A round that reads an entry that names a node. -/
theorem walk_of_some {n c : Fin g.size} {k : Nat} {i : Int64}
    (hi : (g.childrenOf n)[k]? = some i) (hc : g.node? i = some c) (rounds : Nat)
    (marks : Vector Mark g.size) (path : List (Nat × Nat)) :
    walk g (rounds + 1) marks.toArray ((n.val, k) :: path) = match marks.get c with
      | .unvisited => walk g rounds (marks.set c .onPath c.isLt).toArray
          ((c.val, 0) :: (n.val, k + 1) :: path)
      | .onPath => .error (.violated (violation n k (.cycle c)))
      | .done => walk g rounds marks.toArray ((n.val, k + 1) :: path) := by
  have hk : k ≠ (g.childrenOf n).size := by
    obtain ⟨hlt, -⟩ := Array.getElem?_eq_some_iff.mp hi
    omega
  rw [walk, get_children]
  show (if k = (g.childrenOf n).size then _ else childAt g n.val k >>= _) = _
  rw [if_neg hk, childAt_of_some hi hc]
  show (get marks.toArray c.val >>= _) = _
  rw [get_toArray]
  cases hm : marks.get c with
  | unvisited =>
    show (set marks.toArray c.val .onPath >>= _) = _
    rw [set_toArray]
    rfl
  | onPath => rfl
  | done => rfl

/-- A round that reads an entry that names no node. -/
theorem walk_of_none {n : Fin g.size} {k : Nat} {i : Int64} (hi : (g.childrenOf n)[k]? = some i)
    (hc : g.node? i = none) (rounds : Nat) (marks : Array Mark) (path : List (Nat × Nat)) :
    walk g (rounds + 1) marks ((n.val, k) :: path) =
      .error (.violated (violation n k (.indexOutOfRange i g.size))) := by
  have hk : k ≠ (g.childrenOf n).size := by
    obtain ⟨hlt, -⟩ := Array.getElem?_eq_some_iff.mp hi
    omega
  rw [walk, get_children]
  show (if k = (g.childrenOf n).size then _ else childAt g n.val k >>= _) = _
  rw [if_neg hk, childAt_of_none hi hc]
  rfl

/-- A round that leaves a node. -/
theorem walk_of_end {n : Fin g.size} {k : Nat} (hk : k = (g.childrenOf n).size) (rounds : Nat)
    (marks : Vector Mark g.size) (path : List (Nat × Nat)) :
    walk g (rounds + 1) marks.toArray ((n.val, k) :: path) =
      walk g rounds (marks.set n .done n.isLt).toArray path := by
  rw [walk, get_children]
  show (if k = (g.childrenOf n).size then set marks.toArray n.val .done >>= _ else _) = _
  rw [if_pos hk, set_toArray]
  rfl

/-- A round goes on as a step does, if no place is past the end of its list. -/
theorem walk_of_continued {s t : Search g} (hs : s.step = .continued t)
    (hle : ∀ e ∈ s.path, e.2 ≤ (g.childrenOf e.1).size) (rounds : Nat) :
    walk g (rounds + 1) s.marks.toArray (ofPath s.path) =
      walk g rounds t.marks.toArray (ofPath t.path) := by
  cases Search.advances_of_step hs with
  | @leave n k path hpath hend =>
    rw [hpath] at hle ⊢
    -- The place is not past the end of the list, so it is the end.
    have hk : k = (g.childrenOf n).size :=
      Nat.le_antisymm (hle (n, k) List.mem_cons_self) (Array.getElem?_eq_none_iff.mp hend)
    exact walk_of_end hk rounds s.marks (ofPath path)
  | @down n c k i path hpath hi hc hm =>
    have hround := walk_of_some hi hc rounds s.marks (ofPath path)
    rw [hm] at hround
    rw [hpath]
    exact hround
  | @pass n c k i path hpath hi hc hm =>
    have hround := walk_of_some hi hc rounds s.marks (ofPath path)
    rw [hm] at hround
    rw [hpath]
    exact hround

/-- A round stops where a step does. -/
theorem walk_of_violated {s : Search g} {v : Violation} (hs : s.step = .violated v)
    (rounds : Nat) :
    walk g (rounds + 1) s.marks.toArray (ofPath s.path) = .error (.violated v) := by
  obtain ⟨n, k, path, i, hpath, hi, ⟨hnone, rfl⟩ | ⟨c, hc, hm, rfl⟩⟩ :=
    Search.cases_of_step_violated hs
  · rw [hpath]
    exact walk_of_none hi hnone rounds s.marks.toArray (ofPath path)
  · have hround := walk_of_some hi hc rounds s.marks (ofPath path)
    rw [hm] at hround
    rw [hpath]
    exact hround

/-- A walk takes as many rounds as the search counts, and stops at what is found or leaves the same
marks. -/
theorem walk_eq {s : Search g} (h : s.Sound) (spare : Nat) :
    walk g (s.rounds.length + spare) s.marks.toArray (ofPath s.path) = match s.run with
      | .ok marks => .ok (spare, marks.toArray)
      | .error v => .error (.violated v) := by
  fun_induction Search.rounds s with
  | case1 s marks hstep =>
    obtain ⟨hpath, hmarks⟩ := Search.path_eq_nil_of_step hstep
    rw [Search.run_eq, hstep, hpath, hmarks, List.length_nil, Nat.zero_add]
    show walk g spare marks.toArray [] = .ok (spare, marks.toArray)
    rw [walk]
  | case2 s v hstep =>
    rw [Search.run_eq, hstep, List.length_singleton, Nat.add_comm]
    exact walk_of_violated hstep spare
  | case3 s t hstep ih =>
    rw [Search.run_eq, hstep, List.length_cons, Nat.add_right_comm,
      walk_of_continued hstep h.trail.place_le]
    exact ih (h.step hstep)

/-- From a node that was not met there is a walk, and then those from the other nodes. -/
theorem walkAll_of_unvisited {marks : Vector Mark g.size} {root : Fin g.size}
    (hroot : marks.get root = .unvisited) (rounds : Nat) (roots : List Nat) :
    walkAll g rounds marks.toArray (root.val :: roots) =
      walk g rounds (Search.start marks root).marks.toArray
        (ofPath (Search.start marks root).path) >>= fun (left, after) =>
          walkAll g left after roots := by
  rw [walkAll, get_toArray]
  show (if marks.get root = .unvisited then set marks.toArray root.val .onPath >>= _ else _) = _
  rw [if_pos hroot, set_toArray]
  rfl

/-- A node that was met is passed over. -/
theorem walkAll_of_met {marks : Vector Mark g.size} {root : Fin g.size}
    (hroot : marks.get root ≠ .unvisited) (rounds : Nat) (roots : List Nat) :
    walkAll g rounds marks.toArray (root.val :: roots) =
      walkAll g rounds marks.toArray roots := by
  rw [walkAll, get_toArray]
  show (if marks.get root = .unvisited then _ else walkAll g rounds marks.toArray roots) = _
  rw [if_neg hroot]

/-- The walks one after the other take as many rounds as the search counts. -/
theorem walkAll_eq {marks : Vector Mark g.size} (h : Search.Sound ⟨marks, []⟩)
    (roots : List (Fin g.size)) (spare : Nat) :
    walkAll g (((walks marks roots).flatMap Search.rounds).length + spare) marks.toArray
        (roots.map Fin.val) = Stop.ofFound (cycleViolation? marks roots) := by
  induction roots generalizing marks with
  | nil => rfl
  | cons root roots ih =>
    rw [List.map_cons, walks, cycleViolation?]
    by_cases hroot : marks.get root = .unvisited
    · have hunmet : marks[root] = .unvisited := hroot
      have hsound : (Search.start marks root).Sound := h.walk root
      rw [walkAll_of_unvisited hroot, if_pos hroot, if_pos hunmet]
      cases hrun : (Search.start marks root).run with
      | ok left =>
        have hwalk := walk_eq hsound (((walks left roots).flatMap Search.rounds).length + spare)
        rw [hrun] at hwalk
        have hrun' : Search.run ⟨marks.set root .onPath root.isLt, [(root, 0)]⟩ = .ok left := hrun
        simp only [List.flatMap_cons, List.length_append, Nat.add_assoc, hwalk, hrun']
        exact ih (h.walk_ok hrun).1
      | error v =>
        have hwalk := walk_eq hsound spare
        rw [hrun] at hwalk
        have hrun' : Search.run ⟨marks.set root .onPath root.isLt, [(root, 0)]⟩ = .error v := hrun
        simp only [List.flatMap_singleton, hwalk, hrun']
        rfl
    · have hmet : ¬ marks[root] = .unvisited := hroot
      rw [walkAll_of_met hroot, if_neg hroot, if_neg hmet]
      exact ih h

/-- With as many rounds as there are nodes and entries, the search stops at what is found. -/
theorem search_eq (g : Graph) :
    search g (g.size + g.mentions.length) = Stop.ofFound g.violation? := by
  have hlists : ∀ e ∈ g.entries, g.Lists e := fun e he => mem_entries_iff.mp he
  have hparents := passParents_eq (.replicate g.size none) hlists
  have hroots : List.range g.size = (List.finRange g.size).map Fin.val :=
    List.map_coe_finRange_eq_range.symm
  obtain ⟨spare, hspare⟩ := Nat.exists_eq_add_of_le (length_rounds_le g)
  have hwalks := walkAll_eq sound_unvisited (List.finRange g.size) spare
  rw [Vector.toArray_replicate] at hparents hwalks
  unfold search violation?
  rw [places_eq, hparents, hroots, hspare]
  cases parentViolation? (.replicate g.size none) g.entries with
  | some v => rfl
  | none => exact hwalks

end Plain

/-- The search ends in bounds, on every graph. No node is put on the path twice and no entry is read
twice, so that there are no more rounds than nodes and entries; at the start of each round, the path
is one way down, its nodes are those that are marked so, and no place on it is past the end of its
list. By plain indices and with so many rounds, the search runs out of neither and stops at what is
found. -/
theorem search_ends_in_bounds (g : Graph) :
    g.pushed.Nodup ∧ g.entriesRead.Nodup ∧ g.rounds.length ≤ g.size + g.mentions.length ∧
      (∀ s ∈ g.rounds, s.InOrder) ∧
      Plain.search g (g.size + g.mentions.length) = Stop.ofFound g.violation? :=
  ⟨nodup_pushed g, nodup_entriesRead g, length_rounds_le g,
    fun _ hs => (sound_of_mem_rounds hs).inOrder, Plain.search_eq g⟩

end GltfAsset.Check.Graph
