import GltfAsset.Check.Rule

/-!
# The graph of the nodes

The nodes of a document form a hierarchy if every entry of every list of children names a node, no
node is named twice, and no node is below itself. `Graph.violation?` finds the first entry that
stands against this. It first reads the entries in order and keeps the parent of each node; it then
walks from every node that was not yet met down to all below it and keeps the nodes between the
start and the place where it is. Meeting one of these again closes a cycle.

A walk is a sequence of steps between states, and `Search.work` counts the steps that may still
come, so every walk ends.
-/

namespace GltfAsset.Check

/-- The lists of children of the nodes of a document. -/
structure Graph where
  /-- The children of each node, as they are written. -/
  children : Array (Array Int64)

namespace Graph

/-- The number of nodes. -/
def size (g : Graph) : Nat := g.children.size

/-- The children of a node. -/
def childrenOf (g : Graph) (n : Fin g.size) : Array Int64 :=
  have h : n.val < g.children.size := n.isLt
  g.children[n.val]

/-- The node that an entry names, if it names one. -/
def node? (g : Graph) (i : Int64) : Option (Fin g.size) :=
  if h : InRange i g.size then some ⟨i.toInt.toNat, by unfold InRange at h; omega⟩ else none

/-- One entry of a list of children. -/
structure Entry where
  /-- The node that has the list. -/
  parent : Nat
  /-- The place in the list. -/
  place : Nat
  /-- What is written there. -/
  child : Int64
deriving DecidableEq, Repr

/-- The violation at an entry. -/
def Entry.violation (e : Entry) (r : Reason) : Violation :=
  ⟨.node, some e.parent, ["children", e.place], r⟩

/-- All entries, those of one node after those of the node before. -/
def entries (g : Graph) : List Entry :=
  g.children.toList.zipIdx.flatMap fun (cs, p) =>
    cs.toList.zipIdx.map fun (i, k) => ⟨p, k, i⟩

variable {g : Graph}

/-! ### Parents -/

/-- The first of the entries that names no node or a node that has a parent already, given the
parents from the entries before. -/
def parentViolation? (parents : Vector (Option Nat) g.size) : List Entry → Option Violation
  | [] => none
  | e :: es =>
    match g.node? e.child with
    | none => some (e.violation (.indexOutOfRange e.child g.size))
    | some c =>
      match parents[c] with
      | some p => some (e.violation (.multipleParents c p))
      | none => parentViolation? (parents.set c (some e.parent)) es

/-! ### Cycles -/

/-- What is known about a node in a walk. -/
inductive Mark where
  /-- It was not met yet. -/
  | unvisited
  /-- It is between the start of the walk and the place where the walk is. -/
  | onPath
  /-- It was left, with all nodes below it. -/
  | done
deriving DecidableEq, Repr

/-- A state of a walk. -/
structure Search (g : Graph) where
  /-- The marks of the nodes. -/
  marks : Vector Mark g.size
  /-- The nodes from the place of the walk back to its start, each with the number of its entries
  that were read. -/
  path : List (Fin g.size × Nat)

/-- What a step of a walk leads to. -/
inductive Outcome (g : Graph) where
  /-- The walk is over and leaves these marks. -/
  | finished (marks : Vector Mark g.size)
  /-- An entry stands against a hierarchy. -/
  | violated (v : Violation)
  /-- The walk goes on from here. -/
  | continued (s : Search g)

namespace Search

/-- One step. At the last node of the path, the next entry is read, and the walk goes down to the
node that it names if that was not met yet; if there is no next entry, the node is left. -/
def step (s : Search g) : Outcome g :=
  match s.path with
  | [] => .finished s.marks
  | (n, k) :: path =>
    match (g.childrenOf n)[k]? with
    | none => .continued ⟨s.marks.set n .done, path⟩
    | some i =>
      match g.node? i with
      | none => .violated (Entry.violation ⟨n, k, i⟩ (.indexOutOfRange i g.size))
      | some c =>
        match s.marks[c] with
        | .unvisited => .continued ⟨s.marks.set c .onPath, (c, 0) :: (n, k + 1) :: path⟩
        | .onPath => .violated (Entry.violation ⟨n, k, i⟩ (.cycle c))
        | .done => .continued ⟨s.marks, (n, k + 1) :: path⟩

/-- The number of steps that a node on the path may still cause: one for each entry that was not
read, and one to leave it. -/
def pending (g : Graph) (n : Fin g.size) (k : Nat) : Nat := (g.childrenOf n).size - k + 1

/-- The steps that a node may still cause if it was not met yet. -/
def unmet (marks : Vector Mark g.size) (n : Fin g.size) : Nat :=
  if marks[n] = .unvisited then pending g n 0 else 0

/-- The sum of the numbers in a list. -/
def total (ns : List Nat) : Nat := ns.foldr (· + ·) 0

/-- The total of a list is that of its first number and of the others. -/
theorem total_cons (n : Nat) (ns : List Nat) : total (n :: ns) = n + total ns := rfl

/-- The number of steps that may still come. -/
def work (s : Search g) : Nat :=
  total (s.path.map fun e => pending g e.1 e.2) +
    total ((List.finRange g.size).map (unmet s.marks))

/-- Sums of two functions that differ at one place only. -/
theorem total_map_add_eq {n : Nat} (f h : Fin n → Nat) (c : Fin n) (heq : ∀ i ≠ c, f i = h i)
    (l : List (Fin n)) (hl : l.Nodup) (hc : c ∈ l) :
    total (l.map f) + h c = total (l.map h) + f c := by
  induction l with
  | nil => simp at hc
  | cons i l ih =>
    obtain ⟨hi, hl⟩ := List.nodup_cons.1 hl
    simp only [List.map_cons, total_cons]
    by_cases hic : i = c
    · subst hic
      have : l.map f = l.map h := List.map_congr_left fun j hj => heq j (by rintro rfl; exact hi hj)
      rw [this]
      omega
    · have := ih hl (by simpa [Ne.symm hic] using hc)
      have := heq i hic
      omega

/-- Marking a node that was not met takes away the steps that it may cause. -/
theorem total_unmet_set (marks : Vector Mark g.size) (c : Fin g.size) (m : Mark)
    (hm : m ≠ .unvisited) :
    total ((List.finRange g.size).map (unmet (marks.set c m c.isLt))) + unmet marks c =
      total ((List.finRange g.size).map (unmet marks)) := by
  have := total_map_add_eq (unmet (marks.set c m c.isLt)) (unmet marks) c
    (fun i hi => by
      have : c.val ≠ i.val := fun h => hi (Fin.ext h.symm)
      simp [unmet, this])
    _ (List.nodup_finRange g.size) (List.mem_finRange c)
  simpa [unmet, hm] using this

/-- A step takes away work. -/
theorem work_lt_of_step {s t : Search g} (h : s.step = .continued t) : t.work < s.work := by
  unfold step at h
  repeat' split at h
  all_goals simp at h
  all_goals subst h
  all_goals simp only [work, *, List.map_cons, total_cons]
  -- the last node of the path is left
  · rename_i n k path _ _ _
    have := total_unmet_set s.marks n .done (by decide)
    simp only [pending]
    omega
  -- the walk goes down to a node that it had not met
  · rename_i n k path _ _ i hi _ c _ _ hm
    have := total_unmet_set s.marks c .onPath (by decide)
    have hk : k < (g.childrenOf n).size := by
      obtain ⟨hk, _⟩ := Array.getElem?_eq_some_iff.1 hi
      exact hk
    have hc : unmet s.marks c = pending g c 0 := by simp [unmet, hm]
    simp only [pending] at *
    omega
  -- the entry names a node that was left before
  · rename_i n k path _ _ i hi _ c _ _ hm
    have hk : k < (g.childrenOf n).size := by
      obtain ⟨hk, _⟩ := Array.getElem?_eq_some_iff.1 hi
      exact hk
    simp only [pending]
    omega

/-- All steps of a walk: the marks that it leaves, or the entry that closes a cycle. -/
def run (s : Search g) : Except Violation (Vector Mark g.size) :=
  match _h : s.step with
  | .finished marks => .ok marks
  | .violated v => .error v
  | .continued t => run t
termination_by s.work
decreasing_by exact work_lt_of_step _h

end Search

/-- The entry that closes a cycle in the walks from the given nodes, one after the other; nodes that
were met before are passed over. -/
def cycleViolation? (marks : Vector Mark g.size) : List (Fin g.size) → Option Violation
  | [] => none
  | root :: roots =>
    if marks[root] = .unvisited then
      match Search.run ⟨marks.set root .onPath, [(root, 0)]⟩ with
      | .ok marks => cycleViolation? marks roots
      | .error v => some v
    else cycleViolation? marks roots

/-- The first entry that keeps the nodes from forming a hierarchy. -/
def violation? (g : Graph) : Option Violation :=
  (parentViolation? (.replicate g.size none) g.entries).or
    (cycleViolation? (.replicate g.size .unvisited) (List.finRange g.size))

end Graph

end GltfAsset.Check
