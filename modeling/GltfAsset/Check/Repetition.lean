import Std.Data.TreeSet

/-!
# Repetition in lists

`markRepeated` marks the elements of a list that occur before in it. `markRepeated_eq` says so in
terms of the part of the list before each element; the set of the elements before is only kept so
that a long list is read once.
-/

namespace GltfAsset.Check

variable {α : Type} [Ord α]

/-- The elements of a list, each with whether an equal one stands before it. -/
def markRepeated (xs : List α) : List (α × Bool) :=
  (xs.foldl step (#[], ∅)).1.toList
where
  /-- Marks one element more, given those before it with their marks and as a set. -/
  step : Array (α × Bool) × Std.TreeSet α → α → Array (α × Bool) × Std.TreeSet α
    | (marked, earlier), x => (marked.push (x, earlier.contains x), earlier.insert x)

variable [Std.TransOrd α] [Std.LawfulEqOrd α] [BEq α] [LawfulBEq α]

/-- Marking goes on in the same way after elements that were marked. -/
theorem foldl_step_eq (before : List α) (marked : Array (α × Bool)) (earlier : Std.TreeSet α)
    (h : ∀ x, earlier.contains x = before.contains x) (xs : List α) :
    (xs.foldl markRepeated.step (marked, earlier)).1.toList = marked.toList ++
      (xs.zipIdx before.length).map fun (x, k) => (x, ((before ++ xs).take k).contains x) := by
  induction xs generalizing before marked earlier with
  | nil => simp
  | cons x xs ih =>
    have hx : ∀ y, (earlier.insert x).contains y = (before ++ [x]).contains y := by
      intro y
      rw [Std.TreeSet.contains_insert, h, Bool.eq_iff_iff]
      simp only [Bool.or_eq_true, beq_iff_eq, Std.LawfulEqCmp.compare_eq_iff_eq,
        List.contains_iff_mem, List.mem_append, List.mem_singleton]
      exact Or.comm.trans (or_congr_right eq_comm)
    rw [List.foldl_cons, markRepeated.step, ih (before ++ [x]) _ _ hx]
    simp [h]

/-- An element is marked exactly if it occurs in the part of the list before it. -/
theorem markRepeated_eq (xs : List α) :
    markRepeated xs = xs.zipIdx.map fun (x, k) => (x, (xs.take k).contains x) := by
  simpa [markRepeated] using foldl_step_eq (α := α) [] #[] ∅ (by simp) xs

end GltfAsset.Check
