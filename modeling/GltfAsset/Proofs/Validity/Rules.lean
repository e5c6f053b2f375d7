import Mathlib.Data.List.Nodup
import GltfAsset.Proofs.Validity.Valid

/-!
# What lists of rules say

One lemma for each way to make a list of rules: what it means that all of them hold, in terms of the
values that are ruled and not of the rules. The rules of an entity are put together from these, so
what they say is found by rewriting.
-/

namespace GltfAsset.Check

/-- The element that is looked up is the one that the index names. -/
theorem lookup?_eq_some_iff {α : Type} {xs : Array α} {i : Int64} {x : α} :
    lookup? xs i = some x ↔ Names xs i x := by
  unfold lookup? Names
  split
  · rename_i h
    obtain ⟨h0, hn⟩ := h
    constructor
    · intro hx
      exact ⟨i.toInt.toNat, by omega, hx⟩
    · rintro ⟨k, hk, hx⟩
      rw [hk, Int.toNat_natCast]
      exact hx
  · rename_i h
    constructor
    · intro hx
      contradiction
    · rintro ⟨k, hk, hx⟩
      obtain ⟨hlt, -⟩ := Array.getElem?_eq_some_iff.mp hx
      exact absurd ⟨by omega, by omega⟩ h

/-- An index is in range exactly if it names something. -/
theorem inRange_iff_exists_names {α : Type} {xs : Array α} {i : Int64} :
    InRange i xs.size ↔ ∃ x, Names xs i x := by
  constructor
  · rintro ⟨h0, hn⟩
    have hlt : i.toInt.toNat < xs.size := by omega
    exact ⟨xs[i.toInt.toNat], i.toInt.toNat, by omega, Array.getElem?_eq_getElem hlt⟩
  · rintro ⟨x, k, hk, hx⟩
    obtain ⟨hlt, -⟩ := Array.getElem?_eq_some_iff.mp hx
    exact ⟨by omega, by omega⟩

/-- An index names one entity at most. -/
theorem Names.unique {α : Type} {xs : Array α} {i : Int64} {x y : α} (hx : Names xs i x)
    (hy : Names xs i y) : x = y := by
  rw [← lookup?_eq_some_iff] at hx hy
  exact Option.some.inj (hx.symm.trans hy)

/-! ## Codes and names -/

/-- A number stands for something exactly if it is one of the codes. -/
theorem isSome_ofCode?_iff {α : Type} [Coded α] {n : Int64} :
    (Coded.ofCode? α n).isSome ↔ n ∈ (Coded.all : List α).map Coded.code := by
  rw [Coded.ofCode?, List.find?_isSome, List.mem_map]
  simp only [decide_eq_true_eq]

/-- A word stands for something exactly if it is one of the names. -/
theorem isSome_ofName?_iff {α : Type} [Named α] {s : String} :
    (Named.ofName? α s).isSome ↔ s ∈ (Named.all : List α).map Named.name := by
  rw [Named.ofName?, List.find?_isSome, List.mem_map]
  simp only [decide_eq_true_eq]

/-- What a number stands for has this number. -/
theorem code_of_ofCode?_eq_some {α : Type} [Coded α] {n : Int64} {x : α}
    (h : Coded.ofCode? α n = some x) : Coded.code x = n := by
  simpa using List.find?_some h

/-- What a word stands for has this word. -/
theorem name_of_ofName?_eq_some {α : Type} [Named α] {s : String} {x : α}
    (h : Named.ofName? α s = some x) : Named.name x = s := by
  simpa using List.find?_some h

/-! ## Repetition -/

section Repetition

variable {α : Type} [Ord α] [Std.TransOrd α] [Std.LawfulEqOrd α] [BEq α] [LawfulBEq α]

/-- No element of a list is marked as one that occurs before exactly if the elements are
distinct. -/
theorem forall_markRepeated_iff_nodup {xs : List α} :
    (∀ p ∈ markRepeated xs, p.2 = false) ↔ xs.Nodup := by
  rw [markRepeated_eq, List.nodup_iff_pairwise_ne, List.pairwise_iff_getElem]
  simp only [List.forall_mem_map, List.contains_eq_mem, decide_eq_false_iff_not]
  constructor
  · -- Of two equal elements the later one is marked.
    intro h i j hi hj hij heq
    refine h (xs[j], j) (List.mk_mem_zipIdx_iff_getElem?.mpr (List.getElem?_eq_getElem hj)) ?_
    rw [← heq]
    exact List.mem_take_iff_getElem.mpr ⟨i, by omega, rfl⟩
  · rintro h ⟨x, k⟩ hx hmem
    obtain ⟨hk, rfl⟩ := List.getElem?_eq_some_iff.mp (List.mk_mem_zipIdx_iff_getElem?.mp hx)
    obtain ⟨i, hi, heq⟩ := List.mem_take_iff_getElem.mp hmem
    exact h i k (by omega) hk (by omega) heq

/-- Marking keeps the elements. -/
theorem map_fst_markRepeated (xs : List α) : (markRepeated xs).map Prod.fst = xs := by
  rw [markRepeated_eq, List.map_map]
  exact List.zipIdx_map_fst 0 xs

end Repetition

namespace Rule

/-- All rules of a list hold. -/
def All (rs : List Rule) : Prop := ∀ r ∈ rs, r.holds

/-- Without rules nothing is asked. -/
theorem all_nil : All [] := by simp [All]

/-- A list of rules holds if its first rule and the others do. -/
theorem all_cons {r : Rule} {rs : List Rule} : All (r :: rs) ↔ r.holds ∧ All rs :=
  List.forall_mem_cons

/-- Two lists of rules hold together if each of them does. -/
theorem all_append {rs ss : List Rule} : All (rs ++ ss) ↔ All rs ∧ All ss :=
  List.forall_mem_append

/-- Rules that are made of the elements of a list hold if they hold of each. -/
theorem all_map {α : Type} {rule : α → Rule} {xs : List α} :
    All (xs.map rule) ↔ ∀ x ∈ xs, (rule x).holds := List.forall_mem_map

/-- The way to an entity does not matter to what it has to satisfy. -/
theorem all_map_within {way : Field} {rs : List Rule} : All (rs.map (within way)) ↔ All rs :=
  all_map

/-- A rule of any kind holds if what it needs is so. -/
theorem holds_need {p : Prop} [Decidable p] {field : Field} {reason : Reason} :
    (need p field reason).holds ↔ p := Iff.rfl

/-- An index has to be in range. -/
theorem holds_index {field : Field} {i : Int64} {n : Nat} :
    (index field i n).holds ↔ InRange i n := Iff.rfl

/-- An integer has to fulfil what is asked of it. -/
theorem holds_integer {p : Int → Prop} [DecidablePred p] {field : Field} {n : Int64} :
    (integer p field n).holds ↔ p n.toInt := Iff.rfl

/-- An integer must not be negative. -/
theorem holds_nonNegative {field : Field} {n : Int64} :
    (nonNegative field n).holds ↔ 0 ≤ n.toInt := Iff.rfl

/-- An integer has to be positive. -/
theorem holds_atLeastOne {field : Field} {n : Int64} :
    (atLeastOne field n).holds ↔ 1 ≤ n.toInt := Iff.rfl

/-- A float has to fulfil what is asked of it. -/
theorem holds_float {p : Single → Prop} [DecidablePred p] {field : Field} {x : Single} :
    (float p field x).holds ↔ p x := Iff.rfl

/-- A float has to be a fraction. -/
theorem holds_unitInterval {field : Field} {x : Single} :
    (unitInterval field x).holds ↔ IsFraction x := Iff.rfl

/-- A float has to be positive. -/
theorem holds_positive {field : Field} {x : Single} : (positive field x).holds ↔ 0 < x := Iff.rfl

/-- An integer has to be one of the codes. -/
theorem holds_coded {α : Type} [Coded α] {field : Field} {n : Int64} :
    (coded α field n).holds ↔ n ∈ (Coded.all : List α).map Coded.code := isSome_ofCode?_iff

/-- An integer has to be one of the codes, or zero. -/
theorem holds_codedOrZero {α : Type} [Coded α] {field : Field} {n : Int64} :
    (codedOrZero α field n).holds ↔ n ∈ 0 :: (Coded.all : List α).map Coded.code := by
  rw [List.mem_cons]
  exact or_congr_right isSome_ofCode?_iff

/-- A string has to be one of the names. -/
theorem holds_named {α : Type} [Named α] {field : Field} {s : String} :
    (named α field s).holds ↔ s ∈ (Named.all : List α).map Named.name := isSome_ofName?_iff

/-- A list must not be empty. -/
theorem holds_nonempty {α : Type} {field : Field} {xs : List α} :
    (nonempty field xs).holds ↔ xs ≠ [] := List.isEmpty_eq_false_iff

/-- What is asked of the rules for a member that may be absent. -/
theorem forall_mem_ifGiven {α : Type} {Q : Rule → Prop} {x : Option α} {rules : α → List Rule} :
    (∀ r ∈ ifGiven x rules, Q r) ↔ ∀ a ∈ x, ∀ r ∈ rules a, Q r := by
  cases x with
  | none => simp [ifGiven]
  | some a => simp [ifGiven]

/-- What is asked of the rules for the elements of a list, whatever the way to them is. -/
theorem forall_mem_each {α : Type} {Q : Rule → Prop} (hQ : ∀ way r, Q (within way r) ↔ Q r)
    {field : Field} {xs : List α} {rules : α → List Rule} :
    (∀ r ∈ each field xs rules, Q r) ↔ ∀ x ∈ xs, ∀ r ∈ rules x, Q r := by
  -- The place of an element is only part of the way to it.
  have hall : (∀ r ∈ each field xs rules, Q r) ↔ ∀ p ∈ xs.zipIdx, ∀ r ∈ rules p.1, Q r := by
    unfold each
    rw [List.forall_mem_flatMap]
    simp only [List.forall_mem_map, hQ]
  rw [hall, ← List.forall_mem_map (f := Prod.fst) (P := fun x => ∀ r ∈ rules x, Q r),
    List.zipIdx_map_fst]

/-- The rules of a value that may be absent hold if they do where it is there. -/
theorem all_ifGiven {α : Type} {x : Option α} {rules : α → List Rule} :
    All (ifGiven x rules) ↔ ∀ a ∈ x, All (rules a) := forall_mem_ifGiven

/-- The rules of the elements of a list hold if they do of each. -/
theorem all_each {α : Type} {field : Field} {xs : List α} {rules : α → List Rule} :
    All (each field xs rules) ↔ ∀ x ∈ xs, All (rules x) := forall_mem_each fun _ _ => Iff.rfl

/-- The rules of a list of indices hold exactly if these are in range and distinct. -/
theorem all_indices {field : Field} {is : List Int64} {n : Nat} :
    All (indices field is n) ↔ AllDistinct is n := by
  -- An index has two rules: that it is in range, and that it does not occur before.
  have hall : All (indices field is n) ↔
      ∀ p ∈ (markRepeated is).zipIdx.map Prod.fst, InRange p.1 n ∧ p.2 = false := by
    unfold indices All
    rw [List.forall_mem_flatMap, List.forall_mem_map]
    refine forall₂_congr fun p _ => ?_
    rw [List.forall_mem_cons, List.forall_mem_singleton]
    rfl
  have hrange : (∀ p ∈ markRepeated is, InRange p.1 n) ↔ ∀ i ∈ is, InRange i n := by
    conv_rhs => rw [← map_fst_markRepeated is, List.forall_mem_map]
  rw [hall, List.zipIdx_map_fst, AllDistinct, ← forall_markRepeated_iff_nodup, ← hrange]
  exact forall₂_and

end Rule

end GltfAsset.Check
