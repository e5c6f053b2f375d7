import GltfAsset.Proofs.Hierarchy.Search

/-!
# What is reported of a graph

`Graph.violation?` reports an entry of a list of children, and why it stands against a hierarchy: it
names no node, or a node that an entry before it names, or it closes a cycle
(`exists_of_violation?`). If the lists were looked at one by one before, so that their entries name
nodes and each of them is without repetition, then an entry is never reported for naming no node;
and one that names a second parent stands in the list of a node after the first parent
(`reported_of_listed`).
-/

namespace GltfAsset.Check.Graph

variable {g : Graph}

/-! ## Entries -/

/-- An entry stands in the lists of children. -/
def Lists (g : Graph) (e : Entry) : Prop :=
  ∃ cs, g.children[e.parent]? = some cs ∧ cs[e.place]? = some e.child

/-- An entry comes before another one: in the list of an earlier node, or before it in the same
list. -/
def Entry.Before (e e' : Entry) : Prop :=
  e.parent < e'.parent ∨ e.parent = e'.parent ∧ e.place < e'.place

/-- Of two entries, not both come before the other. -/
theorem Entry.Before.asymm {e e' : Entry} (h : e.Before e') : ¬ e'.Before e := by
  unfold Entry.Before at *
  omega

/-- The entries are what the children lists say. -/
theorem mem_entries_iff {e : Entry} : e ∈ g.entries ↔ g.Lists e := by
  rw [entries, List.mem_flatMap]
  constructor
  · rintro ⟨⟨cs, p⟩, hcs, he⟩
    obtain ⟨⟨i, k⟩, hi, rfl⟩ := List.mem_map.mp he
    rw [List.mk_mem_zipIdx_iff_getElem?, Array.getElem?_toList] at hcs hi
    exact ⟨cs, hcs, hi⟩
  · rintro ⟨cs, hcs, hi⟩
    rw [← Array.getElem?_toList, ← List.mk_mem_zipIdx_iff_getElem?] at hcs hi
    exact ⟨(cs, e.parent), hcs, List.mem_map.mpr ⟨(e.child, e.place), hi, rfl⟩⟩

/-- The entries of a node are those in its list. -/
theorem lists_of_childrenOf {n : Fin g.size} {k : Nat} {i : Int64}
    (hi : (g.childrenOf n)[k]? = some i) : g.Lists ⟨n, k, i⟩ :=
  ⟨g.childrenOf n, Array.getElem?_eq_getElem n.isLt, hi⟩

/-- An entry stands in the list of a node. -/
theorem Lists.exists_parent {e : Entry} (h : g.Lists e) :
    ∃ p : Fin g.size, p.val = e.parent ∧ (g.childrenOf p)[e.place]? = some e.child := by
  obtain ⟨cs, hcs, hi⟩ := h
  obtain ⟨hlt, rfl⟩ := Array.getElem?_eq_some_iff.mp hcs
  exact ⟨⟨e.parent, hlt⟩, rfl, hi⟩

/-- What an entry holds is one of the things that are written in the lists. -/
theorem Lists.child_mem {e : Entry} (h : g.Lists e) : e.child ∈ g.mentions := by
  rw [← map_child_entries]
  exact List.mem_map_of_mem (mem_entries_iff.mpr h)

/-- The entries stand in order. -/
theorem pairwise_entries (g : Graph) : g.entries.Pairwise Entry.Before := by
  have hlt : ∀ {α : Type} (xs : List α), xs.zipIdx.Pairwise fun a b => a.2 < b.2 := by
    intro α xs
    rw [← List.pairwise_map (f := Prod.snd) (R := (· < ·)), List.zipIdx_map_snd]
    exact List.pairwise_lt_range'
  rw [entries, List.pairwise_flatMap]
  constructor
  · -- In one list.
    rintro ⟨cs, p⟩ -
    rw [List.pairwise_map]
    exact (hlt cs.toList).imp fun hab => .inr ⟨rfl, hab⟩
  · -- In the lists of two nodes.
    refine (hlt g.children.toList).imp fun {a b} hab e he e' he' => ?_
    obtain ⟨i, -, rfl⟩ := List.mem_map.mp he
    obtain ⟨j, -, rfl⟩ := List.mem_map.mp he'
    exact .inl hab

/-- So those before an entry are the ones that stand before it. -/
theorem mem_of_entries_eq {before after : List Entry} {e : Entry}
    (h : g.entries = before ++ e :: after) (e' : Entry) :
    e' ∈ before ↔ g.Lists e' ∧ e'.Before e := by
  have hsorted := pairwise_entries g
  rw [h, List.pairwise_append] at hsorted
  obtain ⟨-, hrest, hacross⟩ := hsorted
  rw [← mem_entries_iff, h, List.mem_append]
  constructor
  · intro he'
    exact ⟨.inl he', hacross e' he' e List.mem_cons_self⟩
  · rintro ⟨he' | he', hbefore⟩
    · exact he'
    · -- The entries from the reported one on do not stand before it.
      rcases List.mem_cons.mp he' with rfl | he'
      · exact absurd hbefore hbefore.asymm
      · exact absurd hbefore (List.rel_of_pairwise_cons hrest he').asymm

/-! ## Parents -/

/-- After entries in which the first pass finds nothing, it goes on with the parents that these
entries give. -/
theorem exists_parents_of_passed {parents : Vector (Option Nat) g.size} {es : List Entry}
    (h : parentViolation? parents es = none) :
    ∃ parents' : Vector (Option Nat) g.size,
      (∀ rest, parentViolation? parents (es ++ rest) = parentViolation? parents' rest) ∧
      ∀ c p, parents'.get c = some p ↔
        parents.get c = some p ∨ ∃ e ∈ es, g.node? e.child = some c ∧ e.parent = p := by
  induction es generalizing parents with
  | nil => exact ⟨parents, fun _ => rfl, by simp⟩
  | cons e es ih =>
    rw [parentViolation?] at h
    split at h
    · contradiction
    rename_i c hc
    split at h
    · contradiction
    rename_i hp
    have hnone : parents.get c = none := hp
    obtain ⟨parents', hrest, hget⟩ := ih h
    refine ⟨parents', fun rest => ?_, fun c' p => ?_⟩
    · rw [List.cons_append, parentViolation?]
      simp only [hc, hp]
      exact hrest rest
    · rw [hget, get_set, List.exists_mem_cons_iff, hc, Option.some.injEq, ← or_assoc]
      refine or_congr_left ?_
      by_cases hcc : c = c'
      · -- The node had no parent, and the entry gives it one.
        subst hcc
        rw [if_pos rfl, hnone, Option.some.injEq]
        simp
      · rw [if_neg hcc]
        simp [hcc]

/-- The first pass stops at the first entry in which it finds something. -/
theorem exists_of_parentViolation? {parents : Vector (Option Nat) g.size} {es : List Entry}
    {v : Violation} (h : parentViolation? parents es = some v) :
    ∃ before e after, es = before ++ e :: after ∧ parentViolation? parents before = none ∧
      parentViolation? parents (before ++ [e]) = some v := by
  induction es generalizing parents with
  | nil => contradiction
  | cons e es ih =>
    rw [parentViolation?] at h
    split at h
    · rename_i hnone
      refine ⟨[], e, es, rfl, rfl, ?_⟩
      rw [List.nil_append, parentViolation?]
      simp only [hnone]
      exact h
    rename_i c hc
    split at h
    · rename_i p hp
      refine ⟨[], e, es, rfl, rfl, ?_⟩
      rw [List.nil_append, parentViolation?]
      simp only [hc, hp]
      exact h
    · -- The entry is passed, and is one of those before the one that is reported.
      rename_i hp
      obtain ⟨before, e', after, rfl, hbefore, hv⟩ := ih h
      refine ⟨e :: before, e', after, rfl, ?_, ?_⟩
      · rw [parentViolation?]
        simp only [hc, hp]
        exact hbefore
      · rw [List.cons_append, parentViolation?]
        simp only [hc, hp]
        exact hv

/-- Why an entry is reported. -/
inductive Said (g : Graph) (e : Entry) : Reason → Prop
  /-- It names no node. -/
  | unnamed (h : g.node? e.child = none) : Said g e (.indexOutOfRange e.child g.size)
  /-- It names a node that an entry before it names. -/
  | named {c : Fin g.size} {e' : Entry} (hc : g.node? e.child = some c) (he' : g.Lists e')
      (hbefore : e'.Before e) (hc' : g.node? e'.child = some c) :
      Said g e (.multipleParents c e'.parent)
  /-- It closes a cycle. -/
  | cycle {c : Fin g.size} (hc : g.node? e.child = some c) : Said g e (.cycle c)

/-- The first pass reports an entry that names no node, or one that an entry before it names, and in
the entries before it finds nothing. -/
theorem said_of_parentViolation? {v : Violation}
    (h : parentViolation? (.replicate g.size none) g.entries = some v) :
    ∃ before e after r, g.entries = before ++ e :: after ∧
      parentViolation? (.replicate g.size none) before = none ∧ v = e.violation r ∧ g.Said e r ∧
      ∀ n, r ≠ .cycle n := by
  obtain ⟨before, e, after, hes, hbefore, hv⟩ := exists_of_parentViolation? h
  obtain ⟨parents, hrest, hget⟩ := exists_parents_of_passed hbefore
  rw [hrest, parentViolation?] at hv
  split at hv
  · rename_i hnone
    obtain rfl := Option.some.inj hv
    refine ⟨before, e, after, _, hes, hbefore, rfl, .unnamed hnone, ?_⟩
    rintro n ⟨⟩
  rename_i c hc
  split at hv
  · -- The parent of the node is the one that an entry before gave to it.
    rename_i p hp
    obtain rfl := Option.some.inj hv
    rcases (hget c p).mp hp with hfirst | ⟨e', he', hc', rfl⟩
    · rw [get_replicate] at hfirst
      contradiction
    · obtain ⟨hlists, hlt⟩ := (mem_of_entries_eq hes e').mp he'
      refine ⟨before, e, after, _, hes, hbefore, rfl, .named hc hlists hlt hc', ?_⟩
      rintro n ⟨⟩
  · contradiction

/-! ## Cycles -/

/-- A walk reports an entry that names no node, or one that closes a cycle. -/
theorem Search.said_of_run {s : Search g} {v : Violation} (h : s.run = .error v) :
    ∃ e r, g.Lists e ∧ v = e.violation r ∧ g.Said e r := by
  obtain ⟨t, -, hviolated⟩ := exists_of_run_error (P := fun _ => True) (fun _ _ _ _ => trivial)
    trivial h
  obtain ⟨n, k, -, i, -, hi, ⟨hnone, rfl⟩ | ⟨c, hc, -, rfl⟩⟩ := cases_of_step_violated hviolated
  · exact ⟨_, _, lists_of_childrenOf hi, rfl, .unnamed hnone⟩
  · exact ⟨_, _, lists_of_childrenOf hi, rfl, .cycle hc⟩

/-! ## Both passes -/

/-- What is reported is an entry of the lists, for one of three reasons. -/
theorem exists_of_violation? {v : Violation} (h : g.violation? = some v) :
    ∃ e r, g.Lists e ∧ v = e.violation r ∧ g.Said e r := by
  rcases Option.or_eq_some_iff.mp h with hparent | ⟨-, hcycle⟩
  · obtain ⟨before, e, after, r, hes, -, rfl, hsaid, -⟩ := said_of_parentViolation? hparent
    have he : e ∈ g.entries := hes ▸ List.mem_append_right _ List.mem_cons_self
    exact ⟨e, r, mem_entries_iff.mp he, rfl, hsaid⟩
  · obtain ⟨_, _, _, _, -, -, -, -, hrun⟩ := exists_walk_of_cycleViolation? sound_unvisited hcycle
    exact Search.said_of_run hrun

/-- If all entries name nodes and no list has a repetition, then no entry is reported for naming no
node, and one that is reported for a second parent stands in the list of a node after the first
one. -/
theorem reported_of_listed (hrange : ∀ i ∈ g.mentions, InRange i g.size)
    (hnodup : ∀ p, (g.childrenOf p).toList.Nodup) {v : Violation} (h : g.violation? = some v) :
    (∀ i n, v.fault.reason ≠ .indexOutOfRange i n) ∧
      ∀ n p, v.fault.reason = .multipleParents n p → ∃ q, v.index = some q ∧ p < q := by
  obtain ⟨e, r, he, rfl, hsaid⟩ := exists_of_violation? h
  cases hsaid with
  | unnamed hnone => exact absurd (hrange _ he.child_mem) (node?_eq_none_iff.mp hnone)
  | cycle _ => exact ⟨nofun, nofun⟩
  | @named c e' hc he' hbefore hc' =>
    refine ⟨nofun, fun n p heq => ⟨e.parent, rfl, ?_⟩⟩
    obtain ⟨-, rfl⟩ := Reason.multipleParents.inj heq
    rcases hbefore with hlt | ⟨hparent, hplace⟩
    · exact hlt
    · -- In one list the two entries would hold the same, though it has no repetition.
      obtain ⟨q, hq, hi⟩ := he.exists_parent
      obtain ⟨q', hq', hi'⟩ := he'.exists_parent
      obtain rfl : q = q' := Fin.ext (hq.trans (hparent.symm.trans hq'.symm))
      rw [← Array.getElem?_toList] at hi hi'
      rw [← eq_of_node?_eq hc hc'] at hi'
      obtain ⟨hk, -⟩ := List.getElem?_eq_some_iff.mp hi
      obtain ⟨hk', -⟩ := List.getElem?_eq_some_iff.mp hi'
      have := (hnodup q).getElem_inj_iff.mp (Option.some.inj
        ((List.getElem?_eq_getElem hk').symm.trans (hi'.trans (hi.symm.trans
          (List.getElem?_eq_getElem hk)))))
      omega

end GltfAsset.Check.Graph
