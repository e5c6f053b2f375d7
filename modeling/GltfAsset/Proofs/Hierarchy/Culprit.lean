import Mathlib.Data.List.FinRange
import GltfAsset.Proofs.Hierarchy.Reported

/-!
# The entry that is reported

Which entry `Graph.violation?` reports is settled by the lists of children alone. If an entry names
no node, or the same as an entry before it, then the first such entry is reported. If there is none,
then every node has one parent at most, and a node that is below itself is reached by walks from the
nodes of its own cycle only. So the first walk that finds something starts at the least node that is
below itself, and stops where it comes back to its start (`violation?_culprit`).
-/

namespace GltfAsset.Check.Graph

variable {g : Graph}

/-! ## The first pass -/

/-- An entry names no node, or it names the same as an entry before it. -/
def Faulty (g : Graph) (e : Entry) : Prop :=
  g.Lists e ∧ (¬ InRange e.child g.size ∨ ∃ e', g.Lists e' ∧ e'.Before e ∧ e'.child = e.child)

/-- An entry is the first one of its kind. -/
def Entry.IsFirst (P : Entry → Prop) (e : Entry) : Prop :=
  P e ∧ ∀ e', P e' → e' = e ∨ e.Before e'

/-- What comes before an entry comes before all that come after it. -/
theorem Entry.Before.trans {e e' e'' : Entry} (h : e.Before e') (h' : e'.Before e'') :
    e.Before e'' := by
  unfold Entry.Before at *
  omega

/-- Of two entries one comes before the other. -/
theorem Lists.eq_or_before {e e' : Entry} (h : g.Lists e) (h' : g.Lists e') :
    e = e' ∨ e.Before e' ∨ e'.Before e := by
  obtain ⟨cs, hcs, hi⟩ := h
  obtain ⟨cs', hcs', hi'⟩ := h'
  by_cases hplace : e.parent = e'.parent ∧ e.place = e'.place
  · -- At one place of one list there is one entry.
    obtain ⟨p, k, i⟩ := e
    obtain ⟨p', k', i'⟩ := e'
    obtain ⟨rfl, rfl⟩ := hplace
    obtain rfl := Option.some.inj (hcs.symm.trans hcs')
    obtain rfl := Option.some.inj (hi.symm.trans hi')
    exact .inl rfl
  · right
    unfold Entry.Before
    omega

/-- If the first pass finds nothing in entries, then none of them is faulty of which they hold all
entries before it. -/
theorem not_faulty_of_passed {es : List Entry}
    (h : parentViolation? (.replicate g.size none) es = none) {e : Entry} (he : e ∈ es)
    (hclosed : ∀ e', g.Lists e' → e'.Before e → e' ∈ es) : ¬ g.Faulty e := by
  obtain ⟨hrange, hnodup, -⟩ := (parentViolation?_eq_none_iff _ _).mp h
  rintro ⟨-, hout | ⟨e', he', hbefore, heq⟩⟩
  · exact hout (hrange e he)
  · obtain rfl := List.inj_on_of_nodup_map hnodup (hclosed e' he' hbefore) he heq
    exact hbefore.asymm hbefore

/-- What the first pass says of an entry makes it faulty. -/
theorem faulty_of_said {e : Entry} {r : Reason} (he : g.Lists e) (hsaid : g.Said e r)
    (hr : ∀ n, r ≠ .cycle n) : g.Faulty e := by
  cases hsaid with
  | unnamed hnone => exact ⟨he, .inl (node?_eq_none_iff.mp hnone)⟩
  | @named c e' hc he' hbefore hc' => exact ⟨he, .inr ⟨e', he', hbefore, eq_of_node?_eq hc' hc⟩⟩
  | cycle => exact absurd rfl (hr _)

/-- The first pass finds something exactly if an entry is faulty. -/
theorem parentViolation?_eq_none_iff_not_faulty :
    parentViolation? (.replicate g.size none) g.entries = none ↔ ∀ e, ¬ g.Faulty e := by
  constructor
  · intro h e he
    exact not_faulty_of_passed h (mem_entries_iff.mpr he.1)
      (fun e' he' _ => mem_entries_iff.mpr he') he
  · intro h
    by_contra hne
    obtain ⟨v, hv⟩ := Option.ne_none_iff_exists'.mp hne
    obtain ⟨before, e, after, r, hes, -, -, hsaid, hr⟩ := said_of_parentViolation? hv
    have he : e ∈ g.entries := hes ▸ List.mem_append_right _ List.mem_cons_self
    exact h e (faulty_of_said (mem_entries_iff.mp he) hsaid hr)

/-- The entry that the first pass reports is the first faulty one. -/
theorem exists_isFirst_faulty {v : Violation}
    (hv : parentViolation? (.replicate g.size none) g.entries = some v) :
    ∃ e r, e.IsFirst g.Faulty ∧ v = e.violation r ∧ g.Said e r ∧ ∀ n, r ≠ .cycle n := by
  obtain ⟨before, e, after, r, hes, hbefore, rfl, hsaid, hr⟩ := said_of_parentViolation? hv
  have he : e ∈ g.entries := hes ▸ List.mem_append_right _ List.mem_cons_self
  have hlists := mem_entries_iff.mp he
  refine ⟨e, r, ⟨faulty_of_said hlists hsaid hr, fun e' he' => ?_⟩, rfl, hsaid, hr⟩
  rcases he'.1.eq_or_before hlists with heq | hlt | hgt
  · exact .inl heq
  · -- The entries before the reported one were passed.
    have hmem := mem_of_entries_eq hes
    refine absurd he' (not_faulty_of_passed hbefore ((hmem e').mpr ⟨he'.1, hlt⟩) ?_)
    exact fun e'' he'' hlt' => (hmem e'').mpr ⟨he'', hlt'.trans hlt⟩
  · exact .inr hgt

/-- If the first faulty entry names the same as one before it, then that one is the first to name
this. -/
theorem isFirst_of_named {e e' : Entry} (hfirst : e.IsFirst g.Faulty) (he' : g.Lists e')
    (hbefore : e'.Before e) (heq : e'.child = e.child) :
    e'.IsFirst fun e'' => g.Lists e'' ∧ e''.child = e.child := by
  refine ⟨⟨he', heq⟩, ?_⟩
  rintro e'' ⟨he'', heq''⟩
  rcases he''.eq_or_before he' with heq' | hlt | hgt
  · exact .inl heq'
  · -- An entry before it that names the same would make it faulty, before the first faulty entry.
    have hfaulty : g.Faulty e' := ⟨he', .inr ⟨e'', he'', hlt, heq''.trans heq.symm⟩⟩
    rcases hfirst.2 e' hfaulty with rfl | hgt
    · exact absurd hbefore hbefore.asymm
    · exact absurd hgt hbefore.asymm
  · exact .inr hgt

/-! ## The walks -/

/-- A node on the path of a walk is its start, or has a parent that comes before it on the path. -/
theorem Trail.start_or_parent {marks : Vector Mark g.size} {path : List (Fin g.size × Nat)}
    (h : Trail marks path) {c : Fin g.size} (hc : c ∈ path.map Prod.fst) :
    (path.map Prod.fst).getLast? = some c ∨ ∃ p ∈ (path.map Prod.fst).tail, g.IsChild p c := by
  induction h with
  | ended => contradiction
  | start =>
    obtain rfl := List.mem_singleton.mp hc
    exact .inl rfl
  | @down n p k j i path hn hi hin hp ih =>
    rcases List.mem_cons.mp hc with rfl | hc
    · exact .inr ⟨p, List.mem_cons_self, isChild_iff.mpr ⟨i, Array.mem_of_getElem? hi, hin⟩⟩
    · rcases ih hc with hlast | ⟨q, hq, hqc⟩
      · exact .inl hlast
      · exact .inr ⟨q, List.mem_cons_of_mem _ hq, hqc⟩

/-- If no node is a child of two nodes, then a walk that meets a node on its path again is back at
its start. -/
theorem Search.Sound.eq_start {s : Search g} (h : s.Sound) (hnodup : g.mentions.Nodup)
    {root n c : Fin g.size} {k : Nat} {path : List (Fin g.size × Nat)}
    (hroot : ∀ r ∈ (s.path.map Prod.fst).getLast?, r = root) (hpath : s.path = (n, k) :: path)
    (hchild : g.IsChild n c) (hm : s.marks.get c = .onPath) : c = root := by
  rcases h.trail.start_or_parent ((h.onPath_iff c).mp hm) with hlast | ⟨p, hp, hpc⟩
  · exact hroot c hlast
  · -- The parent by which the walk came to the node is the one where the walk is.
    have hdistinct := h.nodup
    rw [hpath, List.map_cons] at hp hdistinct
    rw [eq_of_isChild hnodup hpc hchild] at hp
    exact absurd hp (List.nodup_cons.mp hdistinct).1

/-- If all entries name nodes, and no two the same, then what the walks report is the entry that
leads to the least node below itself. -/
theorem exists_isLeast_of_cycleViolation? (hrange : ∀ i ∈ g.mentions, InRange i g.size)
    (hnodup : g.mentions.Nodup) {v : Violation}
    (hv : cycleViolation? (.replicate g.size .unvisited) (List.finRange g.size) = some v) :
    ∃ m, IsLeast {n | Relation.TransGen g.IsChild n n} m ∧
      ∃ (p : Fin g.size) (k : Nat) (i : Int64), (g.childrenOf p)[k]? = some i ∧
        i.toInt = m.val ∧ Relation.ReflTransGen g.IsChild m p ∧
        v = Entry.violation ⟨p, k, i⟩ (.cycle m) := by
  obtain ⟨before, root, after, marks, hroots, hsound, hbefore, -, hrun⟩ :=
    exists_walk_of_cycleViolation? sound_unvisited hv
  -- The walk stops in a sound state, and still leads back to its start.
  obtain ⟨t, ⟨ht, hstart⟩, hviolated⟩ := Search.exists_of_run_error
    (P := fun t => t.Sound ∧ ∀ r ∈ (t.path.map Prod.fst).getLast?, r = root)
    (fun _ _ h hstep => ⟨h.1.step hstep, Search.start_of_step hstep h.2⟩)
    ⟨hsound.walk root, fun r hr => (Option.some.inj hr).symm⟩ hrun
  obtain ⟨n, k, path, i, hpath, hi, ⟨hnone, -⟩ | ⟨c, hc, hm, rfl⟩⟩ :=
    Search.cases_of_step_violated hviolated
  · have himem := mem_mentions_iff.mpr ⟨n, Array.mem_of_getElem? hi⟩
    exact absurd (hrange i himem) (node?_eq_none_iff.mp hnone)
  have hchild : g.IsChild n c := isChild_iff.mpr ⟨i, Array.mem_of_getElem? hi, hc⟩
  obtain rfl := ht.eq_start hnodup hstart hpath hchild hm
  have hreach : Relation.ReflTransGen g.IsChild c n :=
    ht.trail.reach (n, k) (by rw [hpath]; rfl) c ((ht.onPath_iff c).mp hm)
  refine ⟨c, ⟨Relation.TransGen.tail' hreach hchild, fun m hcycle => ?_⟩, n, k, i, hi,
    node?_eq_some_iff.mp hc, hreach, rfl⟩
  -- From a lesser node there was a walk before, so it is not below itself.
  have hsorted := List.pairwise_lt_finRange g.size
  have hmem := List.mem_finRange m
  rw [hroots] at hsorted hmem
  rcases List.mem_append.mp hmem with hmem | hmem
  · exact absurd hcycle (hsound.bottomed_of_met (hbefore m hmem)).not_below
  · rcases List.mem_cons.mp hmem with rfl | hmem
    · exact le_rfl
    · exact le_of_lt (List.rel_of_pairwise_cons (List.pairwise_append.mp hsorted).2.1 hmem)

/-- If the first pass finds nothing, then the walks report what the graph does. -/
theorem exists_cycleViolation?
    (hpassed : parentViolation? (.replicate g.size none) g.entries = none)
    (hcycle : ∃ n, Relation.TransGen g.IsChild n n) :
    ∃ v, g.violation? = some v ∧
      cycleViolation? (.replicate g.size .unvisited) (List.finRange g.size) = some v := by
  obtain ⟨n, hn⟩ := hcycle
  have hne : g.violation? ≠ none := fun h =>
    ((violation?_eq_none_iff_isForest g).mp h).acyclic n hn
  obtain ⟨v, hv⟩ := Option.ne_none_iff_exists'.mp hne
  refine ⟨v, hv, ?_⟩
  rwa [violation?, hpassed, Option.none_or] at hv

/-! ## Both passes -/

/-- If an entry names no node, or the same as an entry before it, then the first such entry is
reported: in the first case with the number of nodes, and in the second with the node that holds the
first entry that names the same. Otherwise, if a node is below itself, then the least such node is
reported, at the entry of its only parent, which is the node or below it. -/
theorem violation?_culprit (g : Graph) :
    ((∃ e, g.Faulty e) → ∃ e : Entry, e.IsFirst g.Faulty ∧
      (¬ InRange e.child g.size ∧
          g.violation? = some (e.violation (.indexOutOfRange e.child g.size)) ∨
        InRange e.child g.size ∧ ∃ (c : Fin g.size) (first : Entry), e.child.toInt = c.val ∧
          first.IsFirst (fun e' => g.Lists e' ∧ e'.child = e.child) ∧
          g.violation? = some (e.violation (.multipleParents c first.parent)))) ∧
    ((∀ e, ¬ g.Faulty e) → (∃ n, Relation.TransGen g.IsChild n n) →
      ∃ m, IsLeast {n | Relation.TransGen g.IsChild n n} m ∧
        ∃ (p : Fin g.size) (k : Nat) (i : Int64), (g.childrenOf p)[k]? = some i ∧
          i.toInt = m.val ∧ (∀ q, g.IsChild q m ↔ q = p) ∧
          Relation.ReflTransGen g.IsChild m p ∧
          g.violation? = some (Entry.violation ⟨p, k, i⟩ (.cycle m))) := by
  constructor
  · -- The first pass stops at the first faulty entry, and the walks do not begin.
    rintro ⟨e₀, he₀⟩
    have hne : parentViolation? (.replicate g.size none) g.entries ≠ none :=
      fun h => parentViolation?_eq_none_iff_not_faulty.mp h e₀ he₀
    obtain ⟨v, hv⟩ := Option.ne_none_iff_exists'.mp hne
    have hreport : g.violation? = some v := by rw [violation?, hv, Option.some_or]
    obtain ⟨e, r, hfirst, rfl, hsaid, hr⟩ := exists_isFirst_faulty hv
    refine ⟨e, hfirst, ?_⟩
    cases hsaid with
    | unnamed hnone => exact .inl ⟨node?_eq_none_iff.mp hnone, hreport⟩
    | @named c e' hc he' hbefore hc' =>
      have hrange : InRange e.child g.size := by
        by_contra hout
        rw [node?_eq_none_iff.mpr hout] at hc
        contradiction
      have heq : e'.child = e.child := eq_of_node?_eq hc' hc
      have hnamed := isFirst_of_named hfirst he' hbefore heq
      exact .inr ⟨hrange, c, e', node?_eq_some_iff.mp hc, hnamed, hreport⟩
    | cycle => exact absurd rfl (hr _)
  · -- The first pass finds nothing, so each node has at most one parent, and a walk that goes round
    -- comes back to the least node on the round.
    intro hfaulty hcycle
    have hpassed := parentViolation?_eq_none_iff_not_faulty.mpr hfaulty
    obtain ⟨hrange, hnodup⟩ := parentViolation?_entries_eq_none_iff.mp hpassed
    obtain ⟨v, hreport, hv⟩ := exists_cycleViolation? hpassed hcycle
    obtain ⟨m, hm, p, k, i, hi, him, hreach, rfl⟩ :=
      exists_isLeast_of_cycleViolation? hrange hnodup hv
    have hchild : g.IsChild p m := ⟨i, Array.mem_of_getElem? hi, him⟩
    refine ⟨m, hm, p, k, i, hi, him, fun q => ⟨fun hq => eq_of_isChild hnodup hq hchild, ?_⟩,
      hreach, hreport⟩
    rintro rfl
    exact hchild

/-- The node at 3 is named by the nodes at 0 and at 2. The entry after that names no node. -/
def shared : Graph := ⟨#[#[3], #[], #[1, 3, 9], #[]]⟩

/-- A cycle beside the first node. -/
def detached : Graph := ⟨#[#[], #[2], #[1]]⟩

/-- Entries of the first graph are faulty, and none of the second one, but nodes are below
themselves. -/
theorem violation?_culprit_shared_detached :
    ((∃ e, shared.Faulty e) ∧ ∃ (e : Entry) (r : Reason), e.IsFirst shared.Faulty ∧
      shared.violation? = some (e.violation r)) ∧
    ((∀ e, ¬ detached.Faulty e) ∧ (∃ n, Relation.TransGen detached.IsChild n n) ∧
      ∃ m, IsLeast {n | Relation.TransGen detached.IsChild n n} m ∧
        ∃ e : Entry, e.child.toInt = m.val ∧
          detached.violation? = some (e.violation (.cycle m))) := by
  have hfaulty : ∃ e, shared.Faulty e :=
    ⟨⟨2, 1, 3⟩, ⟨#[1, 3, 9], rfl, rfl⟩, .inr ⟨⟨0, 0, 3⟩, ⟨#[3], rfl, rfl⟩, .inl Nat.two_pos, rfl⟩⟩
  have hsound : ∀ e, ¬ detached.Faulty e :=
    parentViolation?_eq_none_iff_not_faulty.mp (by decide +kernel)
  have hdown : detached.IsChild ⟨1, by decide⟩ ⟨2, by decide⟩ := ⟨2, by decide +kernel, rfl⟩
  have hup : detached.IsChild ⟨2, by decide⟩ ⟨1, by decide⟩ := ⟨1, by decide +kernel, rfl⟩
  have hcycle : ∃ n, Relation.TransGen detached.IsChild n n := ⟨_, .tail (.single hdown) hup⟩
  refine ⟨⟨hfaulty, ?_⟩, hsound, hcycle, ?_⟩
  · obtain ⟨e, hfirst, ⟨-, hv⟩ | ⟨-, c, first, -, -, hv⟩⟩ := (violation?_culprit shared).1 hfaulty
    · exact ⟨e, _, hfirst, hv⟩
    · exact ⟨e, _, hfirst, hv⟩
  · obtain ⟨m, hm, p, k, i, -, him, -, -, hv⟩ := (violation?_culprit detached).2 hsound hcycle
    exact ⟨m, hm, ⟨p, k, i⟩, him, hv⟩

example : shared.violation? = some (Entry.violation ⟨2, 1, 3⟩ (.multipleParents 3 0)) := by
  decide +kernel

example : detached.violation? = some (Entry.violation ⟨2, 0, 1⟩ (.cycle 1)) := by decide +kernel

end GltfAsset.Check.Graph
