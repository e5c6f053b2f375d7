import Mathlib.Data.List.Forall2
import GltfAsset.Proofs.Validity.Reported

/-!
# Checking less

A configuration may be relaxed: more sets of texture coordinates may be used, or the hierarchy or
the lists of extensions are not looked at. Then the checks of a document come to the same places in
the same order, though maybe not to the last ones, and at each of them the same is found, unless it
was a set of texture coordinates in a material. So what is accepted stays accepted. What is refused
is refused for the same, unless that is one of the things that were relaxed, and then nothing is
found that stands before it (`violation?_relaxed`).
-/

namespace GltfAsset

open Check Rule

/-- The second configuration asks for no more than the first one. -/
structure Check.Config.Relaxes (c c' : Config) : Prop where
  /-- It leaves as many sets of texture coordinates to use. -/
  maxTexCoordSets : c.maxTexCoordSets ≤ c'.maxTexCoordSets
  /-- It looks at the hierarchy only if the first one does. -/
  checkHierarchy : c'.checkHierarchy = true → c.checkHierarchy = true
  /-- It looks at the lists of extensions only if the first one does. -/
  checkExtensions : c'.checkExtensions = true → c.checkExtensions = true

/-- It is said of a set of texture coordinates that it cannot be used. -/
def Check.Fault.OfTexCoord (f : Fault) : Prop :=
  ∃ way n, f = ⟨way ++ [.member "texCoord"], .unsupportedTexCoord n⟩

namespace Check.Rule

/-! ## Rules -/

/-- A rule follows from another one that says the same, and is the same unless this is said of a set
of texture coordinates. -/
structure Weakens (r r' : Rule) : Prop where
  /-- Both say the same. -/
  fault : r'.fault = r.fault
  /-- The second one holds if the first one does. -/
  holds : r.holds → r'.holds
  /-- Only a set of texture coordinates may be used by the second one and not by the first one. -/
  only : r'.holds → r.holds ∨ r.fault.OfTexCoord

variable {r r' : Rule} {rs rs' ss ss' : List Rule}

/-- A rule is no weaker than itself. -/
theorem Weakens.refl (r : Rule) : r.Weakens r := ⟨rfl, id, .inl⟩

/-- Behind a way, a rule is weakened as it is by itself. -/
theorem Weakens.within {way : Field} (h : r.Weakens r') :
    (within way r).Weakens (Rule.within way r') := by
  refine ⟨?_, h.holds, fun hr' => (h.only hr').imp_right ?_⟩
  · simp only [Rule.within, h.fault]
  · rintro ⟨way', n, hf⟩
    exact ⟨way ++ way', n, by simp only [Rule.within, hf, List.append_assoc]⟩

/-- One list of rules follows from another one, rule by rule. -/
abbrev AllWeaken (rs rs' : List Rule) : Prop := List.Forall₂ Weakens rs rs'

/-- A list of rules is no weaker than itself. -/
theorem AllWeaken.refl (rs : List Rule) : AllWeaken rs rs :=
  List.forall₂_same.mpr fun r _ => Weakens.refl r

/-- Two lists are weakened together if each of them is. -/
theorem AllWeaken.append (h : AllWeaken rs rs') (h' : AllWeaken ss ss') :
    AllWeaken (rs ++ ss) (rs' ++ ss') := List.rel_append h h'

/-- Behind a way, rules are weakened as they are by themselves. -/
theorem AllWeaken.map_within {way : Field} (h : AllWeaken rs rs') :
    AllWeaken (rs.map (Rule.within way)) (rs'.map (Rule.within way)) := by
  rw [AllWeaken, List.forall₂_map_left_iff, List.forall₂_map_right_iff]
  exact h.imp fun _ _ => Weakens.within

/-- The rules of a value that may be absent are weakened if they are where it is there. -/
theorem AllWeaken.ifGiven {α : Type} {x : Option α} {rules rules' : α → List Rule}
    (h : ∀ a, AllWeaken (rules a) (rules' a)) :
    AllWeaken (Rule.ifGiven x rules) (Rule.ifGiven x rules') := by
  cases x with
  | none => exact .nil
  | some a => exact h a

/-- The first fault is the same, unless it is one of a set of texture coordinates. -/
theorem firstFault?_eq_or_of_allWeaken (h : AllWeaken rs rs') :
    firstFault? rs' = firstFault? rs ∨ ∃ f, firstFault? rs = some f ∧ f.OfTexCoord := by
  induction h with
  | nil => exact .inl rfl
  | @cons r r' rs rs' hr _ ih =>
    unfold firstFault? at *
    rw [List.findSome?_cons, List.findSome?_cons]
    by_cases hholds : r.holds
    · rw [fault?_eq_none_iff.mpr hholds, fault?_eq_none_iff.mpr (hr.holds hholds)]
      exact ih
    · have hfault : r.fault? = some r.fault := if_neg hholds
      rw [hfault]
      by_cases hholds' : r'.holds
      · -- What the first rule forbids and the second one does not is a set of coordinates.
        exact .inr ⟨r.fault, rfl, (hr.only hholds').resolve_left hholds⟩
      · have hfault' : r'.fault? = some r'.fault := if_neg hholds'
        rw [hfault', hr.fault]
        exact .inl rfl

end Check.Rule

/-! ## Materials -/

namespace Material

/-- More sets of texture coordinates may be used if there are more. -/
theorem useRules_weaken (d : Document) {sets sets' : Nat} (h : sets ≤ sets') (texture : Int64)
    (texCoord : Option Int64) :
    AllWeaken (useRules d sets texture texCoord) (useRules d sets' texture texCoord) := by
  refine AllWeaken.append (AllWeaken.refl _) (AllWeaken.ifGiven fun n => ?_)
  -- Of the rules for the set, only that it is one of the first ones depends on their number.
  refine .cons (Weakens.refl _) (.cons ⟨rfl, fun hlt => ?_, fun _ => .inr ⟨[], n, rfl⟩⟩ .nil)
  rw [holds_need] at *
  omega

/-- More texture coordinates weaken the rules of a metallic-roughness model. -/
theorem metallicRoughnessRules_weaken (d : Document) {sets sets' : Nat} (h : sets ≤ sets')
    (m : MetallicRoughness) :
    AllWeaken (metallicRoughnessRules d sets m) (metallicRoughnessRules d sets' m) := by
  have huse := useRules_weaken d h
  unfold metallicRoughnessRules
  refine ((((AllWeaken.refl _).append ?_).append (AllWeaken.refl _)).append
    (AllWeaken.refl _)).append ?_
  · exact AllWeaken.ifGiven fun t => (huse t.index t.texCoord).map_within
  · exact AllWeaken.ifGiven fun t => (huse t.index t.texCoord).map_within

/-- More texture coordinates weaken the rules of a material. -/
theorem rules_weaken (d : Document) {sets sets' : Nat} (h : sets ≤ sets') (m : Material) :
    AllWeaken (m.rules d sets) (m.rules d sets') := by
  have huse := useRules_weaken d h
  unfold rules
  -- The four parts with textures; what comes after them does not depend on the sets.
  refine ((((((?_ : AllWeaken _ _).append ?_).append ?_).append ?_).append
    (AllWeaken.refl _)).append (AllWeaken.refl _)).append (AllWeaken.refl _)
  · exact AllWeaken.ifGiven fun p => (metallicRoughnessRules_weaken d h p).map_within
  · exact AllWeaken.ifGiven fun t => (huse t.index t.texCoord).map_within
  · exact AllWeaken.ifGiven fun t =>
      (huse t.index t.texCoord).map_within.append (AllWeaken.refl _)
  · exact AllWeaken.ifGiven fun t => (huse t.index t.texCoord).map_within

end Material

namespace Document

variable {c c' : Config} {d : Document} {p q : Place} {v : Violation}

/-! ## Places -/

/-- At a place the same is found by both configurations, unless it is a set of texture coordinates
in a material. -/
theorem check_eq_or_of_relaxes (hc : c.Relaxes c') (d : Document) (p : Place) :
    d.check c' p = d.check c p ∨
      ∃ k f, p = .element .material k ∧ f.OfTexCoord ∧
        d.check c p = some ⟨.material, some k, f⟩ := by
  cases p with
  | element kind k =>
    cases kind with
    | material =>
      simp only [check, collectionRules, ruled, List.getElem?_map]
      cases d.materials.toList.zipIdx[k]? with
      | none => exact .inl rfl
      | some x =>
        have hrules := Material.rules_weaken d hc.maxTexCoordSets x.1
        rcases firstFault?_eq_or_of_allWeaken hrules with heq | ⟨f, hf, htex⟩
        · left
          simp only [Option.map_some, Option.bind_some, elementCheck, heq]
        · refine .inr ⟨k, f, rfl, htex, ?_⟩
          simp only [Option.map_some, Option.bind_some, elementCheck, hf]
    | _ => exact .inl rfl
  | _ => exact .inl rfl

/-- What passes its check passes the relaxed one. -/
theorem check_eq_none_of_relaxes (hc : c.Relaxes c') (h : d.check c p = none) :
    d.check c' p = none := by
  rcases check_eq_or_of_relaxes hc d p with heq | ⟨k, f, -, -, hsome⟩
  · rw [heq, h]
  · rw [h] at hsome
    contradiction

/-- Only the last places depend on the configuration. -/
theorem mem_places_iff (c c' : Config) (d : Document) (p : Place) :
    p ∈ d.places c ↔
      (p ∈ [.asset, .firstScene] ++ EntityKind.inOrder.flatMap (d.elementPlaces c')) ∨
        p ∈ lastPlaces c := by
  have helements : d.elementPlaces c = d.elementPlaces c' := by
    funext kind
    rw [elementPlaces, elementPlaces, length_collectionRules, length_collectionRules]
  rw [places, List.mem_append, helements]

/-- The second configuration leads to no place to which the first one does not lead. -/
theorem mem_places_of_relaxes (hc : c.Relaxes c') (h : p ∈ d.places c') : p ∈ d.places c := by
  have hlast : p ∈ lastPlaces c' → p ∈ lastPlaces c := by
    simp only [lastPlaces, List.mem_append, List.mem_ite_nil_right, List.mem_singleton]
    exact Or.imp (And.imp_left hc.checkHierarchy) (And.imp_left hc.checkExtensions)
  rw [mem_places_iff c' c'] at h
  rw [mem_places_iff c c']
  exact h.imp_right hlast

/-- A place that is reached is one of the places. -/
theorem Reaches.mem_places (h : d.Reaches c p) : p ∈ d.places c := by
  obtain ⟨before, after, hplaces, -⟩ := h
  exact hplaces ▸ List.mem_append_right _ List.mem_cons_self

/-- The checks come to a place if nothing is found before it. -/
theorem reaches_of_forall_before (hp : p ∈ d.places c)
    (h : ∀ q ∈ d.places c, q.Before p → d.check c q = none) : d.Reaches c p := by
  obtain ⟨before, after, hplaces⟩ := List.append_of_mem hp
  have hsorted := pairwise_places c d
  rw [hplaces] at hsorted
  refine ⟨before, after, hplaces, fun q hq => h q ?_ ?_⟩
  · exact hplaces ▸ List.mem_append_left _ hq
  · exact (List.pairwise_append.mp hsorted).2.2 q hq p List.mem_cons_self

/-- Of two places that are checked, one comes before the other. -/
theorem eq_or_before_of_mem_places (hp : p ∈ d.places c) (hq : q ∈ d.places c) :
    p = q ∨ p.Before q ∨ q.Before p := by
  obtain ⟨before, after, hplaces⟩ := List.append_of_mem hp
  have hsorted := pairwise_places c d
  rw [hplaces] at hq hsorted
  obtain ⟨-, hrest, hacross⟩ := List.pairwise_append.mp hsorted
  rcases List.mem_append.mp hq with hq | hq
  · exact .inr (.inr (hacross q hq p List.mem_cons_self))
  · rcases List.mem_cons.mp hq with rfl | hq
    · exact .inl rfl
    · exact .inr (.inl (List.rel_of_pairwise_cons hrest hq))

/-- What the second configuration may not find: a set of texture coordinates of a material, that the
nodes do not form a hierarchy, and anything in the lists of extensions. -/
inductive Waived : Place → Violation → Prop
  | texCoord (k : Nat) (way : Field) (n : Int64) :
    Waived (.element .material k)
      ⟨.material, some k, way ++ [.member "texCoord"], .unsupportedTexCoord n⟩
  | cycle (e : Graph.Entry) (n : Nat) : Waived .hierarchy (e.violation (.cycle n))
  | multipleParents (e : Graph.Entry) (n first : Nat) :
    Waived .hierarchy (e.violation (.multipleParents n first))
  | extensionsUsed (steps : Field) (r : Reason) :
    Waived .extensions ⟨.document, none, "extensionsUsed" :: steps, r⟩
  | extensionsRequired (steps : Field) (r : Reason) :
    Waived .extensions ⟨.document, none, "extensionsRequired" :: steps, r⟩

/-- What is found in the lists of extensions is said of one of them. -/
theorem waived_of_check_extensions (h : d.check c .extensions = some v) :
    Waived .extensions v := by
  obtain ⟨r, hr, -, rfl⟩ := exists_of_ownCheck h
  simp only [extensionRules, distinctRules, List.mem_append, List.mem_map] at hr
  rcases hr with (⟨x, -, rfl⟩ | ⟨x, -, rfl⟩) | ⟨x, -, rfl⟩
  · exact .extensionsUsed _ _
  · exact .extensionsRequired _ _
  · exact .extensionsRequired _ _

/-- What is found where the checks come to the graph is a cycle or a second parent. -/
theorem Reaches.waived (h : d.Reaches c .hierarchy) (hv : d.check c .hierarchy = some v) :
    Waived .hierarchy v := by
  obtain ⟨e, r, he, rfl, hsaid⟩ := Graph.exists_of_violation? hv
  cases hsaid with
  | unnamed hnone => exact absurd rfl ((h.reported_of_graph hv).1 _ _)
  | named => exact .multipleParents e _ _
  | cycle => exact .cycle e _

/-- A configuration that is relaxed accepts what was accepted. What was refused at a place may be
accepted then, or it is refused at this place or one after it; and it is refused for the same as
before, unless that is waived. -/
theorem violation?_relaxed (hc : c.Relaxes c') (d : Document) :
    (d.violation? c = none → d.violation? c' = none) ∧
    ∀ v, d.violation? c = some v → ∃ p, d.Reaches c p ∧ d.check c p = some v ∧
      (∀ v', d.violation? c' = some v' →
        ∃ p', (p' = p ∨ p.Before p') ∧ d.Reaches c' p' ∧ d.check c' p' = some v') ∧
      (d.violation? c' ≠ some v → Waived p v) := by
  constructor
  · rw [violation?_eq_none_iff_check, violation?_eq_none_iff_check]
    exact fun h p hp => check_eq_none_of_relaxes hc (h p (mem_places_of_relaxes hc hp))
  · intro v hv
    obtain ⟨p, hreaches, hcheck⟩ := violation?_eq_some_iff.mp hv
    -- Before the place where the document was refused, nothing is found now either.
    have hbefore : ∀ q ∈ d.places c', q.Before p → d.check c' q = none := by
      intro q hq hlt
      exact check_eq_none_of_relaxes hc (hreaches.check_eq_none (mem_places_of_relaxes hc hq) hlt)
    refine ⟨p, hreaches, hcheck, fun v' hv' => ?_, fun hne => ?_⟩
    · obtain ⟨p', hreaches', hcheck'⟩ := violation?_eq_some_iff.mp hv'
      refine ⟨p', ?_, hreaches', hcheck'⟩
      have hp' := mem_places_of_relaxes hc hreaches'.mem_places
      rcases eq_or_before_of_mem_places hreaches.mem_places hp' with heq | hlt | hgt
      · exact .inl heq.symm
      · exact .inr hlt
      · rw [hbefore p' hreaches'.mem_places hgt] at hcheck'
        contradiction
    · rcases check_eq_or_of_relaxes hc d p with heq | ⟨k, f, rfl, ⟨way, n, rfl⟩, hsome⟩
      · -- The same is found at the place, so the checks do not come there any more.
        have hgone : p ∉ d.places c' := fun hmem => hne (violation?_eq_some_iff.mpr
          ⟨p, reaches_of_forall_before hmem hbefore, heq.trans hcheck⟩)
        rw [mem_places_iff c' c', not_or] at hgone
        have hp := ((mem_places_iff c c' d p).mp hreaches.mem_places).resolve_left hgone.1
        rcases mem_lastPlaces hp with rfl | rfl
        · exact hreaches.waived hcheck
        · exact waived_of_check_extensions hcheck
      · obtain rfl := Option.some.inj (hcheck.symm.trans hsome)
        exact .texCoord k way n

/-- A material that uses the second set of texture coordinates, and has a least alpha but does not
say how alpha is used. -/
def secondSet : Document where
  asset := { version := "2.0" }
  images := #[{ uri := some "a.png" }]
  textures := #[{ source := some 0 }]
  materials := #[{
    normalTexture := some { index := 0, texCoord := some 1 }
    alphaCutoff := some 0 }]

/-- With one set of texture coordinates the use of the second one is reported, and with two the next
fault of the material. -/
theorem violation?_relaxed_secondSet :
    Config.Relaxes { maxTexCoordSets := 1 } {} ∧
      secondSet.violation? { maxTexCoordSets := 1 } =
        some ⟨.material, some 0, ["normalTexture", "texCoord"], .unsupportedTexCoord 1⟩ ∧
      secondSet.violation? {} =
        some ⟨.material, some 0, ["alphaCutoff"], .mismatch .cutoffWithoutMode⟩ ∧
      ∃ p, Waived p ⟨.material, some 0, ["normalTexture", "texCoord"], .unsupportedTexCoord 1⟩ := by
  have hc : Config.Relaxes { maxTexCoordSets := 1 } {} := ⟨by decide, id, id⟩
  have hv : secondSet.violation? { maxTexCoordSets := 1 } =
      some ⟨.material, some 0, ["normalTexture", "texCoord"], .unsupportedTexCoord 1⟩ := by
    decide +kernel
  have hv' : secondSet.violation? {} =
      some ⟨.material, some 0, ["alphaCutoff"], .mismatch .cutoffWithoutMode⟩ := by decide +kernel
  obtain ⟨p, -, -, -, hwaived⟩ := (violation?_relaxed hc secondSet).2 _ hv
  exact ⟨hc, hv, hv', p, hwaived (by rw [hv']; decide)⟩

end Document

end GltfAsset
