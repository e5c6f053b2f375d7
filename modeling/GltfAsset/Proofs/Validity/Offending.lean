import GltfAsset.Proofs.Validity.Acceptance
import GltfAsset.Proofs.Validity.References

/-!
# The attribute that is reported

The check of a mesh goes through the attributes of a primitive, and through those of each of its
morph targets, in order. So of those without an accessor it reports the first one
(`Document.reportsFirst`).
-/

namespace GltfAsset

open Check Rule

namespace Check.Rule

variable {α : Type} {rs ss : List Rule} {f : Fault}

/-- The first fault of a list of rules is that of its first rule, unless this one holds. -/
theorem firstFault?_cons (r : Rule) (rs : List Rule) :
    firstFault? (r :: rs) = if r.holds then firstFault? rs else some r.fault := by
  rw [firstFault?, List.findSome?_cons, fault?, firstFault?]
  by_cases h : r.holds
  · rw [if_pos h, if_pos h]
  · rw [if_neg h, if_neg h]

/-- The fault under two lists of rules is that under the first one, if there is any. -/
theorem firstFault?_append_eq_some_iff : firstFault? (rs ++ ss) = some f ↔
    firstFault? rs = some f ∨ All rs ∧ firstFault? ss = some f := by
  have happend : firstFault? (rs ++ ss) = (firstFault? rs).or (firstFault? ss) :=
    List.findSome?_append
  rw [happend, Option.or_eq_some_iff, firstFault?_eq_none_iff]
  rfl

/-- A fault in another field is not found. -/
theorem firstFault?_ne_some (h : ∀ r ∈ rs, r.fault.field.head? ≠ f.field.head?) :
    firstFault? rs ≠ some f := by
  intro hf
  obtain ⟨r, hr, -, rfl⟩ := Document.exists_rule_of_firstFault? hf
  exact h r hr rfl

/-- The way to an entity stands in front of the field. -/
theorem firstFault?_map_within (way : Field) (rs : List Rule) : firstFault? (rs.map (within way)) =
    (firstFault? rs).map fun f => { f with field := way ++ f.field } := by
  have hfault : ∀ r, fault? (within way r) =
      (fault? r).map fun f => { f with field := way ++ f.field } := by
    intro r
    unfold fault?
    change (if r.holds then _ else _) = _
    split <;> rfl
  rw [firstFault?, List.findSome?_map, firstFault?, List.map_findSome?]
  exact congrArg (List.findSome? · rs) (funext hfault)

/-- The fields that rules for each element name start with the step that they were given. -/
theorem head_of_mem_each {s : Step} {way : Field} {xs : List α} {rules : α → List Rule} :
    ∀ r ∈ each (s :: way) xs rules, r.fault.field.head? = some s := by
  simp only [each, List.forall_mem_flatMap, List.forall_mem_map]
  exact fun _ _ _ _ => rfl

/-- The fault in a list is that of the first element that has one. -/
theorem firstFault?_each_eq_some_iff {field : Field} {xs : List α} {rules : α → List Rule} :
    firstFault? (each field xs rules) = some f ↔ ∃ i x g, xs[i]? = some x ∧
      (∀ y ∈ xs.take i, All (rules y)) ∧ firstFault? (rules x) = some g ∧
      f = { g with field := field ++ [.element i] ++ g.field } := by
  -- The elements are numbered from any number on.
  have hfrom : ∀ (xs : List α) (k : Nat), firstFault? ((xs.zipIdx k).flatMap fun p =>
      (rules p.1).map (within (field ++ [.element p.2]))) = some f ↔ ∃ i x g, xs[i]? = some x ∧
        (∀ y ∈ xs.take i, All (rules y)) ∧ firstFault? (rules x) = some g ∧
        f = { g with field := field ++ [.element (k + i)] ++ g.field } := by
    intro xs
    induction xs with
    | nil => simp [firstFault?]
    | cons x xs ih =>
      intro k
      rw [List.zipIdx_cons, List.flatMap_cons, firstFault?_append_eq_some_iff, ih (k + 1),
        firstFault?_map_within, Option.map_eq_some_iff, all_map_within]
      constructor
      · rintro (⟨g, hg, rfl⟩ | ⟨hx, i, y, g, hy, htake, hg, rfl⟩)
        · exact ⟨0, x, g, rfl, by simp, hg, rfl⟩
        · refine ⟨i + 1, y, g, hy, ?_, hg, ?_⟩
          · rw [List.take_succ_cons]
            exact List.forall_mem_cons.mpr ⟨hx, htake⟩
          · rw [Nat.add_assoc, Nat.add_comm 1 i]
      · rintro ⟨i, y, g, hy, htake, hg, rfl⟩
        cases i with
        | zero =>
          obtain rfl := Option.some.inj hy
          exact .inl ⟨g, hg, rfl⟩
        | succ i =>
          rw [List.take_succ_cons, List.forall_mem_cons] at htake
          refine .inr ⟨htake.1, i, y, g, hy, htake.2, hg, ?_⟩
          rw [Nat.add_assoc, Nat.add_comm 1 i]
  have hzero := hfrom xs 0
  simp only [Nat.zero_add] at hzero
  exact hzero

end Check.Rule

variable {d : Document} {k : String} {a : Int64} {n : Nat}

namespace Attributes

/-- The first attribute of which the accessor is not there. -/
def offending? (d : Document) (as : Attributes) : Option (String × Int64) :=
  as.find? fun e => ¬ InRange e.2 d.accessors.size

/-- It is the one that is reported. -/
theorem firstFault?_rules (d : Document) (as : Attributes) : firstFault? (rules d as) =
    (offending? d as).map fun e => ⟨[.member e.1], .indexOutOfRange e.2 d.accessors.size⟩ := by
  induction as with
  | nil => rfl
  | cons e as ih =>
    have hcons : rules d (e :: as) =
      index [.member e.1] e.2 d.accessors.size :: rules d as := rfl
    rw [hcons, firstFault?_cons]
    by_cases he : InRange e.2 d.accessors.size
    · rw [if_pos (holds_index.mpr he), ih, offending?, offending?,
        List.find?_cons_of_neg (by simpa using he)]
    · rw [if_neg (holds_index.not.mpr he), offending?, List.find?_cons_of_pos (by simpa using he)]
      rfl

/-- The report names the attribute and its accessor. -/
theorem firstFault?_rules_eq_some_iff {as : Attributes} {field : Field} {reason : Reason} :
    firstFault? (rules d as) = some ⟨field, reason⟩ ↔ ∃ e, offending? d as = some e ∧
      field = [.member e.1] ∧ reason = .indexOutOfRange e.2 d.accessors.size := by
  rw [firstFault?_rules, Option.map_eq_some_iff]
  simp only [Fault.mk.injEq, eq_comm]

end Attributes

namespace Primitive

variable {p : Primitive}

/-- The morph targets come last. -/
theorem rules_eq_append (d : Document) (p : Primitive) : p.rules d =
    rules d { p with targets := [] } ++ each ["targets"] p.targets (Attributes.rules d) := by
  have hnone : each ["targets"] [] (Attributes.rules d) = [] := rfl
  simp only [rules, hnone, List.append_nil]

/-- Before them nothing is said of morph targets. -/
theorem head_of_mem_rules : ∀ r ∈ rules d { p with targets := [] },
    r.fault.field.head? ≠ some (.member "targets") := by
  have hnone : each ["targets"] [] (Attributes.rules d) = [] := rfl
  simp only [rules, hnone, List.append_nil, List.forall_mem_append, List.forall_mem_singleton,
    List.forall_mem_map, forall_mem_ifGiven]
  and_intros
  all_goals simp [within, need, index, coded]

/-- What is said of a morph target names the first of its attributes without an accessor. -/
theorem firstFault?_targets_iff {t : Nat} :
    firstFault? (p.rules d) = some ⟨["targets", t, k], .indexOutOfRange a n⟩ ↔
      ({ p with targets := p.targets.take t } : Primitive).Valid d ∧ n = d.accessors.size ∧
        ∃ as, p.targets[t]? = some as ∧ Attributes.offending? d as = some (k, a) := by
  rw [rules_eq_append, firstFault?_append_eq_some_iff,
    or_iff_right (firstFault?_ne_some head_of_mem_rules), firstFault?_each_eq_some_iff,
    ← all_rules_iff, rules_eq_append d { p with targets := p.targets.take t }, all_append, all_each]
  constructor
  · rintro ⟨hall, i, as, ⟨field, reason⟩, has, hbefore, hg, hf⟩
    obtain ⟨⟨l, b⟩, he, rfl, rfl⟩ := Attributes.firstFault?_rules_eq_some_iff.mp hg
    simp only [Fault.mk.injEq, List.cons_append, List.nil_append, List.cons.injEq, true_and,
      and_true, Step.element.injEq, Step.member.injEq, Reason.indexOutOfRange.injEq] at hf
    obtain ⟨⟨rfl, rfl⟩, rfl, rfl⟩ := hf
    exact ⟨⟨hall, hbefore⟩, rfl, as, has, he⟩
  · rintro ⟨⟨hall, hbefore⟩, rfl, as, has, hoffending⟩
    have hg := Attributes.firstFault?_rules_eq_some_iff.mpr ⟨_, hoffending, rfl, rfl⟩
    exact ⟨hall, t, as, _, has, hbefore, hg, rfl⟩

/-- What is said of the attributes of a primitive names the first of them without an accessor. -/
theorem firstFault?_attributes_iff :
    firstFault? (p.rules d) = some ⟨["attributes", k], .indexOutOfRange a n⟩ ↔
      Attributes.position ∈ p.attributes.map Prod.fst ∧ n = d.accessors.size ∧
        p.attributes.offending? d = some (k, a) := by
  have hattributes : firstFault? ((Attributes.rules d p.attributes).map (within ["attributes"])) =
      some ⟨["attributes", k], .indexOutOfRange a n⟩ ↔
      n = d.accessors.size ∧ p.attributes.offending? d = some (k, a) := by
    rw [firstFault?_map_within, Attributes.firstFault?_rules, Option.map_map,
      Option.map_eq_some_iff]
    simp only [Function.comp_apply, Fault.mk.injEq, List.cons_append, List.nil_append,
      List.cons.injEq, true_and, and_true, Step.member.injEq, Reason.indexOutOfRange.injEq]
    constructor
    · rintro ⟨⟨l, b⟩, he, rfl, rfl, rfl⟩
      exact ⟨rfl, he⟩
    · rintro ⟨rfl, he⟩
      exact ⟨_, he, rfl, rfl, rfl⟩
  -- What comes after the attributes is said of other members.
  have hother : ∀ rs : List Rule, (∀ r ∈ rs, r.fault.field.head? ≠ some (.member "attributes")) →
      firstFault? rs ≠ some ⟨["attributes", k], .indexOutOfRange a n⟩ :=
    fun _ h => firstFault?_ne_some h
  have hindices := hother (ifGiven p.indices fun i => [index ["indices"] i d.accessors.size])
    (by simp [forall_mem_ifGiven, need, index])
  have hmaterial := hother (ifGiven p.material fun i => [index ["material"] i d.materials.size])
    (by simp [forall_mem_ifGiven, need, index])
  have hmode := hother (ifGiven p.mode fun n => [coded PrimitiveMode ["mode"] n])
    (by simp [forall_mem_ifGiven, need, coded])
  have htargets := hother (each ["targets"] p.targets (Attributes.rules d))
    fun r hr => by simp [head_of_mem_each r hr]
  -- What comes before them is that there is no position, which is another reason.
  have hposition : firstFault? [need (Attributes.position ∈ p.attributes.map Prod.fst)
      ["attributes", Attributes.position] .missing] ≠
      some ⟨["attributes", k], .indexOutOfRange a n⟩ := by
    intro h
    obtain ⟨r, hr, -, hf⟩ := Document.exists_rule_of_firstFault? h
    obtain rfl := List.mem_singleton.mp hr
    cases hf
  simp only [rules, firstFault?_append_eq_some_iff, hposition, hattributes, hindices, hmaterial,
    hmode, htargets, or_false, and_false, false_or, all_cons, all_nil, holds_need, and_true]

end Primitive

/-- What is said of a primitive of a mesh is said of the first one of which something is. -/
theorem Mesh.firstFault?_primitives_iff {m : Mesh} {i : Nat} {field : Field} {reason : Reason} :
    firstFault? (m.rules d) = some ⟨.member "primitives" :: .element i :: field, reason⟩ ↔
      ∃ p, m.primitives[i]? = some p ∧ (∀ q ∈ m.primitives.take i, q.Valid d) ∧
        firstFault? (p.rules d) = some ⟨field, reason⟩ := by
  have hsome : firstFault? [nonempty ["primitives"] m.primitives] ≠
      some ⟨.member "primitives" :: .element i :: field, reason⟩ := by
    intro h
    obtain ⟨r, hr, -, hf⟩ := Document.exists_rule_of_firstFault? h
    obtain rfl := List.mem_singleton.mp hr
    cases hf
  have hweights : firstFault? (ifGiven m.primitives.head? fun p => ifGiven m.weights fun xs =>
      [need (xs.length = p.targets.length) ["weights"]
        (.mismatch (.weights xs.length p.targets.length))]) ≠
      some ⟨.member "primitives" :: .element i :: field, reason⟩ :=
    firstFault?_ne_some (by simp [forall_mem_ifGiven, need])
  simp only [rules, firstFault?_append_eq_some_iff, hsome, hweights, firstFault?_each_eq_some_iff,
    or_false, and_false, false_or, all_cons, all_nil, holds_nonempty, and_true]
  constructor
  · rintro ⟨-, j, p, ⟨field', reason'⟩, hp, hbefore, hg, hf⟩
    simp only [Fault.mk.injEq, List.cons_append, List.nil_append, List.cons.injEq, true_and,
      Step.element.injEq] at hf
    obtain ⟨⟨rfl, rfl⟩, rfl⟩ := hf
    exact ⟨p, hp, fun q hq => Primitive.all_rules_iff.mp (hbefore q hq), hg⟩
  · rintro ⟨p, hp, hbefore, hg⟩
    refine ⟨?_, i, p, _, hp, fun q hq => Primitive.all_rules_iff.mpr (hbefore q hq), hg, rfl⟩
    rintro hnil
    rw [hnil] at hp
    contradiction

namespace Document

/-- What is reported of the attributes in a document: the first one without an accessor, in the
first primitive of a mesh of which something is reported. -/
structure ReportsFirst (c : Config) (d : Document) : Prop where
  /-- An attribute of a primitive is reported if the primitives before it are valid, it has a
  position, and the attribute is the first without an accessor. -/
  attributes : ∀ (i j : Nat) (k : String) (a : Int64) (n : Nat),
    d.check c (.element .mesh i) = some ⟨.mesh, some i,
      ⟨["primitives", j, "attributes", k], .indexOutOfRange a n⟩⟩ ↔
    ∃ m p, d.meshes[i]? = some m ∧ m.primitives[j]? = some p ∧
      (∀ q ∈ m.primitives.take j, q.Valid d) ∧
      Attributes.position ∈ p.attributes.map Prod.fst ∧
      n = d.accessors.size ∧ p.attributes.offending? d = some (k, a)
  /-- An attribute of a morph target is reported if the primitive would be valid with the morph
  targets before it alone, and the attribute is the first without an accessor. -/
  targets : ∀ (i j t : Nat) (k : String) (a : Int64) (n : Nat),
    d.check c (.element .mesh i) = some ⟨.mesh, some i,
      ⟨["primitives", j, "targets", t, k], .indexOutOfRange a n⟩⟩ ↔
    ∃ m p, d.meshes[i]? = some m ∧ m.primitives[j]? = some p ∧
      (∀ q ∈ m.primitives.take j, q.Valid d) ∧
      ({ p with targets := p.targets.take t } : Primitive).Valid d ∧
      n = d.accessors.size ∧
      ∃ as, p.targets[t]? = some as ∧ Attributes.offending? d as = some (k, a)

/-- The check of a mesh is that of its rules. -/
theorem check_mesh_eq_some_iff {c : Config} {i : Nat} {f : Fault} :
    d.check c (.element .mesh i) = some ⟨.mesh, some i, f⟩ ↔
      ∃ m, d.meshes[i]? = some m ∧ firstFault? (m.rules d) = some f := by
  have hrules : (d.collectionRules c .mesh)[i]? = (d.meshes[i]?).map (Mesh.rules d) := by
    simp [collectionRules, ruled, Function.comp_def]
  rw [check, hrules]
  cases d.meshes[i]? with
  | none => simp
  | some m => simp [elementCheck]

/-- The first fault of a document is reported. -/
theorem reportsFirst (c : Config) (d : Document) : d.ReportsFirst c where
  attributes i j k a n := by
    rw [check_mesh_eq_some_iff]
    simp only [Mesh.firstFault?_primitives_iff, Primitive.firstFault?_attributes_iff,
      exists_and_left]
  targets i j t k a n := by
    rw [check_mesh_eq_some_iff]
    simp only [Mesh.firstFault?_primitives_iff, Primitive.firstFault?_targets_iff,
      exists_and_left]

end Document

end GltfAsset
