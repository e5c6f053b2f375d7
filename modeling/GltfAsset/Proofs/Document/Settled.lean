import GltfAsset.Proofs.Document.Attributes
import GltfAsset.Proofs.Document.Steady
import GltfAsset.Proofs.Validity.Offending

/-!
# Documents whose attributes are given more than once

A document may be written with any lists of attributes, in which names occur more than once. What is
decoded of its text is the document with each name kept once, in the place of its first occurrence
and with the accessor of its last, and from then on it stays as it is. Where accessors are missing,
the first of the attributes in this order is reported (`Document.attributes_in_order`).
-/

namespace GltfAsset

open Json

namespace Json

variable {α R : Type} {c : Codec α}

/-- A record is read of its own text as it is filled with its members. -/
theorem Schema.Lawful.reread_eq [Leaves R] {s : Schema R} (hs : s.Lawful SteadyCodec) {r : R}
    (hr : AllLeaves Leaf.WellFormed r) : s.codec.reread r = Schema.refill r s.fields s.initial :=
  (hs.rereads hr).reread_eq

/-- What is read of a list if its elements are read back without the parts that are settled. -/
theorem Codec.list_reread_settled [Leaves α] (hc : SteadyCodec α c) {bare settled : α → α}
    {xs : List α} (hxs : ∀ x ∈ xs, AllLeaves Leaf.WellFormed x)
    (hbare : ∀ x ∈ xs, AllLeaves Leaf.WellFormed (bare x))
    (h : c.list.reread (xs.map bare) = .ok (xs.map bare))
    (hsettled : ∀ x ∈ xs, c.reread (bare x) = .ok (bare x) → c.reread x = .ok (settled x)) :
    c.list.reread xs = .ok (xs.map settled) := by
  have hread : ∀ x ∈ xs.map bare, c.reread x = .ok x :=
    (list_reread_eq_ok_iff (List.forall_mem_map.mpr fun x hx => hc _ (hbare x hx))).mp h
  refine (list_reread_eq_ok_map_iff fun x hx => hc x (hxs x hx)).mpr fun x hx => ?_
  exact hsettled x hx (hread _ (List.mem_map_of_mem hx))

/-- A record is nested no deeper than one of which each member is nested at least as deep. -/
theorem Schema.nesting_le {s : Schema R} {r z : R}
    (h : ∀ f ∈ s.fields, ∀ j ∈ f.toJson r, ∃ k ∈ f.toJson z, j.nesting ≤ k.nesting) :
    (s.codec.toJson r).nesting ≤ (s.codec.toJson z).nesting := by
  refine Nat.succ_le_succ (nestingMembers_le_iff.mpr fun km hkm => ?_)
  obtain ⟨f, hf, hj, hname⟩ := mem_members_iff.mp hkm
  obtain ⟨k, hk, hle⟩ := h f hf km.2 hj
  have hmem : (f.name, k) ∈ s.members z := mem_members_iff.mpr ⟨f, hf, hk, rfl⟩
  exact Nat.le_trans hle (nesting_le_nestingMembers hmem)

/-- A list is nested no deeper than one of which each element is nested at least as deep. -/
theorem Codec.nesting_list_le {bare : α → α} {xs : List α}
    (h : ∀ x ∈ xs, (c.toJson x).nesting ≤ (c.toJson (bare x)).nesting) :
    (c.list.toJson xs).nesting ≤ (c.list.toJson (xs.map bare)).nesting := by
  refine Nat.succ_le_succ (nestingItems_le_iff.mpr (List.forall_mem_map.mpr fun x hx => ?_))
  refine Nat.le_trans (h x hx) (nestingItems_le_iff.mp (Nat.le_refl _) _ ?_)
  exact List.mem_map_of_mem (List.mem_map_of_mem hx)

/-- A required member is nested no deeper than one that is nested at least as deep. -/
theorem Field.nesting_always_le {name : String} {get : R → α} {set : α → R → R} {r z : R}
    (h : (c.toJson (get r)).nesting ≤ (c.toJson (get z)).nesting) :
    ∀ j ∈ (always name c get set).toJson r, ∃ k ∈ (always name c get set).toJson z,
      j.nesting ≤ k.nesting := by
  rintro j hj
  obtain rfl := Option.some.inj hj
  exact ⟨_, rfl, h⟩

/-- A list of a record is nested no deeper than one whose elements are nested at least as deep. -/
theorem Field.nesting_many_le {bare : α → α} {name : String} {get : R → List α}
    {set : List α → R → R} {r z : R} (hget : get z = (get r).map bare)
    (h : ∀ x ∈ get r, (c.toJson x).nesting ≤ (c.toJson (bare x)).nesting) :
    ∀ j ∈ (many name c get set).toJson r, ∃ k ∈ (many name c get set).toJson z,
      j.nesting ≤ k.nesting := by
  intro j hj
  simp only [many, hget] at hj ⊢
  split at hj
  · contradiction
  · rename_i hne
    obtain rfl := Option.some.inj hj
    refine ⟨_, ?_, Codec.nesting_list_le h⟩
    rw [if_neg (by simpa using hne)]
    rfl

end Json

/-- All attributes are nested equally deep. -/
theorem Attributes.nesting_le (as bs : Attributes) :
    (codec.toJson as).nesting ≤ (codec.toJson bs).nesting := by
  refine Nat.succ_le_succ (nestingMembers_le_iff.mpr ?_)
  exact List.forall_mem_map.mpr fun _ _ => Nat.zero_le _

section

variable {P : Leaf → Prop}

namespace Primitive

/-- The primitive with each name of an attribute kept once. -/
def settled (p : Primitive) : Primitive :=
  { p with
    attributes := Attributes.settled p.attributes
    targets := p.targets.map Attributes.settled }

/-- The primitive without attributes. -/
def bare (p : Primitive) : Primitive :=
  { p with attributes := [], targets := p.targets.map fun _ => [] }

/-- It has the same leaves but attributes. -/
theorem allLeaves_bare_iff (hP : ∀ as, P (.attributes as)) {p : Primitive} :
    AllLeaves P p.bare ↔ AllLeaves P p := by
  simp [allLeaves_iff, bare, allLeaves_attributes, allLeaves_list, hP]

/-- A primitive is written no deeper than it is without attributes. -/
theorem nesting_le_bare (p : Primitive) :
    (codec.toJson p).nesting ≤ (codec.toJson p.bare).nesting := by
  refine Schema.nesting_le ?_
  simp only [schema, List.forall_mem_cons, List.not_mem_nil, false_implies, implies_true, and_true]
  refine ⟨Field.nesting_always_le (Attributes.nesting_le _ _), ?_, ?_, ?_,
    Field.nesting_many_le rfl fun _ _ => Attributes.nesting_le _ _, ?_, ?_⟩
  all_goals exact fun j hj => ⟨j, hj, Nat.le_refl _⟩

/-- A primitive that is read back without attributes is read with each name kept once. -/
theorem reread_settled {p : Primitive} (hp : AllLeaves Leaf.WellFormed p)
    (h : codec.reread p.bare = .ok p.bare) : codec.reread p = .ok p.settled := by
  have htargets : Attributes.codec.list.reread p.targets =
      .ok (p.targets.map Attributes.settled) := by
    refine (Codec.list_reread_eq_ok_map_iff fun as _ => ?_).mpr fun as _ => ?_
    · exact lifts_steady.attributes as (allLeaves_attributes.mpr trivial)
    · rw [Attributes.reread_eq, Attributes.ofEntries_eq_settled]
  have hbare := (allLeaves_bare_iff fun _ => trivial).mpr hp
  rw [codec, (lawful lifts_steady).reread_eq hbare] at h
  rw [codec, (lawful lifts_steady).reread_eq hp]
  simp only [bare, List.map_const', schema, Schema.refill_always, Schema.refill_optional,
    Schema.refill_many, Schema.refill_nil, mk.injEq, ↓existsAndEq, and_true] at h
  simp [schema, settled, h, htargets, Attributes.reread_eq, Attributes.ofEntries_eq_settled]

end Primitive

namespace Mesh

/-- The mesh with each name of an attribute kept once in each place. -/
def settled (m : Mesh) : Mesh := { m with primitives := m.primitives.map Primitive.settled }

/-- The mesh without attributes. -/
def bare (m : Mesh) : Mesh := { m with primitives := m.primitives.map Primitive.bare }

/-- It has the same leaves but attributes. -/
theorem allLeaves_bare_iff (hP : ∀ as, P (.attributes as)) {m : Mesh} :
    AllLeaves P m.bare ↔ AllLeaves P m := by
  simp only [allLeaves_iff, bare, allLeaves_list, List.forall_mem_map,
    Primitive.allLeaves_bare_iff hP]

/-- A mesh is written no deeper than it is without attributes. -/
theorem nesting_le_bare (m : Mesh) :
    (codec.toJson m).nesting ≤ (codec.toJson m.bare).nesting := by
  refine Schema.nesting_le ?_
  simp only [schema, List.forall_mem_cons, List.not_mem_nil, false_implies, implies_true, and_true]
  refine ⟨Field.nesting_always_le (Codec.nesting_list_le fun p _ => p.nesting_le_bare), ?_, ?_, ?_,
    ?_⟩
  all_goals exact fun j hj => ⟨j, hj, Nat.le_refl _⟩

/-- A mesh that is read back without attributes is read with each name kept once, primitive by
primitive. -/
theorem reread_settled {m : Mesh} (hm : AllLeaves Leaf.WellFormed m)
    (h : codec.reread m.bare = .ok m.bare) : codec.reread m = .ok m.settled := by
  have hbare := (allLeaves_bare_iff fun _ => trivial).mpr hm
  rw [codec, (lawful lifts_steady).reread_eq hbare] at h
  rw [codec, (lawful lifts_steady).reread_eq hm]
  simp only [bare, schema, Schema.refill_always, Schema.refill_optional, Schema.refill_nil,
    mk.injEq, ↓existsAndEq, and_true] at h
  have hprimitives : Primitive.codec.list.reread m.primitives =
      .ok (m.primitives.map Primitive.settled) := by
    have hleaves := allLeaves_list.mp (allLeaves_iff.mp hm).1
    refine Codec.list_reread_settled (Primitive.lifted lifts_steady) hleaves (fun p hp => ?_) h.1
      fun p hp => Primitive.reread_settled (hleaves p hp)
    exact (Primitive.allLeaves_bare_iff fun _ => trivial).mpr (hleaves p hp)
  simp [schema, settled, h, hprimitives]

end Mesh

namespace Document

/-- The document with each name of an attribute kept once in each place. -/
def settled (d : Document) : Document := { d with meshes := d.meshes.map Mesh.settled }

/-- The document without attributes. -/
def bare (d : Document) : Document := { d with meshes := d.meshes.map Mesh.bare }

/-- It has the same leaves but attributes. -/
theorem allLeaves_bare_iff (hP : ∀ as, P (.attributes as)) {d : Document} :
    AllLeaves P d.bare ↔ AllLeaves P d := by
  have harray : ∀ xs : Array Mesh, AllLeaves P xs ↔ ∀ m ∈ xs.toList, AllLeaves P m :=
    fun _ => allLeaves_list
  have hmeshes : AllLeaves P (d.meshes.map Mesh.bare) ↔ AllLeaves P d.meshes := by
    rw [harray, harray, Array.toList_map, List.forall_mem_map]
    simp only [Mesh.allLeaves_bare_iff hP]
  simp [allLeaves_iff, bare, hmeshes]

/-- A document is written no deeper than it is without attributes. -/
theorem nesting_le_bare (d : Document) :
    (codec.toJson d).nesting ≤ (codec.toJson d.bare).nesting := by
  refine Schema.nesting_le ?_
  simp only [schema, List.forall_mem_cons, List.not_mem_nil, false_implies, implies_true, and_true]
  and_intros
  all_goals first
    | exact fun j hj => ⟨j, hj, Nat.le_refl _⟩
    | exact Field.nesting_many_le (Array.toList_map ..) fun m _ => m.nesting_le_bare

/-- A document that is read back without attributes is read with each name kept once, mesh by
mesh. -/
theorem reread_settled {d : Document} (hd : AllLeaves Leaf.WellFormed d)
    (h : codec.reread d.bare = .ok d.bare) : codec.reread d = .ok d.settled := by
  have hbare := (allLeaves_bare_iff fun _ => trivial).mpr hd
  rw [codec, (lawful lifts_steady).reread_eq hbare] at h
  rw [codec, (lawful lifts_steady).reread_eq hd]
  simp only [bare, schema, Schema.refill_many, Schema.refill_collection, Schema.refill_always,
    Schema.refill_optional, Schema.refill_nil, mk.injEq, ↓existsAndEq, and_true] at h
  have hmesh : Mesh.codec.rereadArray (d.meshes.map Mesh.bare) = .ok (d.meshes.map Mesh.bare) := by
    simp only [h]
  have hmeshes : Mesh.codec.rereadArray d.meshes = .ok (d.meshes.map Mesh.settled) := by
    have hleaves : ∀ m ∈ d.meshes.toList, AllLeaves Leaf.WellFormed m :=
      allLeaves_list.mp (allLeaves_iff.mp hd).2.2.2.2.2.2.2.2.1
    rw [Codec.rereadArray_eq_ok_iff_list, Array.toList_map] at hmesh
    have hlist := Codec.list_reread_settled (Mesh.lifted lifts_steady) hleaves
      (fun m hm => (Mesh.allLeaves_bare_iff fun _ => trivial).mpr (hleaves m hm)) hmesh
      fun m hm => Mesh.reread_settled (hleaves m hm)
    rw [Codec.rereadArray, hlist, map_ok, ← Array.toList_map, Array.toArray_toList]
  simp [schema, settled, h, hmeshes]

/-- The text of a document, whatever lists of attributes it has, is read as the document with each
name kept once, if the rest of it is read back. -/
theorem decode_encode_settled {d : Document} {l₀ : Layout}
    (h : decode (d.bare.encode l₀) = .ok d.bare) (l : Layout) :
    decode (d.encode l) = .ok d.settled := by
  obtain ⟨hdecoded, hnesting⟩ := held_of_decode h
  have hbare : AllLeaves Leaf.WellFormed d.bare :=
    AllLeaves.imp hdecoded fun _ => Leaf.Decoded.wellFormed
  have hleaves : AllLeaves Leaf.WellFormed d := (allLeaves_bare_iff fun _ => trivial).mp hbare
  have hnesting : (codec.toJson d.bare).nesting < 128 := Nat.lt_succ_of_le hnesting
  rw [decode_encode_eq_reread l₀ hnesting hbare] at h
  rw [decode_encode_eq_reread l (Nat.lt_of_le_of_lt d.nesting_le_bare hnesting) hleaves]
  exact reread_settled hleaves h

/-- Without attributes it does not matter which of them are kept. -/
theorem bare_settled (d : Document) : d.settled.bare = d.bare := by
  simp [settled, bare, Mesh.settled, Mesh.bare, Primitive.settled, Primitive.bare,
    Function.comp_def]

/-- What is kept once is kept as it is. -/
theorem settled_settled (d : Document) : d.settled.settled = d.settled := by
  have hsettled : ∀ as, Attributes.settled (Attributes.settled as) = Attributes.settled as :=
    fun as => Attributes.settled_of_nodup (Attributes.nodup_settled as)
  simp [settled, Mesh.settled, Primitive.settled, Function.comp_def, hsettled]

/-- Of names and accessors that are listed in an object, those that are kept are read as the
attributes of a primitive and as its morph targets, they are written in the order in which they are
kept, so they are read again, and the first of them without an accessor is reported. -/
theorem attributes_in_order {d : Document} {l₀ : Layout}
    (h : decode (d.bare.encode l₀) = .ok d.bare) (c : Check.Config) :
    Primitive.ReadsInOrder ∧
    (∀ l, decode (d.encode l) = .ok d.settled) ∧
    (∀ as l m, Attributes.Listed as ((Attributes.codec.toJson as).write l m)) ∧
    (∀ l, decode (d.settled.encode l) = .ok d.settled) ∧
    d.settled.ReportsFirst c := by
  have hsettled : decode (d.settled.bare.encode l₀) = .ok d.settled.bare := by rwa [bare_settled]
  refine ⟨Primitive.readsInOrder, decode_encode_settled h, Attributes.listed_write, fun l => ?_,
    reportsFirst c d.settled⟩
  rw [decode_encode_settled hsettled l, settled_settled]

/-- Attributes of which some are given twice, the first time with other accessors. -/
def primitiveGivenTwice : Primitive where
  attributes := [("NORMAL", 7), ("POSITION", 0), ("TANGENT", 1), ("NORMAL", 1), ("POSITION", -1)]
  targets := [[("POSITION", 9), ("POSITION", 0)]]

/-- A document with these attributes. -/
def givenTwice : Document where
  asset := { version := "2.0", extras := some (.array [.null, .float (Binary.ofInt 2)]) }
  accessors := #[{}, {}]
  meshes := #[{ primitives := [primitiveGivenTwice] }]

/-- The normals have an accessor after all, and the positions have none. -/
theorem attributes_in_order_givenTwice :
    decode (givenTwice.bare.encode .compact) = .ok givenTwice.bare ∧
      decode (givenTwice.encode .indented) = .ok givenTwice.settled ∧
      givenTwice.settled.check {} (.element .mesh 0) = some ⟨.mesh, some 0,
        ⟨["primitives", (0 : Nat), "attributes", "POSITION"], .indexOutOfRange (-1) 2⟩⟩ := by
  have h : decode (givenTwice.bare.encode .compact) = .ok givenTwice.bare := by decide +kernel
  obtain ⟨-, hread, -, -, hreports⟩ := attributes_in_order h {}
  have hmesh : givenTwice.settled.meshes[0]? =
      some { primitives := [primitiveGivenTwice.settled] } := by
    simp [settled, givenTwice, Mesh.settled]
  refine ⟨h, hread .indented, (hreports.attributes 0 0 _ _ _).mpr ?_⟩
  exact ⟨_, primitiveGivenTwice.settled, hmesh, rfl, by simp, by decide +kernel, rfl,
    by decide +kernel⟩

end Document

end

end GltfAsset
