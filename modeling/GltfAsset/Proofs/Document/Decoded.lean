import Mathlib.Algebra.Group.Int.Defs
import Mathlib.Data.Nat.Find
import GltfAsset.Proofs.Document.Image
import GltfAsset.Proofs.Document.Induction
import GltfAsset.Proofs.Json.Levels
import GltfAsset.Proofs.Text.Order

/-!
# What the decoder can produce

A document that is decoded is one that the checks and the encoder can rely on: names of attributes
are distinct, free values are not `null`, floats are numbers, objects in free values have their
members in the order of their keys, and the numbers in free values fit their types
(`DecodedFrom`, `Document.decodedFrom_of_decode`).

It is also written no deeper than it was read. The depth of what is read of a text is the least
number of arrays and objects that the reader has to be allowed to enter (`Codec.DecodedDepth`): with
fewer it gives up. What is passed over is not entered, so it does not count.
-/

namespace GltfAsset

open Json

/-! ## The parts of a free value -/

namespace Value

mutual

/-- The values in a value, itself included. -/
def parts : Value → List Value
  | .array vs => .array vs :: partsItems vs
  | .object ms => .object ms :: partsMembers ms
  | v => [v]

/-- The values in the elements. -/
def partsItems : List Value → List Value
  | [] => []
  | v :: vs => v.parts ++ partsItems vs

/-- The values in the values of the members. -/
def partsMembers : List (String × Value) → List Value
  | [] => []
  | (_, v) :: ms => v.parts ++ partsMembers ms

end

mutual

/-- The parts of a value that can be held can be held. -/
theorem WellFormed.parts : ∀ {v : Value}, v.WellFormed → ∀ w ∈ v.parts, w.WellFormed
  | .null, h | .boolean _, h | .integer _, h | .float _, h | .string _, h => by
    rw [Value.parts]
    · exact List.forall_mem_singleton.mpr h
    all_goals simp
  | .array vs, h => by
    rw [Value.parts]
    refine List.forall_mem_cons.mpr ⟨h, ?_⟩
    rw [WellFormed] at h
    exact WellFormedItems.parts h
  | .object ms, h => by
    rw [Value.parts]
    refine List.forall_mem_cons.mpr ⟨h, ?_⟩
    rw [WellFormed] at h
    exact WellFormedMembers.parts h.2

/-- The parts of values that can be held can be held. -/
theorem WellFormedItems.parts : ∀ {vs : List Value}, WellFormedItems vs →
    ∀ w ∈ partsItems vs, w.WellFormed
  | [], _ => by simp [partsItems]
  | v :: vs, h => by
    rw [WellFormedItems] at h
    rw [partsItems]
    exact List.forall_mem_append.mpr ⟨h.1.parts, WellFormedItems.parts h.2⟩

/-- The parts of members that can be held can be held. -/
theorem WellFormedMembers.parts : ∀ {ms : List (String × Value)}, WellFormedMembers ms →
    ∀ w ∈ partsMembers ms, w.WellFormed
  | [], _ => by simp [partsMembers]
  | (_, v) :: ms, h => by
    rw [WellFormedMembers] at h
    rw [partsMembers]
    exact List.forall_mem_append.mpr ⟨h.1.parts, WellFormedMembers.parts h.2⟩

end

/-- The keys of each object in a value that can be held are in the order of their bytes. -/
theorem WellFormed.pairwise_keys {v : Value} (h : v.WellFormed) {ms : List (String × Value)}
    (hms : .object ms ∈ v.parts) : (ms.map fun m => Bytes.ofString m.1).Pairwise (· < ·) := by
  have hobject : (object ms).WellFormed := h.parts _ hms
  rw [WellFormed] at hobject
  have hkeys : ms.Pairwise (·.1 < ·.1) := List.pairwise_map.mp hobject.1
  exact List.pairwise_map.mpr (hkeys.imp fun h => Bytes.ofString_lt_ofString_iff.mpr h)

end Value

/-! ## The depth of what is read -/

namespace Json

variable {α R : Type}

/-- What is read with fewer levels is read with more, through any number between. -/
theorem Outlasts.trans {deepest deeper res : Except Error α} (h₁ : Outlasts deepest deeper)
    (h₂ : Outlasts deeper res) : Outlasts deepest res := by
  rcases h₂ with rfl | rfl
  · exact .inl rfl
  · exact h₁

/-- What is not refused for its depth is the same with more levels. -/
theorem Outlasts.eq_of_ne {deeper res : Except Error α} (h : Outlasts deeper res)
    (hres : res ≠ .error .tooDeep) : deeper = res :=
  h.resolve_left hres

/-- A reader with more levels refuses no more, and reads the same. -/
theorem Codec.Deepens.outlasts {c : Codec α} (hc : c.Deepens) {n m : Nat} (hnm : n ≤ m)
    (t : Bytes) : Outlasts ((c.reader m).all t) ((c.reader n).all t) := by
  induction m, hnm using Nat.le_induction with
  | base => exact .refl _
  | succ m _ ih => exact ((hc m).all t).trans ih

/-- What is read of the text has the depth `k`: a reader has to be allowed to enter this number of
arrays and objects, one inside the other, and need not be allowed more. -/
structure Codec.DecodedDepth (c : Codec α) (t : Bytes) (k : Nat) : Prop where
  /-- With that many levels the text is read. -/
  reads : ∃ x, (c.reader k).all t = .ok x
  /-- With fewer levels the reader gives up for want of them. -/
  least : ∀ n < k, (c.reader n).all t = .error .tooDeep

/-- A text that is read has a depth, at most the number of levels that were allowed, and with this
number of levels the same is read. -/
theorem Codec.Deepens.exists_depth {c : Codec α} (hc : c.Deepens) {t : Bytes} {n : Nat} {x : α}
    (h : (c.reader n).all t = .ok x) :
    ∃ k ≤ n, c.DecodedDepth t k ∧ (c.reader k).all t = .ok x := by
  classical
  have hexists : ∃ k, (c.reader k).all t ≠ .error .tooDeep := ⟨n, by simp [h]⟩
  have hle : Nat.find hexists ≤ n := Nat.find_min' hexists (by simp [h])
  -- From the least number of levels on, the result stays what it is with `n` levels.
  have hread : (c.reader (Nat.find hexists)).all t = .ok x :=
    ((hc.outlasts hle t).eq_of_ne (Nat.find_spec hexists)).symm.trans h
  refine ⟨_, hle, ⟨⟨x, hread⟩, fun m hm => ?_⟩, hread⟩
  exact not_not.mp (Nat.find_min hexists hm)

/-- A member that is read with more levels is read as before, if there were enough. -/
theorem Field.Made.deepens [Leaves R] {f : Field R} {fs : List (Field R)} {copy : R → R → R}
    (h : f.Made (fun _ _ c => c.Deepens) fs copy) : f.Deepens := by
  intro n
  cases h with
  | always codec => exact (codec n).map _
  | optional codec => exact (codec n).optional.map _
  | free => exact (deepens_valueReader n).optional.map _
  | many codec => exact (Reader.deepens_sequence_below codec n).map _

/-- More levels change nothing but whether there are enough of them. -/
theorem lifts_deepens : Lifts fun _ _ c => c.Deepens where
  string _ := .refl _
  boolean _ := .refl _
  integer _ := .refl _
  single _ := .refl _
  attributes n := (Reader.deepens_pairs_below (fun _ => .refl _) n).map _
  list hc n := Reader.deepens_sequence_below hc n
  vector hc n := Reader.deepens_sequence_below hc n
  record hs := Schema.deepens_codec (hs.forall_mem Field.Made.deepens)

end Json

/-! ## Documents -/

/-- What a document that is decoded from a text fulfils, in all its entities. -/
structure DecodedFrom (t : Bytes) (d : Document) : Prop where
  /-- The names of attributes, of primitives and of morph targets, are distinct. -/
  attributes : ∀ as, .attributes as ∈ leaves d → (as.map Prod.fst).Nodup
  /-- A free value that is there is not `null`. -/
  free : ∀ v, .free v ∈ leaves d → v ≠ .null
  /-- A 32-bit float, on its own or in an array, is a number. -/
  single : ∀ x, .single x ∈ leaves d → x ≠ .nan
  /-- The keys of an object in a free value increase, in the order of their bytes. -/
  keys : ∀ v, .free v ∈ leaves d → ∀ ms, .object ms ∈ v.parts →
    (ms.map fun m => Bytes.ofString m.1).Pairwise (· < ·)
  /-- An integer in a free value has 64 bits, with or without sign. -/
  integers : ∀ v, .free v ∈ leaves d → ∀ n, .integer n ∈ v.parts → -2 ^ 63 ≤ n ∧ n < 2 ^ 64
  /-- A float in a free value is finite. -/
  floats : ∀ v, .free v ∈ leaves d → ∀ x, .float x ∈ v.parts → x.IsFinite
  /-- The document is written no deeper than what was read of the text, which has fewer than 128
  levels. -/
  depth : ∃ k, Document.codec.DecodedDepth t k ∧ (Document.codec.toJson d).nesting ≤ k ∧ k < 128

/-- What the decoder gives, for all texts that it accepts. -/
theorem Document.decodedFrom_of_decode {t : Bytes} {d : Document} (h : decode t = .ok d) :
    DecodedFrom t d := by
  have hleaves : AllLeaves Leaf.Decoded d := (held_of_decode h).leaves
  have hfree : ∀ v, .free v ∈ leaves d → v ≠ .null ∧ v.WellFormed := fun v hv => hleaves _ hv
  exact {
    attributes := fun as has => hleaves _ has
    free := fun v hv => (hfree v hv).1
    single := fun x hx => hleaves _ hx
    keys := fun v hv ms hms => (hfree v hv).2.pairwise_keys hms
    integers := fun v hv n hn => by
      have hn : (Value.integer n).WellFormed := (hfree v hv).2.parts _ hn
      rw [Value.WellFormed] at hn
      exact hn
    floats := fun v hv x hx => by
      have hx : (Value.float x).WellFormed := (hfree v hv).2.parts _ hx
      rw [Value.WellFormed] at hx
      exact hx
    depth := by
      obtain ⟨k, hk, hdepth, hread⟩ := (lifted lifts_deepens).exists_depth h
      have hheld : codec.Held k d := Reader.Yields.all (holds k) hread
      exact ⟨k, hdepth, hheld.nesting_le, Nat.lt_succ_of_le hk⟩ }

/-- A document with a name of an attribute that is given twice and with data of the application. -/
def Document.repeated : Document where
  asset := {
    version := "2.0"
    extras := some (.object [("a", .array [.float (.ofMagnitude false 0x4004000000000000)]),
      ("b", .integer (-2))]) }
  meshes := #[{ primitives := [{ attributes := [("POSITION", 2), ("NORMAL", 1)] }] }]

/-- A text of this document, with a member that no document has. -/
def Document.textOfRepeated : Bytes :=
  Bytes.ofString ("\x7b\"asset\":\x7b\"version\":\"2.0\",\"extras\":\x7b\"b\":1,\"a\":[2.5]," ++
    "\"b\":-2\x7d\x7d,\"meshes\":[\x7b\"primitives\":[\x7b\"attributes\":\x7b\"POSITION\":0," ++
    "\"NORMAL\":1,\"POSITION\":2\x7d\x7d]\x7d],\"more\":[[[[[[[0]]]]]]]\x7d")

/-- A text with seven levels that are passed over. The six levels of its attributes count. -/
theorem Document.decodedFrom_of_decode_repeated :
    decode textOfRepeated = .ok repeated ∧ DecodedFrom textOfRepeated repeated ∧
      codec.DecodedDepth textOfRepeated 6 := by
  refine ⟨by decide +kernel, decodedFrom_of_decode (by decide +kernel), ?_⟩
  exact ⟨⟨repeated, by decide +kernel⟩, by decide +kernel⟩

end GltfAsset
