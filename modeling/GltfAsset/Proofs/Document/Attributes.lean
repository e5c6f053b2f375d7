import GltfAsset.Proofs.Document.Image
import GltfAsset.Proofs.Json.Listed

/-!
# Attributes that are given more than once

Of the names and accessors in an object, each name is kept in the place of its first occurrence,
with the accessor of its last (`Attributes.settled`). So are they read as the attributes of a
primitive and as a morph target, however the text is spelled (`Primitive.readsInOrder`).
-/

namespace GltfAsset

open Json

namespace Attributes

variable {k l : String} {a : Int64} {as : Attributes} {es : List (String × Int64)}

/-- The distinct names in the order in which they first occur, each with the accessor that it occurs
with last. -/
def settled (es : List (String × Int64)) : Attributes :=
  (es.map Prod.fst).eraseDups.filterMap fun k => (es.reverse.lookup k).map (k, ·)

/-- The first entry of the name decides. -/
theorem lookup_cons (l k : String) (a : Int64) (as : Attributes) :
    List.lookup l ((k, a) :: as) = if l = k then some a else as.lookup l := by
  rw [List.lookup_cons]
  split
  · rw [if_pos (beq_iff_eq.mp ‹_›)]
  · rw [if_neg (beq_eq_false_iff_ne.mp ‹_›)]

/-- What is found under a key after one was put in. -/
theorem lookup_put (l k : String) (a : Int64) (as : Attributes) :
    (put k a as).lookup l = if l = k then some a else as.lookup l := by
  induction as with
  | nil => exact lookup_cons l k a []
  | cons e as ih =>
    rw [put, lookup_cons]
    split
    · rename_i hk
      rw [lookup_cons, hk]
      split <;> rfl
    · rename_i hk
      rw [lookup_cons, ih]
      split
      · rename_i hl
        rw [if_neg (hl ▸ hk)]
      · rfl

/-- A key that is put in keeps its place, or comes last if it is new. -/
theorem map_fst_put (k : String) (a : Int64) (as : Attributes) : (put k a as).map Prod.fst =
    if k ∈ as.map Prod.fst then as.map Prod.fst else as.map Prod.fst ++ [k] := by
  split
  · exact map_fst_put_of_mem ‹_›
  · rw [put_of_notMem ‹_›, List.map_append, List.map_singleton]

/-- A last entry is put in after those before it. -/
theorem ofEntries_concat (es : List (String × Int64)) (e : String × Int64) :
    ofEntries (es ++ [e]) = put e.1 e.2 (ofEntries es) := by
  rw [ofEntries, List.foldl_append]
  rfl

/-- The names are kept in the order in which they first occur. -/
theorem map_fst_ofEntries (es : List (String × Int64)) :
    (ofEntries es).map Prod.fst = (es.map Prod.fst).eraseDups := by
  induction es using List.reverseRecOn with
  | nil => rfl
  | append_singleton es e ih =>
    have hkey : ([e.1].removeAll (es.map Prod.fst)).eraseDups =
        if e.1 ∈ es.map Prod.fst then [] else [e.1] := by
      rw [List.removeAll, List.filter_singleton]
      split_ifs <;> simp_all [List.eraseDups_cons]
    rw [ofEntries_concat, map_fst_put, ih, List.map_append, List.eraseDups_append]
    simp only [List.mem_eraseDups, List.map_singleton, hkey]
    split_ifs
    · rw [List.append_nil]
    · rfl

/-- A name has the accessor that it is given last. -/
theorem lookup_ofEntries (es : List (String × Int64)) (k : String) :
    (ofEntries es).lookup k = es.reverse.lookup k := by
  induction es using List.reverseRecOn with
  | nil => rfl
  | append_singleton es e ih =>
    rw [ofEntries_concat, lookup_put, ih, List.reverse_append]
    exact (lookup_cons k e.1 e.2 es.reverse).symm

/-- Attributes with distinct names are what is found under their names. -/
theorem filterMap_lookup (h : (as.map Prod.fst).Nodup) :
    ((as.map Prod.fst).filterMap fun k => (as.lookup k).map (k, ·)) = as := by
  induction as with
  | nil => rfl
  | cons e as ih =>
    rw [List.map_cons, List.nodup_cons] at h
    -- The entry in front is none of those of the other names.
    have htail :
        (as.map Prod.fst).filterMap (fun k => (List.lookup k (e :: as)).map (k, ·)) = as := by
      refine Eq.trans (List.filterMap_congr fun k hk => ?_) (ih h.2)
      have hne : k ≠ e.1 := by
        rintro rfl
        exact h.1 hk
      rw [lookup_cons, if_neg hne]
    rw [List.map_cons, List.filterMap_cons, htail, lookup_cons, if_pos rfl]
    rfl

/-- What is kept of the names and accessors in an object. -/
theorem ofEntries_eq_settled (es : List (String × Int64)) : ofEntries es = settled es := by
  rw [← filterMap_lookup (nodup_ofEntries es), map_fst_ofEntries, settled]
  simp only [lookup_ofEntries]

/-- No key is kept twice. -/
theorem nodup_settled (es : List (String × Int64)) : ((settled es).map Prod.fst).Nodup :=
  ofEntries_eq_settled es ▸ nodup_ofEntries es

/-- Distinct names stay as they are. -/
theorem settled_of_nodup (h : (as.map Prod.fst).Nodup) : settled as = as := by
  rw [← ofEntries_eq_settled, ofEntries_of_nodup h]

/-! ## Texts -/

/-- A text of an object that lists the names and accessors in order, with the names spelled in any
way and white space wherever it is allowed. -/
def Listed (es : List (String × Int64)) (t : Bytes) : Prop :=
  ∃ w ts, Shows Codec.integer es ts ∧ t = objectText w ts

/-- A text of an array of such objects, again with any white space. -/
def AllListed (ess : List (List (String × Int64))) (t : Bytes) : Prop :=
  ∃ w is, List.Forall₂ (fun es i => Listed es i.content) ess is ∧ t = arrayText w is

/-- Attributes are written in order. -/
theorem listed_write (as : Attributes) (l : Layout) (m : Nat) :
    Listed as ((codec.toJson as).write l m) :=
  exists_write_map_eq Codec.integer ofEntries as l m

variable {t : Bytes}

/-- What is kept of the names and accessors that are listed is read. -/
theorem Listed.reads (h : Listed es t) : Reads codec.reader 1 t (settled es) := by
  obtain ⟨w, ts, hts, rfl⟩ := h
  rw [← ofEntries_eq_settled]
  exact Reads.map hts (fun e _ => Codec.rereads_integer e.2) (fun _ _ => Nat.le_refl 0) ofEntries w

/-- What is kept of the names and accessors of each object is read, in the order of the objects. -/
theorem AllListed.reads {ess : List (List (String × Int64))} (h : AllListed ess t) :
    Reads codec.list.reader 2 t (ess.map settled) := by
  obtain ⟨w, is, his, rfl⟩ := h
  refine Reads.list (List.forall₂_map_left_iff.mpr (his.imp fun es i h => ?_)) w
  exact h.reads

end Attributes

namespace Primitive

open Attributes

/-- Attributes and morph targets are read as what is kept of the names and accessors that are
listed, wherever they stand in a primitive and whatever was read of it before. -/
structure ReadsInOrder : Prop where
  /-- The attributes. -/
  attributes : ∀ {es : List (String × Int64)} {t : Bytes}, Listed es t →
    ∀ (p : Primitive) (names : List String) (n : Nat) (v w : Space) (rest : Bytes),
      "attributes" ∉ names →
      (schema.member (n + 1)).run (p, names) "attributes"
          (v.bytes ++ Mark.colon :: (w.bytes ++ (t ++ rest))) =
        .ok (({ p with attributes := settled es }, "attributes" :: names), rest)
  /-- The morph targets. -/
  targets : ∀ {ess : List (List (String × Int64))} {t : Bytes}, AllListed ess t →
    ∀ (p : Primitive) (names : List String) (n : Nat) (v w : Space) (rest : Bytes),
      "targets" ∉ names →
      (schema.member (n + 2)).run (p, names) "targets"
          (v.bytes ++ Mark.colon :: (w.bytes ++ (t ++ rest))) =
        .ok (({ p with targets := ess.map settled }, "targets" :: names), rest)

/-- The attributes and the targets of a primitive are read in order. -/
theorem readsInOrder : ReadsInOrder where
  attributes h p names n v w rest hnames := by
    have hfield : schema.field? "attributes" = some (.always "attributes" Attributes.codec
        (·.attributes) fun x r => { r with attributes := x }) := rfl
    exact Schema.run_member hfield h.reads.always hnames (Nat.le_add_left 1 n) p v w rest
  targets h p names n v w rest hnames := by
    have hfield : schema.field? "targets" = some (.many "targets" Attributes.codec (·.targets)
        fun x r => { r with targets := x }) := rfl
    exact Schema.run_member hfield h.reads.many hnames (Nat.le_add_left 2 n) p v w rest

end Primitive

end GltfAsset
