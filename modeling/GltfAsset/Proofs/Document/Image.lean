import GltfAsset.Check.Document
import GltfAsset.Proofs.Document.Held
import GltfAsset.Proofs.Document.RoundTrip

/-!
# The documents that are decoded

The codec of documents holds (`lifts_holds`). So a document that is decoded has leaves as a text
gives them, and it is written no deeper than it was read (`Document.held_of_decode`). It follows
that its text is read as the document again if and only if all 32-bit floats in it are finite
(`Document.decode_encode_of_decode`). A number beyond the largest of them is read as infinite, no
check refuses it, and it is written as `null` (`Document.decode_encode_boundless`).
-/

namespace GltfAsset

open Json

namespace Attributes

/-- An attribute whose name is there is put in its place. -/
theorem map_fst_put_of_mem {k : String} {a : Int64} {as : Attributes} (h : k ∈ as.map Prod.fst) :
    (put k a as).map Prod.fst = as.map Prod.fst := by
  induction as with
  | nil => contradiction
  | cons e as ih =>
    rw [put]
    split
    · rfl
    · rename_i hne
      rw [List.map_cons, List.mem_cons] at h
      rw [List.map_cons, List.map_cons, ih (h.resolve_left (Ne.symm hne))]

/-- Putting in an attribute keeps the names distinct. -/
theorem nodup_put {k : String} {a : Int64} {as : Attributes} (h : (as.map Prod.fst).Nodup) :
    ((put k a as).map Prod.fst).Nodup := by
  by_cases hk : k ∈ as.map Prod.fst
  · rwa [map_fst_put_of_mem hk]
  · rw [put_of_notMem hk, List.map_append, List.map_singleton, ← List.concat_eq_append]
    exact h.concat hk

/-- The names of what is kept are distinct. -/
theorem nodup_ofEntries (es : List (String × Int64)) : ((ofEntries es).map Prod.fst).Nodup := by
  have hfold : ∀ as : Attributes, (as.map Prod.fst).Nodup →
      ((es.foldl (fun as e => put e.1 e.2 as) as).map Prod.fst).Nodup := by
    induction es with
    | nil => exact fun _ h => h
    | cons e es ih => exact fun as h => ih _ (nodup_put h)
  exact hfold [] List.nodup_nil

/-- Attributes that are read have distinct names. -/
theorem holds : codec.Holds := by
  intro n
  have hpairs : (Reader.pairs (Reader.below Codec.integer.reader n)).Yields _ :=
    Reader.yields_pairs (P := fun _ => True) fun _ _ _ _ _ _ => trivial
  refine Reader.Yields.map (hpairs.imp fun es hes => ?_)
  cases n with
  | zero => exact absurd hes.1 (by simp [Reader.below])
  | succ n =>
    refine ⟨allLeaves_attributes.mpr (nodup_ofEntries es), Nat.succ_le_succ ?_⟩
    exact nestingMembers_le_iff.mpr (List.forall_mem_map.mpr fun _ _ => Nat.zero_le _)

end Attributes

/-- That the values that are read are held is passed on. -/
theorem Json.lifts_holds : Lifts fun _ _ c => c.Holds where
  string := Codec.holds_of_leafless fun _ => rfl
  boolean := Codec.holds_of_leafless fun _ => rfl
  integer := Codec.holds_of_leafless fun _ => rfl
  single := Codec.holds_single
  attributes := Attributes.holds
  list hc := hc.list
  vector hc := hc.vector
  record hs := hs.holds

/-! ## Documents -/

/-- A document that is read with any number of levels left has leaves as a text gives them, and it
is written with no more levels than these. -/
theorem Document.holds : codec.Holds := lifted lifts_holds

/-- A document that is decoded from a whole text has such leaves, and it is written no deeper than
any text may be nested. -/
theorem Document.held_of_decode {t : Bytes} {d : Document} (h : decode t = .ok d) :
    codec.Held maxNesting d :=
  Reader.Yields.all (holds maxNesting) h

/-- The text of a document that was decoded is read as this document, in either layout, if and only
if all 32-bit floats in it are finite. The finite ones have to be read back from their text, and
there are no floats in the free values. -/
theorem Document.decode_encode_of_decode {t : Bytes} {d : Document} (l : Layout)
    (hd : decode t = .ok d) (hfloats : ∀ v, .free v ∈ leaves d → v.floats = [])
    (hsingle : ∀ x, .single x ∈ leaves d → x.IsFinite → x.ReadsBack) :
    decode (d.encode l) = .ok d ↔ ∀ x, .single x ∈ leaves d → x.IsFinite := by
  obtain ⟨hleaves, hnesting⟩ := held_of_decode hd
  have hreadable : AllLeaves Leaf.Readable d := by
    intro leaf hleaf
    cases leaf with
    | single x => exact hsingle x hleaf
    | free v =>
      refine ⟨(hleaves _ hleaf).2, ?_⟩
      rw [hfloats v hleaf]
      exact fun _ h => absurd h List.not_mem_nil
    | attributes as => exact hleaves _ hleaf
  rw [decode_encode_eq_reread l (Nat.lt_succ_of_le hnesting)
      (hreadable.imp fun _ => Leaf.Readable.wellFormed),
    (lifted lifts_faithful).reread_iff hreadable]
  constructor
  · exact fun h x hx => h (.single x) hx
  · intro hfinite leaf hleaf
    cases leaf with
    | single x => exact hfinite x hleaf
    | free v => exact (hleaves _ hleaf).1
    | attributes as => trivial

/-- A document with one orthographic camera, of the given width. -/
def Document.ofWidth (width : Single) : Document where
  asset := { version := "2.0", extras := some (.array [.null, .integer 3]) }
  cameras := #[{
    type := "orthographic"
    orthographic := some { xmag := width, ymag := 1, zfar := 2, znear := 1 } }]

/-- A text of such a document. -/
def Document.textOfWidth (width : String) : Bytes :=
  Bytes.ofString ("\x7b\"asset\":\x7b\"version\":\"2.0\",\"extras\":[null,3]\x7d,\"cameras\":[" ++
    "\x7b\"type\":\"orthographic\",\"orthographic\":\x7b\"xmag\":" ++ width ++
    ",\"ymag\":1,\"zfar\":2,\"znear\":1\x7d\x7d]\x7d")

/-- The leaves of such a document. -/
theorem Document.leaves_ofWidth (width : Single) : leaves (ofWidth width) =
    [.free (.array [.null, .integer 3]), .single width, .single 1, .single 2, .single 1] := by
  simp [leaves, ofWidth]

/-- With a width that is finite, the document survives. -/
theorem Document.decode_encode_of_decode_width :
    decode (textOfWidth "5.0") = .ok (ofWidth 5) ∧
      decode ((ofWidth 5).encode .indented) = .ok (ofWidth 5) := by
  have hd : decode (textOfWidth "5.0") = .ok (ofWidth 5) := by decide +kernel
  have hread : Single.ReadsBack 5 ∧ Single.ReadsBack 1 ∧ Single.ReadsBack 2 := by decide +kernel
  have hfinite : (5 : Single).IsFinite ∧ (1 : Single).IsFinite ∧ (2 : Single).IsFinite := by
    decide +kernel
  refine ⟨hd, (decode_encode_of_decode .indented hd ?_ ?_).mpr ?_⟩
  · simp [leaves_ofWidth, Value.floats, Value.floatsItems]
  · simp [leaves_ofWidth, hread]
  · simp [leaves_ofWidth, hfinite]

/-- A document with a width that is beyond all 32-bit floats. -/
def Document.boundless : Document := ofWidth (.ofMagnitude false Format.single.top)

/-- A width that is beyond the largest 32-bit float is read as infinite. The document is valid, but
what is written of it is refused. -/
theorem Document.decode_encode_boundless :
    decode (textOfWidth "1e39") = .ok boundless ∧ boundless.violation? {} = none ∧
      decode (boundless.encode .compact) = .error (.invalidType .null .single) := by
  refine ⟨?_, ?_, ?_⟩
  · decide +kernel
  · decide +kernel
  · decide +kernel

end GltfAsset
