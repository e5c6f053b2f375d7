import Mathlib.Tactic.Simproc.ExistsAndEq
import GltfAsset.Proofs.Document.Faithful

/-!
# Documents are read back

The codec of documents is faithful (`lifts_faithful`). So the text of a document is read as the
document if and only if its leaves can be written (`Document.decode_encode_eq_ok_iff`).
-/

namespace GltfAsset

open Json

/-- The text of a document, in either layout, is read as the document if and only if all 32-bit
floats in it are finite and no free value in it is `null`. The names of attributes have to be
distinct, free values have to be such as can be held, and numbers that are written have to be read
back. -/
theorem Document.decode_encode_eq_ok_iff (d : Document) (l : Layout)
    (hnesting : (codec.toJson d).nesting < 128)
    (hnames : ∀ as, .attributes as ∈ leaves d → (as.map Prod.fst).Nodup)
    (hfree : ∀ v, .free v ∈ leaves d → v.WellFormed)
    (hsingle : ∀ x, .single x ∈ leaves d → x.IsFinite → x.ReadsBack)
    (hdouble : ∀ v, .free v ∈ leaves d → ∀ x ∈ v.floats, x.ReadsBack) :
    decode (d.encode l) = .ok d ↔
      (∀ x, .single x ∈ leaves d → x.IsFinite) ∧ .free .null ∉ leaves d := by
  have hreadable : AllLeaves Leaf.Readable d := by
    intro leaf hleaf
    cases leaf with
    | single x => exact hsingle x hleaf
    | free v => exact ⟨hfree v hleaf, hdouble v hleaf⟩
    | attributes as => exact hnames as hleaf
  -- What is left is that the leaves can be written, which is said of each kind of leaf.
  rw [decode_encode_eq_reread l hnesting (hreadable.imp fun _ => Leaf.Readable.wellFormed),
    (lifted lifts_faithful).reread_iff hreadable]
  constructor
  · intro h
    exact ⟨fun x hx => h (.single x) hx, fun hnull => h (.free .null) hnull rfl⟩
  · rintro ⟨hfinite, hnull⟩ leaf hleaf
    cases leaf with
    | single x => exact hfinite x hleaf
    | free v =>
      rintro rfl
      exact hnull hleaf
    | attributes as => trivial

/-- A document with leaves of every kind. -/
def Document.small : Document where
  asset := { version := "2.0", extras := some (.array [.null, .float (Binary.ofInt 2)]) }
  meshes := #[{ primitives := [{ attributes := [("POSITION", 0), ("NORMAL", 1)] }] }]
  nodes := #[{ scale := some #v[Binary.ofInt 1, Binary.ofInt 2, Binary.ofInt 3] }]

/-- Its text is read as the document. -/
theorem Document.decode_encode_small :
    decode (small.encode .indented) = .ok small ↔
      (∀ x, .single x ∈ leaves small → x.IsFinite) ∧ .free .null ∉ leaves small := by
  have hleaves : leaves small = [.free (.array [.null, .float (Binary.ofInt 2)]),
      .attributes [("POSITION", 0), ("NORMAL", 1)], .single (Binary.ofInt 1),
      .single (Binary.ofInt 2), .single (Binary.ofInt 3)] := rfl
  have htwo : (Binary.ofInt 2 : Double).IsFinite ∧ Double.ReadsBack (Binary.ofInt 2) := by
    decide +kernel
  have hscale : Single.ReadsBack (Binary.ofInt 1) ∧ Single.ReadsBack (Binary.ofInt 2) ∧
      Single.ReadsBack (Binary.ofInt 3) := by
    decide +kernel
  refine decode_encode_eq_ok_iff small .indented (by decide +kernel) ?_ ?_ ?_ ?_
  · simp [hleaves]
  · simp [hleaves, Value.WellFormed, Value.WellFormedItems, htwo]
  · simp [hleaves, hscale]
  · simp [hleaves, Value.floats, Value.floatsItems, htwo]

end GltfAsset
