import GltfAsset.Proofs.Document.Induction
import GltfAsset.Proofs.Extension.Readers

/-!
# Text after a document

The codec of documents reads no further than the document (`Document.run_append`). So white space
at the end of a text changes nothing (`Document.decode_append`).
-/

namespace GltfAsset

open Json

namespace Json

/-- A member is read to its end if its value is. -/
theorem Field.extends_of_made {R : Type} [Leaves R] {f : Field R} {fs : List (Field R)}
    {copy : R → R → R} (h : f.Made (fun _ _ c => c.Extends) fs copy) : f.Extends := by
  intro n
  cases h with
  | always codec => exact (codec n).map _
  | optional codec => exact (codec n).optional.map _
  | free => exact (extends_valueReader n).optional.map _
  | many codec => exact (Codec.extends_list codec n).map _

/-- That values are read to their end is passed on. -/
theorem lifts_extends : Lifts fun _ _ c => c.Extends where
  string := Codec.extends_string
  boolean := Codec.extends_boolean
  integer := Codec.extends_integer
  single := Codec.extends_single
  attributes := Codec.extends_map Codec.extends_integer
  list hc := Codec.extends_list hc
  vector hc := Codec.extends_vector hc
  record hs := Schema.extends_codec (hs.forall_mem Field.extends_of_made)

/-- White space at the end of a text is white space again. -/
theorem skipSpace_append_spaces {r spaces : Bytes} (hr : skipSpace r = [])
    (hs : ∀ b ∈ spaces, isSpace b = true) : skipSpace (r ++ spaces) = [] := by
  rw [skipSpace, List.dropWhile_eq_nil_iff] at hr ⊢
  intro b hb
  rcases List.mem_append.mp hb with hb | hb
  · exact hr b hb
  · exact hs b hb

end Json

namespace Document

/-- A document ends at its closing mark, whatever follows that. -/
theorem run_append {n : Nat} {text r : Bytes} {d : Document}
    (h : (codec.reader n).run text = .ok (d, r)) (rest : Bytes) :
    (codec.reader n).run (text ++ rest) = .ok (d, r ++ rest) :=
  Schema.codec_append ((lawful lifts_extends).forall_mem Field.extends_of_made) h rest

/-- A text with white space at its end is read as it is read without. -/
theorem decode_append {text spaces : Bytes} {d : Document}
    (hs : ∀ b ∈ spaces, isSpace b = true) (h : decode text = .ok d) :
    decode (text ++ spaces) = .ok d := by
  obtain ⟨⟨x, r⟩, hx, h⟩ := bind_eq_ok_iff.mp h
  rw [decode, Reader.all, run_append hx, ok_bind]
  simp only at h ⊢
  split at h
  · rename_i hr
    obtain rfl := Except.ok.inj h
    rw [if_pos (skipSpace_append_spaces hr hs)]
  · contradiction

end Document

end GltfAsset
