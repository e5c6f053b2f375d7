import GltfAsset.Proofs.Document.Induction
import GltfAsset.Proofs.Json.Steady

/-!
# What is read of the text of a document

What is read of the text of a document depends on the document alone, not on the layout, as long as
its free values can be held (`Document.decode_encode_eq_reread`). Nothing is asked of its floats:
one that is not read back is read as another one, or refused, in both layouts.
-/

namespace GltfAsset

open Json

namespace Json

/-- The text of a value that can be held is read in the same way wherever it stands. -/
abbrev SteadyCodec : CodecProperty := fun α _ c =>
  ∀ x : α, AllLeaves Leaf.WellFormed x → c.Steady x

/-- The text of a member is read in the same way wherever it stands. -/
theorem Field.Made.steady {R : Type} [Leaves R] {f : Field R} {fs : List (Field R)}
    {copy : R → R → R} (h : f.Made SteadyCodec fs copy) {r : R}
    (hr : AllLeaves Leaf.WellFormed r) : f.Steady r := by
  cases h with
  | always codec part => exact steady_always (codec _ (part.leaves_get _ r hr))
  | optional codec part =>
    exact steady_optional fun y hy => codec y (allLeaves_option.mp (part.leaves_get _ r hr) y hy)
  | free part =>
    refine steady_optional fun v hv => Value.steady ?_
    exact allLeaves_value.mp (allLeaves_option.mp (part.leaves_get _ r hr) v hv)
  | many codec part =>
    exact steady_many fun y hy => codec y (allLeaves_list.mp (part.leaves_get _ r hr) y hy)

/-- What is read of the text of a record, from the members that are put in. -/
theorem Schema.Lawful.rereads {R : Type} [Leaves R] {s : Schema R} (hs : s.Lawful SteadyCodec)
    {r : R} (hr : AllLeaves Leaf.WellFormed r) :
    Rereads s.codec.reader (s.codec.toJson r) (refill r s.fields s.initial) :=
  rereads_codec hs.names (hs.forall_mem fun hf => hf.steady hr)

/-- That values are read in the same way wherever they stand is passed on. -/
theorem lifts_steady : Lifts SteadyCodec where
  string s _ := Codec.steady_string s
  boolean b _ := Codec.steady_boolean b
  integer n _ := Codec.steady_integer n
  single x _ := Codec.steady_single x
  attributes _ _ := Codec.steady_map fun e _ => Codec.steady_integer e.2
  list hc _ hx := Codec.steady_list fun y hy => hc y (allLeaves_list.mp hx y hy)
  vector hc _ hx := Codec.steady_vector fun y hy => hc y (allLeaves_vector.mp hx y hy)
  record hs _ hr := (hs.rereads hr).steady (starts_object _)

end Json

namespace Document

/-- The text of a document whose free values can be held is read in the same way wherever it
stands. -/
theorem steady {d : Document} (h : AllLeaves Leaf.WellFormed d) : codec.Steady d :=
  lifted lifts_steady d h

/-- What is decoded from the text of a document does not depend on the layout. -/
theorem decode_encode_eq_reread {d : Document} (l : Layout)
    (hnesting : (codec.toJson d).nesting < 128) (h : AllLeaves Leaf.WellFormed d) :
    decode (d.encode l) = codec.reread d := by
  -- The text stands alone, at the outermost level, and there are enough levels for it.
  have hrun := (steady h).rereads.run (l := l) (m := 0) (n := maxNesting)
    (Nat.le_of_lt_succ hnesting) ends_nil rfl
  rw [List.append_nil] at hrun
  rw [decode, Reader.all, encode, render, hrun, Codec.reread]
  cases reread codec.reader (codec.toJson d) <;> rfl

end Document

end GltfAsset
