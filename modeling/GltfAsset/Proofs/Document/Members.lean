import GltfAsset.Proofs.Document.Image
import GltfAsset.Proofs.Document.Steady
import GltfAsset.Proofs.Json.Entries

/-!
# The members of a document in any order

The members of a document are put into different parts of it, so they may stand in any order, and
members that no document has may stand between them, with any values. A member that is there twice
is refused (`Document.decode_objectText`).
-/

namespace GltfAsset.Document

open Json

/-- The members of documents are put in independently of each other. -/
theorem pairwise_commutes : schema.fields.Pairwise Field.Commutes := by
  simp only [schema, List.pairwise_cons, List.forall_mem_cons, List.not_mem_nil, false_implies,
    implies_true, List.Pairwise.nil, and_true]
  and_intros
  all_goals exact Field.commutes_map fun _ _ _ => rfl

section

variable {d : Document} {es : List Entry}

/-- What is decoded from the text of an object with members of a document is what they make when
they are put in one after the other. -/
theorem decode_objectText_eq (hnesting : (codec.toJson d).nesting < 128)
    (hleaves : AllLeaves Leaf.WellFormed d) (hes : schema.Fits d es) (v w x : Space) :
    decode (v.bytes ++ (objectText w es ++ x.bytes)) =
      ((es.filterMap Entry.member?).foldlM schema.step (schema.initial, [])) >>= fun st =>
        match schema.missing? st.2 with
        | some f => .error (.missingField f.name)
        | none => .ok st.1 := by
  have hsteady : ∀ f ∈ schema.fields, f.Steady d :=
    (lawful lifts_steady).forall_mem fun hf => hf.steady hleaves
  have hn : nestingMembers (schema.members d) ≤ 126 := by
    have hobject : (codec.toJson d).nesting = nestingMembers (schema.members d) + 1 := rfl
    omega
  have hx : skipSpace x.bytes = [] := List.dropWhile_eq_nil_iff.mpr x.isSpace
  have hrun := Schema.run_objectText (lawful lifts_steady).names hsteady hn hes v w x.bytes
  have hcodec : codec.reader maxNesting = schema.codec.reader (126 + 1) := rfl
  rw [decode, Reader.all, hcodec, hrun]
  cases (es.filterMap Entry.member?).foldlM schema.step (schema.initial, []) with
  | error e => rfl
  | ok st =>
    simp only [ok_bind]
    cases schema.missing? st.2 with
    | some f => rfl
    | none => simp only [ok_bind, if_pos hx]

/-- A document that is decoded from the text that is written of it is decoded from its members in
any order as well, with members between them that no document has. With a second copy of one of its
members, wherever it stands, the text is refused. -/
theorem decode_objectText {l : Layout} (hd : decode (d.encode l) = .ok d)
    (hforeign : ∀ e ∈ es, e.member? = none → e.name ∉ schema.fields.map (·.name))
    (v w x : Space) :
    ((es.filterMap Entry.member?).Perm (schema.members d) →
      decode (v.bytes ++ (objectText w es ++ x.bytes)) = .ok d) ∧
    ∀ km ∈ schema.members d, (es.filterMap Entry.member?).Perm (km :: schema.members d) →
      ∃ e, decode (v.bytes ++ (objectText w es ++ x.bytes)) = .error e ∧ e.category = .data ∧
        e.message = "duplicate field `" ++ km.1 ++ "`" := by
  obtain ⟨hdecoded, hnesting⟩ := held_of_decode hd
  have hleaves : AllLeaves Leaf.WellFormed d :=
    AllLeaves.imp hdecoded fun _ => Leaf.Decoded.wellFormed
  have hsteady : ∀ f ∈ schema.fields, f.Steady d :=
    (lawful lifts_steady).forall_mem fun hf => hf.steady hleaves
  have hnesting : (codec.toJson d).nesting < 128 := Nat.lt_succ_of_le hnesting
  have hrefill : Schema.refill d schema.fields schema.initial = .ok d := by
    rw [decode_encode_eq_reread l hnesting hleaves] at hd
    rw [← hd]
    exact ((lawful lifts_steady).rereads hleaves).reread_eq.symm
  obtain ⟨put, hput⟩ :=
    Schema.exists_independent (lawful lifts_steady).names pairwise_commutes hrefill
  -- In both cases the trees are members of the document.
  have hfits : ∀ ms : List (String × Json), ms ⊆ schema.members d →
      (es.filterMap Entry.member?).Perm ms → schema.Fits d es := by
    intro ms hms hperm e he
    cases hmember : e.member? with
    | none => exact hforeign e he hmember
    | some km => exact hms (hperm.subset (List.mem_filterMap.mpr ⟨e, he, hmember⟩))
  constructor
  · intro hperm
    rw [decode_objectText_eq hnesting hleaves (hfits _ (List.Subset.refl _) hperm),
      Schema.foldlM_of_perm (lawful lifts_steady).names hput hperm, ok_bind]
    simp only [Schema.missing?_of_perm hsteady hperm]
  · intro km hkm hperm
    have hsubset : km :: schema.members d ⊆ schema.members d :=
      List.cons_subset.mpr ⟨hkm, List.Subset.refl _⟩
    rw [decode_objectText_eq hnesting hleaves (hfits _ hsubset hperm),
      Schema.foldlM_of_perm_cons (lawful lifts_steady).names hput hkm hperm]
    exact ⟨_, rfl, rfl, rfl⟩

end

/-- In these lists is half of a surrogate pair, which means nothing. -/
theorem derives_half : Derives .value (Bytes.ofString "[[],[\"\\ud800\"]]") := by
  have half : {w : HexWord // w.text = Bytes.ofString "d800"} :=
    ⟨⟨Text.digitOf 0xD, Text.digitOf 8, Text.digitOf 0, Text.digitOf 0⟩, by decide +kernel⟩
  refine cast (congrArg _ ?_) (Derives.array (.elements .none .none (.emptyArray .none)
    (.element .none .none (.array (.element .none .none (.string [.word half.1]))))))
  simp only [stringText, List.flatMap_singleton, Piece.text, half.2]
  decide +kernel

/-- A member that no document has. -/
def foreignEntry : Entry where
  before := .none
  key := Text.pieces "more"
  name := "more"
  spells := Text.spells_pieces "more"
  middle := .none
  lead := .none
  content := .any derives_half
  after := .none

/-- The members of a document in reverse, between two that no document has. -/
def shuffled : List Entry :=
  foreignEntry :: ((schema.members small).reverse.map (Entry.written .indented 1) ++ [foreignEntry])

/-- The same with a copy of a member of the document in front. -/
def copied : List Entry :=
  Entry.written .compact 1 ("asset", Asset.codec.toJson small.asset) :: shuffled

/-- Out of order, the members are those of the record, the last first. -/
theorem filterMap_shuffled :
    shuffled.filterMap Entry.member? = (schema.members small).reverse := by
  rw [shuffled, List.filterMap_cons_none rfl, List.filterMap_append, filterMap_written,
    List.filterMap_cons_none rfl, List.filterMap_nil, List.append_nil]

/-- No other value of the copy has the name of a field. -/
theorem foreign_copied :
    ∀ e ∈ copied, e.member? = none → e.name ∉ schema.fields.map (·.name) := by
  have hname : foreignEntry.name ∉ schema.fields.map (·.name) := by decide
  intro e he hnone
  rcases List.mem_cons.mp he with rfl | he
  · contradiction
  · rcases List.mem_cons.mp he with rfl | he
    · exact hname
    · rcases List.mem_append.mp he with he | he
      · obtain ⟨km, -, rfl⟩ := List.mem_map.mp he
        contradiction
      · rwa [List.mem_singleton.mp he]

/-- The document is read of its members in this order, and not with the copy. -/
theorem decode_objectText_shuffled : decode (small.encode .compact) = .ok small ∧
    decode (Space.none.bytes ++ (objectText .none shuffled ++ Space.none.bytes)) = .ok small ∧
    ∃ e, decode (Space.none.bytes ++ (objectText .none copied ++ Space.none.bytes)) = .error e ∧
      e.category = .data ∧ e.message = "duplicate field `" ++ "asset" ++ "`" := by
  have hd : decode (small.encode .compact) = .ok small := by decide +kernel
  have hasset : ("asset", Asset.codec.toJson small.asset) ∈ schema.members small :=
    List.mem_cons_self
  have hcopied : (copied.filterMap Entry.member?).Perm
      (("asset", Asset.codec.toJson small.asset) :: schema.members small) := by
    have hperm := List.reverse_perm (schema.members small)
    rw [← filterMap_shuffled] at hperm
    exact hperm.cons _
  have hforeign := (List.forall_mem_cons.mp foreign_copied).2
  refine ⟨hd, (decode_objectText hd hforeign .none .none .none).1 ?_,
    (decode_objectText hd foreign_copied .none .none .none).2 _ hasset hcopied⟩
  rw [filterMap_shuffled]
  exact List.reverse_perm _

end GltfAsset.Document
