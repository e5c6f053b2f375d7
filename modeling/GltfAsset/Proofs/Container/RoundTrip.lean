import Mathlib.Order.Bounds.Basic
import GltfAsset.Container.Unpack
import GltfAsset.Proofs.Container.Grammar
import GltfAsset.Proofs.Extension.Documents
import GltfAsset.Proofs.Json.Written

/-!
# Opening what was packed

A container that was packed is opened in the same way from the bytes and from every stream of them.
The text is read with the spaces that pad it, and the bytes come back with their padding as far as
the first buffer of the document wants them (`unpack_pack`).
-/

namespace GltfAsset.Container

open Source

/-! ## What is kept of the bytes -/

/-- What opening a container may give that was packed from a document and bytes, if these stand in
it as `payload`, with their padding. -/
structure Unpacked (d : Document) (bin payload : Bytes) (r : Except Error Contents) : Prop where
  /-- Where no bytes were packed there are none, whatever is declared. -/
  empty : bin = [] → r = .ok ⟨d, [], none⟩
  /-- As much of the payload is kept as the first buffer declares, if it is inside the container and
  there is as much. -/
  declared : bin ≠ [] → ∀ b, d.buffers[0]? = some b → b.uri = none →
    0 ≤ b.byteLength.toInt → b.byteLength.toInt ≤ (payload.length : Int) →
    ∃ w, r = .ok ⟨d, payload.take b.byteLength.toInt.toNat, w⟩
  /-- The container is refused if there is not. -/
  refused : bin ≠ [] → ∀ b, d.buffers[0]? = some b → b.uri = none →
    ¬ (0 ≤ b.byteLength.toInt ∧ b.byteLength.toInt ≤ (payload.length : Int)) →
    r = .error (.bufferLength b.byteLength.toInt payload.length)
  /-- All of the payload is kept if no length is declared. -/
  undeclared : bin ≠ [] → (∀ b, d.buffers[0]? = some b → b.uri ≠ none) → r = .ok ⟨d, payload, none⟩
  /-- The bytes come back, without a warning, if their number is declared. -/
  exact : ∀ b, d.buffers[0]? = some b → b.uri = none → b.byteLength.toInt = (bin.length : Int) →
    r = .ok ⟨d, bin, none⟩

/-- The bytes of a container come out as they have to. -/
theorem unpacked_reconcile {d : Document} {bin : Bytes} (hbin : bin ≠ []) {k : Nat} (hk : k ≤ 3) :
    Unpacked d bin (bin ++ List.replicate k 0)
      (reconcile .truncateToDeclared d (bin ++ List.replicate k 0)) where
  empty h := absurd h hbin
  declared _ b hb huri h0 hle := by
    simp only [reconcile, declaredLength?_eq_some hb huri, if_pos (And.intro h0 hle)]
    exact ⟨_, rfl⟩
  refused _ b hb huri hrange := by
    simp only [reconcile, declaredLength?_eq_some hb huri, if_neg hrange]
  undeclared _ h := by
    simp only [reconcile, declaredLength?_eq_none h]
  exact b hb huri hlen := by
    have hpadded : (bin ++ List.replicate k (0 : UInt8)).length = bin.length + k := by
      rw [List.length_append, List.length_replicate]
    -- The padding alone is never more than what goes without a warning.
    have hextra : ¬ maxPadding < bin.length + k - bin.length := by
      rw [maxPadding]
      omega
    have hrange : 0 ≤ (bin.length : Int) ∧ (bin.length : Int) ≤ ((bin.length + k : Nat) : Int) := by
      omega
    simp only [reconcile, declaredLength?_eq_some hb huri, hlen, hpadded, if_pos hrange,
      Int.toNat_natCast, List.take_left, if_neg hextra]

/-- No bytes come out where none were packed. -/
theorem unpacked_nil (d : Document) (payload : Bytes) :
    Unpacked d [] payload (.ok ⟨d, [], none⟩) where
  empty _ := rfl
  declared h := absurd rfl h
  refused h := absurd rfl h
  undeclared h := absurd rfl h
  exact _ _ _ _ := rfl

/-! ## Opening -/

/-- The text of a document is not empty: it starts with a brace. -/
theorem encode_ne_nil (l : Json.Layout) (d : Document) : d.encode l ≠ [] := by
  have h : d.encode l = Json.Mark.openBrace :: Json.objectRest l 0 _ := Json.write_object l 0 _
  rw [h]
  exact List.cons_ne_nil _ _

/-- A text is read with its padding. -/
theorem document_padded {d : Document} {text : Bytes} (hd : Document.decode text = .ok d) :
    document (padded .json text) = .ok d := by
  have hspaces : ∀ b ∈ List.replicate (paddedLength text.length - text.length)
      ChunkKind.json.padding, Json.isSpace b = true := by
    intro b hb
    rw [List.eq_of_mem_replicate hb]
    rfl
  rw [document, padded, Document.decode_append hspaces hd]
  rfl

section Opening

variable {d : Document} {json bin : Bytes}

/-- A chunk frames its padded payload. -/
theorem chunk_eq_framed (k : ChunkKind) (payload : Bytes) :
    chunk k payload = framed k (padded k payload) := by
  rw [chunk, framed, length_padded]

/-- A packed container, with its text and what follows it set apart. -/
theorem packed_eq : packed json bin = header (totalLength json bin) ++
    (framed .json (padded .json json) ++
      if bin = [] then [] else framed .binary (padded .binary bin)) := by
  rw [packed, chunk_eq_framed, chunk_eq_framed, List.append_assoc]

/-- The length of the text fits its word, and that of the bytes does too. -/
theorem paddedLength_lt_of_fits (hfits : totalLength json bin < Bytes.wordLimit) :
    paddedLength json.length < Bytes.wordLimit ∧
      (bin ≠ [] → paddedLength bin.length < Bytes.wordLimit) := by
  unfold totalLength chunkLength at hfits
  constructor
  · omega
  · intro hbin
    rw [if_neg hbin] at hfits
    omega

/-- Padding leaves nothing empty that was not. -/
theorem padded_ne_nil {k : ChunkKind} (h : json ≠ []) : padded k json ≠ [] := by
  rw [padded, Ne, List.append_eq_nil_iff]
  exact fun hnil => h hnil.1

/-- The padding of the bytes is three zeros at most. -/
theorem unpacked_reconcile_padded (hbin : bin ≠ []) :
    Unpacked d bin (padded .binary bin) (reconcile .truncateToDeclared d (padded .binary bin)) := by
  refine unpacked_reconcile hbin ?_
  unfold paddedLength
  omega

/-- Every stream of what was packed is opened. -/
theorem unpacked_unpackFrom {σ : Type} [Stream σ] {s : σ} (hjson : json ≠ [])
    (hd : document (padded .json json) = .ok d)
    (hfits : totalLength json bin < Bytes.wordLimit) (hs : Gives s (packed json bin)) :
    Unpacked d bin (padded .binary bin)
      ((unpackFrom .truncateToDeclared : Walk σ _).run.run s).1 := by
  obtain ⟨hn, hm⟩ := paddedLength_lt_of_fits hfits
  rw [← length_padded .json] at hn
  rw [packed_eq] at hs
  -- The header and the text, and then what the bytes are taken from.
  obtain ⟨t, ht, hs⟩ := exists_run_unpackFrom_framed .truncateToDeclared (padded_ne_nil hjson) hn hs
  rw [ht, hd]
  show Unpacked d bin _ ((takeBinary .truncateToDeclared d : Walk σ _).run.run t).1
  by_cases hbin : bin = []
  · -- The container ends with the text.
    subst hbin
    obtain ⟨u, hu, -⟩ := exists_run_takeBinary_nil .truncateToDeclared d hs
    rw [hu]
    exact unpacked_nil d _
  · -- The second chunk ends the container.
    have hm := hm hbin
    rw [← length_padded .binary] at hm
    rw [if_neg hbin, ← List.append_nil (framed _ _)] at hs
    obtain ⟨u, hu, -⟩ := exists_run_takeBinary_framed .truncateToDeclared d hm hs
    rw [hu]
    exact unpacked_reconcile_padded hbin

/-- What was packed is opened. -/
theorem unpacked_unpack (hjson : json ≠ []) (hd : document (padded .json json) = .ok d)
    (hfits : totalLength json bin < Bytes.wordLimit) :
    Unpacked d bin (padded .binary bin) (unpack (packed json bin)) := by
  rw [← unpackFrom_eq_unpack (Slice.gives ⟨packed json bin, 0⟩)]
  exact unpacked_unpackFrom hjson hd hfits (Slice.gives _)

end Opening

/-- A document and bytes that are packed are opened again, from the container and from every stream
of it. If no bytes were packed, none come out. Otherwise the payload is the bytes with the fewest
zeros that make their number a multiple of four; as much of it comes out as the first buffer
declares, if that is inside the container, all of it if nothing is declared, and the container is
refused if more is declared or less than nothing. If exactly the bytes are declared, they come out
without a warning, however many they are. -/
theorem unpack_pack {d : Document} {bin g : Bytes} {k : Nat}
    (hd : Document.decode (d.encode .compact) = .ok d) (hg : pack d bin = .ok g)
    (hk : IsLeast {k | 4 ∣ bin.length + k} k) :
    Unpacked d bin (bin ++ List.replicate k 0) (unpack g) ∧
      ∀ (σ : Type) [Stream σ] (s : σ), Gives s g →
        Unpacked d bin (bin ++ List.replicate k 0)
          ((unpackFrom .truncateToDeclared : Walk σ Contents).run.run s).1 := by
  obtain ⟨hfits, rfl⟩ := pack_eq_ok_iff.mp hg
  -- The least number of zeros is the one that the bytes were padded with.
  obtain ⟨hdvd, hleast⟩ := isLeast_padding bin.length
  obtain rfl : k = paddedLength bin.length - bin.length :=
    le_antisymm (hk.2 hdvd) (hleast k hk.1)
  -- The text reads as the document with the spaces after it too.
  have hjson := encode_ne_nil .compact d
  have hdoc := document_padded hd
  refine ⟨unpacked_unpack hjson hdoc hfits, fun σ _ s hs => ?_⟩
  exact unpacked_unpackFrom hjson hdoc hfits hs

/-- Five bytes are padded to eight, and come back if five are declared. -/
theorem unpack_pack_five :
    let d : Document := { asset := { version := "2.0" }, buffers := #[{ byteLength := 5 }] }
    let g := packed (d.encode .compact) [1, 2, 3, 4, 5]
    Unpacked d [1, 2, 3, 4, 5] [1, 2, 3, 4, 5, 0, 0, 0] (unpack g) ∧
      Unpacked d [1, 2, 3, 4, 5] [1, 2, 3, 4, 5, 0, 0, 0]
        ((unpackFrom .truncateToDeclared : Walk Slice Contents).run.run ⟨g, 0⟩).1 := by
  intro d g
  have hd : Document.decode (d.encode .compact) = .ok d := by decide +kernel
  have hg : pack d [1, 2, 3, 4, 5] = .ok g := pack_eq_ok_iff.mpr ⟨by decide +kernel, rfl⟩
  have hk : IsLeast {k | 4 ∣ [1, 2, 3, 4, 5].length + k} 3 := by
    refine ⟨by decide, fun k hk => ?_⟩
    have hk : 4 ∣ 5 + k := hk
    omega
  obtain ⟨hunpack, hfrom⟩ := unpack_pack hd hg hk
  exact ⟨hunpack, hfrom Slice ⟨g, 0⟩ (Slice.gives _)⟩

end GltfAsset.Container
