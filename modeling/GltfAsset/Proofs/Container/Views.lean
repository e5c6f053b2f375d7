import Mathlib.Control.Monad.Basic
import GltfAsset.Proofs.Container.Grammar
import GltfAsset.Proofs.Validity.Acceptance

/-!
# Views of the bytes in a container

Opening a container settles how many bytes are kept, by the length that the first buffer of the
document declares; the check of the document settles where the views of a buffer end, by the same
length. Neither looks at what the other does. Together they say that every view of the first buffer
is a part of the bytes that were kept, so that a view can be cut out of them (`views_in_binary`).
-/

namespace GltfAsset

open Check Source

/-- The part of some bytes that a view is of. -/
def BufferView.IsPart (v : BufferView) (b part : Bytes) : Prop :=
  ∃ front back, b = front ++ (part ++ back) ∧ (front.length : Int) = v.offset.toInt ∧
    (part.length : Int) = v.byteLength.toInt

/-- A view that starts and ends in some bytes is of a part of them. -/
theorem BufferView.exists_isPart {v : BufferView} {b : Bytes} (hoffset : 0 ≤ v.offset.toInt)
    (hlength : 0 ≤ v.byteLength.toInt)
    (hend : v.offset.toInt + v.byteLength.toInt ≤ (b.length : Int)) : ∃ part, v.IsPart b part := by
  obtain ⟨i, hi⟩ := Int.eq_ofNat_of_zero_le hoffset
  obtain ⟨n, hn⟩ := Int.eq_ofNat_of_zero_le hlength
  refine ⟨(b.drop i).take n, b.take i, (b.drop i).drop n, ?_, ?_, ?_⟩
  · rw [List.take_append_drop, List.take_append_drop]
  · rw [hi, List.length_take]
    omega
  · rw [hn, List.length_take, List.length_drop]
    omega

namespace Container

/-! ## Containers with bytes -/

/-- A container with a chunk for the bytes, after a header of any kind and the chunk with the
text. -/
def HasBinary (c : Bytes) : Prop :=
  ∃ head text payload tail : Bytes, head.length = headerLength ∧
    text.length < Bytes.wordLimit ∧ payload.length < Bytes.wordLimit ∧
    c = head ++ (framed .json text ++ (framed .binary payload ++ tail))

/-- The header is twelve bytes long. -/
theorem length_header (total : Nat) : (header total).length = headerLength := rfl

/-- Chunks of one kind that start the same bytes are equal, and so is what follows. -/
theorem framed_append_inj {k : ChunkKind} {p q r r' : Bytes} (hp : p.length < Bytes.wordLimit)
    (hq : q.length < Bytes.wordLimit) (h : framed k p ++ r = framed k q ++ r') :
    p = q ∧ r = r' := by
  simp only [framed, List.append_assoc] at h
  obtain ⟨hwords, h⟩ := List.append_inj h rfl
  -- The payloads are equally long, since the words for their lengths are equal.
  have hlength : p.length = q.length := by
    rw [← Bytes.toNat_ofWord hp, hwords, Bytes.toNat_ofWord hq]
  exact List.append_inj (List.append_cancel_left h) hlength

/-- A container that ends after its text has no chunk for the bytes. -/
theorem not_hasBinary_framed {head text : Bytes} (hhead : head.length = headerLength)
    (htext : text.length < Bytes.wordLimit) : ¬ HasBinary (head ++ framed .json text) := by
  rintro ⟨head', text', payload, tail, hhead', htext', -, hc⟩
  obtain ⟨-, hc⟩ := List.append_inj hc (hhead.trans hhead'.symm)
  rw [← List.append_nil (framed .json text)] at hc
  obtain ⟨-, hnil⟩ := framed_append_inj htext htext' hc
  cases hnil

/-- The bytes of a container that is opened, if it has a chunk for them, were reconciled with its
document. -/
theorem exists_reconcile_of_hasBinary {c : Bytes} {r : Contents} (hopen : unpack c = .ok r)
    (hbinary : HasBinary c) :
    ∃ payload, reconcile .truncateToDeclared r.document payload = .ok r := by
  obtain ⟨total, -, text, d, -, htext, -, ⟨rfl, rfl⟩ | ⟨payload, tail, -, rfl, hkept⟩⟩ :=
    unpack_eq_ok_iff_framed.mp hopen
  · exact absurd hbinary (not_hasBinary_framed (length_header total) htext)
  · obtain ⟨b, hb⟩ := r
    obtain ⟨rfl, -⟩ := exists_reconcile_eq_ok_iff.mp ⟨_, hkept⟩
    exact ⟨payload, hkept⟩

/-- If the first buffer of a document is inside the container, as many bytes are kept as it
declares. -/
theorem length_binary_of_reconcile {d : Document} {payload : Bytes} {r : Contents} {f : Buffer}
    (hkept : reconcile .truncateToDeclared d payload = .ok r) (hf : d.buffers[0]? = some f)
    (huri : f.uri = none) : (r.binary.length : Int) = f.byteLength.toInt := by
  obtain ⟨d', b, w⟩ := r
  obtain ⟨rfl, hb⟩ := exists_reconcile_eq_ok_iff.mp ⟨w, hkept⟩
  exact hb.length_eq hf huri

/-! ## What is found through views -/

/-- An index of a view leads to bytes: the view is there, its buffer is there, and it is of a part
of the given bytes, not empty, if the buffer is the first one. -/
def Resolves (d : Document) (b : Bytes) (i : Int64) : Prop :=
  ∃ v, Names d.bufferViews i v ∧ (∃ f, Names d.buffers v.buffer f) ∧
    (v.buffer.toInt = 0 → ∃ part, v.IsPart b part ∧ part ≠ [])

/-- The views of a document and the bytes of its first buffer fit each other. -/
structure Fitting (d : Document) (f : Buffer) (b : Bytes) : Prop where
  /-- There are as many bytes as the buffer declares. -/
  length : (b.length : Int) = f.byteLength.toInt
  /-- Every view of the buffer starts in the bytes, is not empty, and ends in them. -/
  view : ∀ v ∈ d.bufferViews, v.buffer.toInt = 0 → 0 ≤ v.offset.toInt ∧ 1 ≤ v.byteLength.toInt ∧
    v.offset.toInt + v.byteLength.toInt ≤ (b.length : Int)
  /-- The view of an accessor leads to bytes. -/
  accessor : ∀ a ∈ d.accessors, ∀ i ∈ a.bufferView, Resolves d b i
  /-- The view of an image does. -/
  image : ∀ m ∈ d.images, ∀ i ∈ m.bufferView, Resolves d b i
  /-- The view with the places of replaced elements does. -/
  indices : ∀ a ∈ d.accessors, ∀ s ∈ a.sparse, Resolves d b s.indices.bufferView
  /-- The view with the values of replaced elements does. -/
  values : ∀ a ∈ d.accessors, ∀ s ∈ a.sparse, Resolves d b s.values.bufferView

section Fitting

variable {cfg : Config} {d : Document} {f : Buffer} {b : Bytes}

/-- A valid view of the first buffer ends where the buffer does at the latest. -/
theorem view_in_buffer (hd : d.Valid cfg) (hf : d.buffers[0]? = some f) {v : BufferView}
    (hv : v ∈ d.bufferViews) (hfirst : v.buffer.toInt = 0) :
    0 ≤ v.offset.toInt ∧ 1 ≤ v.byteLength.toInt ∧
      v.offset.toInt + v.byteLength.toInt ≤ f.byteLength.toInt := by
  have hvalid := hd.bufferViews v hv
  obtain ⟨g, hnames, hend⟩ := hvalid.buffer
  obtain rfl : g = f := hnames.unique ⟨0, hfirst, hf⟩
  exact ⟨hvalid.byteOffset, hvalid.byteLength, hend⟩

/-- Every index of a view that is in range leads to bytes. -/
theorem resolves_of_inRange (hd : d.Valid cfg) (hf : d.buffers[0]? = some f)
    (hb : (b.length : Int) = f.byteLength.toInt) {i : Int64} (hi : InRange i d.bufferViews.size) :
    Resolves d b i := by
  obtain ⟨v, hv⟩ := inRange_iff_exists_names.mp hi
  have hmem : v ∈ d.bufferViews := by
    obtain ⟨k, -, hk⟩ := hv
    exact Array.mem_of_getElem? hk
  obtain ⟨g, hg, -⟩ := (hd.bufferViews v hmem).buffer
  refine ⟨v, hv, ⟨g, hg⟩, fun hfirst => ?_⟩
  obtain ⟨hoffset, hlength, hend⟩ := view_in_buffer hd hf hmem hfirst
  rw [← hb] at hend
  obtain ⟨part, hpart⟩ := BufferView.exists_isPart hoffset (by omega) hend
  refine ⟨part, hpart, ?_⟩
  rintro rfl
  obtain ⟨_, _, -, -, hempty⟩ := hpart
  rw [← hempty] at hlength
  contradiction

/-- A valid document fits the bytes of its first buffer if there are as many as this declares. -/
theorem fitting_of_length (hd : d.Valid cfg) (hf : d.buffers[0]? = some f)
    (hb : (b.length : Int) = f.byteLength.toInt) : Fitting d f b where
  length := hb
  view _ hv hfirst := hb ▸ view_in_buffer hd hf hv hfirst
  accessor a ha i hi := resolves_of_inRange hd hf hb ((hd.accessors a ha).bufferView i hi)
  image m hm i hi := resolves_of_inRange hd hf hb ((hd.images m hm).bufferView i hi)
  indices a ha s hs := resolves_of_inRange hd hf hb ((hd.accessors a ha).sparse s hs).indicesView
  values a ha s hs := resolves_of_inRange hd hf hb ((hd.accessors a ha).sparse s hs).valuesView

end Fitting

/-- The document and the bytes of a container fit each other if the container has a chunk for the
bytes, the first buffer of the document is inside the container, and the document passes the check,
whether the container is at hand or comes through a stream. -/
theorem views_in_binary {cfg : Config} {c : Bytes} {r : Contents} {f : Buffer}
    (hopen : unpack c = .ok r ∨ ∃ (σ : Type) (_ : Stream σ) (s : σ), Gives s c ∧
      ((unpackFrom .truncateToDeclared : Walk σ Contents).run.run s).1 = .ok r)
    (hbinary : HasBinary c) (hf : r.document.buffers[0]? = some f) (huri : f.uri = none)
    (hcheck : r.document.violation? cfg = none) : Fitting r.document f r.binary := by
  have hunpack : unpack c = .ok r := by
    rcases hopen with hopen | ⟨σ, _, s, hs, hopen⟩
    · exact hopen
    · rwa [unpackFrom_eq_unpack hs] at hopen
  have hvalid : r.document.Valid cfg :=
    Document.checks_eq_none_iff.mp (Document.violation?_eq_none_iff.mp hcheck)
  -- Opening and checking meet in the length that the buffer declares.
  obtain ⟨payload, hkept⟩ := exists_reconcile_of_hasBinary hunpack hbinary
  exact fitting_of_length hvalid hf (length_binary_of_reconcile hkept hf huri)

/-- Four elements in the last four of five bytes, of which one is replaced, and an image. -/
theorem views_in_binary_five :
    let f : Buffer := { byteLength := 5 }
    let sparse : Sparse :=
      { count := 1, indices := { componentType := 5121 }, values := { byteOffset := some 1 } }
    let d : Document :=
      { asset := { version := "2.0" }
        buffers := #[f]
        bufferViews := #[{ byteOffset := some 1, byteLength := 4 }]
        accessors := #[{
          bufferView := some 0, componentType := 5121, count := 4, type := "SCALAR",
          sparse := some sparse }]
        images := #[{ bufferView := some 0, mimeType := some "image/png" }] }
    let c := header 0 ++
      (framed .json (d.encode .compact) ++ (framed .binary [1, 2, 3, 4, 5, 6, 7] ++ [9]))
    unpack c = .ok ⟨d, [1, 2, 3, 4, 5], none⟩ ∧ Fitting d f [1, 2, 3, 4, 5] := by
  intro f sparse d c
  have hopen : unpack c = .ok ⟨d, [1, 2, 3, 4, 5], none⟩ := by decide +kernel
  have hbinary : HasBinary c := ⟨_, _, _, _, rfl, by decide +kernel, by decide, rfl⟩
  have hcheck : d.violation? {} = none := by decide +kernel
  exact ⟨hopen, views_in_binary (.inl hopen) hbinary rfl rfl hcheck⟩

end Container

end GltfAsset
