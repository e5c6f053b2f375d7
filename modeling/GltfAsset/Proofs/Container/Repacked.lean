import Mathlib.Order.Bounds.Basic
import GltfAsset.Proofs.Container.RoundTrip

/-!
# Packing what was opened

A container that is opened may be of any making: its chunks may be of any length, hold more bytes
than are kept, or be missing where bytes are declared. What comes out of it is settled by packing it
once. The document comes back, and so do the bytes, save that bytes of which no length is declared
come back with the zeros that pad them; and packing what came back gives the same container
(`unpack_pack_of_unpack`).
-/

namespace GltfAsset.Container

/-! ## Padding what is padded -/

/-- A payload of a length that is a multiple of four is not padded. -/
theorem padded_of_dvd {k : ChunkKind} {b : Bytes} (h : 4 ∣ b.length) : padded k b = b := by
  have hnone : paddedLength b.length - b.length = 0 := by
    unfold paddedLength
    omega
  rw [padded, hnone, List.replicate_zero, List.append_nil]

/-- A padded payload is not padded again. -/
theorem padded_padded (k : ChunkKind) (b : Bytes) : padded k (padded k b) = padded k b :=
  padded_of_dvd (length_padded k b ▸ dvd_paddedLength _)

/-- A chunk is the same with its padding taken for a part of the payload. -/
theorem chunk_padded (k : ChunkKind) (b : Bytes) : chunk k (padded k b) = chunk k b := by
  rw [chunk_eq_framed, chunk_eq_framed, padded_padded]

/-- The total length is the same with the padding taken for a part of the payload. -/
theorem totalLength_padded (json bin : Bytes) :
    totalLength json (padded .binary bin) = totalLength json bin := by
  by_cases hbin : bin = []
  · -- There is no chunk then, so none to be padded.
    subst hbin
    rfl
  · have hlength : chunkLength (padded .binary bin) = chunkLength bin := by
      rw [chunkLength, chunkLength, ← length_padded .binary, padded_padded, length_padded]
    rw [totalLength, totalLength, if_neg hbin, if_neg (padded_ne_nil hbin), hlength]

/-- The container is the same with the padding taken for a part of the payload. -/
theorem packed_padded (json bin : Bytes) :
    packed json (padded .binary bin) = packed json bin := by
  by_cases hbin : bin = []
  · subst hbin
    rfl
  · rw [packed, packed, totalLength_padded, if_neg hbin, if_neg (padded_ne_nil hbin), chunk_padded]

/-- Bytes are packed with their padding as they are without it. -/
theorem pack_padded {d : Document} {bin g : Bytes} (h : pack d bin = .ok g) :
    pack d (padded .binary bin) = .ok g := by
  rw [pack_eq_ok_iff] at h ⊢
  rwa [totalLength_padded, packed_padded]

/-! ## What comes out of any container -/

/-- The first buffer of a document is inside the container. -/
def IsEmbedded (d : Document) : Prop := ∃ f, d.buffers[0]? = some f ∧ f.uri = none

section Opened

variable {c b : Bytes} {d : Document} {w : Option Surplus}

/-- Either no bytes come out of a container, or as many as its document declares for them. -/
theorem length_of_unpack (hopen : unpack c = .ok ⟨d, b, w⟩) {f : Buffer}
    (hf : d.buffers[0]? = some f) (huri : f.uri = none) :
    b = [] ∨ (b.length : Int) = f.byteLength.toInt := by
  cases exists_unpack_eq_ok_iff_spells.mp ⟨w, hopen⟩ with
  | text => exact .inl rfl
  | bytes _ _ _ _ _ hb => exact .inr (hb.length_eq hf huri)

variable {r : Except Error Contents}

/-- Bytes that came out of a container come back from the one that they are packed into, if their
number is declared or if it asks for no padding. -/
theorem Unpacked.settled (h : Unpacked d b (padded .binary b) r)
    (hopen : unpack c = .ok ⟨d, b, w⟩) (hkept : IsEmbedded d ∨ 4 ∣ b.length) :
    r = .ok ⟨d, b, none⟩ := by
  by_cases hempty : b = []
  · -- Without a chunk for them, it does not matter what is declared.
    subst hempty
    exact h.empty rfl
  by_cases hembedded : IsEmbedded d
  · obtain ⟨f, hf, huri⟩ := hembedded
    exact h.exact f hf huri ((length_of_unpack hopen hf huri).resolve_left hempty).symm
  · have hdvd : 4 ∣ b.length := hkept.resolve_left hembedded
    rw [h.undeclared hempty fun f hf huri => hembedded ⟨f, hf, huri⟩, padded_of_dvd hdvd]

end Opened

/-- What comes out of a container of any making is packed into one from which it comes out again,
without a warning. The bytes are the same if the first buffer is inside the container or if their
number is a multiple of four, and otherwise they end with the fewest zeros that make it one. Packing
them again gives the same container. -/
theorem unpack_pack_of_unpack {c b g : Bytes} {d : Document} {w : Option Surplus}
    (hopen : unpack c = .ok ⟨d, b, w⟩) (hd : Document.decode (d.encode .compact) = .ok d)
    (hg : pack d b = .ok g) :
    ∃ b', unpack g = .ok ⟨d, b', none⟩ ∧ pack d b' = .ok g ∧
      (IsEmbedded d ∨ 4 ∣ b.length → b' = b) ∧
      (¬ (IsEmbedded d ∨ 4 ∣ b.length) →
        ∃ k, IsLeast {k | 4 ∣ b.length + k} k ∧ b' = b ++ List.replicate k 0) := by
  obtain ⟨hfits, rfl⟩ := pack_eq_ok_iff.mp hg
  have hout : Unpacked d b (padded .binary b) (unpack (packed (d.encode .compact) b)) :=
    unpacked_unpack (encode_ne_nil .compact d) (document_padded hd) hfits
  by_cases hkept : IsEmbedded d ∨ 4 ∣ b.length
  · exact ⟨b, hout.settled hopen hkept, hg, fun _ => rfl, fun h => absurd hkept h⟩
  · -- Nothing is declared, and there are bytes, since none would be a multiple of four.
    have hnone : ∀ f, d.buffers[0]? = some f → f.uri ≠ none :=
      fun f hf huri => hkept (.inl ⟨f, hf, huri⟩)
    have hne : b ≠ [] := by
      rintro rfl
      exact hkept (.inr (Nat.dvd_zero 4))
    refine ⟨padded .binary b, hout.undeclared hne hnone, pack_padded hg, fun h => absurd h hkept,
      fun _ => ⟨_, isLeast_padding b.length, rfl⟩⟩

/-- Three bytes of which no length is declared come out of a container that ends with another byte;
packed and opened they are four, and stay so. -/
theorem unpack_pack_of_unpack_three :
    let d : Document := { asset := { version := "2.0" } }
    let c := header 0 ++
      (framed .json (d.encode .compact) ++ (framed .binary [1, 2, 3] ++ [9]))
    let g := packed (d.encode .compact) [1, 2, 3]
    unpack c = .ok ⟨d, [1, 2, 3], none⟩ ∧ unpack g = .ok ⟨d, [1, 2, 3, 0], none⟩ ∧
      pack d [1, 2, 3, 0] = .ok g := by
  intro d c g
  have hopen : unpack c = .ok ⟨d, [1, 2, 3], none⟩ := by decide +kernel
  have hd : Document.decode (d.encode .compact) = .ok d := by decide +kernel
  have hg : pack d [1, 2, 3] = .ok g := pack_eq_ok_iff.mpr ⟨by decide +kernel, rfl⟩
  have hnot : ¬ (IsEmbedded d ∨ 4 ∣ [(1 : UInt8), 2, 3].length) := by
    rintro (⟨f, hf, -⟩ | hdvd)
    · cases hf
    · exact absurd hdvd (by decide)
  obtain ⟨b', hagain, hpack, -, hpadded⟩ := unpack_pack_of_unpack hopen hd hg
  obtain ⟨k, hk, rfl⟩ := hpadded hnot
  -- One zero is enough, and none is not.
  obtain rfl : k = 1 := by
    have hdvd : 4 ∣ 3 + k := hk.1
    have hle : k ≤ 1 := hk.2 (by decide : 4 ∣ 3 + 1)
    omega
  exact ⟨hopen, hagain, hpack⟩

end GltfAsset.Container
