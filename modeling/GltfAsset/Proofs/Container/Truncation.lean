import GltfAsset.Proofs.Container.RoundTrip

/-!
# Containers that are cut short

A container that was packed and then cut is truncated wherever the cut is, save for one place: after
the text the chunk with the bytes may be missing, so a container that is cut there is one without
bytes (`unpack_take_of_pack`). The length of the whole is not looked at, so each walk has to find
out by itself that the stream ends in it.
-/

namespace GltfAsset.Container

open Source

/-! ## Walks into the end -/

section Walk

variable {σ α β : Type} {s t : σ} {b : Bytes}

/-- What follows a walk that finds nothing if no bytes are left, and fails if there are some. -/
theorem run_bind_of_short {x : Walk σ (Option α)} {f : Option α → Walk σ β} {e : Error}
    (h : x.run.run s = (if b = [] then .ok none else .error e, t)) :
    (x >>= f).run.run s = if b = [] then (f none).run.run t else (.error e, t) := by
  by_cases hnil : b = []
  · rw [if_pos hnil] at h ⊢
    exact run_bind_of_ok h
  · rw [if_neg hnil] at h ⊢
    exact run_bind_of_error h

variable [Source σ]

/-- The stream ends before what is wanted, and may end before all of it. -/
theorem exists_run_takeWhole?_short (h : Gives s b) {n : Nat} (hn : b.length < n) :
    ∃ t, (takeWhole? n : Walk σ _).run.run s =
      (if b = [] then .ok none else .error .truncated, t) := by
  obtain ⟨t, ht, -⟩ := exists_run_takeUpTo h n
  rw [List.take_of_length_le (Nat.le_of_lt hn)] at ht
  refine ⟨t, ?_⟩
  rw [takeWhole?_eq, run_bind_of_ok ht, run_liftM, whole?, if_neg (Nat.ne_of_lt hn)]

/-- The stream ends in a payload. -/
theorem exists_run_takePayload_short (h : Gives s b) {n : Nat} (hn : b.length < n) :
    ∃ t, (takePayload n : Walk σ Bytes).run.run s = (.error .truncated, t) := by
  obtain ⟨t, ht, -⟩ := exists_run_takeUpTo h n
  rw [List.take_of_length_le (Nat.le_of_lt hn)] at ht
  refine ⟨t, ?_⟩
  rw [takePayload_eq, run_bind_of_ok ht, run_liftM, wholePayload, if_pos hn]

/-- The stream ends in the words of a chunk, or before them. -/
theorem exists_run_takeChunkHeader?_short (h : Gives s b) (hn : b.length < chunkHeaderLength) :
    ∃ t, (takeChunkHeader? : Walk σ _).run.run s =
      (if b = [] then .ok none else .error .truncated, t) := by
  obtain ⟨t, ht⟩ := exists_run_takeWhole?_short h hn
  refine ⟨t, ?_⟩
  rw [takeChunkHeader?, run_bind_of_short ht]
  split <;> rfl

/-- Where the header has to be, every end is a truncation. -/
theorem exists_run_takeHeader_short (h : Gives s b) (hn : b.length < headerLength) :
    ∃ t, (takeHeader : Walk σ Unit).run.run s = (.error .truncated, t) := by
  obtain ⟨t, ht⟩ := exists_run_takeWhole?_short h hn
  refine ⟨t, ?_⟩
  rw [takeHeader_eq, run_bind_of_short ht]
  split <;> rfl

/-- Where the chunk with the text has to be, every end is one too. -/
theorem exists_run_locateJson_short (h : Gives s b) (hn : b.length < chunkHeaderLength) :
    ∃ t, (locateJson .current : Walk σ Nat).run.run s = (.error .truncated, t) := by
  obtain ⟨t, ht⟩ := exists_run_takeChunkHeader?_short h hn
  refine ⟨t, ?_⟩
  rw [locateJson_current, run_bind_of_short ht]
  split <;> rfl

end Walk

section Stream

variable {σ : Type} [Stream σ] {s : σ} {b : Bytes}

/-- Where the chunk with the bytes may be, the end says that there is none. -/
theorem run_takeBinary_short (policy : LengthPolicy) (d : Document) (h : Gives s b)
    (hn : b.length < chunkHeaderLength) :
    ((takeBinary policy d : Walk σ _).run.run s).1 =
      if b = [] then .ok ⟨d, [], none⟩ else .error .truncated := by
  obtain ⟨t, ht⟩ := exists_run_takeChunkHeader?_short h hn
  have hbinary : (locateBinary .current : Walk σ _).run.run s =
      (if b = [] then .ok none else .error .truncated, t) := by
    rw [locateBinary_current, run_bind_of_short ht]
    split <;> rfl
  rw [takeBinary, run_bind_of_short hbinary]
  split <;> rfl

/-- The bytes end early. -/
theorem run_takeBinary_payload_short (policy : LengthPolicy) (d : Document) {n : Nat}
    (hn : n < Bytes.wordLimit) (hb : b.length < n)
    (h : Gives s (Bytes.ofWord n ++ Bytes.ofWord ChunkKind.binary.code ++ b)) :
    ((takeBinary policy d : Walk σ _).run.run s).1 = .error .truncated := by
  obtain ⟨t, ht, h⟩ := exists_run_locateBinary hn h
  obtain ⟨u, hu⟩ := exists_run_takePayload_short h hb
  rw [takeBinary, run_bind_of_ok ht]
  dsimp only
  rw [run_bind_of_error hu]

/-- A container ends in its header. -/
theorem run_unpackFrom_short (policy : LengthPolicy) (h : Gives s b)
    (hn : b.length < headerLength) :
    ((unpackFrom policy : Walk σ _).run.run s).1 = .error .truncated := by
  obtain ⟨t, ht⟩ := exists_run_takeHeader_short h hn
  rw [unpackFrom_eq_takeHeader, run_bind_of_error ht]

/-- A container ends after its header, or in the words of the chunk with the text. -/
theorem run_unpackFrom_words_short (policy : LengthPolicy) {total : Nat}
    (h : Gives s (header total ++ b)) (hn : b.length < chunkHeaderLength) :
    ((unpackFrom policy : Walk σ _).run.run s).1 = .error .truncated := by
  obtain ⟨t, ht, h⟩ := exists_run_takeHeader h
  obtain ⟨u, hu⟩ := exists_run_locateJson_short h hn
  rw [unpackFrom_eq_takeHeader, run_bind_of_ok ht, takeChunks, run_bind_of_error hu]

/-- A container ends in its text, or before it. -/
theorem run_unpackFrom_text_short (policy : LengthPolicy) {total n : Nat}
    (hn : n < Bytes.wordLimit) (hb : b.length < n)
    (h : Gives s (header total ++ (Bytes.ofWord n ++ Bytes.ofWord ChunkKind.json.code ++ b))) :
    ((unpackFrom policy : Walk σ _).run.run s).1 = .error .truncated := by
  obtain ⟨t, ht, h⟩ := exists_run_locateJson hn (Nat.ne_zero_of_lt hb) h
  obtain ⟨u, hu⟩ := exists_run_takePayload_short h hb
  rw [unpackFrom_eq, run_bind_of_ok ht, run_bind_of_error hu]

/-- A container goes on after its text. -/
theorem run_unpackFrom_text (policy : LengthPolicy) {total : Nat} {text : Bytes} {d : Document}
    (hne : text ≠ []) (hfits : text.length < Bytes.wordLimit) (hd : document text = .ok d)
    (h : Gives s (header total ++ (framed .json text ++ b))) :
    ∃ t, (unpackFrom policy : Walk σ _).run.run s =
      (takeBinary policy d : Walk σ _).run.run t ∧ Gives t b := by
  obtain ⟨t, ht, h⟩ := exists_run_unpackFrom_framed policy hne hfits h
  rw [hd] at ht
  exact ⟨t, ht, h⟩

end Stream

/-! ## Cuts -/

/-- A cut of two parts is one of the first, or leaves it whole and is one of the second. -/
theorem take_append_cases (p r : Bytes) (k : Nat) :
    k < p.length ∧ (p ++ r).take k = p.take k ∨
      ∃ i, k = p.length + i ∧ (p ++ r).take k = p ++ r.take i := by
  rcases Nat.lt_or_ge k p.length with hlt | hge
  · exact .inl ⟨hlt, List.take_append_of_le_length (Nat.le_of_lt hlt)⟩
  · obtain ⟨i, rfl⟩ := Nat.exists_eq_add_of_le hge
    exact .inr ⟨i, rfl, List.take_length_add_append i⟩

section Cut

variable {σ : Type} [Stream σ] {s : σ}

/-- A chunk with bytes is missed if it is cut before its first word only. -/
theorem run_takeBinary_take (policy : LengthPolicy) (d : Document) {payload : Bytes}
    (hfits : payload.length < Bytes.wordLimit) {k : Nat}
    (hk : k < (framed .binary payload).length) (h : Gives s ((framed .binary payload).take k)) :
    ((takeBinary policy d : Walk σ _).run.run s).1 =
      if k = 0 then .ok ⟨d, [], none⟩ else .error .truncated := by
  rw [framed] at h hk
  generalize hwords : Bytes.ofWord payload.length ++ Bytes.ofWord ChunkKind.binary.code = words
    at h hk
  have hlength : words.length = chunkHeaderLength := by
    rw [← hwords]
    rfl
  obtain ⟨hlt, hcut⟩ | ⟨i, rfl, hcut⟩ := take_append_cases words payload k
  · -- The cut is in the words.
    have hcutLength := List.length_take_of_le hlt.le
    have hnil : words.take k = [] ↔ k = 0 := by
      rw [← List.length_eq_zero_iff, hcutLength]
    rw [hcut] at h
    rw [run_takeBinary_short policy d h (by omega)]
    simp only [hnil]
  · -- The cut is in the payload.
    have hi : i < payload.length := by
      rw [List.length_append] at hk
      omega
    have hcutLength := List.length_take_of_le hi.le
    rw [hcut, ← hwords] at h
    rw [run_takeBinary_payload_short policy d hfits (by omega) h, if_neg]
    rw [hlength, chunkHeaderLength]
    omega

variable {d : Document} {json bin : Bytes}

/-- A container is truncated by every cut before the end of its text. -/
theorem run_unpackFrom_take_text (policy : LengthPolicy) {total : Nat} {text r : Bytes}
    (hfits : text.length < Bytes.wordLimit) {k : Nat} (hk : k < 20 + text.length)
    (h : Gives s ((header total ++ (framed .json text ++ r)).take k)) :
    ((unpackFrom policy : Walk σ _).run.run s).1 = .error .truncated := by
  have hheader : (header total).length = 12 := rfl
  have hwords : (Bytes.ofWord text.length ++ Bytes.ofWord ChunkKind.json.code).length = 8 := rfl
  obtain ⟨hlt, hcut⟩ | ⟨i, rfl, hcut⟩ := take_append_cases (header total) _ k
  · -- In the header.
    rw [hcut] at h
    exact run_unpackFrom_short policy h ((List.length_take_of_le hlt.le).trans_lt hlt)
  rw [hcut, framed, List.append_assoc _ text] at h
  obtain ⟨hlt, hcut⟩ | ⟨j, rfl, hcut⟩ :=
    take_append_cases (Bytes.ofWord text.length ++ Bytes.ofWord ChunkKind.json.code) _ i
  · -- In the words of the chunk with the text.
    rw [hcut] at h
    exact run_unpackFrom_words_short policy h ((List.length_take_of_le hlt.le).trans_lt hlt)
  · -- In the text.
    have hlt : j < text.length := by omega
    rw [hcut, List.take_append_of_le_length (Nat.le_of_lt hlt)] at h
    exact run_unpackFrom_text_short policy hfits ((List.length_take_of_le hlt.le).trans_lt hlt) h

/-- A container that was packed is truncated by every cut but the one after its text. -/
theorem run_unpackFrom_take (policy : LengthPolicy) (hjson : json ≠ [])
    (hd : document (padded .json json) = .ok d)
    (hfits : totalLength json bin < Bytes.wordLimit) {k : Nat} (hk : k < (packed json bin).length)
    (h : Gives s ((packed json bin).take k)) :
    ((unpackFrom policy : Walk σ _).run.run s).1 =
      if bin ≠ [] ∧ k = 20 + paddedLength json.length then .ok ⟨d, [], none⟩
      else .error .truncated := by
  obtain ⟨hn, hm⟩ := paddedLength_lt_of_fits hfits
  have htext := padded_ne_nil (k := .json) hjson
  rw [← length_padded .json] at hn ⊢
  rw [← length_padded .binary] at hm
  rw [packed_eq] at h hk
  generalize padded .json json = text at *
  rcases Nat.lt_or_ge k (20 + text.length) with hlt | hge
  · rw [run_unpackFrom_take_text policy hn hlt h, if_neg (by omega)]
  -- After the text. Something has to be cut off there, so it is the chunk with the bytes.
  obtain ⟨m, rfl⟩ := Nat.exists_eq_add_of_le hge
  have hfront : (header (totalLength json bin) ++ framed .json text).length = 20 + text.length := by
    rw [List.length_append, length_framed, ← Nat.add_assoc]
    rfl
  rw [← List.append_assoc, ← hfront, List.take_length_add_append, List.append_assoc] at h
  rw [← List.append_assoc, List.length_append, hfront] at hk
  obtain ⟨t, ht, h⟩ := run_unpackFrom_text policy htext hn hd h
  rw [ht]
  by_cases hbin : bin = []
  · rw [if_pos hbin, List.length_nil] at hk
    omega
  · rw [if_neg hbin] at h hk
    rw [run_takeBinary_take policy d (hm hbin) (by omega) h]
    have hplace : (bin ≠ [] ∧ 20 + text.length + m = 20 + text.length) ↔ m = 0 := by
      constructor
      · rintro ⟨-, hm0⟩
        omega
      · rintro rfl
        exact ⟨hbin, rfl⟩
    simp only [hplace]

end Cut

/-- Cutting a container that was packed makes it a truncated one, whether it is at hand or comes
through a stream, and whatever the policy is. The one exception is the cut that leaves the whole
text and nothing of the bytes, if there are any: what is left is a container without bytes. -/
theorem unpack_take_of_pack {d : Document} {bin g : Bytes}
    (hd : Document.decode (d.encode .compact) = .ok d) (hg : pack d bin = .ok g) {k : Nat}
    (hk : k < g.length) :
    let opened : Except Error Contents :=
      if bin ≠ [] ∧ k = 20 + paddedLength (d.encode .compact).length then .ok ⟨d, [], none⟩
      else .error .truncated
    unpack (g.take k) = opened ∧
      ∀ (σ : Type) [Stream σ] (s : σ) (policy : LengthPolicy), Gives s (g.take k) →
        ((unpackFrom policy : Walk σ Contents).run.run s).1 = opened := by
  intro opened
  obtain ⟨hfits, rfl⟩ := pack_eq_ok_iff.mp hg
  have hjson := encode_ne_nil .compact d
  have hdoc := document_padded hd
  constructor
  · rw [← unpackFrom_eq_unpack (Slice.gives ⟨_, 0⟩)]
    exact run_unpackFrom_take .truncateToDeclared hjson hdoc hfits hk (Slice.gives _)
  · intro σ _ s policy hs
    exact run_unpackFrom_take policy hjson hdoc hfits hk hs

/-- Cuts before the chunk with the bytes, after its words and in its padding. -/
theorem unpack_take_of_pack_five :
    let d : Document := { asset := { version := "2.0" }, buffers := #[{ byteLength := 5 }] }
    let g := packed (d.encode .compact) [1, 2, 3, 4, 5]
    unpack (g.take 76) = .ok ⟨d, [], none⟩ ∧ unpack (g.take 84) = .error .truncated ∧
      unpack (g.take 91) = .error .truncated := by
  intro d g
  have hd : Document.decode (d.encode .compact) = .ok d := by decide +kernel
  have hg : pack d [1, 2, 3, 4, 5] = .ok g := pack_eq_ok_iff.mpr ⟨by decide +kernel, rfl⟩
  have hlength : g.length = 92 := by decide +kernel
  have htext : paddedLength (d.encode .compact).length = 56 := by decide +kernel
  have hk : ∀ {k}, k < 92 → k < g.length := fun h => by rwa [hlength]
  refine ⟨?_, ?_, ?_⟩
  · exact (unpack_take_of_pack hd hg (hk (by decide))).1.trans (if_pos (by rw [htext]; decide))
  · exact (unpack_take_of_pack hd hg (hk (by decide))).1.trans (if_neg (by rw [htext]; decide))
  · exact (unpack_take_of_pack hd hg (hk (by decide))).1.trans (if_neg (by rw [htext]; decide))

end GltfAsset.Container
