import GltfAsset.Files
import GltfAsset.Proofs.Container.Grammar

/-!
# Containers and texts are told apart

Bytes are opened as a container if they start with the header of one, and are decoded as a text
otherwise. No text of a document starts as a container does, since no value starts with its first
letter, and a container that opens has the header that is looked for, though it is looked for twice
in different ways. So bytes are loaded exactly if they are one of the two, and as what they are; and
a container that is refused is never refused for its header (`load_dispatches`).
-/

namespace GltfAsset

namespace Container

open Source

/-! ## Headers -/

/-- Bytes that are taken for a container. -/
def Recognized (c : Bytes) : Prop := (recognize (⟨c, 0⟩ : Slice)).1 = true

/-- They start with a header, of which the last word may be any. -/
theorem recognized_iff {c : Bytes} :
    Recognized c ↔ ∃ total < Bytes.wordLimit, ∃ r, c = header total ++ r := by
  constructor
  · intro h
    obtain ⟨t, ht, -⟩ := exists_take_eq (Slice.gives ⟨c, 0⟩) headerLength
    rw [Recognized, recognize, ht] at h
    obtain ⟨hlength, hmagic, hversion⟩ := of_decide_eq_true h
    -- The three words of what was taken spell it, and nothing is asked of the last one.
    refine ⟨wordAt 8 (c.take headerLength), wordAt_lt_wordLimit (Nat.le_of_eq hlength.symm),
      c.drop headerLength, ?_⟩
    rw [header, ← hmagic, ← hversion, words_of_length_twelve hlength, List.take_append_drop]
  · rintro ⟨total, -, r, rfl⟩
    obtain ⟨t, ht, -⟩ := exists_recognize_header (Slice.gives ⟨header total ++ r, 0⟩)
    rw [Recognized, ht]

/-- A container that opens is taken for one. -/
theorem recognized_of_unpack {c : Bytes} {x : Contents} (h : unpack c = .ok x) : Recognized c := by
  obtain ⟨total, htotal, text, d, -, -, -, hspelled⟩ := unpack_eq_ok_iff_framed.mp h
  apply recognized_iff.mpr
  rcases hspelled with ⟨rfl, -⟩ | ⟨payload, tail, -, rfl, -⟩
  · exact ⟨total, htotal, _, rfl⟩
  · exact ⟨total, htotal, _, rfl⟩

/-- No value starts with the first letter of a header. -/
theorem decode_header (total : Nat) (r : Bytes) :
    Document.decode (header total ++ r) = .error .expectedValue := by
  -- The first letter of a header is there whatever its last word is, so this is computed.
  have hfound : Json.Reader.found (header total ++ r) = .error .expectedValue := rfl
  have hrun : (Document.codec.reader Json.maxNesting).run (header total ++ r) =
      .error .expectedValue := by
    simp only [Document.codec, Json.Schema.codec, Json.Schema.reader, hfound]
  rw [Document.decode, Json.Reader.all, hrun]
  rfl

/-- The text of a document is not taken for a container. -/
theorem not_recognized_of_decode {c : Bytes} {d : Document} (h : Document.decode c = .ok d) :
    ¬ Recognized c := by
  intro hrecognized
  obtain ⟨total, -, r, rfl⟩ := recognized_iff.mp hrecognized
  rw [decode_header] at h
  cases h

/-! ## Faults behind the header -/

/-- What can be wrong with the chunks of a container. -/
inductive ChunkFault : Error → Prop
  /-- A chunk is of another kind. -/
  | unexpectedChunk (k : ChunkKind) (found : Nat) : ChunkFault (.unexpectedChunk k found)
  /-- The chunk with the document is empty. -/
  | emptyJsonChunk : ChunkFault .emptyJsonChunk
  /-- It ends too early. -/
  | truncated : ChunkFault .truncated
  /-- The first buffer declares a length that the chunk does not have. -/
  | bufferLength (declared : Int) (available : Nat) : ChunkFault (.bufferLength declared available)

/-- Why a container is refused behind its header: for its chunks or for its text. -/
def BodyFault (e : Error) : Prop := ChunkFault e ∨ ∃ t, e = .transcoding (.text t)

/-- A result that is no error, or one for what is behind the header. -/
def BlamesBody {α : Type} (r : Except Error α) : Prop := ∀ e, r = .error e → BodyFault e

/-- What is no error blames nothing. -/
theorem blamesBody_ok {α : Type} (a : α) : BlamesBody (.ok a : Except Error α) := nofun

/-- An error for what is behind the header. -/
theorem blamesBody_error {α : Type} {e : Error} (h : BodyFault e) :
    BlamesBody (.error e : Except Error α) := by
  rintro _ ⟨⟩
  exact h

/-- Bytes that are not all there are behind the header. -/
theorem blamesBody_whole? (n : Nat) (b : Bytes) : BlamesBody (whole? n b) := by
  intro e he
  obtain rfl := eq_truncated_of_whole? he
  exact .inl .truncated

/-- A payload that is not all there is behind the header. -/
theorem blamesBody_wholePayload (n : Nat) (b : Bytes) : BlamesBody (wholePayload n b) := by
  intro e he
  obtain rfl := eq_truncated_of_wholePayload he
  exact .inl .truncated

/-- The chunk with the text is behind the header. -/
theorem blamesBody_textLength (h? : Option ChunkHeader) : BlamesBody (textLength h?) := by
  intro e he
  rcases eq_of_textLength he with ⟨-, rfl⟩ | ⟨found, rfl⟩ | rfl
  · exact .inl .truncated
  · exact .inl (.unexpectedChunk .json found)
  · exact .inl .emptyJsonChunk

/-- The chunk with the bytes is behind the header. -/
theorem blamesBody_bytesLength? (h? : Option ChunkHeader) : BlamesBody (bytesLength? h?) := by
  intro e he
  obtain ⟨found, rfl⟩ := eq_unexpectedChunk_of_bytesLength? he
  exact .inl (.unexpectedChunk .binary found)

/-- The text is behind the header. -/
theorem blamesBody_document (text : Bytes) : BlamesBody (document text) :=
  fun _ he => .inr (eq_transcoding_of_document he)

/-- The bytes are behind the header. -/
theorem blamesBody_reconcile (policy : LengthPolicy) (d : Document) (payload : Bytes) :
    BlamesBody (reconcile policy d payload) := by
  intro e he
  obtain ⟨declared, rfl⟩ := eq_bufferLength_of_reconcile he
  exact .inl (.bufferLength declared payload.length)

/-! ## Walks behind the header -/

section Walk

variable {σ α β : Type}

/-- A walk through bytes that a stream gives leads to bytes that it gives, and its errors are for
what is behind the header. A stream that fails is not spoken of. -/
def WalksBody [Source σ] (x : Walk σ α) : Prop :=
  ∀ s b, Gives s b → ∃ r t b', x.run.run s = (r, t) ∧ Gives t b' ∧ BlamesBody r

section Source

variable [Source σ]

/-- A result is given where the stream stands. -/
theorem WalksBody.liftM {r : Except Error α} (h : BlamesBody r) :
    WalksBody (liftM r : Walk σ α) :=
  fun s b hs => ⟨r, s, b, run_liftM r s, hs, h⟩

/-- A value is given where the stream stands. -/
theorem WalksBody.pure (a : α) : WalksBody (pure a : Walk σ α) := .liftM (blamesBody_ok a)

/-- What goes on behind the header after what does. -/
theorem WalksBody.bind {x : Walk σ α} {f : α → Walk σ β} (hx : WalksBody x)
    (hf : ∀ a, WalksBody (f a)) : WalksBody (x >>= f) := by
  intro s b hs
  obtain ⟨r, t, b', hrun, ht, hr⟩ := hx s b hs
  cases r with
  | ok a =>
    rw [run_bind_of_ok hrun]
    exact hf a t b' ht
  | error e =>
    rw [run_bind_of_error hrun]
    exact ⟨_, t, b', rfl, ht, blamesBody_error (hr e rfl)⟩

/-- Up to a number of bytes are taken without an error. -/
theorem walksBody_takeUpTo (n : Nat) : WalksBody (takeUpTo n : Walk σ Bytes) := by
  intro s b hs
  obtain ⟨t, ht, hdrop⟩ := exists_run_takeUpTo hs n
  exact ⟨_, t, _, ht, hdrop, blamesBody_ok _⟩

/-- A payload is taken behind the header. -/
theorem walksBody_takePayload (n : Nat) : WalksBody (takePayload n : Walk σ Bytes) := by
  rw [takePayload_eq]
  exact (walksBody_takeUpTo n).bind fun b => .liftM (blamesBody_wholePayload n b)

/-- The header of a chunk is taken behind that of the container. -/
theorem walksBody_takeChunkHeader? : WalksBody (takeChunkHeader? : Walk σ _) := by
  have hwhole : WalksBody (takeWhole? chunkHeaderLength : Walk σ _) := by
    rw [takeWhole?_eq]
    exact (walksBody_takeUpTo _).bind fun b => .liftM (blamesBody_whole? _ b)
  exact hwhole.bind fun _ => .pure _

/-- The text is found behind the header. -/
theorem walksBody_locateJson : WalksBody (locateJson .current : Walk σ Nat) := by
  rw [locateJson_current]
  exact walksBody_takeChunkHeader?.bind fun h? => .liftM (blamesBody_textLength h?)

end Source

section Stream

variable [Stream σ]

/-- The bytes are found behind the header. -/
theorem walksBody_locateBinary : WalksBody (locateBinary .current : Walk σ _) := by
  rw [locateBinary_current]
  exact walksBody_takeChunkHeader?.bind fun h? => .liftM (blamesBody_bytesLength? h?)

/-- The bytes are taken behind the header. -/
theorem walksBody_takeBinary (policy : LengthPolicy) (d : Document) :
    WalksBody (takeBinary policy d : Walk σ Contents) := by
  refine walksBody_locateBinary.bind fun n? => ?_
  cases n? with
  | none => exact .pure _
  | some n =>
    exact (walksBody_takePayload n).bind fun payload =>
      .liftM (blamesBody_reconcile policy d payload)

/-- The chunks are taken behind the header. -/
theorem walksBody_takeChunks (policy : LengthPolicy) :
    WalksBody (takeChunks policy : Walk σ Contents) := by
  refine walksBody_locateJson.bind fun n => ?_
  refine (walksBody_takePayload n).bind fun text => ?_
  exact (WalksBody.liftM (blamesBody_document text)).bind fun d => walksBody_takeBinary policy d

end Stream

end Walk

/-- What is taken for a container is opened, or refused for what is behind its header. -/
theorem blamesBody_unpack {c : Bytes} (h : Recognized c) : BlamesBody (unpack c) := by
  obtain ⟨total, -, r, rfl⟩ := recognized_iff.mp h
  -- The header is not looked at again after it was taken, so only the chunks can be refused.
  obtain ⟨s, hs, hgives⟩ := exists_run_takeHeader (Slice.gives ⟨header total ++ r, 0⟩)
  obtain ⟨x, t, -, hx, -, hblames⟩ := walksBody_takeChunks .truncateToDeclared s r hgives
  have hopened : unpack (header total ++ r) = x := by
    rw [← unpackFrom_slice_eq_unpack, unpackFrom_eq_takeHeader, run_bind_of_ok hs, hx]
  rwa [hopened]

end Container

/-! ## Loading -/

open Container

section Load

variable {c : Bytes}

/-- What is taken for a container is loaded as it is opened. -/
theorem load_eq_of_recognized (h : Recognized c) : load c = (unpack c).mapError (·.toError) := by
  rw [Recognized] at h
  rw [load, if_pos h]

/-- What has the header of a container is loaded if it is opened. -/
theorem load_eq_ok_iff_of_recognized (h : Recognized c) {x : Contents} :
    load c = .ok x ↔ unpack c = .ok x := by
  rw [load_eq_of_recognized h, mapError_eq_ok_iff]

/-- What has the header of a container is refused if it is not opened, for the same reason. -/
theorem load_eq_error_iff_of_recognized (h : Recognized c) {e : Error} :
    load c = .error e ↔ ∃ f, unpack c = .error f ∧ e = f.toError := by
  rw [load_eq_of_recognized h, mapError_eq_error_iff]

/-- What is not is loaded as it is decoded. -/
theorem load_eq_ok_iff_of_not_recognized (h : ¬ Recognized c) {x : Contents} :
    load c = .ok x ↔ ∃ d, Document.decode c = .ok d ∧ x = ⟨d, [], none⟩ := by
  rw [Recognized] at h
  rw [load, if_neg h]
  cases Document.decode c with
  | ok d =>
    constructor
    · rintro ⟨⟩
      exact ⟨d, rfl, rfl⟩
    · rintro ⟨_, ⟨⟩, rfl⟩
      rfl
  | error t => exact ⟨nofun, nofun⟩

/-- What has no such header is refused if it is not decoded, for the same reason. -/
theorem load_eq_error_iff_of_not_recognized (h : ¬ Recognized c) {e : Error} :
    load c = .error e ↔ ∃ t, Document.decode c = .error t ∧ e = .transcoding t := by
  rw [Recognized] at h
  rw [load, if_neg h]
  cases Document.decode c with
  | ok d => exact ⟨nofun, nofun⟩
  | error t =>
    constructor
    · rintro ⟨⟩
      exact ⟨t, rfl, rfl⟩
    · rintro ⟨_, ⟨⟩, rfl⟩
      rfl

/-- A fault of the text is one of transcoding, and only a fault of the chunks is one of the
container. -/
theorem toError_of_bodyFault {f : Container.Error} (h : BodyFault f) :
    (∃ t, f.toError = .transcoding t) ∨ ChunkFault f ∧ f.toError = .malformedContainer f := by
  rcases h with hchunk | ⟨t, rfl⟩
  · refine .inr ⟨hchunk, ?_⟩
    cases hchunk <;> rfl
  · exact .inl ⟨t, rfl⟩

end Load

/-- Bytes are loaded as what they are, and as nothing else. A text that is decoded is not taken for
a container, and is loaded without bytes. A container that is opened is taken for one, and is loaded
as it is opened. Nothing else is loaded: it is refused for its text, or, if it is taken for a
container, for its chunks. -/
theorem load_dispatches (c : Bytes) :
    (∀ d, Document.decode c = .ok d →
      (recognize (⟨c, 0⟩ : Slice)).1 = false ∧ load c = .ok ⟨d, [], none⟩) ∧
    (∀ x, unpack c = .ok x → (recognize (⟨c, 0⟩ : Slice)).1 = true ∧ load c = .ok x) ∧
    (∀ x, load c = .ok x →
      (∃ d, Document.decode c = .ok d ∧ x = ⟨d, [], none⟩) ∨ unpack c = .ok x) ∧
    (∀ e, load c = .error e → (∃ t, e = .transcoding t) ∨
      (recognize (⟨c, 0⟩ : Slice)).1 = true ∧ ∃ f, ChunkFault f ∧ e = .malformedContainer f) := by
  refine ⟨fun d hd => ?_, fun x hx => ?_, fun x hx => ?_, fun e he => ?_⟩
  · have hnot := not_recognized_of_decode hd
    exact ⟨eq_false_of_ne_true hnot, (load_eq_ok_iff_of_not_recognized hnot).mpr ⟨d, hd, rfl⟩⟩
  · have hrecognized := recognized_of_unpack hx
    exact ⟨hrecognized, (load_eq_ok_iff_of_recognized hrecognized).mpr hx⟩
  · by_cases hrecognized : Recognized c
    · exact .inr ((load_eq_ok_iff_of_recognized hrecognized).mp hx)
    · exact .inl ((load_eq_ok_iff_of_not_recognized hrecognized).mp hx)
  · by_cases hrecognized : Recognized c
    · obtain ⟨f, hf, rfl⟩ := (load_eq_error_iff_of_recognized hrecognized).mp he
      rcases toError_of_bodyFault (blamesBody_unpack hrecognized f hf) with htext | ⟨hchunk, heq⟩
      · exact .inl htext
      · exact .inr ⟨hrecognized, f, hchunk, heq⟩
    · obtain ⟨t, -, rfl⟩ := (load_eq_error_iff_of_not_recognized hrecognized).mp he
      exact .inl ⟨t, rfl⟩

/-- A text, a container of it, and the container without its last byte. -/
theorem load_dispatches_minimal :
    let d : Document := { asset := { version := "2.0" } }
    let c := packed (d.encode .compact) []
    load (d.encode .compact) = .ok ⟨d, [], none⟩ ∧
      load c = .ok ⟨d, [], none⟩ ∧
      (recognize (⟨c.take 47, 0⟩ : Slice)).1 = true ∧
      load (c.take 47) = .error (.malformedContainer .truncated) := by
  intro d c
  have hd : Document.decode (d.encode .compact) = .ok d := by decide +kernel
  have hopen : unpack c = .ok ⟨d, [], none⟩ := by decide +kernel
  have hcut : load (c.take 47) = .error (.malformedContainer .truncated) := by decide +kernel
  obtain ⟨htext, -, -, -⟩ := load_dispatches (d.encode .compact)
  obtain ⟨-, hcontainer, -, -⟩ := load_dispatches c
  obtain ⟨-, -, -, hrefused⟩ := load_dispatches (c.take 47)
  refine ⟨(htext d hd).2, (hcontainer _ hopen).2, ?_, hcut⟩
  rcases hrefused _ hcut with ⟨t, ⟨⟩⟩ | ⟨hrecognized, -⟩
  exact hrecognized

end GltfAsset
