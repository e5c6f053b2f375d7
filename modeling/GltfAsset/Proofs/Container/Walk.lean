import GltfAsset.Container.Unpack
import GltfAsset.Proofs.Container.Packed
import GltfAsset.Proofs.Stream.Delivery

/-!
# Walks through streams of known bytes

Each walk takes the front of the bytes that its stream gives, and the stream goes on with the rest.
So a walk is followed step by step along the words of a header and the payload after it.
-/

namespace GltfAsset.Container

open Source

/-! ## What is made of what was taken -/

/-- What is made of up to `n` bytes where all of them are wanted or none. -/
def whole? (n : Nat) (b : Bytes) : Except Error (Option Bytes) :=
  if b.length = n then .ok (some b) else if b = [] then .ok none else .error .truncated

/-- What is made of up to `n` bytes where all of them are wanted. -/
def wholePayload (n : Nat) (b : Bytes) : Except Error Bytes :=
  if b.length < n then .error .truncated else .ok b

/-- What the words of a chunk say where the text has to be: its length. -/
def textLength : Option ChunkHeader → Except Error Nat
  | none => .error .truncated
  | some h =>
    if h.kind ≠ ChunkKind.json.code then .error (.unexpectedChunk .json h.kind)
    else if h.length = 0 then .error .emptyJsonChunk
    else .ok h.length

/-- What the words of a chunk say where the bytes may be: their length. -/
def bytesLength? : Option ChunkHeader → Except Error (Option Nat)
  | none => .ok none
  | some h =>
    if h.kind = ChunkKind.binary.code then .ok (some h.length)
    else .error (.unexpectedChunk .binary h.kind)

section Errors

variable {α ε ε' : Type} {e : Error}

/-- What is renamed in a result is its error only. -/
theorem mapError_eq_ok_iff {f : ε → ε'} {x : Except ε α} {a : α} :
    x.mapError f = .ok a ↔ x = .ok a := by
  cases x with
  | error _ => exact ⟨nofun, nofun⟩
  | ok _ =>
    -- The errors are of different types on both sides.
    show Except.ok _ = .ok a ↔ _
    rw [Except.ok.injEq, Except.ok.injEq]

/-- An error with a changed wording was one before. -/
theorem mapError_eq_error_iff {f : ε → ε'} {x : Except ε α} {e : ε'} :
    x.mapError f = .error e ↔ ∃ e₀, x = .error e₀ ∧ e = f e₀ := by
  cases x with
  | error e₀ =>
    show Except.error (f e₀) = .error e ↔ _
    simp [eq_comm]
  | ok _ => exact ⟨nofun, nofun⟩

/-! Each function has few things to say of what it refuses. -/

/-- Bytes that are not all there end too early. -/
theorem eq_truncated_of_whole? {n : Nat} {b : Bytes} (h : whole? n b = .error e) :
    e = .truncated := by
  unfold whole? at h
  split at h
  · contradiction
  · split at h
    · contradiction
    · exact (Except.error.inj h).symm

/-- A payload that is not all there ends too early. -/
theorem eq_truncated_of_wholePayload {n : Nat} {b : Bytes} (h : wholePayload n b = .error e) :
    e = .truncated := by
  unfold wholePayload at h
  split at h
  · exact (Except.error.inj h).symm
  · contradiction

/-- Only where no chunk is there, the text is said to be cut. -/
theorem eq_of_textLength {h? : Option ChunkHeader} (hr : textLength h? = .error e) :
    h? = none ∧ e = .truncated ∨ (∃ found, e = .unexpectedChunk .json found) ∨
      e = .emptyJsonChunk := by
  cases h? with
  | none => exact .inl ⟨rfl, (Except.error.inj hr).symm⟩
  | some h =>
    dsimp only [textLength] at hr
    split at hr
    · exact .inr (.inl ⟨h.kind, (Except.error.inj hr).symm⟩)
    · split at hr
      · exact .inr (.inr (Except.error.inj hr).symm)
      · contradiction

/-- In place of the bytes there is a chunk of another kind. -/
theorem eq_unexpectedChunk_of_bytesLength? {h? : Option ChunkHeader}
    (hr : bytesLength? h? = .error e) : ∃ found, e = .unexpectedChunk .binary found := by
  cases h? with
  | none => cases hr
  | some h =>
    dsimp only [bytesLength?] at hr
    split at hr
    · contradiction
    · exact ⟨h.kind, (Except.error.inj hr).symm⟩

/-- The text is refused for what it is. -/
theorem eq_transcoding_of_document {text : Bytes} (h : document text = .error e) :
    ∃ t, e = .transcoding (.text t) := by
  obtain ⟨t, -, rfl⟩ := mapError_eq_error_iff.mp h
  exact ⟨t, rfl⟩

/-- The bytes are refused for their number. -/
theorem eq_bufferLength_of_reconcile {policy : LengthPolicy} {d : Document} {payload : Bytes}
    (h : reconcile policy d payload = .error e) :
    ∃ declared, e = .bufferLength declared payload.length := by
  unfold reconcile at h
  split at h
  · dsimp only at h
    split at h
    · contradiction
    · exact ⟨_, (Except.error.inj h).symm⟩
  · contradiction

end Errors

section Source

variable {σ : Type} [Source σ]

/-- Bytes are taken first, and then counted. -/
theorem takeWhole?_eq (n : Nat) :
    (takeWhole? n : Walk σ _) = takeUpTo n >>= fun b => liftM (whole? n b) := by
  rw [takeWhole?]
  congr
  funext b
  unfold whole?
  split
  · rfl
  · split <;> rfl

/-- A payload is taken first, and then counted. -/
theorem takePayload_eq (n : Nat) :
    (takePayload n : Walk σ _) = takeUpTo n >>= fun b => liftM (wholePayload n b) := by
  rw [takePayload]
  congr
  funext b
  unfold wholePayload
  split <;> rfl

/-- From the end of the header, that of the chunk is taken. -/
theorem locateJson_current :
    (locateJson .current : Walk σ _) = takeChunkHeader? >>= fun h? => liftM (textLength h?) := by
  show takeChunkHeader? >>= _ = _
  congr
  funext h?
  cases h? with
  | none => rfl
  | some h =>
    dsimp only [textLength]
    split
    · rfl
    · split <;> rfl

end Source

/-- From the end of the text, the header of the chunk is taken. -/
theorem locateBinary_current {σ : Type} [Stream σ] :
    (locateBinary .current : Walk σ _) =
      takeChunkHeader? >>= fun h? => liftM (bytesLength? h?) := by
  show takeChunkHeader? >>= _ = _
  congr
  funext h?
  cases h? with
  | none => rfl
  | some h =>
    dsimp only [bytesLength?]
    split <;> rfl

/-! ## Walks -/

section Walk

variable {σ : Type} [Source σ] {s : σ}

/-- What is taken is the front of what the stream gives. -/
theorem exists_run_takeUpTo {b : Bytes} (h : Gives s b) (n : Nat) :
    ∃ t, (takeUpTo n : Walk σ Bytes).run.run s = (.ok (b.take n), t) ∧ Gives t (b.drop n) := by
  obtain ⟨t, ht, hdrop⟩ := exists_take_eq h n
  refine ⟨t, ?_, hdrop⟩
  unfold takeUpTo
  dsimp only [ExceptT.run, StateT.run, ExceptT.mk]
  rw [ht]

/-- All that is wanted is there. -/
theorem exists_run_takeWhole? {p r : Bytes} (h : Gives s (p ++ r)) {n : Nat} (hn : p.length = n) :
    ∃ t, (takeWhole? n : Walk σ _).run.run s = (.ok (some p), t) ∧ Gives t r := by
  obtain ⟨t, ht, hdrop⟩ := exists_run_takeUpTo h n
  rw [List.take_left' hn] at ht
  rw [List.drop_left' hn] at hdrop
  refine ⟨t, ?_, hdrop⟩
  rw [takeWhole?, run_bind_of_ok ht, if_pos hn]
  rfl

/-- Nothing is there. -/
theorem exists_run_takeWhole?_nil (h : Gives s []) {n : Nat} (hn : n ≠ 0) :
    ∃ t, (takeWhole? n : Walk σ _).run.run s = (.ok none, t) ∧ Gives t [] := by
  obtain ⟨t, ht, hdrop⟩ := exists_run_takeUpTo h n
  rw [List.take_nil] at ht
  rw [List.drop_nil] at hdrop
  refine ⟨t, ?_, hdrop⟩
  rw [takeWhole?, run_bind_of_ok ht, List.length_nil, if_neg (Ne.symm hn), if_pos rfl]
  rfl

/-- The payload is there. -/
theorem exists_run_takePayload {p r : Bytes} (h : Gives s (p ++ r)) {n : Nat} (hn : p.length = n) :
    ∃ t, (takePayload n : Walk σ Bytes).run.run s = (.ok p, t) ∧ Gives t r := by
  obtain ⟨t, ht, hdrop⟩ := exists_run_takeUpTo h n
  rw [List.take_left' hn] at ht
  rw [List.drop_left' hn] at hdrop
  refine ⟨t, ?_, hdrop⟩
  rw [takePayload, run_bind_of_ok ht, if_neg (by omega)]
  rfl

/-! ## Headers -/

/-- The first word. -/
theorem wordAt_zero {n : Nat} (hn : n < Bytes.wordLimit) (r : Bytes) :
    wordAt 0 (Bytes.ofWord n ++ r) = n := by
  rw [wordAt, List.drop_zero, List.take_left' (Bytes.length_ofWord n), Bytes.toNat_ofWord hn]

/-- The second word. -/
theorem wordAt_four {n : Nat} (hn : n < Bytes.wordLimit) (m : Nat) (r : Bytes) :
    wordAt 4 (Bytes.ofWord m ++ (Bytes.ofWord n ++ r)) = n := by
  rw [wordAt, List.drop_left' (Bytes.length_ofWord m), List.take_left' (Bytes.length_ofWord n),
    Bytes.toNat_ofWord hn]

/-- What is asked of the first two words of a header. -/
def checkWords (b : Bytes) : Except Error Unit :=
  if wordAt 0 b ≠ magic then .error (.badMagic (wordAt 0 b))
  else if wordAt 4 b ≠ version then .error (.unsupportedVersion (wordAt 4 b))
  else .ok ()

/-- The words of a header are the right ones. -/
theorem checkWords_eq_ok_iff {b : Bytes} :
    checkWords b = .ok () ↔ wordAt 0 b = magic ∧ wordAt 4 b = version := by
  rw [checkWords]
  split
  · rename_i hmagic
    exact ⟨nofun, fun h => absurd h.1 hmagic⟩
  · rename_i hmagic
    split
    · rename_i hversion
      exact ⟨nofun, fun h => absurd h.2 hversion⟩
    · rename_i hversion
      exact ⟨fun _ => ⟨Decidable.of_not_not hmagic, Decidable.of_not_not hversion⟩, fun _ => rfl⟩

/-- Each of the two words is refused with what is found in its place. -/
theorem eq_of_checkWords {b : Bytes} {e : Error} (h : checkWords b = .error e) :
    (∃ found, e = .badMagic found) ∨ ∃ found, e = .unsupportedVersion found := by
  unfold checkWords at h
  split at h
  · exact .inl ⟨_, (Except.error.inj h).symm⟩
  · split at h
    · exact .inr ⟨_, (Except.error.inj h).symm⟩
    · contradiction

/-- A header is taken whole and asked for its words. -/
theorem takeHeader_eq : (takeHeader : Walk σ Unit) = takeWhole? headerLength >>= fun b? =>
    match b? with
    | none => throw .truncated
    | some b => liftM (checkWords b) := by
  rw [takeHeader]
  congr
  funext b?
  cases b? with
  | none => rfl
  | some b =>
    dsimp only [checkWords]
    split
    · rfl
    · split <;> rfl

/-- A header is taken if its first two words are what they have to be. -/
theorem exists_run_takeHeader_eq {p r : Bytes} (h : Gives s (p ++ r))
    (hp : p.length = headerLength) :
    ∃ t, (takeHeader : Walk σ Unit).run.run s = (checkWords p, t) ∧ Gives t r := by
  obtain ⟨t, ht, hr⟩ := exists_run_takeWhole? h hp
  refine ⟨t, ?_, hr⟩
  rw [takeHeader_eq, run_bind_of_ok ht, run_liftM]

/-- The header that is written has the words that it has to have. -/
theorem checkWords_header (total : Nat) : checkWords (header total) = .ok () := by
  rw [checkWords_eq_ok_iff, header, List.append_assoc]
  exact ⟨wordAt_zero (by decide) _, wordAt_four (by decide) _ _⟩

/-- The header that is written is accepted. -/
theorem exists_run_takeHeader {total : Nat} {r : Bytes} (h : Gives s (header total ++ r)) :
    ∃ t, (takeHeader : Walk σ Unit).run.run s = (.ok (), t) ∧ Gives t r := by
  obtain ⟨t, ht, hr⟩ := exists_run_takeHeader_eq h rfl
  rw [checkWords_header] at ht
  exact ⟨t, ht, hr⟩

/-- The header that is written is known for one. -/
theorem exists_recognize_header {total : Nat} {r : Bytes} (h : Gives s (header total ++ r)) :
    ∃ t, recognize s = (true, t) ∧ Gives t r := by
  have hlength : (header total).length = headerLength := rfl
  obtain ⟨t, ht, hr⟩ := exists_take_eq h headerLength
  rw [List.take_left' hlength] at ht
  rw [List.drop_left' hlength] at hr
  refine ⟨t, ?_, hr⟩
  simp only [recognize, ht, checkWords_eq_ok_iff.mp (checkWords_header total), hlength, and_self,
    decide_true]

/-- The two words before the payload of a chunk. -/
theorem exists_run_takeChunkHeader? {n k : Nat} (hn : n < Bytes.wordLimit)
    (hk : k < Bytes.wordLimit) {r : Bytes}
    (h : Gives s (Bytes.ofWord n ++ Bytes.ofWord k ++ r)) :
    ∃ t, (takeChunkHeader? : Walk σ _).run.run s = (.ok (some ⟨n, k⟩), t) ∧ Gives t r := by
  obtain ⟨t, ht, hr⟩ := exists_run_takeWhole? h (n := chunkHeaderLength) rfl
  refine ⟨t, ?_, hr⟩
  have hlength : wordAt 0 (Bytes.ofWord n ++ Bytes.ofWord k) = n := wordAt_zero hn _
  have hkind : wordAt 4 (Bytes.ofWord n ++ Bytes.ofWord k) = k := by
    have := wordAt_four hk n []
    rwa [List.append_nil] at this
  rw [takeChunkHeader?, run_bind_of_ok ht, Option.map_some, hlength, hkind]
  rfl

/-- There is no further chunk. -/
theorem exists_run_takeChunkHeader?_nil (h : Gives s []) :
    ∃ t, (takeChunkHeader? : Walk σ _).run.run s = (.ok none, t) ∧ Gives t [] := by
  obtain ⟨t, ht, hr⟩ := exists_run_takeWhole?_nil h (n := chunkHeaderLength) (by decide)
  refine ⟨t, ?_, hr⟩
  rw [takeChunkHeader?, run_bind_of_ok ht]
  rfl

/-- The walk to the text of what was packed. -/
theorem exists_run_locateJson {total n : Nat} (hn : n < Bytes.wordLimit) (hn0 : n ≠ 0) {r : Bytes}
    (h : Gives s (header total ++ (Bytes.ofWord n ++ Bytes.ofWord ChunkKind.json.code ++ r))) :
    ∃ t, (locateJson .start : Walk σ Nat).run.run s = (.ok n, t) ∧ Gives t r := by
  obtain ⟨t, ht, h⟩ := exists_run_takeHeader h
  obtain ⟨u, hu, hr⟩ := exists_run_takeChunkHeader? hn (by decide) h
  refine ⟨u, ?_, hr⟩
  rw [locateJson, if_pos rfl, run_bind_of_ok ht, run_bind_of_ok hu]
  simp only [ne_eq, not_true_eq_false, hn0, if_false]
  rfl

end Walk

section Stream

variable {σ : Type} [Stream σ] {s : σ}

/-- The walk to the bytes of what was packed. -/
theorem exists_run_locateBinary {n : Nat} (hn : n < Bytes.wordLimit) {r : Bytes}
    (h : Gives s (Bytes.ofWord n ++ Bytes.ofWord ChunkKind.binary.code ++ r)) :
    ∃ t, (locateBinary .current : Walk σ _).run.run s = (.ok (some n), t) ∧ Gives t r := by
  obtain ⟨t, ht, hr⟩ := exists_run_takeChunkHeader? hn (by decide) h
  refine ⟨t, ?_, hr⟩
  rw [locateBinary_current, run_bind_of_ok ht]
  rfl

/-- There are no bytes to walk to. -/
theorem exists_run_locateBinary_nil (h : Gives s []) :
    ∃ t, (locateBinary .current : Walk σ _).run.run s = (.ok none, t) ∧ Gives t [] := by
  obtain ⟨t, ht, hr⟩ := exists_run_takeChunkHeader?_nil h
  refine ⟨t, ?_, hr⟩
  rw [locateBinary_current, run_bind_of_ok ht]
  rfl

end Stream

end GltfAsset.Container
