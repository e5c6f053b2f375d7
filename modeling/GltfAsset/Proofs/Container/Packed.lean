import GltfAsset.Container.Pack
import GltfAsset.Proofs.Stream.Reception

/-!
# The bytes of a container

What `packTo` writes and `pack` makes, as one list of bytes: the header, the chunk with the text,
and the chunk with the bytes if there are any (`writes_packTo`, `pack_eq_ok_iff`).
-/

namespace GltfAsset.Container

/-- The header of a container of the given length. -/
def header (total : Nat) : Bytes :=
  Bytes.ofWord magic ++ Bytes.ofWord version ++ Bytes.ofWord total

/-- A chunk with the given payload. -/
def chunk (k : ChunkKind) (payload : Bytes) : Bytes :=
  Bytes.ofWord (paddedLength payload.length) ++ Bytes.ofWord k.code ++ padded k payload

/-- The container with the given text and bytes. -/
def packed (json bin : Bytes) : Bytes :=
  header (totalLength json bin) ++ chunk .json json ++ if bin = [] then [] else chunk .binary bin

/-! ## Padding -/

/-- A payload is not longer than it is with its padding. -/
theorem le_paddedLength (n : Nat) : n ≤ paddedLength n := by
  unfold paddedLength
  omega

/-- A padded length is a multiple of four. -/
theorem dvd_paddedLength (n : Nat) : 4 ∣ paddedLength n := Nat.dvd_mul_left ..

/-- A padded payload has the padded length. -/
theorem length_padded (k : ChunkKind) (payload : Bytes) :
    (padded k payload).length = paddedLength payload.length := by
  rw [padded, List.length_append, List.length_replicate]
  exact Nat.add_sub_cancel' (le_paddedLength _)

/-- The padding is the least that makes a length a multiple of four. -/
theorem isLeast_padding (n : Nat) :
    4 ∣ n + (paddedLength n - n) ∧ ∀ k, 4 ∣ n + k → paddedLength n - n ≤ k := by
  unfold paddedLength
  constructor
  · omega
  · intro k hk
    omega

/-! ## Writing -/

section Writer

variable {σ α β : Type} {ε : Type}

/-- A sequence succeeds if both steps do. -/
theorem run_bind_eq_ok_iff {x : ExceptT ε (StateM σ) α} {f : α → ExceptT ε (StateM σ) β} {s u : σ}
    {b : β} : (x >>= f).run.run s = (.ok b, u) ↔
      ∃ a t, x.run.run s = (.ok a, t) ∧ (f a).run.run t = (.ok b, u) := by
  cases hx : x.run.run s with
  | mk r t =>
  cases r with
  | ok a =>
    rw [run_bind_of_ok hx]
    constructor
    · intro h
      exact ⟨a, t, rfl, h⟩
    · rintro ⟨_, _, ⟨⟩, h⟩
      exact h
  | error e =>
    rw [run_bind_of_error hx]
    constructor
    · intro h
      cases h
    · rintro ⟨_, _, h, -⟩
      cases h

/-- What is known already takes nothing. -/
theorem run_liftM (x : Except ε α) (s : σ) :
    (liftM x : ExceptT ε (StateM σ) α).run.run s = (x, s) := by
  cases x with
  | ok a => rfl
  | error e => rfl

end Writer

section Parts

variable {σ : Type} [Receiver σ]

/-- Putting bytes writes these. -/
theorem writes_put (b : Bytes) : Writes Error.transport (put b : Writer σ Unit) b := by
  refine ⟨fun {s l} h => ?_⟩
  obtain ⟨t, ht, hwritten, hless⟩ := h.exists_writeAll_eq b
  refine ⟨t, ?_, hwritten, hless⟩
  show put b s = ((l.answer b.length).mapError .transport, t)
  unfold put
  rw [ht]
  cases l.answer b.length with
  | ok => rfl
  | error e => rfl

/-- Putting the header writes the header. -/
theorem writes_putHeader (total : Nat) :
    Writes Error.transport (putHeader total : Writer σ Unit) (header total) := by
  have h := (writes_put (σ := σ) (Bytes.ofWord magic)).append
    ((writes_put (Bytes.ofWord version)).append (writes_put (Bytes.ofWord total)))
  rw [header, List.append_assoc]
  exact h

/-- Putting a chunk writes the chunk. -/
theorem writes_putChunk (k : ChunkKind) (payload : Bytes) :
    Writes Error.transport (putChunk k payload : Writer σ Unit) (chunk k payload) := by
  have h := (writes_put (σ := σ) (Bytes.ofWord (paddedLength payload.length))).append
    ((writes_put (Bytes.ofWord k.code)).append ((writes_put payload).append
      (writes_put (List.replicate (paddedLength payload.length - payload.length) k.padding))))
  rw [chunk, padded, List.append_assoc]
  exact h

/-- A container that is not too long is written part after part. -/
theorem writes_packTo {d : Document} {bin : Bytes}
    (hfits : totalLength (d.encode .compact) bin < Bytes.wordLimit) :
    Writes Error.transport (packTo d bin : Writer σ Unit) (packed (d.encode .compact) bin) := by
  unfold packTo
  -- What is written depends on the text only, not on the document.
  generalize d.encode .compact = json at hfits ⊢
  have hbinary : Writes Error.transport
      (if bin ≠ [] then putChunk .binary bin else pure () : Writer σ Unit)
      (if bin = [] then [] else chunk .binary bin) := by
    by_cases hbin : bin = []
    · rw [if_pos hbin, if_neg (not_not_intro hbin)]
      exact writes_pure
    · rw [if_neg hbin, if_pos hbin]
      exact writes_putChunk .binary bin
  have h := (writes_putHeader (totalLength json bin)).append
    ((writes_putChunk .json json).append hbinary)
  simp only [if_neg (Nat.not_le_of_lt hfits)]
  rw [packed, List.append_assoc]
  exact h

/-- A container that is too long is not begun. -/
theorem run_packTo_of_long {d : Document} {bin : Bytes}
    (hlong : Bytes.wordLimit ≤ totalLength (d.encode .compact) bin) (s : σ) :
    (packTo d bin : Writer σ Unit).run.run s =
      (.error (.lengthOverflow (totalLength (d.encode .compact) bin)), s) := by
  unfold packTo
  simp only [if_pos hlong]
  rfl

end Parts

/-- What is packed is the header and the chunks, if their length fits its word. -/
theorem pack_eq_ok_iff {d : Document} {bin g : Bytes} :
    pack d bin = .ok g ↔
      totalLength (d.encode .compact) bin < Bytes.wordLimit ∧
        g = packed (d.encode .compact) bin := by
  unfold pack
  by_cases hlong : Bytes.wordLimit ≤ totalLength (d.encode .compact) bin
  · rw [run_packTo_of_long hlong]
    constructor
    · intro h
      contradiction
    · rintro ⟨hfits, -⟩
      exact absurd hfits (Nat.not_lt.mpr hlong)
  · have hfits := Nat.lt_of_not_le hlong
    -- An empty sink without a limit has then all that is written.
    obtain ⟨t, ht, hwritten, -⟩ := (writes_packTo hfits).exists_run_eq ({} : Sink).limited
    have ht : (packTo d bin).run.run ({} : Sink) = (.ok (), t) := ht
    have hwritten : t.written = packed (d.encode .compact) bin := by
      have hall := List.take_length (l := packed (d.encode .compact) bin)
      exact hwritten.trans hall
    rw [ht]
    constructor
    · intro h
      exact ⟨hfits, (Except.ok.inj h).symm.trans hwritten⟩
    · rintro ⟨-, rfl⟩
      exact congrArg Except.ok hwritten

end GltfAsset.Container
