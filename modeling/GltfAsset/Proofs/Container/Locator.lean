import GltfAsset.Proofs.Container.Grammar

/-!
# Walking to the bytes and opening

Who walks to the bytes of a container passes over its text, and who opens it decodes the text before
going on. Both meet the same chunks, so they disagree in one way only: a text that is there and is
refused is the fault that is met first by opening, and the walk knows nothing of it, whatever it
finds after the text (`sameStory_unpack`).
-/

namespace GltfAsset.Container

open Source

/-! ## The walk at hand -/

/-- The text that the walk to it sets apart, if all of it is there. -/
def text? (c : Bytes) : Option Bytes :=
  match (locateJson .start : Walk Slice Nat).run.run ⟨c, 0⟩ with
  | (.ok n, s) => if s.rest.length < n then none else some (s.rest.take n)
  | (.error _, _) => none

/-- What is passed over at hand. -/
theorem run_skipPayload_slice (n : Nat) (s : Slice) :
    (skipPayload n : Walk Slice Unit).run.run s =
      if s.rest.length < n then (.error .truncated, ⟨[], s.taken + s.rest.length⟩)
      else (.ok (), ⟨s.rest.drop n, s.taken + n⟩) := by
  have hskip : Stream.skip n s = Slice.skip n s := rfl
  unfold skipPayload
  dsimp only [ExceptT.run, StateT.run, ExceptT.mk]
  rw [hskip, Slice.skip]
  by_cases hn : n ≤ s.rest.length
  · rw [if_pos hn, if_neg (Nat.not_lt.mpr hn)]
  · rw [if_neg hn, if_pos (Nat.lt_of_not_le hn)]
    rfl

/-- The walk to the bytes goes on where the text ends, as opening does. -/
theorem run_locateBinary_start_slice (c : Bytes) :
    (locateBinary .start : Walk Slice _).run.run ⟨c, 0⟩ =
      match (locateJson .start : Walk Slice Nat).run.run ⟨c, 0⟩ with
      | (.error e, s) => (.error e, s)
      | (.ok n, s) =>
        if s.rest.length < n then (.error .truncated, ⟨[], s.taken + s.rest.length⟩)
        else (locateBinary .current).run.run ⟨s.rest.drop n, s.taken + n⟩ := by
  rw [locateBinary_start]
  cases hjson : (locateJson .start : Walk Slice Nat).run.run ⟨c, 0⟩ with
  | mk r s =>
  cases r with
  | error e => rw [run_bind_of_error hjson]
  | ok n =>
    rw [run_bind_of_ok hjson]
    have hskip := run_skipPayload_slice n s
    dsimp only
    split at hskip
    · rename_i hn
      rw [run_bind_of_error hskip, if_pos hn]
    · rename_i hn
      rw [run_bind_of_ok hskip, if_neg hn]

/-! ## What is cut out -/

/-- What is kept of a payload is its front. -/
theorem Keeps.isPrefix {d : Document} {payload b : Bytes} (h : Keeps d payload b) :
    b <+: payload := by
  cases h with
  | declared => exact List.take_prefix _ _
  | undeclared => exact List.prefix_rfl

/-- Either the length is refused, or the front of the payload is kept. -/
theorem reconcile_cases (d : Document) (payload : Bytes) :
    (∃ declared, reconcile .truncateToDeclared d payload =
        .error (.bufferLength declared payload.length)) ∨
      ∃ b w, reconcile .truncateToDeclared d payload = .ok ⟨d, b, w⟩ ∧ b <+: payload := by
  cases hkept : reconcile .truncateToDeclared d payload with
  | error e =>
    obtain ⟨declared, rfl⟩ := eq_bufferLength_of_reconcile hkept
    exact .inl ⟨declared, rfl⟩
  | ok k =>
    obtain ⟨d', b, w⟩ := k
    obtain ⟨rfl, hb⟩ := exists_reconcile_eq_ok_iff.mp ⟨w, hkept⟩
    exact .inr ⟨b, w, rfl, hb.isPrefix⟩

/-! ## The two stories -/

/-- How opening the container `c` answers to what the walk to its bytes found, leaving `left`. -/
structure SameStory (c : Bytes) (found : Except Error (Option Nat)) (left : Bytes)
    (opened : Except Error Contents) : Prop where
  /-- A text that is there and refused is what opening fails for, whatever the walk found. -/
  rejected : ∀ text e, text? c = some text → Document.decode text = .error e →
    opened = .error (.transcoding (.text e))
  /-- If there is no such text, opening fails where the walk does, and for the same reason. -/
  refused : ∀ e, found = .error e →
    (∀ text e', text? c = some text → Document.decode text ≠ .error e') → opened = .error e
  /-- If the walk found that there are no bytes, the text is there, and opening gives its document
  without any. -/
  absent : found = .ok none → ∃ text, text? c = some text ∧
    ∀ d, Document.decode text = .ok d → opened = .ok ⟨d, [], none⟩
  /-- If the walk found bytes, the text is there too. Opening is truncated exactly if fewer bytes
  are left than were found; otherwise their number is refused, or the first of them are kept. -/
  present : ∀ n, found = .ok (some n) → ∃ text, text? c = some text ∧
    ∀ d, Document.decode text = .ok d →
      (opened = .error .truncated ↔ left.length < n) ∧
      (n ≤ left.length → (∃ declared, opened = .error (.bufferLength declared n)) ∨
        ∃ b w, opened = .ok ⟨d, b, w⟩ ∧ b <+: left.take n)
  /-- The document is that of the text which is set apart. -/
  document : ∀ k, opened = .ok k →
    ∃ text, text? c = some text ∧ Document.decode text = .ok k.document

section Story

variable {c : Bytes}

/-- If there is no text, both fail alike. -/
theorem sameStory_of_text?_eq_none (h : text? c = none) (e : Error) (left : Bytes) :
    SameStory c (.error e) left (.error e) where
  rejected text _ htext := by
    rw [h] at htext
    cases htext
  refused _ he _ := by
    cases he
    rfl
  absent h := by cases h
  present _ h := by cases h
  document _ h := by cases h

/-- If the text is refused, it does not matter what is found after it. -/
theorem sameStory_of_decode_eq_error {text : Bytes} {e : Json.Error} (h : text? c = some text)
    (he : Document.decode text = .error e) (found : Except Error (Option Nat)) (left : Bytes) :
    SameStory c found left (.error (.transcoding (.text e))) where
  rejected text' e' htext he' := by
    obtain rfl := Option.some.inj (h.symm.trans htext)
    rw [Except.error.inj (he.symm.trans he')]
  refused _ _ hnone := absurd he (hnone text e h)
  absent _ := by
    refine ⟨text, h, fun d hd => ?_⟩
    cases he.symm.trans hd
  present _ _ := by
    refine ⟨text, h, fun d hd => ?_⟩
    cases he.symm.trans hd
  document _ h := by cases h

/-- If the text is that of a document, opening cuts out what is found after it. -/
theorem sameStory_cutBinary {text : Bytes} {d : Document} (h : text? c = some text)
    (hd : Document.decode text = .ok d) {s t : Slice} {found : Except Error (Option Nat)}
    (hfound : (locateBinary .current : Walk Slice _).run.run s = (found, t)) :
    SameStory c found t.rest (cutBinary d s) where
  rejected text' e htext he := by
    obtain rfl := Option.some.inj (h.symm.trans htext)
    cases hd.symm.trans he
  refused e he _ := by
    subst he
    rw [cutBinary, hfound]
  absent hnone := by
    subst hnone
    refine ⟨text, h, fun d' hd' => ?_⟩
    obtain rfl := Except.ok.inj (hd.symm.trans hd')
    rw [cutBinary, hfound]
  present n hn := by
    subst hn
    refine ⟨text, h, fun d' hd' => ?_⟩
    obtain rfl := Except.ok.inj (hd.symm.trans hd')
    rw [cutBinary, hfound]
    dsimp only
    by_cases hshort : t.rest.length < n
    · rw [if_pos hshort]
      exact ⟨iff_of_true rfl hshort, fun hn => absurd hshort (Nat.not_lt.mpr hn)⟩
    · have hlength : (t.rest.take n).length = n := by
        rw [List.length_take]
        omega
      have hcases := reconcile_cases d (t.rest.take n)
      rw [hlength] at hcases
      rw [if_neg hshort]
      refine ⟨iff_of_false ?_ hshort, fun _ => hcases⟩
      -- A payload that is there is refused for its length only.
      intro htruncated
      obtain ⟨_, h⟩ := eq_bufferLength_of_reconcile htruncated
      cases h
  document k hk := by
    refine ⟨text, h, ?_⟩
    rw [cutBinary, hfound] at hk
    cases found with
    | error e => cases hk
    | ok n? =>
      cases n? with
      | none =>
        cases hk
        exact hd
      | some n =>
        dsimp only at hk
        split at hk
        · cases hk
        · obtain ⟨d', b, w⟩ := k
          obtain ⟨rfl, -⟩ := exists_reconcile_eq_ok_iff.mp ⟨w, hk⟩
          exact hd

end Story

/-- Opening a container tells the same as the walk to its bytes, save that a text which is there and
is refused comes first. -/
theorem sameStory_unpack (c : Bytes) :
    let walk := (locateBinary .start : Walk Slice _).run.run ⟨c, 0⟩
    SameStory c walk.1 walk.2.rest (unpack c) := by
  intro walk
  have hwalk : walk = _ := run_locateBinary_start_slice c
  rw [hwalk, unpack_eq]
  cases hjson : (locateJson .start : Walk Slice Nat).run.run ⟨c, 0⟩ with
  | mk r s =>
  cases r with
  | error e =>
    have htext : text? c = none := by rw [text?, hjson]
    exact sameStory_of_text?_eq_none htext e s.rest
  | ok n =>
    dsimp only
    by_cases hshort : s.rest.length < n
    · have htext : text? c = none := by
        rw [text?, hjson]
        exact if_pos hshort
      rw [if_pos hshort, if_pos hshort]
      exact sameStory_of_text?_eq_none htext .truncated []
    · have htext : text? c = some (s.rest.take n) := by
        rw [text?, hjson]
        exact if_neg hshort
      rw [if_neg hshort, if_neg hshort]
      cases hdecoded : Document.decode (s.rest.take n) with
      | error e =>
        rw [document, hdecoded]
        exact sameStory_of_decode_eq_error htext hdecoded _ _
      | ok d =>
        rw [document, hdecoded]
        exact sameStory_cutBinary htext hdecoded rfl

/-- Both chunks are at fault: a text that breaks off, and after it a chunk of the same kind. -/
example :
    let c := header 0 ++ (framed .json [0x7B] ++ framed .json [0x7B])
    ((locateBinary .start : Walk Slice _).run.run ⟨c, 0⟩).1 =
        .error (.unexpectedChunk .binary ChunkKind.json.code) ∧
      unpack c = .error (.transcoding (.text (.endOfInput .object))) := by decide +kernel

end GltfAsset.Container
