import Mathlib.Control.Monad.Basic
import GltfAsset.Proofs.Container.Agreement

/-!
# What containers are

Each walk that succeeds took bytes of a known form: the words of a header that it accepts, and the
payload that the words announce. Put together, the containers that are opened are exactly those
that are spelled as the layout says, up to the word for the length of the whole and the bytes after
the last payload, which nothing looks at (`unpack_eq_ok_iff`).
-/

namespace GltfAsset.Container

open Source

/-! ## Words -/

/-- The bytes of the word at a place are those that stand there. -/
theorem ofWord_wordAt {i : Nat} {b : Bytes} (h : i + 4 ≤ b.length) :
    Bytes.ofWord (wordAt i b) = (b.drop i).take 4 := by
  refine Bytes.ofWord_toNat ?_
  rw [List.length_take, List.length_drop]
  omega

/-- The word at a place is below the limit of words. -/
theorem wordAt_lt_wordLimit {i : Nat} {b : Bytes} (h : i + 4 ≤ b.length) :
    wordAt i b < Bytes.wordLimit := by
  refine Bytes.toNat_lt_wordLimit ?_
  rw [List.length_take, List.length_drop]
  omega

/-- A word and the bytes after it. -/
theorem ofWord_wordAt_append_drop {i : Nat} {b : Bytes} (h : i + 4 ≤ b.length) :
    Bytes.ofWord (wordAt i b) ++ b.drop (i + 4) = b.drop i := by
  rw [ofWord_wordAt h, ← List.drop_drop, List.take_append_drop]

/-- Eight bytes are two words. -/
theorem words_of_length_eight {b : Bytes} (h : b.length = 8) :
    Bytes.ofWord (wordAt 0 b) ++ Bytes.ofWord (wordAt 4 b) = b := by
  have hfirst := ofWord_wordAt_append_drop (i := 0) (b := b) (by omega)
  have hsecond := ofWord_wordAt_append_drop (i := 4) (b := b) (by omega)
  rw [List.drop_eq_nil_of_le (Nat.le_of_eq h), List.append_nil] at hsecond
  rw [hsecond, hfirst, List.drop_zero]

/-- Twelve bytes are three words. -/
theorem words_of_length_twelve {b : Bytes} (h : b.length = 12) :
    Bytes.ofWord (wordAt 0 b) ++ Bytes.ofWord (wordAt 4 b) ++ Bytes.ofWord (wordAt 8 b) = b := by
  have hfirst := ofWord_wordAt_append_drop (i := 0) (b := b) (by omega)
  have hsecond := ofWord_wordAt_append_drop (i := 4) (b := b) (by omega)
  have hthird := ofWord_wordAt_append_drop (i := 8) (b := b) (by omega)
  rw [List.drop_eq_nil_of_le (Nat.le_of_eq h), List.append_nil] at hthird
  rw [List.append_assoc, hthird, hsecond, hfirst, List.drop_zero]

/-! ## What a walk took -/

section Walk

variable {σ : Type} [Source σ] {s t : σ} {b : Bytes}

/-- What is taken whole is the front of what is left. -/
theorem of_run_takeWhole? (h : Gives s b) {n : Nat} {p : Bytes}
    (hrun : (takeWhole? n : Walk σ _).run.run s = (.ok (some p), t)) :
    p.length = n ∧ ∃ r, b = p ++ r ∧ Gives t r := by
  obtain ⟨u, hu, hdrop⟩ := exists_run_takeUpTo h n
  rw [takeWhole?, run_bind_of_ok hu] at hrun
  split at hrun
  · rename_i hlength
    cases hrun
    exact ⟨hlength, b.drop n, (List.take_append_drop n b).symm, hdrop⟩
  · split at hrun
    · cases hrun
    · cases hrun

/-- Nothing is taken at the end only. -/
theorem of_run_takeWhole?_none (h : Gives s b) {n : Nat} (hn : n ≠ 0)
    (hrun : (takeWhole? n : Walk σ _).run.run s = (.ok none, t)) : b = [] := by
  obtain ⟨u, hu, -⟩ := exists_run_takeUpTo h n
  rw [takeWhole?, run_bind_of_ok hu] at hrun
  split at hrun
  · cases hrun
  · split at hrun
    · rename_i hnil
      exact (List.take_eq_nil_iff.mp hnil).resolve_left hn
    · cases hrun

/-- A payload is the front of what is left. -/
theorem of_run_takePayload (h : Gives s b) {n : Nat} {p : Bytes}
    (hrun : (takePayload n : Walk σ _).run.run s = (.ok p, t)) :
    p.length = n ∧ ∃ r, b = p ++ r ∧ Gives t r := by
  obtain ⟨u, hu, hdrop⟩ := exists_run_takeUpTo h n
  rw [takePayload, run_bind_of_ok hu] at hrun
  split at hrun
  · cases hrun
  · rename_i hlength
    have hle := List.length_take_le n b
    cases hrun
    exact ⟨by omega, b.drop n, (List.take_append_drop n b).symm, hdrop⟩

/-- A header that is accepted is one that is written. -/
theorem of_run_takeHeader (h : Gives s b)
    (hrun : (takeHeader : Walk σ _).run.run s = (.ok (), t)) :
    ∃ total < Bytes.wordLimit, ∃ r, b = header total ++ r ∧ Gives t r := by
  rw [takeHeader_eq] at hrun
  obtain ⟨p?, u, hp, hrun⟩ := run_bind_eq_ok_iff.mp hrun
  cases p? with
  | none => cases hrun
  | some p =>
    obtain ⟨hlength, r, rfl, hr⟩ := of_run_takeWhole? h hp
    dsimp only at hrun
    rw [run_liftM] at hrun
    obtain ⟨hchecked, rfl⟩ := Prod.mk.inj hrun
    obtain ⟨hmagic, hversion⟩ := checkWords_eq_ok_iff.mp hchecked
    -- The third word is not asked for, so it can be any.
    refine ⟨wordAt 8 p, wordAt_lt_wordLimit (Nat.le_of_eq hlength.symm), r, ?_, hr⟩
    rw [header, ← hmagic, ← hversion, words_of_length_twelve hlength]

/-- The words of a chunk stand before its payload. -/
theorem of_run_takeChunkHeader? (h : Gives s b) {c : ChunkHeader}
    (hrun : (takeChunkHeader? : Walk σ _).run.run s = (.ok (some c), t)) :
    c.length < Bytes.wordLimit ∧
      ∃ r, b = Bytes.ofWord c.length ++ Bytes.ofWord c.kind ++ r ∧ Gives t r := by
  rw [takeChunkHeader?] at hrun
  obtain ⟨p?, u, hp, hrun⟩ := run_bind_eq_ok_iff.mp hrun
  cases p? with
  | none => cases hrun
  | some p =>
    obtain ⟨hlength, r, rfl, hr⟩ := of_run_takeWhole? h hp
    have hlength : p.length = 8 := hlength
    have hwords := words_of_length_eight hlength
    cases hrun
    exact ⟨wordAt_lt_wordLimit (by omega), r, by rw [hwords], hr⟩

/-- There is no chunk header only where there are no more bytes. -/
theorem of_run_takeChunkHeader?_none (h : Gives s b)
    (hrun : (takeChunkHeader? : Walk σ _).run.run s = (.ok none, t)) : b = [] := by
  rw [takeChunkHeader?] at hrun
  obtain ⟨p?, u, hp, hrun⟩ := run_bind_eq_ok_iff.mp hrun
  cases p? with
  | none => exact of_run_takeWhole?_none h (by decide) hp
  | some p => cases hrun

/-- The text is found after the header and the words of its chunk. -/
theorem of_run_locateJson (h : Gives s b) {n : Nat}
    (hrun : (locateJson .start : Walk σ _).run.run s = (.ok n, t)) :
    n ≠ 0 ∧ n < Bytes.wordLimit ∧ ∃ total < Bytes.wordLimit, ∃ r,
      b = header total ++ (Bytes.ofWord n ++ Bytes.ofWord ChunkKind.json.code ++ r) ∧
        Gives t r := by
  rw [locateJson_start] at hrun
  obtain ⟨⟨⟩, u, hheader, hrun⟩ := run_bind_eq_ok_iff.mp hrun
  obtain ⟨total, htotal, r, rfl, hr⟩ := of_run_takeHeader h hheader
  obtain ⟨c?, v, hchunk, hrun⟩ := run_bind_eq_ok_iff.mp hrun
  cases c? with
  | none => cases hrun
  | some c =>
    obtain ⟨hlength, r, rfl, hr⟩ := of_run_takeChunkHeader? hr hchunk
    dsimp only at hrun
    split at hrun
    · cases hrun
    · rename_i hkind
      split at hrun
      · cases hrun
      · rename_i hne
        cases hrun
        rw [← Decidable.of_not_not hkind]
        exact ⟨hne, hlength, total, htotal, r, rfl, hr⟩

end Walk

section Stream

variable {σ : Type} [Stream σ] {s t : σ} {b : Bytes}

/-- The bytes are found after the words of their chunk. -/
theorem of_run_locateBinary (h : Gives s b) {n : Nat}
    (hrun : (locateBinary .current : Walk σ _).run.run s = (.ok (some n), t)) :
    n < Bytes.wordLimit ∧
      ∃ r, b = Bytes.ofWord n ++ Bytes.ofWord ChunkKind.binary.code ++ r ∧ Gives t r := by
  obtain ⟨c?, v, hchunk, hrun⟩ := run_bind_eq_ok_iff.mp hrun
  cases c? with
  | none => cases hrun
  | some c =>
    obtain ⟨hlength, r, rfl, hr⟩ := of_run_takeChunkHeader? h hchunk
    dsimp only at hrun
    split at hrun
    · rename_i hkind
      cases hrun
      rw [← hkind]
      exact ⟨hlength, r, rfl, hr⟩
    · cases hrun

/-- No BIN chunk is found only where there are no more bytes. -/
theorem of_run_locateBinary_none (h : Gives s b)
    (hrun : (locateBinary .current : Walk σ _).run.run s = (.ok none, t)) : b = [] := by
  obtain ⟨c?, v, hchunk, hrun⟩ := run_bind_eq_ok_iff.mp hrun
  cases c? with
  | none => exact of_run_takeChunkHeader?_none h hchunk
  | some c =>
    dsimp only at hrun
    split at hrun
    · cases hrun
    · cases hrun

end Stream

/-! ## What is done with a container of known parts -/

/-- A chunk whose words announce the payload that it has. -/
def framed (k : ChunkKind) (payload : Bytes) : Bytes :=
  Bytes.ofWord payload.length ++ Bytes.ofWord k.code ++ payload

/-- A framed payload is as long as the payload and the eight bytes before it. -/
theorem length_framed (k : ChunkKind) (payload : Bytes) :
    (framed k payload).length = 8 + payload.length :=
  List.length_append

section Framed

variable {σ : Type} [Stream σ] {s : σ} {payload r : Bytes}

/-- A payload that is announced is reconciled with the document. -/
theorem exists_run_takeBinary_framed (policy : LengthPolicy) (d : Document)
    (hfits : payload.length < Bytes.wordLimit) (h : Gives s (framed .binary payload ++ r)) :
    ∃ t, (takeBinary policy d : Walk σ _).run.run s = (reconcile policy d payload, t) ∧
      Gives t r := by
  rw [framed, List.append_assoc] at h
  obtain ⟨t, ht, h⟩ := exists_run_locateBinary hfits h
  obtain ⟨u, hu, h⟩ := exists_run_takePayload h rfl
  refine ⟨u, ?_, h⟩
  rw [takeBinary, run_bind_of_ok ht]
  dsimp only
  rw [run_bind_of_ok hu, run_liftM]

/-- Without a further chunk there are no bytes. -/
theorem exists_run_takeBinary_nil (policy : LengthPolicy) (d : Document) (h : Gives s []) :
    ∃ t, (takeBinary policy d : Walk σ _).run.run s = (.ok ⟨d, [], none⟩, t) ∧ Gives t [] := by
  obtain ⟨t, ht, h⟩ := exists_run_locateBinary_nil h
  refine ⟨t, ?_, h⟩
  rw [takeBinary, run_bind_of_ok ht]
  rfl

/-- A text that is announced is decoded, and then the bytes are taken. -/
theorem exists_run_unpackFrom_framed (policy : LengthPolicy) {total : Nat} {text : Bytes}
    (hne : text ≠ []) (hfits : text.length < Bytes.wordLimit)
    (h : Gives s (header total ++ (framed .json text ++ r))) :
    ∃ t, (unpackFrom policy : Walk σ _).run.run s =
        (liftM (document text) >>= fun d => takeBinary policy d : Walk σ _).run.run t ∧
      Gives t r := by
  have hne : text.length ≠ 0 := by rwa [Ne, List.length_eq_zero_iff]
  rw [framed, List.append_assoc _ text] at h
  obtain ⟨t, ht, h⟩ := exists_run_locateJson hfits hne h
  obtain ⟨u, hu, h⟩ := exists_run_takePayload h rfl
  refine ⟨u, ?_, h⟩
  rw [unpackFrom_eq, run_bind_of_ok ht, run_bind_of_ok hu]

end Framed

/-- A container at hand with bytes. -/
theorem unpack_framed {total : Nat} {text payload : Bytes} (hne : text ≠ [])
    (htext : text.length < Bytes.wordLimit) (hpayload : payload.length < Bytes.wordLimit)
    (tail : Bytes) :
    unpack (header total ++ (framed .json text ++ (framed .binary payload ++ tail))) =
      document text >>= fun d => reconcile .truncateToDeclared d payload := by
  rw [← unpackFrom_eq_unpack (Slice.gives ⟨_, 0⟩)]
  obtain ⟨t, ht, h⟩ := exists_run_unpackFrom_framed .truncateToDeclared hne htext
    (Slice.gives ⟨header total ++ (framed .json text ++ (framed .binary payload ++ tail)), 0⟩)
  rw [ht]
  cases document text with
  | error e => rfl
  | ok d =>
    obtain ⟨u, hu, -⟩ := exists_run_takeBinary_framed .truncateToDeclared d hpayload h
    exact congrArg Prod.fst hu

/-- A container at hand without bytes. -/
theorem unpack_framed_nil {total : Nat} {text : Bytes} (hne : text ≠ [])
    (htext : text.length < Bytes.wordLimit) :
    unpack (header total ++ framed .json text) =
      document text >>= fun d => .ok ⟨d, [], none⟩ := by
  rw [← unpackFrom_eq_unpack (Slice.gives ⟨_, 0⟩), ← List.append_nil (framed .json text)]
  obtain ⟨t, ht, h⟩ := exists_run_unpackFrom_framed .truncateToDeclared hne htext
    (Slice.gives ⟨header total ++ (framed .json text ++ []), 0⟩)
  rw [ht]
  cases document text with
  | error e => rfl
  | ok d =>
    obtain ⟨u, hu, -⟩ := exists_run_takeBinary_nil .truncateToDeclared d h
    exact congrArg Prod.fst hu

/-! ## What is opened -/

/-- A text is taken for a document if it decodes to this document. -/
theorem document_eq_ok_iff {text : Bytes} {d : Document} :
    document text = .ok d ↔ Document.decode text = .ok d := mapError_eq_ok_iff

/-- A container from which bytes are taken for a document ends after its text or has a chunk for
them. -/
theorem of_run_takeBinary {σ : Type} [Stream σ] {s t : σ} {b : Bytes} {policy : LengthPolicy}
    {d : Document} {c : Contents} (h : Gives s b)
    (hrun : (takeBinary policy d : Walk σ _).run.run s = (.ok c, t)) :
    b = [] ∧ c = ⟨d, [], none⟩ ∨ ∃ payload tail, payload.length < Bytes.wordLimit ∧
      b = framed .binary payload ++ tail ∧ reconcile policy d payload = .ok c := by
  obtain ⟨n?, u, hbinary, hkept⟩ := run_bind_eq_ok_iff.mp hrun
  cases n? with
  | none =>
    cases hkept
    exact .inl ⟨of_run_locateBinary_none h hbinary, rfl⟩
  | some n =>
    obtain ⟨hn, r, rfl, hr⟩ := of_run_locateBinary h hbinary
    obtain ⟨payload, v, hpayload, hreconcile⟩ := run_bind_eq_ok_iff.mp hkept
    obtain ⟨rfl, tail, rfl, -⟩ := of_run_takePayload hr hpayload
    refine .inr ⟨payload, tail, hn, ?_, ?_⟩
    · rw [framed, List.append_assoc _ payload]
    · rw [run_liftM] at hreconcile
      exact (Prod.mk.inj hreconcile).1

/-- A container that is opened is a header, a chunk with the text of the document, and what the
bytes are taken from. -/
theorem of_run_unpackFrom {σ : Type} [Stream σ] {s t : σ} {b : Bytes} {policy : LengthPolicy}
    {c : Contents} (h : Gives s b)
    (hrun : (unpackFrom policy : Walk σ _).run.run s = (.ok c, t)) :
    ∃ total < Bytes.wordLimit, ∃ text r d, text ≠ [] ∧ text.length < Bytes.wordLimit ∧
      Document.decode text = .ok d ∧ b = header total ++ (framed .json text ++ r) ∧
      ∃ u, Gives u r ∧ (takeBinary policy d : Walk σ _).run.run u = (.ok c, t) := by
  rw [unpackFrom_eq] at hrun
  obtain ⟨n, u, hjson, hopened⟩ := run_bind_eq_ok_iff.mp hrun
  obtain ⟨hne, hn, total, htotal, _, rfl, hu⟩ := of_run_locateJson h hjson
  obtain ⟨text, v, htext, hread⟩ := run_bind_eq_ok_iff.mp hopened
  obtain ⟨rfl, r, rfl, hv⟩ := of_run_takePayload hu htext
  obtain ⟨d, w, hdocument, hbinary⟩ := run_bind_eq_ok_iff.mp hread
  rw [run_liftM] at hdocument
  obtain ⟨hd, rfl⟩ := Prod.mk.inj hdocument
  refine ⟨total, htotal, text, r, d, ?_, hn, document_eq_ok_iff.mp hd, ?_, v, hv, hbinary⟩
  · rwa [Ne, ← List.length_eq_zero_iff]
  · rw [framed, List.append_assoc _ text]

/-- A container at hand that is opened ends after its text or has a chunk for the bytes. -/
theorem unpack_eq_ok_iff_framed {b : Bytes} {c : Contents} :
    unpack b = .ok c ↔
      ∃ total < Bytes.wordLimit, ∃ text d, text ≠ [] ∧ text.length < Bytes.wordLimit ∧
        Document.decode text = .ok d ∧
        (b = header total ++ framed .json text ∧ c = ⟨d, [], none⟩ ∨
          ∃ payload tail, payload.length < Bytes.wordLimit ∧
            b = header total ++ (framed .json text ++ (framed .binary payload ++ tail)) ∧
            reconcile .truncateToDeclared d payload = .ok c) := by
  constructor
  · intro hopen
    rw [← unpackFrom_eq_unpack (Slice.gives ⟨b, 0⟩)] at hopen
    obtain ⟨total, htotal, text, r, d, hne, htext, hd, rfl, u, hu, hbinary⟩ :=
      of_run_unpackFrom (Slice.gives ⟨b, 0⟩) (Prod.ext hopen rfl)
    refine ⟨total, htotal, text, d, hne, htext, hd, ?_⟩
    rcases of_run_takeBinary hu hbinary with ⟨rfl, rfl⟩ | ⟨payload, tail, hfits, rfl, hkept⟩
    · rw [List.append_nil]
      exact .inl ⟨rfl, rfl⟩
    · exact .inr ⟨payload, tail, hfits, rfl, hkept⟩
  · rintro ⟨total, -, text, d, hne, htext, hd, ⟨rfl, rfl⟩ | ⟨payload, tail, hfits, rfl, hkept⟩⟩
    · rw [unpack_framed_nil hne htext, document_eq_ok_iff.mpr hd]
      rfl
    · rw [unpack_framed hne htext hfits, document_eq_ok_iff.mpr hd]
      exact hkept

/-! ## What is kept of the bytes -/

/-- The first buffer declares a length if it is inside the container. -/
theorem declaredLength?_eq_some {d : Document} {b : Buffer} (hb : d.buffers[0]? = some b)
    (huri : b.uri = none) : declaredLength? d = some b.byteLength.toInt := by
  rw [declaredLength?, hb]
  simp [huri]

/-- No length is declared if there is no buffer or the first one is in a file. -/
theorem declaredLength?_eq_none {d : Document}
    (h : ∀ b, d.buffers[0]? = some b → b.uri ≠ none) : declaredLength? d = none := by
  rw [declaredLength?]
  split
  · rename_i b hb
    rw [if_neg]
    rw [Option.isNone_iff_eq_none]
    exact h b hb
  · rfl

/-- What is kept of the payload of a chunk for a document. -/
inductive Keeps (d : Document) (payload : Bytes) : Bytes → Prop
  /-- As many bytes as the first buffer declares, if it is inside the container and there are as
  many. -/
  | declared {f : Buffer} (hf : d.buffers[0]? = some f) (huri : f.uri = none)
      (hnonneg : 0 ≤ f.byteLength.toInt) (hle : f.byteLength.toInt ≤ payload.length) :
      Keeps d payload (payload.take f.byteLength.toInt.toNat)
  /-- All, if there is no buffer or the first one is in a file. -/
  | undeclared (hf : ∀ f, d.buffers[0]? = some f → f.uri ≠ none) : Keeps d payload payload

/-- Of the payload, a declared length keeps so many bytes, and it must be no longer than the
payload. -/
theorem keeps_iff_of_declared {d : Document} {payload b : Bytes} {f : Buffer}
    (hf : d.buffers[0]? = some f) (huri : f.uri = none) :
    Keeps d payload b ↔
      (0 ≤ f.byteLength.toInt ∧ f.byteLength.toInt ≤ (payload.length : Int)) ∧
        b = payload.take f.byteLength.toInt.toNat := by
  constructor
  · intro hkept
    cases hkept with
    | declared hf' _ hnonneg hle =>
      obtain rfl := Option.some.inj (hf.symm.trans hf')
      exact ⟨⟨hnonneg, hle⟩, rfl⟩
    | undeclared hnone => exact absurd huri (hnone f hf)
  · rintro ⟨⟨hnonneg, hle⟩, rfl⟩
    exact .declared hf huri hnonneg hle

/-- Without a declared length the whole payload is kept. -/
theorem keeps_iff_of_undeclared {d : Document} {payload b : Bytes}
    (hnone : ∀ f, d.buffers[0]? = some f → f.uri ≠ none) : Keeps d payload b ↔ b = payload := by
  constructor
  · intro hkept
    cases hkept with
    | declared hf huri _ _ => exact absurd huri (hnone _ hf)
    | undeclared _ => rfl
  · rintro rfl
    exact .undeclared hnone

/-- If the first buffer is inside the container, as many bytes are kept as it declares. -/
theorem Keeps.length_eq {d : Document} {payload b : Bytes} {f : Buffer} (h : Keeps d payload b)
    (hf : d.buffers[0]? = some f) (huri : f.uri = none) :
    (b.length : Int) = f.byteLength.toInt := by
  obtain ⟨⟨hnonneg, hle⟩, rfl⟩ := (keeps_iff_of_declared hf huri).mp h
  rw [List.length_take]
  omega

/-- Reconciling keeps these bytes, and is refused otherwise. -/
theorem exists_reconcile_eq_ok_iff {d d' : Document} {payload b : Bytes} :
    (∃ w, reconcile .truncateToDeclared d' payload = .ok ⟨d, b, w⟩) ↔
      d' = d ∧ Keeps d payload b := by
  by_cases hf : ∃ f, d'.buffers[0]? = some f ∧ f.uri = none
  · obtain ⟨f, hf, huri⟩ := hf
    simp only [reconcile, declaredLength?_eq_some hf huri]
    by_cases hrange : 0 ≤ f.byteLength.toInt ∧ f.byteLength.toInt ≤ (payload.length : Int)
    · rw [if_pos hrange]
      constructor
      · rintro ⟨w, ⟨⟩⟩
        exact ⟨rfl, (keeps_iff_of_declared hf huri).mpr ⟨hrange, rfl⟩⟩
      · rintro ⟨rfl, hkept⟩
        obtain ⟨-, rfl⟩ := (keeps_iff_of_declared hf huri).mp hkept
        exact ⟨_, rfl⟩
    · rw [if_neg hrange]
      constructor
      · rintro ⟨w, ⟨⟩⟩
      · rintro ⟨rfl, hkept⟩
        exact absurd ((keeps_iff_of_declared hf huri).mp hkept).1 hrange
  · have hnone : ∀ f, d'.buffers[0]? = some f → f.uri ≠ none := fun f h huri => hf ⟨f, h, huri⟩
    simp only [reconcile, declaredLength?_eq_none hnone]
    constructor
    · rintro ⟨w, ⟨⟩⟩
      exact ⟨rfl, (keeps_iff_of_undeclared hnone).mpr rfl⟩
    · rintro ⟨rfl, hkept⟩
      obtain rfl := (keeps_iff_of_undeclared hnone).mp hkept
      exact ⟨_, rfl⟩

/-! ## The grammar -/

/-- How a container is spelled of which the document and the bytes are read: three words, the last
of them any, a chunk with the text, and nothing more or a chunk with the payload and anything. -/
inductive Spells (d : Document) : Bytes → Bytes → Prop
  /-- A container without bytes. -/
  | text {t text : Bytes} (ht : t.length = 4) (hne : text ≠ [])
      (htext : text.length < Bytes.wordLimit) (hd : Document.decode text = .ok d) :
      Spells d (Bytes.ofWord 0x46546C67 ++ Bytes.ofWord 2 ++ t ++
        (Bytes.ofWord text.length ++ Bytes.ofWord 0x4E4F534A ++ text)) []
  /-- A container with bytes. -/
  | bytes {t text payload tail b : Bytes} (ht : t.length = 4) (hne : text ≠ [])
      (htext : text.length < Bytes.wordLimit) (hd : Document.decode text = .ok d)
      (hpayload : payload.length < Bytes.wordLimit) (hb : Keeps d payload b) :
      Spells d (Bytes.ofWord 0x46546C67 ++ Bytes.ofWord 2 ++ t ++
        (Bytes.ofWord text.length ++ Bytes.ofWord 0x4E4F534A ++ text ++
          (Bytes.ofWord payload.length ++ Bytes.ofWord 0x004E4942 ++ payload ++ tail))) b

/-- A header with any word in the place of the length. -/
theorem header_toNat {t : Bytes} (ht : t.length = 4) :
    header (Bytes.toNat t) = Bytes.ofWord 0x46546C67 ++ Bytes.ofWord 2 ++ t := by
  rw [header, Bytes.ofWord_toNat ht]
  rfl

/-- What is opened is what is spelled as a container. -/
theorem exists_unpack_eq_ok_iff_spells {c b : Bytes} {d : Document} :
    (∃ w, unpack c = .ok ⟨d, b, w⟩) ↔ Spells d c b := by
  constructor
  · rintro ⟨w, hopen⟩
    obtain ⟨total, -, text, d', hne, htext, hd, ⟨rfl, hc⟩ | ⟨payload, tail, hfits, rfl, hkept⟩⟩ :=
      unpack_eq_ok_iff_framed.mp hopen
    · cases hc
      exact .text (Bytes.length_ofWord total) hne htext hd
    · obtain ⟨rfl, hb⟩ := exists_reconcile_eq_ok_iff.mp ⟨w, hkept⟩
      exact .bytes (Bytes.length_ofWord total) hne htext hd hfits hb
  · intro hspells
    cases hspells with
    | text ht hne htext hd =>
      refine ⟨none, unpack_eq_ok_iff_framed.mpr ?_⟩
      refine ⟨_, Bytes.toNat_lt_wordLimit ht, _, d, hne, htext, hd, .inl ⟨?_, rfl⟩⟩
      rw [header_toNat ht]
      rfl
    | @bytes t text payload tail _ ht hne htext hd hpayload hb =>
      obtain ⟨w, hkept⟩ := exists_reconcile_eq_ok_iff.mpr ⟨rfl, hb⟩
      refine ⟨w, unpack_eq_ok_iff_framed.mpr ?_⟩
      refine ⟨_, Bytes.toNat_lt_wordLimit ht, text, d, hne, htext, hd, .inr ?_⟩
      refine ⟨payload, tail, hpayload, ?_, hkept⟩
      rw [header_toNat ht]
      rfl

/-! ## What is not looked at -/

/-- A word inside of the first bytes does not depend on those after them. -/
theorem wordAt_append {i : Nat} {p : Bytes} (hi : i + 4 ≤ p.length) (r : Bytes) :
    wordAt i (p ++ r) = wordAt i p := by
  have hdrop : 4 ≤ (p.drop i).length := by
    rw [List.length_drop]
    omega
  rw [wordAt, wordAt, List.drop_append_of_le_length (by omega),
    List.take_append_of_le_length hdrop]

/-- The third word of a header is not asked for. -/
theorem checkWords_append {p : Bytes} (hp : p.length = 8) (t : Bytes) :
    checkWords (p ++ t) = checkWords p := by
  rw [checkWords, checkWords, wordAt_append (by omega), wordAt_append (by omega)]

/-- The word for the length of the whole can be any. -/
theorem unpack_eq_of_total {p t t' : Bytes} (hp : p.length = 8) (ht : t.length = 4)
    (ht' : t'.length = 4) (r : Bytes) : unpack (p ++ t ++ r) = unpack (p ++ t' ++ r) := by
  have hlength : ∀ {t : Bytes}, t.length = 4 → (p ++ t).length = headerLength := by
    intro t ht
    rw [List.length_append, hp, ht]
    rfl
  obtain ⟨u, hu, hr⟩ := exists_run_takeHeader_eq (Slice.gives ⟨p ++ t ++ r, 0⟩) (hlength ht)
  obtain ⟨u', hu', hr'⟩ := exists_run_takeHeader_eq (Slice.gives ⟨p ++ t' ++ r, 0⟩) (hlength ht')
  rw [checkWords_append hp] at hu hu'
  rw [← unpackFrom_slice_eq_unpack, ← unpackFrom_slice_eq_unpack, unpackFrom_eq_takeHeader]
  cases hwords : checkWords p with
  | error e =>
    rw [hwords] at hu hu'
    rw [run_bind_of_error hu, run_bind_of_error hu']
  | ok =>
    -- From here on the same bytes are left.
    rw [hwords] at hu hu'
    rw [run_bind_of_ok hu, run_bind_of_ok hu']
    exact (agrees_takeChunks agree_take_of_left .truncateToDeclared).fst_eq ⟨r, hr, hr'⟩

/-- What is opened is what is spelled as a container. The word for the length of the whole and the
bytes after the last payload do not matter for what is refused either: whatever they are, the result
is the same, errors included. -/
theorem unpack_eq_ok_iff :
    (∀ (c b : Bytes) (d : Document), (∃ w, unpack c = .ok ⟨d, b, w⟩) ↔ Spells d c b) ∧
    (∀ p t t' r : Bytes, p.length = 8 → t.length = 4 → t'.length = 4 →
      unpack (p ++ t ++ r) = unpack (p ++ t' ++ r)) ∧
    ∀ t text payload tail tail' : Bytes, t.length = 4 → text ≠ [] →
      text.length < Bytes.wordLimit → payload.length < Bytes.wordLimit →
      unpack (Bytes.ofWord 0x46546C67 ++ Bytes.ofWord 2 ++ t ++
          (framed .json text ++ (framed .binary payload ++ tail))) =
        unpack (Bytes.ofWord 0x46546C67 ++ Bytes.ofWord 2 ++ t ++
          (framed .json text ++ (framed .binary payload ++ tail'))) := by
  refine ⟨fun c b d => exists_unpack_eq_ok_iff_spells, ?_, ?_⟩
  · intro p t t' r hp ht ht'
    exact unpack_eq_of_total hp ht ht' r
  · intro t text payload tail tail' ht hne htext hpayload
    rw [← header_toNat ht, unpack_framed hne htext hpayload, unpack_framed hne htext hpayload]

/-- Five of seven bytes are kept. Neither chunk ends at a multiple of four, the length of the whole
is wrong, and a byte follows. -/
theorem unpack_eq_ok_iff_unaligned :
    let d : Document := { asset := { version := "2.0" }, buffers := #[{ byteLength := 5 }] }
    let chunks (tail : Bytes) : Bytes :=
      framed .json (d.encode .compact) ++ (framed .binary [1, 2, 3, 4, 5, 6, 7] ++ tail)
    let c (t tail : Bytes) : Bytes :=
      Bytes.ofWord 0x46546C67 ++ Bytes.ofWord 2 ++ t ++ chunks tail
    (∃ w, unpack (c [0, 0, 0, 0] [9]) = .ok ⟨d, [1, 2, 3, 4, 5], w⟩) ∧
      unpack (c [1, 0, 0, 0] [9]) = unpack (c [0, 0, 0, 0] [9]) ∧
      unpack (c [0, 0, 0, 0] []) = unpack (c [0, 0, 0, 0] [9]) := by
  intro d chunks c
  obtain ⟨hopened, htotal, htail⟩ := unpack_eq_ok_iff
  have hd : Document.decode (d.encode .compact) = .ok d := by decide +kernel
  have hne : d.encode .compact ≠ [] := by decide +kernel
  have htext : (d.encode .compact).length < Bytes.wordLimit := by decide +kernel
  have hkeeps : Keeps d [1, 2, 3, 4, 5, 6, 7] [1, 2, 3, 4, 5] :=
    .declared (f := { byteLength := 5 }) rfl rfl (by decide) (by decide)
  refine ⟨(hopened _ _ _).mpr ?_, ?_, ?_⟩
  · exact .bytes rfl hne htext hd (by decide) hkeeps
  · exact htotal (Bytes.ofWord 0x46546C67 ++ Bytes.ofWord 2) _ _ (chunks [9]) rfl rfl rfl
  · exact htail _ _ _ _ _ rfl hne htext (by decide)

end GltfAsset.Container
