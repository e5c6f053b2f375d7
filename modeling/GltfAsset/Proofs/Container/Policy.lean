import GltfAsset.Proofs.Container.Views

/-!
# The two policies

How many bytes of a container are kept is settled after all was taken from the stream: the document,
and the payload of the chunk with the bytes if there is one (`takeParts`). So it is the same for
both policies what a stream is asked for, where it is left and which failures are met on the way,
and what they give is made of the same parts (`Truncates`): they differ in the number of bytes alone
(`unpackFrom_policies`).
-/

namespace GltfAsset.Container

open Source

/-! ## What is taken before a policy is asked -/

/-- The document of a container, and the payload of the chunk with the bytes if there is one. -/
structure Parts where
  /-- The document. -/
  document : Document
  /-- The payload. -/
  payload? : Option Bytes

namespace Parts

/-- The contents with all bytes. -/
def whole (p : Parts) : Contents := ⟨p.document, p.payload?.getD [], none⟩

/-- The contents with the bytes that are kept under a policy. -/
def keep (policy : LengthPolicy) (p : Parts) : Except Error Contents :=
  match p.payload? with
  | none => .ok p.whole
  | some payload => reconcile policy p.document payload

/-- There is a chunk for the bytes, and the given buffer declares how many of them are its own. -/
def Declares (p : Parts) (f : Buffer) : Prop :=
  p.payload?.isSome ∧ p.document.buffers[0]? = some f ∧ f.uri = none

end Parts

section Stream

variable {σ : Type} [Stream σ]

/-- Takes the payload of the chunk with the bytes, if the container does not end before it. -/
def takePayload? : Walk σ (Option Bytes) := do
  match ← locateBinary .current with
  | none => return none
  | some n => return some (← takePayload n)

/-- Takes the parts of a container, up to the end of its last chunk. -/
def takeParts : Walk σ Parts := do
  let n ← locateJson .start
  let text ← takePayload n
  let d ← document text
  let payload? ← takePayload?
  return ⟨d, payload?⟩

/-- What comes after the text is taken, and then the policy is asked. -/
theorem takeBinary_eq (policy : LengthPolicy) (d : Document) :
    (takeBinary policy d : Walk σ _) =
      takePayload? >>= fun payload? => liftM (Parts.keep policy ⟨d, payload?⟩) := by
  rw [takeBinary, takePayload?, bind_assoc]
  congr
  funext n?
  cases n? with
  | none => rfl
  | some n =>
    dsimp only
    rw [bind_assoc]
    rfl

/-- The policy is asked last. -/
theorem unpackFrom_eq_takeParts (policy : LengthPolicy) :
    (unpackFrom policy : Walk σ _) = takeParts >>= fun p => liftM (p.keep policy) := by
  simp only [unpackFrom_eq, takeParts, takeBinary_eq, bind_assoc, pure_bind]

/-- What is given is made of the parts, and the stream is left where they end. -/
theorem run_unpackFrom (policy : LengthPolicy) (s : σ) :
    (unpackFrom policy : Walk σ _).run.run s =
      (((takeParts : Walk σ _).run.run s).1 >>= Parts.keep policy,
        ((takeParts : Walk σ _).run.run s).2) := by
  rw [unpackFrom_eq_takeParts]
  cases hparts : (takeParts : Walk σ _).run.run s with
  | mk r t =>
  cases r with
  | ok p =>
    rw [run_bind_of_ok hparts, run_liftM]
    rfl
  | error e =>
    rw [run_bind_of_error hparts]
    rfl

end Stream

/-! ## What the policies make of the parts -/

/-- With the padding all bytes are kept. -/
theorem Parts.keep_padded (p : Parts) : p.keep .padded = .ok p.whole := by
  obtain ⟨d, payload?⟩ := p
  cases payload? with
  | none => rfl
  | some payload => rfl

/-- What is made of the parts of a container where the first buffer is asked for its length. -/
inductive Truncates (p : Parts) : Except Error Contents → Prop
  /-- All is kept if nothing is declared. -/
  | whole (hnone : ∀ f, ¬ p.Declares f) : Truncates p (.ok p.whole)
  /-- As much is kept as is declared if there is as much. It is a surplus to have more than the
  padding of it needs. -/
  | declared {f : Buffer} {n : Nat} (hf : p.Declares f) (hn : f.byteLength.toInt = n)
      (hle : n ≤ p.whole.binary.length) :
      Truncates p (.ok ⟨p.document, p.whole.binary.take n,
        if 3 < p.whole.binary.length - n then
          some ⟨p.whole.binary.length, p.whole.binary.length - n⟩
        else none⟩)
  /-- It is refused to have less, or a negative number. -/
  | refused {f : Buffer} (hf : p.Declares f)
      (hrange : ¬ (0 ≤ f.byteLength.toInt ∧ f.byteLength.toInt ≤ (p.whole.binary.length : Int))) :
      Truncates p (.error (.bufferLength f.byteLength.toInt p.whole.binary.length))

/-- By truncating, what is made of the parts depends on what the first buffer declares. -/
theorem Parts.truncates_keep (p : Parts) : Truncates p (p.keep .truncateToDeclared) := by
  obtain ⟨d, payload?⟩ := p
  cases payload? with
  | none => exact .whole fun f hf => Bool.false_ne_true hf.1
  | some payload =>
    show Truncates _ (reconcile .truncateToDeclared d payload)
    by_cases hf : ∃ f, d.buffers[0]? = some f ∧ f.uri = none
    · -- A length is declared, and it is refused if the payload has not as many bytes.
      obtain ⟨f, hf, huri⟩ := hf
      have hdeclares : Parts.Declares ⟨d, some payload⟩ f := ⟨rfl, hf, huri⟩
      simp only [reconcile, declaredLength?_eq_some hf huri]
      by_cases hrange : 0 ≤ f.byteLength.toInt ∧ f.byteLength.toInt ≤ (payload.length : Int)
      · obtain ⟨n, hn⟩ := Int.eq_ofNat_of_zero_le hrange.1
        rw [if_pos hrange, hn, Int.toNat_natCast]
        have hle : n ≤ payload.length := by omega
        exact .declared hdeclares hn hle
      · rw [if_neg hrange]
        exact .refused hdeclares hrange
    · -- No length is declared, so nothing is cut off.
      have hnone : ∀ f, d.buffers[0]? = some f → f.uri ≠ none := fun f h huri => hf ⟨f, h, huri⟩
      simp only [reconcile, declaredLength?_eq_none hnone]
      exact .whole fun f hf => hnone f hf.2.1 hf.2.2

/-! ## Failures before a policy is asked -/

section Spares

variable {σ α β : Type}

/-- A walk never fails for the length that a buffer declares. -/
def SparesLength (x : Walk σ α) : Prop := ∀ s n a, (x.run.run s).1 ≠ .error (.bufferLength n a)

/-- A step that takes nothing fails for a length only if its result does. -/
theorem SparesLength.liftM {r : Except Error α} (h : ∀ n a, r ≠ .error (.bufferLength n a)) :
    SparesLength (liftM r : Walk σ α) := by
  intro s
  rw [run_liftM]
  exact h

/-- To give a value does not fail. -/
theorem SparesLength.pure (a : α) : SparesLength (pure a : Walk σ α) := nofun

/-- Two walks do not fail for a length one after the other if none of them does. -/
theorem SparesLength.bind {x : Walk σ α} {f : α → Walk σ β} (hx : SparesLength x)
    (hf : ∀ a, SparesLength (f a)) : SparesLength (x >>= f) := by
  intro s
  have hfirst := hx s
  cases hrun : x.run.run s with
  | mk r t =>
  rw [hrun] at hfirst
  cases r with
  | ok a =>
    rw [run_bind_of_ok hrun]
    exact hf a t
  | error e =>
    rw [run_bind_of_error hrun]
    rintro n a ⟨⟩
    exact hfirst n a rfl

section Source

variable [Source σ]

/-- To take up to a number of bytes does not fail for a declared length. -/
theorem sparesLength_takeUpTo (n : Nat) : SparesLength (takeUpTo n : Walk σ Bytes) := by
  intro s
  unfold takeUpTo
  dsimp only [ExceptT.run, StateT.run, ExceptT.mk]
  split
  · exact nofun
  · exact nofun

/-- To take a number of bytes or nothing does not fail for a declared length. -/
theorem sparesLength_takeWhole? (n : Nat) : SparesLength (takeWhole? n : Walk σ _) := by
  rw [takeWhole?_eq]
  refine (sparesLength_takeUpTo n).bind fun b => .liftM fun _ _ h => ?_
  cases eq_truncated_of_whole? h

/-- To take a payload does not fail for a declared length. -/
theorem sparesLength_takePayload (n : Nat) : SparesLength (takePayload n : Walk σ Bytes) := by
  rw [takePayload_eq]
  refine (sparesLength_takeUpTo n).bind fun b => .liftM fun _ _ h => ?_
  cases eq_truncated_of_wholePayload h

/-- To take the header does not fail for a declared length. -/
theorem sparesLength_takeHeader : SparesLength (takeHeader : Walk σ Unit) := by
  rw [takeHeader_eq]
  refine (sparesLength_takeWhole? headerLength).bind fun b? => ?_
  cases b? with
  | none => exact nofun
  | some b =>
    refine .liftM fun _ _ h => ?_
    rcases eq_of_checkWords h with ⟨_, h⟩ | ⟨_, h⟩
    · cases h
    · cases h

/-- To take the header of a chunk does not fail for a declared length. -/
theorem sparesLength_takeChunkHeader? : SparesLength (takeChunkHeader? : Walk σ _) :=
  (sparesLength_takeWhole? chunkHeaderLength).bind fun _ => .pure _

/-- To find the text does not fail for a declared length. -/
theorem sparesLength_locateJson : SparesLength (locateJson .start : Walk σ Nat) := by
  rw [locateJson_start, locateJson_current]
  refine sparesLength_takeHeader.bind fun _ => sparesLength_takeChunkHeader?.bind fun h? => ?_
  refine .liftM fun _ _ h => ?_
  rcases eq_of_textLength h with ⟨-, h⟩ | ⟨_, h⟩ | h
  · cases h
  · cases h
  · cases h

end Source

section Stream

variable [Stream σ]

/-- To take the payload with the bytes does not fail for a declared length. -/
theorem sparesLength_takePayload? : SparesLength (takePayload? : Walk σ _) := by
  have hbinary : SparesLength (locateBinary .current : Walk σ _) := by
    rw [locateBinary_current]
    refine sparesLength_takeChunkHeader?.bind fun h? => .liftM fun _ _ h => ?_
    obtain ⟨_, h⟩ := eq_unexpectedChunk_of_bytesLength? h
    cases h
  refine hbinary.bind fun n? => ?_
  cases n? with
  | none => exact .pure _
  | some n => exact (sparesLength_takePayload n).bind fun _ => .pure _

/-- Taking the parts does not fail for a declared length: no policy was asked yet. -/
theorem sparesLength_takeParts : SparesLength (takeParts : Walk σ Parts) := by
  refine sparesLength_locateJson.bind fun n => (sparesLength_takePayload n).bind fun text => ?_
  have hdocument : SparesLength (liftM (document text) : Walk σ Document) := by
    refine .liftM fun _ _ h => ?_
    obtain ⟨_, h⟩ := eq_transcoding_of_document h
    cases h
  exact hdocument.bind fun d => sparesLength_takePayload?.bind fun _ => .pure _

end Stream

end Spares

/-! ## Containers with bytes -/

section Gives

variable {σ : Type} [Stream σ] {s t : σ} {b c : Bytes}

/-- What is taken after the text is the payload of a chunk, or there is nothing. -/
theorem of_run_takePayload? (h : Gives s b) {payload? : Option Bytes}
    (hrun : (takePayload? : Walk σ _).run.run s = (.ok payload?, t)) :
    payload? = none ∧ b = [] ∨ ∃ payload tail, payload? = some payload ∧
      payload.length < Bytes.wordLimit ∧ b = framed .binary payload ++ tail := by
  obtain ⟨n?, u, hbinary, htaken⟩ := run_bind_eq_ok_iff.mp hrun
  cases n? with
  | none =>
    cases htaken
    exact .inl ⟨rfl, of_run_locateBinary_none h hbinary⟩
  | some n =>
    obtain ⟨hn, r, rfl, hr⟩ := of_run_locateBinary h hbinary
    obtain ⟨payload, v, hpayload, hgiven⟩ := run_bind_eq_ok_iff.mp htaken
    obtain ⟨rfl, tail, rfl, -⟩ := of_run_takePayload hr hpayload
    cases hgiven
    exact .inr ⟨payload, tail, rfl, hn, (List.append_assoc _ payload tail).symm⟩

/-- A payload is taken exactly if the container has a chunk for the bytes. -/
theorem isSome_payload?_iff (h : Gives s c) {p : Parts}
    (hrun : (takeParts : Walk σ _).run.run s = (.ok p, t)) :
    p.payload?.isSome ↔ HasBinary c := by
  -- The text is found, taken and decoded, so the container starts with a header and this chunk.
  obtain ⟨n, u, hjson, hopened⟩ := run_bind_eq_ok_iff.mp hrun
  obtain ⟨-, hn, total, -, _, rfl, hu⟩ := of_run_locateJson h hjson
  obtain ⟨text, v, htext, hread⟩ := run_bind_eq_ok_iff.mp hopened
  obtain ⟨rfl, r, rfl, hv⟩ := of_run_takePayload hu htext
  obtain ⟨d, w, hdocument, htaken⟩ := run_bind_eq_ok_iff.mp hread
  rw [run_liftM] at hdocument
  obtain ⟨-, rfl⟩ := Prod.mk.inj hdocument
  -- What follows the text is a chunk for the bytes, or the container is over.
  obtain ⟨payload?, x, hpayload, hgiven⟩ := run_bind_eq_ok_iff.mp htaken
  cases hgiven
  rw [← List.append_assoc (_ ++ _) text r]
  rcases of_run_takePayload? hv hpayload with ⟨rfl, rfl⟩ | ⟨payload, tail, rfl, hfits, rfl⟩
  · rw [List.append_nil]
    exact iff_of_false Bool.false_ne_true (not_hasBinary_framed (length_header total) hn)
  · exact iff_of_true rfl ⟨_, text, payload, tail, length_header total, hn, hfits, rfl⟩

end Gives

/-! ## The two results -/

/-- How what is given by truncating to the declared length differs from what is given with the
padding, whatever the stream is. -/
structure Differ (truncated padded : Except Error Contents) : Prop where
  /-- With the padding a container is opened if it is by truncating, or if only its length is
  refused then. -/
  ok_iff : (∃ k, padded = .ok k) ↔
    (∃ k, truncated = .ok k) ∨ ∃ n a, truncated = .error (.bufferLength n a)
  /-- The document is the same, and bytes are lost at the end only. -/
  kept : ∀ k, truncated = .ok k → ∃ k', padded = .ok k' ∧ k'.document = k.document ∧
    k.binary <+: k'.binary
  /-- Every failure but that of the length is the same. -/
  error_iff : ∀ e, (∀ n a, e ≠ .bufferLength n a) → (truncated = .error e ↔ padded = .error e)
  /-- With the padding there is no failure of the length. -/
  padded_ne : ∀ n a, padded ≠ .error (.bufferLength n a)
  /-- With the padding there is no warning. -/
  padded_surplus : ∀ k, padded = .ok k → k.surplus = none
  /-- By truncating there is one exactly if more than three bytes are lost, and it says how many. -/
  surplus : ∀ k k', truncated = .ok k → padded = .ok k' → k.surplus =
    if 3 < k'.binary.length - k.binary.length then
      some ⟨k'.binary.length, k'.binary.length - k.binary.length⟩
    else none

/-- How many bytes are kept of the container `c`. -/
structure Settles (c : Bytes) (truncated padded : Except Error Contents) : Prop where
  /-- As many as the first buffer declares, if it is inside the container and there is a chunk for
  them. -/
  declared : ∀ k f, truncated = .ok k → HasBinary c → k.document.buffers[0]? = some f →
    f.uri = none → (k.binary.length : Int) = f.byteLength.toInt
  /-- All otherwise. -/
  whole : ∀ k, truncated = .ok k →
    ¬ (HasBinary c ∧ ∃ f, k.document.buffers[0]? = some f ∧ f.uri = none) → padded = .ok k
  /-- The length is refused exactly if it is negative or there are fewer bytes. -/
  refused_iff : ∀ n a, truncated = .error (.bufferLength n a) ↔ ∃ k f, padded = .ok k ∧
    HasBinary c ∧ k.document.buffers[0]? = some f ∧ f.uri = none ∧ f.byteLength.toInt = n ∧
    k.binary.length = a ∧ ¬ (0 ≤ n ∧ n ≤ (a : Int))

/-- Both policies give a failure that is met before they are asked. -/
theorem differ_of_error {e : Error} (he : ∀ n a, e ≠ .bufferLength n a) :
    Differ (.error e) (.error e) where
  ok_iff := by
    constructor
    · rintro ⟨_, ⟨⟩⟩
    · rintro (⟨_, ⟨⟩⟩ | ⟨n, a, h⟩)
      exact absurd (Except.error.inj h) (he n a)
  kept _ h := by cases h
  error_iff _ _ := Iff.rfl
  padded_ne n a h := he n a (Except.error.inj h)
  padded_surplus _ h := by cases h
  surplus _ _ h _ := by cases h

/-- A failure that is met before a policy is asked says nothing of how many bytes are kept. -/
theorem settles_of_error (c : Bytes) {e : Error} (he : ∀ n a, e ≠ .bufferLength n a) :
    Settles c (.error e) (.error e) where
  declared _ _ h _ _ _ := by cases h
  whole _ h _ := by cases h
  refused_iff n a := by
    constructor
    · intro h
      exact absurd (Except.error.inj h) (he n a)
    · rintro ⟨_, _, ⟨⟩, _⟩

section Truncates

variable {p : Parts} {r : Except Error Contents}

/-- What truncating makes of the parts differs from the whole in the number of bytes alone. -/
theorem Truncates.differ (h : Truncates p r) : Differ r (.ok p.whole) where
  ok_iff := by
    refine iff_of_true ⟨_, rfl⟩ ?_
    cases h with
    | whole => exact .inl ⟨_, rfl⟩
    | declared => exact .inl ⟨_, rfl⟩
    | refused => exact .inr ⟨_, _, rfl⟩
  kept := by
    rintro k rfl
    refine ⟨p.whole, rfl, ?_⟩
    cases h with
    | whole => exact ⟨rfl, List.prefix_rfl⟩
    | declared => exact ⟨rfl, List.take_prefix _ _⟩
  error_iff e he := by
    refine iff_of_false ?_ nofun
    rintro rfl
    cases h with
    | refused => exact he _ _ rfl
  padded_ne := nofun
  padded_surplus := by
    rintro _ ⟨⟩
    rfl
  surplus := by
    rintro k _ rfl ⟨⟩
    cases h with
    | whole =>
      rw [Nat.sub_self, if_neg (by decide)]
      rfl
    | declared _ _ hle =>
      dsimp only
      rw [List.length_take, Nat.min_eq_left hle]

/-- The bytes that are kept by truncating are as many as the first buffer declares. -/
theorem Truncates.settles {c : Bytes} (h : Truncates p r)
    (hbinary : p.payload?.isSome ↔ HasBinary c) : Settles c r (.ok p.whole) where
  declared := by
    rintro k f rfl hc hf huri
    -- What is said of the document that is given is said of that of the parts.
    have hdeclares : ∀ {d}, d = p.document → d.buffers[0]? = some f → p.Declares f := by
      rintro _ rfl hf
      exact ⟨hbinary.mpr hc, hf, huri⟩
    cases h with
    | whole hnone => exact absurd (hdeclares rfl hf) (hnone f)
    | declared hf' hn hle =>
      obtain rfl := Option.some.inj (hf.symm.trans hf'.2.1)
      rw [hn, List.length_take, Nat.min_eq_left hle]
  whole := by
    rintro k rfl hnone
    cases h with
    | whole => rfl
    | declared hf _ _ => exact absurd ⟨hbinary.mp hf.1, _, hf.2⟩ hnone
  refused_iff n a := by
    constructor
    · rintro rfl
      cases h with
      | refused hf hrange =>
        exact ⟨p.whole, _, rfl, hbinary.mp hf.1, hf.2.1, hf.2.2, rfl, rfl, hrange⟩
    · rintro ⟨_, f, ⟨⟩, hc, hf, huri, rfl, rfl, hrange⟩
      -- A length that is out of range is not the one with which the bytes are kept.
      have hdeclares : p.Declares f := ⟨hbinary.mpr hc, hf, huri⟩
      cases h with
      | whole hnone => exact absurd hdeclares (hnone f)
      | declared hf' hn hle =>
        obtain rfl := Option.some.inj (hf.symm.trans hf'.2.1)
        exact absurd (by omega) hrange
      | refused hf' _ =>
        obtain rfl := Option.some.inj (hf.symm.trans hf'.2.1)
        rfl

end Truncates

/-- The two policies leave every stream in the same state, and differ in the bytes that are kept
alone. If the stream gives the bytes of a container without failing, these tell how many are kept
and when their number is refused. -/
theorem unpackFrom_policies {σ : Type} [Stream σ] (s : σ) :
    let truncated := (unpackFrom .truncateToDeclared : Walk σ Contents).run.run s
    let padded := (unpackFrom .padded : Walk σ Contents).run.run s
    truncated.2 = padded.2 ∧ Differ truncated.1 padded.1 ∧
      ∀ c, Gives s c → Settles c truncated.1 padded.1 := by
  intro truncated padded
  -- Under both policies the parts are taken first, with one result and one state of the stream.
  have htruncated := run_unpackFrom .truncateToDeclared s
  have hpadded := run_unpackFrom .padded s
  have hspares := sparesLength_takeParts s
  cases hparts : (takeParts : Walk σ _).run.run s with
  | mk r t =>
  rw [hparts] at htruncated hpadded hspares
  simp only [truncated, padded, htruncated, hpadded, true_and]
  cases r with
  | error e =>
    -- A failure that is met on the way is not one of the length.
    have he : ∀ n a, e ≠ .bufferLength n a := fun n a h => hspares n a (congrArg _ h)
    exact ⟨differ_of_error he, fun c _ => settles_of_error c he⟩
  | ok p =>
    show Differ (p.keep _) (p.keep _) ∧ ∀ c, _ → Settles c (p.keep _) (p.keep _)
    rw [p.keep_padded]
    have hmade := p.truncates_keep
    exact ⟨hmade.differ, fun c hc => hmade.settles (isSome_payload?_iff hc hparts)⟩

/-- Nine bytes in pieces of six, of which five are declared: by truncating four are lost, which is a
warning. -/
theorem unpackFrom_policies_nine :
    let d : Document := { asset := { version := "2.0" }, buffers := #[{ byteLength := 5 }] }
    let c := header 0 ++
      (framed .json (d.encode .compact) ++ (framed .binary [1, 2, 3, 4, 5, 6, 7, 8, 9] ++ [0]))
    let s : Sequential := { rest := c, pace := fun _ => 5 }
    let truncated := (unpackFrom .truncateToDeclared : Walk Sequential Contents).run.run s
    let padded := (unpackFrom .padded : Walk Sequential Contents).run.run s
    truncated.1 = .ok ⟨d, [1, 2, 3, 4, 5], some ⟨9, 4⟩⟩ ∧
      padded.1 = .ok ⟨d, [1, 2, 3, 4, 5, 6, 7, 8, 9], none⟩ ∧ truncated.2 = padded.2 ∧
      Differ truncated.1 padded.1 ∧ Settles c truncated.1 padded.1 := by
  intro d c s truncated padded
  obtain ⟨hstate, hdiffer, hsettles⟩ := unpackFrom_policies s
  refine ⟨by decide +kernel, by decide +kernel, hstate, hdiffer, hsettles c ?_⟩
  exact Sequential.gives rfl

end GltfAsset.Container
