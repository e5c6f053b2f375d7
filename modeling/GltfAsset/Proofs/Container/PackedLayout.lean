import GltfAsset.Proofs.Container.RoundTrip
import GltfAsset.Proofs.Container.Session

/-!
# The layout of what was packed

A container that was packed is laid out to the byte: its words, the text with the spaces after it,
and the bytes with the zeros after them (`LaidOut`). Walking back through it, on any stream, finds
the text and the bytes where they were put, whether the walk takes the text or passes over it
(`WalkedBack`).
-/

namespace GltfAsset.Container

open Source

/-! ## The bytes -/

/-- How a container of a text and bytes is laid out, where `text` and `payload` are the two with
their padding. -/
structure LaidOut (json bin text payload g : Bytes) : Prop where
  /-- The text is padded with three spaces at most. -/
  text_padding : ∃ k ≤ 3, text = json ++ List.replicate k 0x20
  /-- The bytes are padded with three zeros at most. -/
  payload_padding : ∃ k ≤ 3, payload = bin ++ List.replicate k 0
  /-- The padded text is a multiple of four bytes long. -/
  text_dvd : 4 ∣ text.length
  /-- The padded bytes are a multiple of four bytes long. -/
  payload_dvd : 4 ∣ payload.length
  /-- The whole is a multiple of four bytes long. -/
  dvd : 4 ∣ g.length
  /-- The header is followed by the chunk with the text and, exactly if there are bytes, by the
  chunk with these. -/
  spelled : g = Bytes.ofWord 0x46546C67 ++ Bytes.ofWord 2 ++ Bytes.ofWord g.length ++
    (Bytes.ofWord text.length ++ Bytes.ofWord 0x4E4F534A ++ text) ++
    if bin = [] then [] else Bytes.ofWord payload.length ++ Bytes.ofWord 0x004E4942 ++ payload
  /-- The word for the length of the whole is that length, though a word has an end. -/
  total : wordAt 8 g = g.length
  /-- So is the word for the length of the text. -/
  text_length : wordAt 12 g = text.length
  /-- So is the word for the length of the bytes. -/
  payload_length : bin ≠ [] → wordAt (20 + text.length) g = payload.length

/-- The padding is at most three bytes. -/
theorem exists_padded_eq (k : ChunkKind) (b : Bytes) :
    ∃ n ≤ 3, padded k b = b ++ List.replicate n k.padding := by
  refine ⟨_, ?_, rfl⟩
  unfold paddedLength
  omega

/-- The word after given bytes. -/
theorem wordAt_append_ofWord {i n : Nat} {p : Bytes} (hp : p.length = i) (hn : n < Bytes.wordLimit)
    (r : Bytes) : wordAt i (p ++ (Bytes.ofWord n ++ r)) = n := by
  rw [wordAt, List.drop_left' hp, List.take_left' (Bytes.length_ofWord n), Bytes.toNat_ofWord hn]

section LaidOut

variable {json bin : Bytes}

/-- The length in the header is that of the whole. -/
theorem length_packed (json bin : Bytes) : (packed json bin).length = totalLength json bin := by
  rw [packed_eq, List.length_append, List.length_append, length_framed, length_padded]
  unfold totalLength chunkLength
  split
  · rfl
  · rw [length_framed, length_padded]
    exact (Nat.add_assoc 12 _ _).symm

/-- All parts are a multiple of four bytes long. -/
theorem dvd_totalLength (json bin : Bytes) : 4 ∣ totalLength json bin := by
  have hjson := dvd_paddedLength json.length
  have hbin := dvd_paddedLength bin.length
  unfold totalLength chunkLength headerLength chunkHeaderLength
  split <;> omega

/-- A container that is not too long is laid out as it has to be. -/
theorem laidOut_packed (hfits : totalLength json bin < Bytes.wordLimit) :
    LaidOut json bin (padded .json json) (padded .binary bin) (packed json bin) where
  text_padding := exists_padded_eq .json json
  payload_padding := exists_padded_eq .binary bin
  text_dvd := length_padded .json json ▸ dvd_paddedLength _
  payload_dvd := length_padded .binary bin ▸ dvd_paddedLength _
  dvd := length_packed json bin ▸ dvd_totalLength json bin
  spelled := by
    rw [length_packed, packed, chunk_eq_framed, chunk_eq_framed]
    rfl
  total := by
    rw [length_packed, packed_eq, header, List.append_assoc _ (Bytes.ofWord (totalLength _ _))]
    refine wordAt_append_ofWord ?_ hfits _
    rfl
  text_length := by
    have hn := (paddedLength_lt_of_fits hfits).1
    rw [← length_padded .json] at hn
    rw [packed_eq, framed, List.append_assoc, List.append_assoc (Bytes.ofWord _)]
    refine wordAt_append_ofWord ?_ hn _
    rfl
  payload_length hbin := by
    have hm := (paddedLength_lt_of_fits hfits).2 hbin
    rw [← length_padded .binary] at hm
    -- The chunk with the bytes begins after the header and the chunk with the text.
    have hfront : (header (totalLength json bin) ++ framed .json (padded .json json)).length =
        20 + (padded .json json).length := by
      rw [List.length_append, length_framed, ← Nat.add_assoc]
      rfl
    rw [packed_eq, if_neg hbin, ← List.append_assoc, framed, List.append_assoc (Bytes.ofWord _)]
    exact wordAt_append_ofWord hfront hm _

end LaidOut

/-! ## The walk back -/

/-- The steps that take the text of a container on the way to its bytes. -/
def stepsTaking (n : Nat) : List Step := [.locateJson .start, .read n, .locateBinary .current]

/-- The step that passes over the text. -/
def stepPassing : List Step := [.locateBinary .start]

/-- How a container with the padded text `text` is walked through on two streams, taking the text on
the one and passing over it on the other, where `left` is what is left in the end. -/
structure WalkedBack {σ τ : Type} [Stream σ] [Stream τ] (text left : Bytes) (answer : Option Nat)
    (place : Nat) (s : σ) (t : τ) : Prop where
  /-- The header is known. -/
  recognized : (session [.recognize] s).1 = [(.recognized true, 12)]
  /-- The text is found and taken, and then the bytes are found. -/
  taking : (session (stepsTaking text.length) s).1 =
    [(.json (.ok text.length), 20), (.bytes (.ok text), 20 + text.length),
      (.binary (.ok answer), place)]
  /-- The bytes are found in one step. -/
  passing : (session stepPassing t).1 = [(.binary (.ok answer), place)]
  /-- What was found is left where the text was taken. -/
  taking_left : Gives (session (stepsTaking text.length) s).2 left
  /-- It is left where the text was passed over too. -/
  passing_left : Gives (session stepPassing t).2 left

section Steps

variable {σ : Type} [Stream σ] {c : Bytes} {I : σ → Prop} {s t : σ} {json bin r : Bytes}

/-- A step stays at the places of the content, and moves to the one before the bytes that are left
after it. -/
theorem kept_of_step (hI : Stream.Tracks c I) (hs : I s) {x : Step} {a : Answer}
    (hrun : x.run s = (a, t)) (ht : Gives t r) : I t ∧ position t + r.length = c.length := by
  obtain ⟨a', s', t', hs', ht', hplace⟩ := agree_step hI hI x s s ⟨hs, hs, rfl⟩
  obtain rfl : t' = t := (Prod.mk.inj (ht'.symm.trans hrun)).2
  have hleft : c.drop (position t') = r := (hI.gives hplace.right).unique ht
  have hle := hI.position_le hplace.right
  refine ⟨hplace.right, ?_⟩
  rw [← hleft, List.length_drop]
  omega

/-- What is left after the text of a container. -/
def afterText (bin : Bytes) : Bytes :=
  if bin = [] then [] else framed .binary (padded .binary bin)

/-- The length of the bytes with their padding, if there are any. -/
def binaryLength? (bin : Bytes) : Option Nat :=
  if bin = [] then none else some (padded .binary bin).length

/-- After the text, the bytes are found if there are any. -/
theorem exists_run_locateBinary_afterText (hfits : totalLength json bin < Bytes.wordLimit)
    (h : Gives s (afterText bin)) :
    ∃ t, (locateBinary .current : Walk σ _).run.run s = (.ok (binaryLength? bin), t) ∧
      Gives t (padded .binary bin) := by
  unfold afterText at h
  unfold binaryLength?
  by_cases hbin : bin = []
  · subst hbin
    exact exists_run_locateBinary_nil h
  · have hm := (paddedLength_lt_of_fits hfits).2 hbin
    rw [← length_padded .binary] at hm
    rw [if_neg hbin] at h ⊢
    exact exists_run_locateBinary hm h

/-- A payload that is there is passed over. -/
theorem exists_run_skipPayload (hI : Stream.Tracks c I) (hs : I s) {p : Bytes}
    (h : Gives s (p ++ r)) : ∃ t, (skipPayload p.length : Walk σ Unit).run.run s = (.ok (), t) ∧
      Gives t r := by
  have hleft : c.drop (position s) = p ++ r := (hI.gives hs).unique h
  have hlength := congrArg List.length hleft
  have hle := hI.position_le hs
  rw [List.length_drop, List.length_append] at hlength
  obtain ⟨t, ht, hkept, hposition⟩ := hI.exists_skip_eq hs p.length
  rw [if_pos (by omega)] at ht
  rw [Nat.min_eq_left (by omega)] at hposition
  have hr := hI.gives hkept
  rw [hposition, ← List.drop_drop, hleft, List.drop_left] at hr
  refine ⟨t, ?_, hr⟩
  unfold skipPayload
  dsimp only [ExceptT.run, StateT.run, ExceptT.mk]
  rw [ht]

/-- A container, with all before its text set apart. -/
theorem packed_eq_afterText (json bin : Bytes) :
    packed json bin = header (totalLength json bin) ++
      (Bytes.ofWord (padded .json json).length ++ Bytes.ofWord ChunkKind.json.code ++
        (padded .json json ++ afterText bin)) := by
  rw [packed_eq, framed, List.append_assoc _ (padded .json json)]
  rfl

/-- The length of a container: the header, the JSON chunk, and what comes after its text. -/
theorem length_packed_eq_afterText (json bin : Bytes) :
    (packed json bin).length = 20 + ((padded .json json).length + (afterText bin).length) := by
  rw [packed_eq_afterText]
  simp only [List.length_append, Bytes.length_ofWord, header]
  omega

variable (hI : Stream.Tracks (packed json bin) I) (hs : I s) (hstart : position s = 0)

include hI hs hstart

/-- From the start, a stream gives the whole container. -/
theorem gives_of_start : Gives s (packed json bin) := by
  have h := hI.gives hs
  rwa [hstart, List.drop_zero] at h

/-- The walk to the text. -/
theorem exists_run_step_locateJson (hjson : json ≠ [])
    (hfits : totalLength json bin < Bytes.wordLimit) :
    ∃ t, (locateJson .start : Walk σ Nat).run.run s = (.ok (padded .json json).length, t) ∧
      (Step.locateJson .start).run s = (.json (.ok (padded .json json).length), t) ∧
      Gives t (padded .json json ++ afterText bin) ∧ I t ∧ position t = 20 := by
  have hn := (paddedLength_lt_of_fits hfits).1
  rw [← length_padded .json] at hn
  have hn0 : (padded .json json).length ≠ 0 := by
    rw [Ne, List.length_eq_zero_iff]
    exact padded_ne_nil hjson
  have h := gives_of_start hI hs hstart
  rw [packed_eq_afterText] at h
  obtain ⟨t, ht, hr⟩ := exists_run_locateJson hn hn0 h
  have hstep : (Step.locateJson .start).run s = (.json (.ok (padded .json json).length), t) := by
    rw [Step.run, ht]
    rfl
  obtain ⟨hkept, hposition⟩ := kept_of_step hI hs hstep hr
  rw [length_packed_eq_afterText, List.length_append] at hposition
  exact ⟨t, ht, hstep, hr, hkept, by omega⟩

/-- The walk to the bytes that takes the text. -/
theorem exists_session_stepsTaking (hjson : json ≠ [])
    (hfits : totalLength json bin < Bytes.wordLimit) :
    ∃ place t, session (stepsTaking (padded .json json).length) s =
        ([(.json (.ok (padded .json json).length), 20),
          (.bytes (.ok (padded .json json)), 20 + (padded .json json).length),
          (.binary (.ok (binaryLength? bin)), place)], t) ∧
      Gives t (padded .binary bin) ∧
      place + (padded .binary bin).length = (packed json bin).length := by
  obtain ⟨t, -, hjsonText, h, htkept, htplace⟩ :=
    exists_run_step_locateJson hI hs hstart hjson hfits
  -- The text is taken.
  obtain ⟨u, hu, h⟩ := exists_take_eq h (padded .json json).length
  rw [List.take_left] at hu
  rw [List.drop_left] at h
  have hread : (Step.read (padded .json json).length).run t =
      (.bytes (.ok (padded .json json)), u) := by
    rw [Step.run, hu]
    rfl
  obtain ⟨hukept, huplace⟩ := kept_of_step hI htkept hread h
  -- The bytes are found.
  obtain ⟨v, hv, h⟩ := exists_run_locateBinary_afterText hfits h
  have hbinary : (Step.locateBinary .current).run u = (.binary (.ok (binaryLength? bin)), v) := by
    rw [Step.run, hv]
    rfl
  obtain ⟨-, hvplace⟩ := kept_of_step hI hukept hbinary h
  refine ⟨position v, v, ?_, h, hvplace⟩
  rw [length_packed_eq_afterText] at huplace
  have huplace : position u = 20 + (padded .json json).length := by omega
  simp only [stepsTaking, session, hjsonText, hread, hbinary, htplace, huplace]

/-- The walk to the bytes that passes over the text. -/
theorem exists_session_stepPassing (hjson : json ≠ [])
    (hfits : totalLength json bin < Bytes.wordLimit) :
    ∃ place t, session stepPassing s = ([(.binary (.ok (binaryLength? bin)), place)], t) ∧
      Gives t (padded .binary bin) ∧
      place + (padded .binary bin).length = (packed json bin).length := by
  obtain ⟨t, ht, -, h, htkept, -⟩ := exists_run_step_locateJson hI hs hstart hjson hfits
  obtain ⟨u, hu, h⟩ := exists_run_skipPayload hI htkept h
  obtain ⟨v, hv, h⟩ := exists_run_locateBinary_afterText hfits h
  have hbinary : (Step.locateBinary .start).run s = (.binary (.ok (binaryLength? bin)), v) := by
    rw [Step.run, locateBinary_start, run_bind_of_ok ht, run_bind_of_ok hu, hv]
    rfl
  obtain ⟨-, hplace⟩ := kept_of_step hI hs hbinary h
  refine ⟨position v, v, ?_, h, hplace⟩
  simp only [stepPassing, session, hbinary]

end Steps

/-- A container is walked back through on every two streams of it. -/
theorem walkedBack_packed {json bin : Bytes} (hjson : json ≠ [])
    (hfits : totalLength json bin < Bytes.wordLimit) {σ τ : Type} [Stream σ] [Stream τ] {s : σ}
    {t : τ} (hs : Stream.Begins (packed json bin) s) (ht : Stream.Begins (packed json bin) t) :
    ∃ place, place + (padded .binary bin).length = (packed json bin).length ∧
      WalkedBack (padded .json json) (padded .binary bin) (binaryLength? bin) place s t := by
  obtain ⟨I, hI, hs, hsstart⟩ := hs
  obtain ⟨J, hJ, ht, htstart⟩ := ht
  obtain ⟨p, s', hss, hsleft, hsplace⟩ := exists_session_stepsTaking hI hs hsstart hjson hfits
  obtain ⟨q, t', htt, htleft, htplace⟩ := exists_session_stepPassing hJ ht htstart hjson hfits
  obtain rfl : q = p := by omega
  refine ⟨q, htplace, ?_, ?_, ?_, ?_, ?_⟩
  · have h := gives_of_start hI hs hsstart
    rw [packed_eq_afterText] at h
    obtain ⟨u, hu, hr⟩ := exists_recognize_header h
    have hstep : Step.recognize.run s = (.recognized true, u) := by
      rw [Step.run, hu]
      rfl
    obtain ⟨-, hplace⟩ := kept_of_step hI hs hstep hr
    rw [length_packed_eq_afterText] at hplace
    simp only [List.length_append, Bytes.length_ofWord] at hplace
    have hplace : position u = 12 := by omega
    simp only [session, hstep, hplace]
  · rw [hss]
  · rw [htt]
  · rw [hss]
    exact hsleft
  · rw [htt]
    exact htleft

/-- The streams of every transport begin so. -/
theorem Opened.begins {c : Bytes} {σ : Type} [Stream σ] {s : σ} (h : Opened c s) :
    Stream.Begins c s :=
  h.exists_tracks

/-- What was packed is laid out as a container has to be, and every stream of it is walked back
through to the text and the bytes. Whether the text is taken on the way or passed over, the answer
and the place are the same: if no bytes were packed there are none and the stream is at its end, and
otherwise exactly they and their padding are left. -/
theorem laidOut_of_pack {d : Document} {bin g : Bytes} (hg : pack d bin = .ok g) :
    let text := padded .json (d.encode .compact)
    let payload := padded .binary bin
    LaidOut (d.encode .compact) bin text payload g ∧
      ∀ (σ τ : Type) [Stream σ] [Stream τ] (s : σ) (t : τ), Stream.Begins g s → Stream.Begins g t →
        (bin = [] → WalkedBack text [] none g.length s t) ∧
        (bin ≠ [] → ∃ place, place + payload.length = g.length ∧
          WalkedBack text payload (some payload.length) place s t) := by
  intro text payload
  obtain ⟨hfits, rfl⟩ := pack_eq_ok_iff.mp hg
  refine ⟨laidOut_packed hfits, fun σ τ _ _ s t hs ht => ?_⟩
  obtain ⟨place, hplace, hwalked⟩ := walkedBack_packed (encode_ne_nil .compact d) hfits hs ht
  constructor
  · rintro rfl
    obtain rfl : place = _ := hplace
    exact hwalked
  · intro hbin
    rw [binaryLength?, if_neg hbin] at hwalked
    exact ⟨place, hplace, hwalked⟩

/-- Five bytes, walked back to through a buffer of seven bytes and in single bytes. -/
theorem laidOut_of_pack_five :
    let d : Document := { asset := { version := "2.0" } }
    let g := packed (d.encode .compact) [1, 2, 3, 4, 5]
    let text := d.encode .compact ++ [0x20]
    let s : Buffered := { content := g, capacityPred := 6 }
    let t : Sequential := { rest := g, pace := fun _ => 0, interrupts := fun _ => true }
    LaidOut (d.encode .compact) [1, 2, 3, 4, 5] text [1, 2, 3, 4, 5, 0, 0, 0] g ∧
      WalkedBack text [1, 2, 3, 4, 5, 0, 0, 0] (some 8) 56 s t := by
  intro d g text s t
  have hg : pack d [1, 2, 3, 4, 5] = .ok g := pack_eq_ok_iff.mpr ⟨by decide +kernel, rfl⟩
  have htext : padded .json (d.encode .compact) = text := by decide +kernel
  have hlength : g.length = 64 := by decide +kernel
  have hs : Stream.Begins g s := (Opened.buffered (by rw [hlength]; decide) 6).begins
  have ht : Stream.Begins g t := (Opened.sequential _ _).begins
  obtain ⟨hlaid, hwalks⟩ := laidOut_of_pack hg
  obtain ⟨-, hwalk⟩ := hwalks _ _ s t hs ht
  obtain ⟨place, hplace, hwalked⟩ := hwalk (by decide)
  rw [htext] at hlaid hwalked
  obtain rfl : place = 56 := Nat.add_right_cancel (hplace.trans hlength)
  exact ⟨hlaid, hwalked⟩

end GltfAsset.Container
