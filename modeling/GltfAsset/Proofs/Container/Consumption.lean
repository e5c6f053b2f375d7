import GltfAsset.Proofs.Container.Locator
import GltfAsset.Proofs.Container.Session

/-!
# What is taken from a stream

Every walk from the start of a container takes the bytes that its answer speaks of, and no more. So
the place after it can be told from the answer, and unless the answer tells of the end, the bytes
after that place can be any (`consumption_of_begins`). Both are read off the bytes that a walk takes
(`Takes`): the walks are put together of parts that each take a known number of bytes, or fewer
where the stream ends.
-/

namespace GltfAsset.Container

open Source

/-! ## Taking bytes at hand -/

section Takes

variable {ρ α β : Type}

/-- Of bytes at hand that start with `p` and go on with `q`, an operation takes `p` and gives
`r`. -/
def Takes (f : Slice → ρ × Slice) (p : Bytes) (r : ρ) (q : Bytes) : Prop :=
  ∀ n, f ⟨p ++ q, n⟩ = (r, ⟨q, n + p.length⟩)

/-- The same for a walk. -/
abbrev WalkTakes (x : Walk Slice α) (p : Bytes) (r : Except Error α) (q : Bytes) : Prop :=
  Takes (fun s => x.run.run s) p r q

/-- What is taken of the bytes from their start. -/
theorem Takes.run_eq {f : Slice → ρ × Slice} {p q b : Bytes} {r : ρ} (h : Takes f p r q)
    (hb : b = p ++ q) : f (⟨b, 0⟩ : Slice) = (r, (⟨q, p.length⟩ : Slice)) := by
  subst hb
  rw [h 0, Nat.zero_add]

section Walk

variable {x : Walk Slice α} {f : α → Walk Slice β} {p p' q : Bytes}

/-- A result is given without taking anything. -/
theorem takes_liftM (r : Except Error α) (q : Bytes) : WalkTakes (liftM r) [] r q :=
  fun n => run_liftM r (⟨q, n⟩ : Slice)

/-- What is taken after what was taken. -/
theorem Takes.bind {a : α} {r : Except Error β} (hx : WalkTakes x p (.ok a) (p' ++ q))
    (hf : WalkTakes (f a) p' r q) : WalkTakes (x >>= f) (p ++ p') r q := by
  intro n
  have hrun := hx n
  rw [← List.append_assoc] at hrun
  show (x >>= f).run.run ⟨p ++ p' ++ q, n⟩ = _
  rw [run_bind_of_ok hrun, List.length_append, ← Nat.add_assoc]
  exact hf (n + p.length)

/-- Nothing more is taken after an error. -/
theorem Takes.bind_error {e : Error} (hx : WalkTakes x p (.error e) q) :
    WalkTakes (x >>= f) p (.error e) q :=
  fun n => run_bind_of_error (hx n)

/-- Nothing more is taken for what is made of it. -/
theorem Takes.bind_liftM {a : α} {r : Except Error β} (hx : WalkTakes x p (.ok a) q)
    (hf : f a = liftM r) : WalkTakes (x >>= f) p r q := by
  have h : WalkTakes (x >>= f) (p ++ []) r q := .bind hx (hf ▸ takes_liftM r q)
  rwa [List.append_nil] at h

end Walk

end Takes

/-! ## The parts of walks -/

section Source

variable {p : Bytes} {n : Nat}

/-- Up to a number of bytes are taken: all of them if they are there. -/
theorem takes_takeUpTo {q : Bytes} (hp : p.length = n) :
    WalkTakes (takeUpTo n) p (.ok p) q := by
  intro k
  unfold takeUpTo
  dsimp only [ExceptT.run, StateT.run, ExceptT.mk]
  rw [Slice.take_eq]
  dsimp only
  rw [List.take_left' hp, List.drop_left' hp]

/-- If they are not all there, those that are there are taken. -/
theorem takes_takeUpTo_short (hp : p.length < n) : WalkTakes (takeUpTo n) p (.ok p) [] := by
  intro k
  unfold takeUpTo
  dsimp only [ExceptT.run, StateT.run, ExceptT.mk]
  rw [List.append_nil, Slice.take_eq]
  dsimp only
  rw [List.take_of_length_le (Nat.le_of_lt hp), List.drop_of_length_le (Nat.le_of_lt hp)]

/-- A payload is taken. -/
theorem takes_takePayload {q : Bytes} (hp : p.length = n) :
    WalkTakes (takePayload n) p (.ok p) q := by
  rw [takePayload_eq]
  refine (takes_takeUpTo hp).bind_liftM ?_
  rw [wholePayload, if_neg (by omega)]

/-- A payload that is not all there is taken to the end. -/
theorem takes_takePayload_short (hp : p.length < n) :
    WalkTakes (takePayload n) p (.error .truncated) [] := by
  rw [takePayload_eq]
  refine (takes_takeUpTo_short hp).bind_liftM ?_
  rw [wholePayload, if_pos hp]

/-- A payload is passed over. -/
theorem takes_skipPayload {q : Bytes} (hp : p.length = n) :
    WalkTakes (skipPayload n) p (.ok ()) q := by
  intro k
  dsimp only
  rw [run_skipPayload_slice, if_neg (by rw [List.length_append]; omega), List.drop_left' hp, hp]

/-- A payload that is not all there is passed over to the end. -/
theorem takes_skipPayload_short (hp : p.length < n) :
    WalkTakes (skipPayload n) p (.error .truncated) [] := by
  intro k
  dsimp only
  rw [List.append_nil, run_skipPayload_slice, if_pos hp]

/-- A number of bytes is taken. -/
theorem takes_takeWhole? {q : Bytes} (hp : p.length = n) :
    WalkTakes (takeWhole? n) p (.ok (some p)) q := by
  rw [takeWhole?_eq]
  refine (takes_takeUpTo hp).bind_liftM ?_
  rw [whole?, if_pos hp]

/-- Of a number of bytes that are not all there, all are taken; it is no error if there are none. -/
theorem takes_takeWhole?_short (hp : p.length < n) :
    WalkTakes (takeWhole? n) p (if p = [] then .ok none else .error .truncated) [] := by
  rw [takeWhole?_eq]
  refine (takes_takeUpTo_short hp).bind_liftM ?_
  rw [whole?, if_neg (Nat.ne_of_lt hp)]

/-- The header is taken, and its words are checked. -/
theorem takes_takeHeader {q : Bytes} (hp : p.length = headerLength) :
    WalkTakes takeHeader p (checkWords p) q := by
  rw [takeHeader_eq]
  exact (takes_takeWhole? hp).bind_liftM rfl

/-- A header that is not all there is taken to the end. -/
theorem takes_takeHeader_short (hp : p.length < headerLength) :
    WalkTakes takeHeader p (.error .truncated) [] := by
  have h := takes_takeWhole?_short hp
  rw [takeHeader_eq]
  split at h
  · exact h.bind_liftM rfl
  · exact h.bind_error

/-- The two words that eight bytes are. -/
def chunkHeader (p : Bytes) : ChunkHeader := ⟨wordAt 0 p, wordAt 4 p⟩

/-- The header of a chunk is taken. -/
theorem takes_takeChunkHeader? {q : Bytes} (hp : p.length = chunkHeaderLength) :
    WalkTakes takeChunkHeader? p (.ok (some (chunkHeader p))) q :=
  (takes_takeWhole? hp).bind_liftM rfl

/-- The header of a chunk that is not all there is taken to the end; there may be none. -/
theorem takes_takeChunkHeader?_short (hp : p.length < chunkHeaderLength) :
    WalkTakes takeChunkHeader? p (if p = [] then .ok none else .error .truncated) [] := by
  have h := takes_takeWhole?_short hp
  split at h
  · rename_i hnil
    rw [if_pos hnil]
    exact h.bind_liftM rfl
  · rename_i hne
    rw [if_neg hne]
    exact h.bind_error

end Source

/-! ## How far walks get -/

/-- Bytes are fewer than a number, or start with so many. -/
theorem lt_or_exists_append (b : Bytes) (n : Nat) :
    b.length < n ∨ ∃ p q, b = p ++ q ∧ p.length = n := by
  rcases Nat.lt_or_ge b.length n with hlt | hge
  · exact .inl hlt
  · exact .inr ⟨b.take n, b.drop n, (List.take_append_drop n b).symm, List.length_take_of_le hge⟩

/-- What is taken on the way to the text of a container of the given length: each answer with the
place after it. -/
inductive JsonTaken (length : Nat) : Except Error Nat × Nat → Prop
  /-- The header, if its first word is refused. -/
  | badMagic (found : Nat) : JsonTaken length (.error (.badMagic found), 12)
  /-- The header, if its second word is refused. -/
  | unsupportedVersion (found : Nat) : JsonTaken length (.error (.unsupportedVersion found), 12)
  /-- The words of the chunk too, if the text is found. -/
  | found (j : Nat) : JsonTaken length (.ok j, 20)
  /-- The same if the chunk is of another kind. -/
  | unexpectedChunk (found : Nat) : JsonTaken length (.error (.unexpectedChunk .json found), 20)
  /-- The same if it is empty. -/
  | emptyJsonChunk : JsonTaken length (.error .emptyJsonChunk, 20)
  /-- All, if the container ends before. -/
  | truncated : JsonTaken length (.error .truncated, length)

/-- How far the walk to the text of the bytes `b` gets, which takes the part `p` of them. -/
inductive JsonWalk (b : Bytes) : Prop
  /-- To the end. -/
  | truncated (h : WalkTakes (locateJson .start) b (.error .truncated) [])
  /-- To something that is refused, whatever comes after it. -/
  | refused {p q : Bytes} {e : Error} (hb : b = p ++ q)
      (hp : JsonTaken b.length (.error e, p.length))
      (h : ∀ q, WalkTakes (locateJson .start) p (.error e) q)
  /-- To the text, whatever it is. -/
  | found {p q : Bytes} {j : Nat} (hb : b = p ++ q) (hp : p.length = 20)
      (h : ∀ q, WalkTakes (locateJson .start) p (.ok j) q)

/-- On the way to the text the header of its chunk is taken. -/
theorem takes_locateJson_current {w q : Bytes} (hw : w.length = chunkHeaderLength) :
    WalkTakes (locateJson .current) w (textLength (some (chunkHeader w))) q := by
  rw [locateJson_current]
  exact (takes_takeChunkHeader? hw).bind_liftM rfl

/-- A header of this chunk that is not all there is taken to the end. -/
theorem takes_locateJson_current_short {w : Bytes} (hw : w.length < chunkHeaderLength) :
    WalkTakes (locateJson .current) w (.error .truncated) [] := by
  have h := takes_takeChunkHeader?_short hw
  rw [locateJson_current]
  split at h
  · exact h.bind_liftM rfl
  · exact h.bind_error

/-- Through all bytes, the walk to the text gets to one of these places. -/
theorem jsonWalk (b : Bytes) : JsonWalk b := by
  rcases lt_or_exists_append b headerLength with hshort | ⟨p, q, rfl, hp⟩
  · exact .truncated (takes_takeHeader_short hshort).bind_error
  -- The header is whole, and its words are looked at.
  have hheader : ∀ q, WalkTakes takeHeader p (checkWords p) q := fun _ => takes_takeHeader hp
  have hplace : p.length = 12 := hp
  cases hwords : checkWords p with
  | error e =>
    rw [hwords] at hheader
    refine .refused rfl ?_ fun q => (hheader q).bind_error
    rw [hplace]
    rcases eq_of_checkWords hwords with ⟨found, rfl⟩ | ⟨found, rfl⟩
    · exact .badMagic found
    · exact .unsupportedVersion found
  | ok =>
    rw [hwords] at hheader
    rcases lt_or_exists_append q chunkHeaderLength with hshort | ⟨w, q, rfl, hw⟩
    · exact .truncated (.bind (hheader _) (takes_locateJson_current_short hshort))
    -- The words of the first chunk are there too.
    have hchunk : ∀ q,
        WalkTakes (locateJson .start) (p ++ w) (textLength (some (chunkHeader w))) q :=
      fun q => .bind (hheader _) (takes_locateJson_current hw)
    have hplace : (p ++ w).length = 20 := by
      rw [List.length_append, hplace, hw]
      rfl
    cases hlength : textLength (some (chunkHeader w)) with
    | error e =>
      rw [hlength] at hchunk
      refine .refused (List.append_assoc p w q).symm ?_ hchunk
      rw [hplace]
      rcases eq_of_textLength hlength with ⟨h, -⟩ | ⟨found, rfl⟩ | rfl
      · cases h
      · exact .unexpectedChunk found
      · exact .emptyJsonChunk
    | ok j =>
      rw [hlength] at hchunk
      exact .found (List.append_assoc p w q).symm hplace hchunk

/-- How far the walk from the end of the text gets through the bytes `b` that are left. -/
inductive BinaryWalk (b : Bytes) : Prop
  /-- Nowhere, as nothing is left. -/
  | absent (hb : b = []) (h : WalkTakes (locateBinary .current) b (.ok none) [])
  /-- To the end. -/
  | truncated (h : WalkTakes (locateBinary .current) b (.error .truncated) [])
  /-- To a chunk of another kind. -/
  | refused {p q : Bytes} {found : Nat} (hb : b = p ++ q) (hp : p.length = 8)
      (h : ∀ q, WalkTakes (locateBinary .current) p (.error (.unexpectedChunk .binary found)) q)
  /-- To the bytes, whatever they are. -/
  | found {p q : Bytes} {n : Nat} (hb : b = p ++ q) (hp : p.length = 8)
      (h : ∀ q, WalkTakes (locateBinary .current) p (.ok (some n)) q)

/-- Through all bytes, the walk from the end of the text gets to one of these places. -/
theorem binaryWalk (b : Bytes) : BinaryWalk b := by
  rcases lt_or_exists_append b chunkHeaderLength with hshort | ⟨w, q, rfl, hw⟩
  · have h := takes_takeChunkHeader?_short hshort
    split at h
    · rename_i hnil
      refine .absent hnil ?_
      rw [locateBinary_current]
      exact h.bind_liftM rfl
    · refine .truncated ?_
      rw [locateBinary_current]
      exact h.bind_error
  have hchunk : ∀ q,
      WalkTakes (locateBinary .current) w (bytesLength? (some (chunkHeader w))) q := by
    intro q
    rw [locateBinary_current]
    exact (takes_takeChunkHeader? hw).bind_liftM rfl
  cases hlength : bytesLength? (some (chunkHeader w)) with
  | error e =>
    obtain ⟨found, rfl⟩ := eq_unexpectedChunk_of_bytesLength? hlength
    rw [hlength] at hchunk
    exact .refused rfl hw hchunk
  | ok n? =>
    rw [hlength] at hchunk
    cases n? with
    | none =>
      -- The words of a chunk never say that there is none.
      dsimp only [bytesLength?] at hlength
      split at hlength
      · cases hlength
      · cases hlength
    | some n => exact .found rfl hw hchunk

/-! ## What comes of a walk -/

/-- What an operation makes of the bytes `b` at hand: `T` says of what it gives which place comes
after it. If what it gives tells of the end, as `E` says, all bytes are taken, and otherwise those
after the place can be any. -/
inductive Outcome {ρ : Type} (f : Slice → ρ × Slice) (E : ρ → Prop) (T : ρ × Nat → Prop)
    (b : Bytes) : Prop
  /-- The end is met. -/
  | ended {r : ρ} (hE : E r) (hT : T (r, b.length)) (h : Takes f b r [])
  /-- The bytes after those that are taken are not looked at. -/
  | settled {p q : Bytes} {r : ρ} (hb : b = p ++ q) (hT : T (r, p.length)) (h : ∀ q, Takes f p r q)

/-- What is taken on the way to the bytes of a container, if the walk to its text came to `json`. -/
inductive BinaryTaken (length : Nat) (json : Except Error Nat × Nat) :
    Except Error (Option Nat) × Nat → Prop
  /-- What is taken on the way to the text, if that fails. -/
  | refused {e : Error} {k : Nat} (hjson : json = (.error e, k)) :
      BinaryTaken length json (.error e, k)
  /-- The text and the words after it, if the bytes are found. -/
  | found {j k : Nat} (hjson : json = (.ok j, k)) (n : Nat) :
      BinaryTaken length json (.ok (some n), 28 + j)
  /-- The same if the chunk is of another kind. -/
  | unexpectedChunk {j k : Nat} (hjson : json = (.ok j, k)) (found : Nat) :
      BinaryTaken length json (.error (.unexpectedChunk .binary found), 28 + j)
  /-- The text, if it is followed by the end. -/
  | absent {j k : Nat} (hjson : json = (.ok j, k)) (hlength : length = 20 + j) :
      BinaryTaken length json (.ok none, 20 + j)
  /-- All, if the container ends before. -/
  | truncated {j k : Nat} (hjson : json = (.ok j, k)) :
      BinaryTaken length json (.error .truncated, length)

/-- What is taken for opening a container, if the walk to its text came to `json` and the one to its
bytes gave `binary`. -/
inductive ContentsTaken (length : Nat) (json : Except Error Nat × Nat)
    (binary : Except Error (Option Nat)) : Except Error Contents × Nat → Prop
  /-- What is taken on the way to the text, if that fails. -/
  | refused {e : Error} {k : Nat} (hjson : json = (.error e, k)) :
      ContentsTaken length json binary (.error e, k)
  /-- The text, if it is not that of a document. -/
  | transcoding {j k : Nat} (hjson : json = (.ok j, k)) (e : Document.Error) :
      ContentsTaken length json binary (.error (.transcoding e), 20 + j)
  /-- The text, if it is followed by the end. -/
  | absent {j k : Nat} (hjson : json = (.ok j, k)) (hbinary : binary = .ok none) (d : Document) :
      ContentsTaken length json binary (.ok ⟨d, [], none⟩, 20 + j)
  /-- The words after the text too, if the chunk is of another kind. -/
  | unexpectedChunk {j k : Nat} (hjson : json = (.ok j, k)) (found : Nat) :
      ContentsTaken length json binary (.error (.unexpectedChunk .binary found), 28 + j)
  /-- The bytes too, if there is a chunk for them. -/
  | present {j k n : Nat} (hjson : json = (.ok j, k)) (hbinary : binary = .ok (some n))
      (c : Contents) : ContentsTaken length json binary (.ok c, 28 + j + n)
  /-- The same if their number is refused. -/
  | bufferLength {j k n : Nat} (hjson : json = (.ok j, k)) (hbinary : binary = .ok (some n))
      (declared : Int) :
      ContentsTaken length json binary (.error (.bufferLength declared n), 28 + j + n)
  /-- All, if the container ends before. -/
  | truncated {j k : Nat} (hjson : json = (.ok j, k)) :
      ContentsTaken length json binary (.error .truncated, length)

/-- What an operation gives, with the place after it. -/
def placed {ρ σ : Type} [Source σ] (x : ρ × σ) : ρ × Nat := (x.1, position x.2)

/-- What the walk to the text gives, with the place after it. -/
abbrev jsonOf {σ : Type} [Source σ] (s : σ) : Except Error Nat × Nat :=
  placed ((locateJson .start : Walk σ _).run.run s)

/-- What the walk to the bytes gives, with the place after it. -/
abbrev binaryOf {σ : Type} [Stream σ] (s : σ) : Except Error (Option Nat) × Nat :=
  placed ((locateBinary .start : Walk σ _).run.run s)

/-- What opening gives, with the place after it. -/
abbrev contentsOf {σ : Type} [Stream σ] (policy : LengthPolicy) (s : σ) :
    Except Error Contents × Nat :=
  placed ((unpackFrom policy : Walk σ _).run.run s)

section Outcome

variable {b p q : Bytes}

/-- The place after an operation is the end of what it takes. -/
theorem placed_of_takes {α : Type} {x : Walk Slice α} {r : Except Error α} (h : WalkTakes x p r q)
    (hb : b = p ++ q) : placed (x.run.run ⟨b, 0⟩) = (r, p.length) := by
  have hrun : x.run.run (⟨b, 0⟩ : Slice) = _ := h.run_eq hb
  rw [hrun]
  rfl

/-- Bytes that are no header are not known for one. -/
theorem takes_recognize_short (hp : p.length < headerLength) : Takes recognize p false [] := by
  intro n
  have hnot : ¬ (p.length = headerLength ∧ wordAt 0 p = magic ∧ wordAt 4 p = version) :=
    fun h => absurd h.1 (Nat.ne_of_lt hp)
  rw [List.append_nil, recognize, Slice.take_eq]
  dsimp only
  rw [List.take_of_length_le (Nat.le_of_lt hp), List.drop_of_length_le (Nat.le_of_lt hp),
    decide_eq_false hnot]

/-- The header is taken to be recognized. -/
theorem takes_recognize (hp : p.length = headerLength) : Takes recognize p
    (decide (p.length = headerLength ∧ wordAt 0 p = magic ∧ wordAt 4 p = version)) q := by
  intro n
  rw [recognize, Slice.take_eq]
  dsimp only
  rw [List.take_left' hp, List.drop_left' hp]

/-- Recognizing takes the header, and all bytes if there are fewer. -/
theorem outcome_recognize (b : Bytes) :
    Outcome recognize (fun _ => b.length < 12) (fun x => x.2 = min 12 b.length) b := by
  rcases lt_or_exists_append b headerLength with hshort | ⟨p, q, rfl, hp⟩
  · have hplace : b.length = min 12 b.length := (Nat.min_eq_right (Nat.le_of_lt hshort)).symm
    exact .ended hshort hplace (takes_recognize_short hshort)
  · refine .settled rfl ?_ fun q => takes_recognize hp
    rw [List.length_append, hp]
    exact (Nat.min_eq_left (Nat.le_add_right _ _)).symm

/-- The walk to the text takes what `JsonTaken` says. -/
theorem outcome_locateJson (b : Bytes) :
    Outcome (fun s => (locateJson .start : Walk Slice _).run.run s) (· = .error .truncated)
      (JsonTaken b.length) b := by
  cases jsonWalk b with
  | truncated h => exact .ended rfl .truncated h
  | refused hb hp h => exact .settled hb hp h
  | found hb hp h => exact .settled hb (hp ▸ .found _) h

/-- What comes of a walk that goes to the text and then over it, from what comes of it after the
text. -/
theorem outcome_of_text {α : Type} {f : Nat → Walk Slice α} {E : Except Error α → Prop}
    {T : Except Error α × Nat → Prop} (hE : E (.error .truncated))
    (hrefused : ∀ {e k}, jsonOf (⟨b, 0⟩ : Slice) = (.error e, k) → T (.error e, k))
    (htruncated : ∀ {j k}, jsonOf (⟨b, 0⟩ : Slice) = (.ok j, k) → T (.error .truncated, b.length))
    (hshort : ∀ {j q}, q.length < j → WalkTakes (f j) q (.error .truncated) [])
    (hover : ∀ {p text q}, b = p ++ (text ++ q) → p.length = 20 →
      (∀ q, WalkTakes (locateJson .start) p (.ok text.length) q) →
      Outcome (fun s => (locateJson .start >>= f).run.run s) E T b) :
    Outcome (fun s => (locateJson .start >>= f).run.run s) E T b := by
  cases jsonWalk b with
  | truncated h =>
    exact .ended hE (hrefused (placed_of_takes h (List.append_nil b).symm)) h.bind_error
  | refused hb hp h =>
    exact .settled hb (hrefused (placed_of_takes (h _) hb)) fun q => (h q).bind_error
  | @found p q j hb hp h =>
    rcases lt_or_exists_append q j with hlt | ⟨text, q, rfl, rfl⟩
    · have htaken : WalkTakes (locateJson .start >>= f) (p ++ q) _ [] := .bind (h _) (hshort hlt)
      rw [← hb] at htaken
      exact .ended hE (htruncated (placed_of_takes (h q) hb)) htaken
    · exact hover hb hp h

/-- The bytes up to a part of those that follow the text. -/
theorem eq_append_text {text p' q' : Bytes} (hb : b = p ++ (text ++ q)) (hq : q = p' ++ q') :
    b = p ++ (text ++ p') ++ q' := by
  rw [hb, hq, List.append_assoc, List.append_assoc]

/-- The length of a header, a text and the words after it. -/
theorem length_append_text {text p' : Bytes} (hp : p.length = 20) (hp' : p'.length = 8) :
    (p ++ (text ++ p')).length = 28 + text.length := by
  rw [List.length_append, List.length_append, hp, hp']
  omega

/-- The length of a container that is over after its text. -/
theorem length_eq_of_text {text : Bytes} (hb : b = p ++ (text ++ q)) (hp : p.length = 20)
    (hq : q = []) : b.length = 20 + text.length := by
  rw [hb, hq, List.append_nil, List.length_append, hp]

/-- The walk to the bytes passes over the text. -/
theorem takes_locateBinary_text {text p' : Bytes} {r : Except Error (Option Nat)}
    (hjson : ∀ q, WalkTakes (locateJson .start) p (.ok text.length) q)
    (h : WalkTakes (locateBinary .current) p' r q) :
    WalkTakes (locateBinary .start) (p ++ (text ++ p')) r q := by
  rw [locateBinary_start]
  exact .bind (hjson _) (.bind (takes_skipPayload rfl) h)

/-- The walk to the bytes takes what `BinaryTaken` says. -/
theorem outcome_locateBinary (b : Bytes) :
    Outcome (fun s => (locateBinary .start : Walk Slice _).run.run s)
      (fun r => r = .error .truncated ∨ r = .ok none)
      (BinaryTaken b.length (jsonOf (⟨b, 0⟩ : Slice))) b := by
  rw [locateBinary_start]
  refine outcome_of_text (.inl rfl) .refused .truncated ?_ ?_
  · intro j q hlt
    exact (takes_skipPayload_short hlt).bind_error
  intro p text q hb hp h
  rw [← locateBinary_start]
  have hjson := placed_of_takes (h _) hb
  cases binaryWalk q with
  | absent hq hwalk =>
    have htaken := takes_locateBinary_text h hwalk
    rw [← hb] at htaken
    refine .ended (.inr rfl) ?_ htaken
    rw [length_eq_of_text hb hp hq]
    exact .absent hjson rfl
  | truncated hwalk =>
    have htaken := takes_locateBinary_text h hwalk
    rw [← hb] at htaken
    exact .ended (.inl rfl) (.truncated hjson) htaken
  | @refused p' q' found hq hp' hwalk =>
    refine .settled (eq_append_text hb hq) ?_ fun q => takes_locateBinary_text h (hwalk q)
    rw [length_append_text hp hp']
    exact .unexpectedChunk hjson found
  | @found p' q' n hq hp' hwalk =>
    refine .settled (eq_append_text hb hq) ?_ fun q => takes_locateBinary_text h (hwalk q)
    rw [length_append_text hp hp']
    exact .found hjson n

/-- Opening takes the text and is refused there. -/
theorem takes_unpackFrom_refused (policy : LengthPolicy) {text : Bytes} {e : Error}
    (hjson : ∀ q, WalkTakes (locateJson .start) p (.ok text.length) q)
    (hd : document text = .error e) : WalkTakes (unpackFrom policy) (p ++ text) (.error e) q := by
  have hdocument : WalkTakes (liftM (document text)) [] (.error e : Except Error Document) q :=
    hd ▸ takes_liftM _ _
  have hrest : WalkTakes (liftM (document text) >>= fun d => takeBinary policy d) [] (.error e) q :=
    hdocument.bind_error
  have h : WalkTakes (unpackFrom policy) (p ++ (text ++ [])) (.error e) q := by
    rw [unpackFrom_eq]
    exact .bind (hjson _) (.bind (takes_takePayload rfl) hrest)
  rwa [List.append_nil] at h

/-- Opening takes the text and goes on with the document. -/
theorem takes_unpackFrom_text (policy : LengthPolicy) {text p' : Bytes} {d : Document}
    {r : Except Error Contents}
    (hjson : ∀ q, WalkTakes (locateJson .start) p (.ok text.length) q)
    (hd : document text = .ok d) (h : WalkTakes (takeBinary policy d) p' r q) :
    WalkTakes (unpackFrom policy) (p ++ (text ++ p')) r q := by
  rw [unpackFrom_eq]
  have hdocument : WalkTakes (liftM (document text)) [] (.ok d) (p' ++ q) := hd ▸ takes_liftM _ _
  have hrest : WalkTakes (liftM (document text) >>= fun d => takeBinary policy d) p' r q :=
    .bind hdocument h
  exact .bind (hjson _) (.bind (takes_takePayload rfl) hrest)

/-- What is made of a payload speaks of its length, or is what the container holds. -/
theorem contentsTaken_reconcile {length j k : Nat} {json : Except Error Nat × Nat}
    {binary : Except Error (Option Nat)} {payload : Bytes} (hjson : json = (.ok j, k))
    (hbinary : binary = .ok (some payload.length)) (policy : LengthPolicy) (d : Document) :
    ContentsTaken length json binary (reconcile policy d payload, 28 + j + payload.length) := by
  cases hkept : reconcile policy d payload with
  | error e =>
    obtain ⟨declared, rfl⟩ := eq_bufferLength_of_reconcile hkept
    exact .bufferLength hjson hbinary declared
  | ok c => exact .present hjson hbinary c

/-- What comes of opening a container whose text is that of a document. -/
theorem outcome_unpackFrom_text (policy : LengthPolicy) {text : Bytes} {d : Document}
    (hb : b = p ++ (text ++ q)) (hp : p.length = 20)
    (h : ∀ q, WalkTakes (locateJson .start) p (.ok text.length) q) (hd : document text = .ok d) :
    Outcome (fun s => (unpackFrom policy : Walk Slice _).run.run s)
      (fun r => r = .error .truncated ∨ (binaryOf (⟨b, 0⟩ : Slice)).1 = .ok none ∧ ∃ c, r = .ok c)
      (ContentsTaken b.length (jsonOf (⟨b, 0⟩ : Slice)) (binaryOf (⟨b, 0⟩ : Slice)).1) b := by
  have hjson := placed_of_takes (h _) hb
  -- What the walk to the bytes finds is what opening finds after the text.
  have hbinary : ∀ {p' q' r}, q = p' ++ q' → WalkTakes (locateBinary .current) p' r q' →
      (binaryOf (⟨b, 0⟩ : Slice)).1 = r := by
    intro p' q' r hq hwalk
    have hfound := placed_of_takes (takes_locateBinary_text h hwalk) (eq_append_text hb hq)
    exact congrArg Prod.fst hfound
  cases binaryWalk q with
  | absent hq hwalk =>
    have hnone := hbinary (List.append_nil q).symm hwalk
    have htaken := takes_unpackFrom_text policy h hd (hwalk.bind_liftM rfl)
    rw [← hb] at htaken
    refine .ended (.inr ⟨hnone, _, rfl⟩) ?_ htaken
    rw [length_eq_of_text hb hp hq]
    exact .absent hjson hnone d
  | truncated hwalk =>
    have htaken := takes_unpackFrom_text policy h hd hwalk.bind_error
    rw [← hb] at htaken
    exact .ended (.inl rfl) (.truncated hjson) htaken
  | @refused p' q' found hq hp' hwalk =>
    refine .settled (eq_append_text hb hq) ?_ fun q =>
      takes_unpackFrom_text policy h hd (hwalk q).bind_error
    rw [length_append_text hp hp']
    exact .unexpectedChunk hjson found
  | @found p' q' n hq hp' hwalk =>
    have hsome := hbinary hq (hwalk q')
    rcases lt_or_exists_append q' n with hlt | ⟨payload, q', rfl, rfl⟩
    · have htaken := takes_unpackFrom_text policy h hd
        (.bind (hwalk _) (takes_takePayload_short hlt).bind_error)
      rw [← hq, ← hb] at htaken
      exact .ended (.inl rfl) (.truncated hjson) htaken
    · rw [← List.append_assoc] at hq
      refine .settled (eq_append_text hb hq) ?_ fun q => takes_unpackFrom_text policy h hd
        (.bind (hwalk _) ((takes_takePayload rfl).bind_liftM rfl))
      rw [← List.append_assoc text, ← List.append_assoc p, List.length_append,
        length_append_text hp hp']
      exact contentsTaken_reconcile hjson hsome policy d

/-- Opening a container takes what `ContentsTaken` says. -/
theorem outcome_unpackFrom (policy : LengthPolicy) (b : Bytes) :
    Outcome (fun s => (unpackFrom policy : Walk Slice _).run.run s)
      (fun r => r = .error .truncated ∨ (binaryOf (⟨b, 0⟩ : Slice)).1 = .ok none ∧ ∃ c, r = .ok c)
      (ContentsTaken b.length (jsonOf (⟨b, 0⟩ : Slice)) (binaryOf (⟨b, 0⟩ : Slice)).1) b := by
  rw [unpackFrom_eq]
  refine outcome_of_text (.inl rfl) .refused .truncated ?_ ?_
  · intro j q hlt
    exact (takes_takePayload_short hlt).bind_error
  intro p text q hb hp h
  rw [← unpackFrom_eq]
  have hjson := placed_of_takes (h _) hb
  cases hdocument : document text with
  | error e =>
    obtain ⟨t, rfl⟩ := eq_transcoding_of_document hdocument
    rw [← List.append_assoc p] at hb
    refine .settled hb ?_ fun q => takes_unpackFrom_refused policy h hdocument
    rw [List.length_append, hp]
    exact .transcoding hjson (.text t)
  | ok d => exact outcome_unpackFrom_text policy hb hp h hdocument

end Outcome

/-! ## On every stream -/

section Begins

variable {σ : Type} [Stream σ] {s : σ} {b : Bytes}

/-- Whatever follows the bytes that a step takes of `b`, it gives the same and takes the same. -/
def Step.Blind (x : Step) (b : Bytes) (s : σ) : Prop :=
  ∀ (tail : Bytes) (τ : Type) [Stream τ] (t : τ),
    Stream.Begins (b.take (position (x.run s).2) ++ tail) t → placed (x.run t) = placed (x.run s)

/-- What is taken of the bytes `b` of a stream, from its start. -/
structure Consumption (b : Bytes) (s : σ) : Prop where
  /-- The header is taken where it is looked for, or all there is. -/
  recognize : position (Container.recognize s).2 = min 12 b.length
  /-- What is taken on the way to the text. -/
  json : JsonTaken b.length (jsonOf s)
  /-- What is taken on the way to the bytes. -/
  binary : BinaryTaken b.length (jsonOf s) (binaryOf s)
  /-- What is taken for opening. -/
  contents : ∀ policy, ContentsTaken b.length (jsonOf s) (binaryOf s).1 (contentsOf policy s)
  /-- If the header is there, what follows it does not matter. -/
  recognize_blind : 12 ≤ b.length → Step.recognize.Blind b s
  /-- Unless the end is met on the way to the text, what follows does not matter. -/
  json_blind : (jsonOf s).1 ≠ .error .truncated → (Step.locateJson .start).Blind b s
  /-- It does not on the way to the bytes either, unless the end is met or there are none. -/
  binary_blind : (binaryOf s).1 ≠ .error .truncated → (binaryOf s).1 ≠ .ok none →
    (Step.locateBinary .start).Blind b s
  /-- Nor does it for opening, unless the end is met or a document comes without any. -/
  contents_blind : ∀ policy, (contentsOf policy s).1 ≠ .error .truncated →
    ¬ ((binaryOf s).1 = .ok none ∧ ∃ c, (contentsOf policy s).1 = .ok c) →
    (Step.unpack policy).Blind b s

/-- In both cases it is told what is taken. -/
theorem Outcome.taken {ρ : Type} {f : Slice → ρ × Slice} {E : ρ → Prop} {T : ρ × Nat → Prop}
    (h : Outcome f E T b) : T (placed (f ⟨b, 0⟩)) := by
  cases h with
  | ended _ hT h =>
    rw [h.run_eq (List.append_nil b).symm]
    exact hT
  | settled hb hT h =>
    rw [(h _).run_eq hb]
    exact hT

/-- A step does on a stream what it does on the bytes at hand. -/
theorem placed_step_eq (hs : Stream.Begins b s) (x : Step) :
    placed (x.run s) = placed (x.run (⟨b, 0⟩ : Slice)) := by
  obtain ⟨I, hI, hs, hstart⟩ := hs
  have hslice : Slice.At b ⟨b, 0⟩ := ⟨Nat.zero_le _, rfl⟩
  obtain ⟨a, s', t', hrun, hrun', hplace⟩ :=
    agree_step hI Slice.tracks x s (⟨b, 0⟩ : Slice) ⟨hs, hslice, hstart⟩
  rw [hrun, hrun', placed, placed, hplace.position]

/-- An operation of which a step tells all does so too. -/
theorem placed_eq_of_step {ρ τ : Type} [Source τ] {g : ρ → Answer} (hg : Function.Injective g)
    {x : ρ × σ} {y : ρ × τ} (h : placed (x.map g id) = placed (y.map g id)) :
    placed x = placed y := by
  obtain ⟨hgiven, hplace⟩ := Prod.mk.inj h
  exact Prod.ext (hg hgiven) hplace

/-- What comes after the bytes that a step takes does not matter if it does not at hand. -/
theorem Outcome.blind {ρ : Type} {f : Slice → ρ × Slice} {E : ρ → Prop} {T : ρ × Nat → Prop}
    (h : Outcome f E T b) {x : Step} {g : ρ → Answer}
    (hx : ∀ s : Slice, x.run s = (f s).map g id) (hs : Stream.Begins b s)
    (hE : ¬ E (f ⟨b, 0⟩).1) : x.Blind b s := by
  intro tail τ _ t ht
  cases h with
  | ended hr _ h =>
    rw [h.run_eq (List.append_nil b).symm] at hE
    exact absurd hr hE
  | @settled p q r hb _ h =>
    have hslice : placed (x.run (⟨b, 0⟩ : Slice)) = (g r, p.length) := by
      rw [hx, (h q).run_eq hb]
      rfl
    have hsame := placed_step_eq hs x
    rw [hslice] at hsame
    have hplace : position (x.run s).2 = p.length := congrArg Prod.snd hsame
    rw [hplace, hb, List.take_left] at ht
    rw [placed_step_eq ht, hx, (h tail).run_eq rfl, hsame]
    rfl

/-- A walk from the start of a stream takes what its answer speaks of. Unless this tells of the end,
the bytes after those that were taken can be any. -/
theorem consumption_of_begins (hs : Stream.Begins b s) : Consumption b s := by
  -- Every stream answers, and is left, as the slice of the bytes is.
  have hrecognize : placed (recognize s) = placed (recognize (⟨b, 0⟩ : Slice)) :=
    placed_eq_of_step (fun _ _ => Answer.recognized.inj) (placed_step_eq hs .recognize)
  have hjson : jsonOf s = jsonOf (⟨b, 0⟩ : Slice) :=
    placed_eq_of_step (fun _ _ => Answer.json.inj) (placed_step_eq hs (.locateJson .start))
  have hbinary : binaryOf s = binaryOf (⟨b, 0⟩ : Slice) :=
    placed_eq_of_step (fun _ _ => Answer.binary.inj) (placed_step_eq hs (.locateBinary .start))
  have hcontents : ∀ policy, contentsOf policy s = contentsOf policy (⟨b, 0⟩ : Slice) :=
    fun policy =>
      placed_eq_of_step (fun _ _ => Answer.contents.inj) (placed_step_eq hs (.unpack policy))
  -- So what is left to be said is of slices.
  constructor
  case recognize =>
    have htaken := (outcome_recognize b).taken
    rw [← hrecognize] at htaken
    exact htaken
  case json =>
    rw [hjson]
    exact (outcome_locateJson b).taken
  case binary =>
    rw [hjson, hbinary]
    exact (outcome_locateBinary b).taken
  case contents =>
    intro policy
    rw [hjson, hbinary, hcontents]
    exact (outcome_unpackFrom policy b).taken
  case recognize_blind =>
    intro hlength
    exact (outcome_recognize b).blind (fun _ => rfl) hs (Nat.not_lt.mpr hlength)
  case json_blind =>
    rw [hjson]
    intro hend
    exact (outcome_locateJson b).blind (fun _ => rfl) hs hend
  case binary_blind =>
    rw [hbinary]
    intro htruncated hnone
    exact (outcome_locateBinary b).blind (fun _ => rfl) hs (not_or.mpr ⟨htruncated, hnone⟩)
  case contents_blind =>
    intro policy
    rw [hcontents, hbinary]
    intro htruncated habsent
    exact (outcome_unpackFrom policy b).blind (fun _ => rfl) hs (not_or.mpr ⟨htruncated, habsent⟩)

end Begins

/-- Four bytes through a buffer of seven, with another byte after them that stays where it is and
could be any. -/
theorem consumption_of_begins_four :
    let d : Document := { asset := { version := "2.0" }, buffers := #[{ byteLength := 4 }] }
    let c := header 0 ++
      (framed .json (d.encode .compact) ++ (framed .binary [1, 2, 3, 4] ++ [9]))
    let s : Buffered := { content := c, capacityPred := 6 }
    Consumption c s ∧ jsonOf s = (.ok 56, 20) ∧ binaryOf s = (.ok (some 4), 84) ∧
      contentsOf .truncateToDeclared s = (.ok ⟨d, [1, 2, 3, 4], none⟩, 88) ∧
      (Step.unpack .truncateToDeclared).Blind c s := by
  intro d c s
  have hlength : c.length < positionLimit := by decide +kernel
  have htaken : Consumption c s := consumption_of_begins (Opened.buffered hlength 6).exists_tracks
  have hbinary : binaryOf s = (.ok (some 4), 84) := by decide +kernel
  have hcontents : contentsOf .truncateToDeclared s = (.ok ⟨d, [1, 2, 3, 4], none⟩, 88) := by
    decide +kernel
  refine ⟨htaken, by decide +kernel, hbinary, hcontents, htaken.contents_blind _ ?_ ?_⟩
  · rw [hcontents]
    exact nofun
  · rw [hbinary]
    rintro ⟨⟨⟩, -⟩

end GltfAsset.Container
