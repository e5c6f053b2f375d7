import GltfAsset.Document.Error
import GltfAsset.Proofs.Container.Agreement
import GltfAsset.Proofs.Files.Load

/-!
# All transports behave alike

A session takes steps through a stream one after the other, and goes on after a step that failed.
Whatever the steps are, the answers and the places after them depend on the content only and not on
the way in which its bytes come (`session_eq_of_opened`). The induction is on the steps: before each
of them the streams stand at the same place of the content, and a step that gives the same from
there leaves them at the same place again.
-/

namespace GltfAsset.Container

open Source

/-! ## Sessions -/

/-- What is asked of a stream. -/
inductive Step where
  /-- Whether the header of a container follows. -/
  | recognize
  /-- To walk to the text. -/
  | locateJson (origin : Origin)
  /-- To walk to the bytes. -/
  | locateBinary (origin : Origin)
  /-- To pass over bytes. -/
  | skip (n : Nat)
  /-- To take bytes. -/
  | read (n : Nat)
  /-- To read a container. -/
  | unpack (policy : LengthPolicy)
deriving DecidableEq, Repr

/-- What is answered. -/
inductive Answer where
  /-- Whether there is a header. -/
  | recognized (yes : Bool)
  /-- The length of the text. -/
  | json (r : Except Error Nat)
  /-- The length of the bytes, if there are any. -/
  | binary (r : Except Error (Option Nat))
  /-- Whether the bytes were there. -/
  | skipped (r : Except Failure Unit)
  /-- The bytes, fewer only at the end. -/
  | bytes (r : Except Failure Bytes)
  /-- What the container holds. -/
  | contents (r : Except Error Contents)

/-- Takes one step through a stream. -/
def Step.run {σ : Type} [Stream σ] : Step → σ → Answer × σ
  | .recognize, s => (Container.recognize s).map .recognized id
  | .locateJson origin, s => ((Container.locateJson origin).run.run s).map .json id
  | .locateBinary origin, s => ((Container.locateBinary origin).run.run s).map .binary id
  | .skip n, s => (Stream.skip n s).map .skipped id
  | .read n, s => (take n s).map .bytes id
  | .unpack policy, s => ((unpackFrom policy).run.run s).map .contents id

/-- Takes steps through a stream, also after failures. Each answer comes with the place after the
step. -/
def session {σ : Type} [Stream σ] : List Step → σ → List (Answer × Nat) × σ
  | [], s => ([], s)
  | x :: xs, s =>
    let (a, t) := x.run s
    let (as, u) := session xs t
    ((a, position t) :: as, u)

/-! ## Sessions at one place -/

section Session

variable {σ τ : Type} [Stream σ] [Stream τ] {c : Bytes} {I : σ → Prop} {J : τ → Prop}

/-- A step gives the same at the same place of a content, and moves to the same place. -/
theorem agree_step (hI : Stream.Tracks c I) (hJ : Stream.Tracks c J) (x : Step) :
    Agree (SamePlace I J) x.run x.run := by
  have htake : ∀ n, Agree (SamePlace I J) (take n) (take n) :=
    agree_take_of_place hI.toTracks hJ.toTracks
  have hskip : ∀ n, Agree (SamePlace I J) (Stream.skip n) (Stream.skip n) :=
    agree_skip_of_place hI hJ
  cases x with
  | recognize => exact (agree_recognize htake).map _
  | locateJson origin => exact (agrees_locateJson htake origin).map _
  | locateBinary origin => exact (agrees_locateBinary htake origin fun _ => hskip).map _
  | skip n => exact (hskip n).map _
  | read n => exact (htake n).map _
  | unpack policy => exact (agrees_unpackFrom htake policy).map _

/-- Steps give the same at the same place of a content, and lead to the same place. -/
theorem agree_session (hI : Stream.Tracks c I) (hJ : Stream.Tracks c J) (xs : List Step) :
    Agree (SamePlace I J) (session xs) (session xs) := by
  induction xs with
  | nil => exact fun s t hplace => ⟨[], s, t, rfl, rfl, hplace⟩
  | cons x xs ih =>
    intro s t hplace
    obtain ⟨a, s', t', hs, ht, hplace⟩ := agree_step hI hJ x s t hplace
    obtain ⟨as, s'', t'', hss, htt, hleft⟩ := ih s' t' hplace
    -- The place after the step is part of what is answered.
    refine ⟨(a, position s') :: as, s'', t'', ?_, ?_, hleft⟩
    · simp only [session, hs, hss]
    · simp only [session, ht, htt, hplace.position]

end Session

/-! ## Streams of a content -/

/-- The sources that seek, at the start of a content. -/
inductive SeeksIn (c : Bytes) : {σ : Type} → [Source σ] → [Seek σ] → σ → Prop
  /-- A place in a file. -/
  | cursor : SeeksIn c (⟨c, 0⟩ : Cursor)
  /-- A place in a file that is read through a buffer of any size. -/
  | buffered (capacityPred : Nat) : SeeksIn c ({ content := c, capacityPred } : Buffered)

/-- The streams at the start of a content. The places of a file fit 64 bits. -/
inductive Opened (c : Bytes) : {σ : Type} → [Stream σ] → σ → Prop
  /-- The bytes at hand. -/
  | slice : Opened c (⟨c, 0⟩ : Slice)
  /-- A place in a file. -/
  | cursor (hc : c.length < positionLimit) : Opened c (⟨c, 0⟩ : Cursor)
  /-- A place in a file that is read through a buffer of any size. -/
  | buffered (hc : c.length < positionLimit) (capacityPred : Nat) :
    Opened c ({ content := c, capacityPred } : Buffered)
  /-- A source that seeks. -/
  | seekable {σ : Type} [Source σ] [Seek σ] {s : σ} (hc : c.length < positionLimit)
    (hs : SeeksIn c s) : Opened c (⟨s⟩ : Seekable σ)
  /-- Bytes in sequence, in pieces of any sizes and with any interruptions. -/
  | sequential (pace : Nat → Nat) (interrupts : Nat → Bool) :
    Opened c ({ rest := c, pace, interrupts } : Sequential)
  /-- Any of them, held by another value. -/
  | held {σ : Type} [Stream σ] {s : σ} (hs : Opened c s) : Opened c (⟨s⟩ : Held σ)

/-- A source that seeks goes to the places of the content. -/
theorem SeeksIn.exists_tracks {c : Bytes} {σ : Type} [Source σ] [Seek σ] {s : σ}
    (h : SeeksIn c s) : ∃ I, Seek.Tracks c I ∧ I s ∧ position s = 0 := by
  cases h with
  | cursor => exact ⟨_, Cursor.tracks, ⟨rfl, Nat.zero_le _⟩, rfl⟩
  | buffered capacityPred =>
    exact ⟨_, Buffered.tracks, ⟨rfl, Nat.zero_le _, Nat.zero_le _, rfl⟩, rfl⟩

/-- A stream stands at the places of the content. -/
theorem Opened.exists_tracks {c : Bytes} {σ : Type} [Stream σ] {s : σ} (h : Opened c s) :
    ∃ I, Stream.Tracks c I ∧ I s ∧ position s = 0 := by
  -- A stream may be held by a value that is held itself.
  induction h with
  | slice => exact ⟨_, Slice.tracks, ⟨Nat.zero_le _, rfl⟩, rfl⟩
  | cursor hc =>
    refine ⟨_, Cursor.tracks.stream hc Cursor.skip_eq_forward, ⟨rfl, Nat.zero_le _⟩, rfl⟩
  | buffered hc capacityPred =>
    refine ⟨_, Buffered.tracks.stream hc Buffered.skip_eq_forward, ?_, rfl⟩
    exact ⟨rfl, Nat.zero_le _, Nat.zero_le _, rfl⟩
  | seekable hc hs =>
    obtain ⟨I, hI, hs, hposition⟩ := hs.exists_tracks
    exact ⟨_, Seekable.tracks hI hc, hs, hposition⟩
  | sequential pace interrupts =>
    exact ⟨_, Sequential.tracks, ⟨Nat.zero_le _, rfl, rfl⟩, rfl⟩
  | held hs ih =>
    obtain ⟨I, hI, hs, hposition⟩ := ih
    exact ⟨_, Held.tracks hI, hs, hposition⟩

/-! ## What a stream does where it stands -/

/-- What a stream of a content does at the place where it stands. -/
structure Stands {σ : Type} [Stream σ] (c : Bytes) (s : σ) : Prop where
  /-- The place is in the content. -/
  position_le : position s ≤ c.length
  /-- It passes over bytes if there are as many, however large the place after them is. -/
  skip : ∀ n, n ≤ c.length - position s →
    (Stream.skip n s).1 = .ok () ∧ position (Stream.skip n s).2 = position s + n
  /-- It fails if there are fewer, and stands at its end then. -/
  skip_beyond : ∀ n, c.length - position s < n →
    (Stream.skip n s).1 = .error ⟨.unexpectedEnd, none⟩ ∧
      position (Stream.skip n s).2 = c.length
  /-- The document is that of the bytes that are left. -/
  document : (Document.readFrom s).1 = (Document.decode (c.drop (position s))).mapError .text

/-- A stream that keeps track of a content stands at its place in it. -/
theorem stands_of_tracks {σ : Type} [Stream σ] {c : Bytes} {I : σ → Prop} {s : σ}
    (hI : Stream.Tracks c I) (hs : I s) : Stands c s where
  position_le := hI.position_le hs
  skip n hn := by
    have hle := hI.position_le hs
    obtain ⟨t, ht, -, hposition⟩ := hI.exists_skip_eq hs n
    rw [if_pos hn] at ht
    rw [ht]
    exact ⟨rfl, hposition.trans (Nat.min_eq_left (by omega))⟩
  skip_beyond n hn := by
    obtain ⟨t, ht, -, hposition⟩ := hI.exists_skip_eq hs n
    rw [if_neg (Nat.not_le.mpr hn)] at ht
    rw [ht]
    exact ⟨rfl, hposition.trans (Nat.min_eq_right (by omega))⟩
  document := Document.readFrom_eq (hI.gives hs)

/-- Two streams of one content give the same answers to the same steps, at the same places, however
their bytes come and whatever fails on the way. Where the steps lead, passing over bytes succeeds
exactly if there are as many, and the document of the stream is that of the bytes that are left. -/
theorem session_eq_of_opened {c : Bytes} {σ τ : Type} [Stream σ] [Stream τ] {s : σ} {t : τ}
    (hs : Opened c s) (ht : Opened c t) (xs : List Step) :
    (session xs s).1 = (session xs t).1 ∧
      position (session xs s).2 = position (session xs t).2 ∧ Stands c (session xs s).2 := by
  obtain ⟨I, hI, hs, hsposition⟩ := hs.exists_tracks
  obtain ⟨J, hJ, ht, htposition⟩ := ht.exists_tracks
  have hplace : SamePlace I J s t := ⟨hs, ht, hsposition.trans htposition.symm⟩
  obtain ⟨as, s', t', hss, htt, hplace⟩ := agree_session hI hJ xs s t hplace
  rw [hss, htt]
  exact ⟨rfl, hplace.position, stands_of_tracks hI hplace.left⟩

/-- A buffer of seven bytes against single bytes with an interruption before each: a header that is
known, as many bytes passed over as 64 bits can say, and a container read from the end. -/
theorem session_eq_of_opened_beyond :
    let c : Bytes := header 20 ++ [1, 2, 3, 4, 5, 6, 7, 8]
    let s : Held Buffered := ⟨{ content := c, capacityPred := 6 }⟩
    let t : Sequential := { rest := c, pace := fun _ => 0, interrupts := fun _ => true }
    let xs : List Step :=
      [.recognize, .read 3, .skip (positionLimit - 1), .unpack .padded, .skip 0]
    (session xs s).1 = (session xs t).1 ∧
      (session xs t).1.map (·.2) = [12, 15, 20, 20, 20] ∧ Stands c (session xs s).2 := by
  intro c s t xs
  have hs : Opened c s := .held (.buffered (by decide) 6)
  have ht : Opened c t := .sequential _ _
  obtain ⟨hanswers, -, hstands⟩ := session_eq_of_opened hs ht xs
  exact ⟨hanswers, by decide +kernel, hstands⟩

end GltfAsset.Container
