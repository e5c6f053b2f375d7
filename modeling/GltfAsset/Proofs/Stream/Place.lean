import GltfAsset.Proofs.Stream.Delivery
import GltfAsset.Stream.Adapter

/-!
# Places of streams

Where a stream was made for some content, the bytes that are left in it are those of the content
from its place on. `Source.Tracks c I` says so of the states in `I`, which no read leaves;
`Seek.Tracks` adds that seeking goes where it is told to, and `Stream.Tracks` that passing over
bytes moves the place as taking them does, and fails at the end. All of this is a matter of the
content and the place only, so all streams of one content behave alike.
-/

namespace GltfAsset

/-! ## Taking bytes -/

namespace Source

variable {σ : Type} [Source σ] {c : Bytes} {I : σ → Prop} {s : σ}

/-- In the states of `I`, the stream stands at a place of `c` and gives what comes after it. -/
structure Tracks (c : Bytes) (I : σ → Prop) : Prop where
  /-- The bytes after the place are given. -/
  gives : ∀ {s : σ}, I s → Gives s (c.drop (position s))
  /-- The place is in the content. -/
  position_le : ∀ {s : σ}, I s → position s ≤ c.length
  /-- Reads stay in these states. -/
  read : ∀ {s : σ} {n : Nat}, I s → I (read n s).2

/-- Reads deliver what comes after the place. -/
theorem Tracks.delivery (h : Tracks c I) :
    Delivery fun (s : σ) b => c.drop (position s) = b ∧ I s := by
  rintro s b n ⟨rfl, hs⟩ hn
  obtain ⟨R, hR, hgives⟩ := h.gives hs
  -- The bytes that are left after the read are determined by the stream after it.
  refine (hR hgives hn).imp fun r hr => ?_
  have hkept : I (Source.read n s).2 := h.read hs
  exact ⟨(h.gives hkept).unique ⟨R, hR, hr⟩, hkept⟩

/-- Taking moves the place by what is taken, up to the end. -/
theorem Tracks.exists_take_eq (h : Tracks c I) (hs : I s) (n : Nat) :
    ∃ t, take n s = (.ok ((c.drop (position s)).take n), t) ∧ I t ∧
      position t = min (position s + n) c.length := by
  obtain ⟨t, ht, hdrop, hkept⟩ := Delivery.exists_gather_eq h.delivery ⟨rfl, hs⟩ n []
  refine ⟨t, ht, hkept, ?_⟩
  have hs_le := h.position_le hs
  have ht_le := h.position_le hkept
  have hlength := congrArg List.length hdrop
  simp only [List.length_drop] at hlength
  omega

/-- Passing over bytes by taking them fails if there are fewer. -/
theorem Tracks.exists_discard_eq (h : Tracks c I) (hs : I s) (n : Nat) :
    ∃ t, discard n s =
        (if n ≤ c.length - position s then .ok () else .error ⟨.unexpectedEnd, none⟩, t) ∧
      I t ∧ position t = min (position s + n) c.length := by
  obtain ⟨t, ht, hkept, hposition⟩ := h.exists_take_eq hs n
  refine ⟨t, ?_, hkept, hposition⟩
  have hfewer : min n (c.length - position s) < n ↔ ¬ n ≤ c.length - position s := by omega
  simp only [discard, ht, List.length_take, List.length_drop, hfewer, ite_not]

end Source

/-! ## Seeking -/

/-- In the states of `I`, a stream stands at a place of `c`, and seeking goes to the places of
`c`. -/
structure Seek.Tracks {σ : Type} [Source σ] [Seek σ] (c : Bytes) (I : σ → Prop) : Prop extends
    Source.Tracks c I where
  /-- The end is found. -/
  goToEnd : ∀ {s : σ}, I s →
    ∃ t, Seek.goToEnd s = (c.length, t) ∧ I t ∧ Source.position t = c.length
  /-- Every place is found. -/
  goTo : ∀ {s : σ} {p : Nat}, I s → p ≤ c.length →
    I (Seek.goTo p s) ∧ Source.position (Seek.goTo p s) = p

/-- In the states of `I`, a stream stands at a place of `c`, and passes over the bytes after it. -/
structure Stream.Tracks {σ : Type} [Stream σ] (c : Bytes) (I : σ → Prop) : Prop extends
    Source.Tracks c I where
  /-- The place moves by what is passed over, up to the end, and it is a failure to reach the end
  before. -/
  exists_skip_eq : ∀ {s : σ}, I s → ∀ n,
    ∃ t, Stream.skip n s =
        (if n ≤ c.length - Source.position s then .ok () else .error ⟨.unexpectedEnd, none⟩, t) ∧
      I t ∧ Source.position t = min (Source.position s + n) c.length

/-- A stream stands at the start of a content, and goes to the places of the content. -/
def Stream.Begins {σ : Type} [Stream σ] (c : Bytes) (s : σ) : Prop :=
  ∃ I, Stream.Tracks c I ∧ I s ∧ Source.position s = 0

/-- In a file whose places fit 64 bits, the only targets that are refused are beyond the end. -/
theorem seekTarget?_eq {length position : Nat} (hlength : length < positionLimit)
    (hposition : position ≤ length) (n : Nat) :
    seekTarget? length position n =
      if n ≤ length - position then some (position + n) else none := by
  have hiff : (position + n < positionLimit ∧ position + n ≤ length) ↔ n ≤ length - position := by
    omega
  simp only [seekTarget?, hiff]

section Seek

variable {σ : Type} [Source σ] [Seek σ] {c : Bytes} {I : σ → Prop}

/-- Passing over bytes by seeking does what taking them does. -/
theorem Seek.Tracks.exists_forward_eq (h : Seek.Tracks c I) (hc : c.length < positionLimit) {s : σ}
    (hs : I s) (n : Nat) :
    ∃ t, Seek.forward n s =
        (if n ≤ c.length - Source.position s then .ok () else .error ⟨.unexpectedEnd, none⟩, t) ∧
      I t ∧ Source.position t = min (Source.position s + n) c.length := by
  have hle := h.position_le hs
  obtain ⟨e, he, hkept, hend⟩ := h.goToEnd hs
  simp only [Seek.forward, he, seekTarget?_eq hc hle]
  by_cases hn : n ≤ c.length - Source.position s
  · have hplace : Source.position s + n ≤ c.length := by omega
    obtain ⟨hthere, hposition⟩ := h.goTo hkept hplace
    simp only [if_pos hn]
    exact ⟨_, rfl, hthere, by rw [hposition, Nat.min_eq_left hplace]⟩
  · have hbeyond : c.length ≤ Source.position s + n := by omega
    simp only [if_neg hn]
    exact ⟨e, rfl, hkept, by rw [hend, Nat.min_eq_right hbeyond]⟩

end Seek

/-! ## The transports -/

variable {c : Bytes}

/-- The bytes at hand are those of the content after the ones taken. -/
structure Slice.At (c : Bytes) (s : Slice) : Prop where
  /-- No more was taken than there is. -/
  taken_le : s.taken ≤ c.length
  /-- The rest is there. -/
  rest : s.rest = c.drop s.taken

/-- A slice keeps track of its content. -/
theorem Slice.tracks : Stream.Tracks c (Slice.At c) where
  gives hs := hs.rest ▸ Slice.gives _
  position_le hs := hs.taken_le
  read := by
    rintro s n ⟨hle, hrest⟩
    show Slice.At c ⟨s.rest.drop n, s.taken + (s.rest.take n).length⟩
    rw [hrest]
    constructor
    · show s.taken + ((c.drop s.taken).take n).length ≤ c.length
      rw [List.length_take, List.length_drop]
      omega
    · exact (drop_add_length_take c s.taken n).symm
  exists_skip_eq := by
    rintro s ⟨hle, hrest⟩ n
    show ∃ t, Slice.skip n s = (if n ≤ c.length - s.taken then _ else _, t) ∧ Slice.At c t ∧
      t.taken = min (s.taken + n) c.length
    rw [Slice.skip, hrest, List.length_drop]
    by_cases hn : n ≤ c.length - s.taken
    · have hplace : s.taken + n ≤ c.length := by omega
      simp only [if_pos hn]
      exact ⟨_, rfl, ⟨hplace, List.drop_drop⟩, (Nat.min_eq_left hplace).symm⟩
    · have hend : s.taken + (c.length - s.taken) = c.length := by omega
      have hbeyond : c.length ≤ s.taken + n := by omega
      simp only [if_neg hn, hend]
      exact ⟨_, rfl, ⟨Nat.le_refl _, List.drop_length.symm⟩, (Nat.min_eq_right hbeyond).symm⟩

/-- What is taken of bytes at hand is their front. -/
theorem Slice.take_eq (n : Nat) (s : Slice) : Source.take n s =
    (.ok (s.rest.take n), ⟨s.rest.drop n, s.taken + (s.rest.take n).length⟩) := by
  -- It does not matter what was taken before, so it is taken to be zeros.
  generalize hc : List.replicate s.taken 0 ++ s.rest = c
  have hs : Slice.At c s := by
    subst hc
    constructor
    · rw [List.length_append, List.length_replicate]
      exact Nat.le_add_right _ _
    · exact (List.drop_left' List.length_replicate).symm
  obtain ⟨t, ht, hkept, hplace⟩ := tracks.exists_take_eq hs n
  have hrest : c.drop (Source.position s) = s.rest := hs.rest.symm
  have hlength : c.length = s.taken + s.rest.length := by
    rw [← hc, List.length_append, List.length_replicate]
  have htaken : t.taken = s.taken + (s.rest.take n).length := by
    have hplace : t.taken = min (s.taken + n) c.length := hplace
    rw [hplace, hlength, List.length_take]
    omega
  have hleft : t.rest = s.rest.drop n := by
    rw [hkept.rest, htaken, hs.rest, drop_add_length_take]
  rw [ht, hrest, ← hleft, ← htaken]

/-- The file has the content, and the place is in it. -/
structure Cursor.At (c : Bytes) (s : Cursor) : Prop where
  /-- The file has the content. -/
  content : s.content = c
  /-- The place is in it. -/
  position_le : s.position ≤ c.length

/-- A cursor keeps track of its content. -/
theorem Cursor.tracks : Seek.Tracks c (Cursor.At c) where
  gives hs := hs.content ▸ Cursor.gives _
  position_le hs := hs.position_le
  read := by
    rintro s n ⟨rfl, hle⟩
    refine ⟨rfl, ?_⟩
    show s.position + ((s.content.drop s.position).take n).length ≤ s.content.length
    rw [List.length_take, List.length_drop]
    omega
  goToEnd := by
    rintro s ⟨rfl, -⟩
    exact ⟨_, rfl, ⟨rfl, Nat.le_refl _⟩, rfl⟩
  goTo := by
    rintro s p ⟨rfl, -⟩ hp
    exact ⟨⟨rfl, hp⟩, rfl⟩

/-- The file has the content, and the buffer has the part of it before the place up to which it was
read. -/
structure Buffered.At (c : Bytes) (s : Buffered) : Prop where
  /-- The file has the content. -/
  content : s.content = c
  /-- What was read is in it. -/
  ahead_le : s.ahead ≤ c.length
  /-- What is buffered was read. -/
  length_le : s.buffer.length ≤ s.ahead
  /-- The buffer goes on with what was not read. -/
  buffer : s.buffer ++ c.drop s.ahead = c.drop (s.ahead - s.buffer.length)

/-- An empty buffer is filled with what is ahead. -/
theorem Buffered.At.fill {s : Buffered} (h : Buffered.At c s) (m : Nat) :
    Buffered.At c { s with
      ahead := s.ahead + ((s.content.drop s.ahead).take m).length
      buffer := (s.content.drop s.ahead).take m } := by
  obtain ⟨rfl, hahead, -, -⟩ := h
  refine ⟨rfl, ?_, Nat.le_add_left _ _, ?_⟩
  · show s.ahead + ((s.content.drop s.ahead).take m).length ≤ s.content.length
    rw [List.length_take, List.length_drop]
    omega
  · show (s.content.drop s.ahead).take m ++
        s.content.drop (s.ahead + ((s.content.drop s.ahead).take m).length) =
      s.content.drop (s.ahead + ((s.content.drop s.ahead).take m).length - _)
    rw [Nat.add_sub_cancel, drop_add_length_take, List.take_append_drop]

/-- The buffer loses its front. -/
theorem Buffered.At.consume {s : Buffered} (h : Buffered.At c s) (n : Nat) :
    Buffered.At c { s with buffer := s.buffer.drop n } := by
  obtain ⟨hcontent, hahead, hle, hbuffer⟩ := h
  refine ⟨hcontent, hahead, ?_, ?_⟩
  · show (s.buffer.drop n).length ≤ s.ahead
    rw [List.length_drop]
    omega
  · show s.buffer.drop n ++ c.drop s.ahead = c.drop (s.ahead - (s.buffer.drop n).length)
    rw [List.length_drop]
    rcases Nat.le_total n s.buffer.length with hn | hn
    · have hplace : s.ahead - (s.buffer.length - n) = s.ahead - s.buffer.length + n := by omega
      rw [hplace, ← List.drop_drop, ← hbuffer, List.drop_append_of_le_length hn]
    · rw [List.drop_eq_nil_of_le hn, Nat.sub_eq_zero_of_le hn, List.nil_append, Nat.sub_zero]

/-- A buffered file keeps track of its content. -/
theorem Buffered.tracks : Seek.Tracks c (Buffered.At c) where
  gives := by
    intro s hs
    have hgives := s.gives
    rw [hs.content, hs.buffer] at hgives
    exact hgives
  position_le hs := Nat.le_trans (Nat.sub_le _ _) hs.ahead_le
  read := by
    intro s n hs
    show Buffered.At c (Buffered.read n s).2
    unfold Buffered.read
    split
    · -- What is read from the file and not wanted stays in the buffer.
      exact (hs.fill _).consume n
    · exact hs.consume n
  goToEnd := by
    rintro s ⟨rfl, -⟩
    exact ⟨_, rfl, ⟨rfl, Nat.le_refl _, Nat.zero_le _, rfl⟩, rfl⟩
  goTo := by
    rintro s p ⟨rfl, -⟩ hp
    exact ⟨⟨rfl, hp, Nat.zero_le _, rfl⟩, rfl⟩

/-- The transport does not fail, and what is left is the content after what was taken. -/
structure Sequential.At (c : Bytes) (s : Sequential) : Prop where
  /-- No more was taken than there is. -/
  taken_le : s.taken ≤ c.length
  /-- The rest is left. -/
  rest : s.rest = c.drop s.taken
  /-- The transport does not fail. -/
  failure : s.failure = none

/-- A read gives a part of what is left. -/
theorem Sequential.source_tracks : Source.Tracks c (Sequential.At c) where
  gives hs := hs.rest ▸ Sequential.gives hs.failure
  position_le hs := hs.taken_le
  read := by
    rintro s n ⟨hle, hrest, hfailure⟩
    show Sequential.At c (Sequential.read n s).2
    unfold Sequential.read
    split
    · exact ⟨hle, hrest, hfailure⟩
    · split
      · exact ⟨hle, hrest, hfailure⟩
      · exact ⟨hle, hrest, hfailure⟩
      · rename_i p ps hpiece
        have hlength := congrArg List.length hpiece
        have havailable := s.length_available_le
        rw [hrest] at havailable
        simp only [List.length_take, List.length_cons, List.length_drop] at hlength havailable
        refine ⟨?_, ?_, ?_⟩
        · show s.taken + (ps.length + 1) ≤ c.length
          omega
        · show s.rest.drop (ps.length + 1) = c.drop (s.taken + (ps.length + 1))
          rw [hrest, List.drop_drop]
        · show s.failure.map _ = none
          rw [hfailure, Option.map_none]

/-- A stream that cannot seek keeps track of its content while it does not fail. -/
theorem Sequential.tracks : Stream.Tracks c (Sequential.At c) where
  toTracks := source_tracks
  exists_skip_eq hs n := source_tracks.exists_discard_eq hs n

/-! ## The adapters -/

section Adapters

variable {σ τ : Type} {I : σ → Prop}

/-- A stream that passes over bytes by seeking. -/
theorem Seek.Tracks.stream [Stream σ] [Seek σ] (h : Seek.Tracks c I)
    (hc : c.length < positionLimit)
    (hskip : ∀ (n : Nat) (s : σ), Stream.skip n s = Seek.forward n s) : Stream.Tracks c I where
  toTracks := h.toTracks
  exists_skip_eq hs n := by
    rw [hskip]
    exact h.exists_forward_eq hc hs n

/-- What is read from inside of a value is what the value gives. -/
theorem Source.Gives.inside [Source σ] {inner : τ → σ} {outer : σ → τ}
    {inner_outer : ∀ s, inner (outer s) = s} {s : τ} {b : Bytes} (h : Gives (inner s) b) :
    @Gives τ (.inside inner outer inner_outer) s b := by
  obtain ⟨R, hR, hs⟩ := h
  let _ := Source.inside inner outer inner_outer
  refine ⟨fun t r => R (inner t) r, ?_, hs⟩
  intro s b n hs hn
  have hstep := hR hs hn
  show Delivers _ n b ((read n (inner s)).1, outer (read n (inner s)).2)
  generalize read n (inner s) = result at hstep ⊢
  cases hstep with
  | bytes hne hlen ht => exact .bytes hne hlen (by rwa [inner_outer])
  | ended ht => exact .ended (by rwa [inner_outer])
  | interrupted ht => exact .interrupted (by rwa [inner_outer])

/-- A stream inside another value keeps track there too. -/
theorem Source.Tracks.inside [Source σ] (h : Source.Tracks c I) {inner : τ → σ} {outer : σ → τ}
    (inner_outer : ∀ s, inner (outer s) = s) :
    @Source.Tracks τ (.inside inner outer inner_outer) c fun s => I (inner s) :=
  let _ := Source.inside inner outer inner_outer
  { gives := fun hs => (h.gives hs).inside
    position_le := fun hs => h.position_le hs
    read := fun {s n} hs => by
      show I (inner (outer (Source.read n (inner s)).2))
      rw [inner_outer]
      exact h.read hs }

/-- The stream of a source that passes over bytes by seeking. -/
theorem Seekable.tracks [Source σ] [Seek σ] (h : Seek.Tracks c I) (hc : c.length < positionLimit) :
    Stream.Tracks c fun s : Seekable σ => I s.source where
  toTracks := h.toTracks.inside fun _ => rfl
  exists_skip_eq := by
    intro s hs n
    obtain ⟨t, ht, hkept, hposition⟩ := h.exists_forward_eq hc hs n
    refine ⟨⟨t⟩, ?_, hkept, hposition⟩
    show ((Seek.forward n s.source).1, Seekable.mk (Seek.forward n s.source).2) = _
    rw [ht]
    rfl

/-- A stream that is held by another value. -/
theorem Held.tracks [Stream σ] (h : Stream.Tracks c I) :
    Stream.Tracks c fun s : Held σ => I s.stream where
  toTracks := h.toTracks.inside fun _ => rfl
  exists_skip_eq := by
    intro s hs n
    obtain ⟨t, ht, hkept, hposition⟩ := h.exists_skip_eq hs n
    refine ⟨⟨t⟩, ?_, hkept, hposition⟩
    show ((Stream.skip n s.stream).1, Held.mk (Stream.skip n s.stream).2) = _
    rw [ht]
    rfl

end Adapters

end GltfAsset
