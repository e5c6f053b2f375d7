import GltfAsset.Proofs.Container.Walk
import GltfAsset.Proofs.Stream.Agreement

/-!
# Walks agree on related streams

A walk through a stream asks it for bytes only by taking them and, from the start to the second
chunk, by passing over them. So it gives the same on all streams that these operations cannot tell
apart, its failures included, and leaves them related.
-/

namespace GltfAsset.Container

open Source

section Walk

variable {σ τ α β : Type} {S : σ → τ → Prop}

/-- Two walks give the same from related streams, and leave related streams. -/
abbrev Agrees (S : σ → τ → Prop) (x : Walk σ α) (y : Walk τ α) : Prop :=
  Agree S (fun s => x.run.run s) (fun t => y.run.run t)

/-- Walks that give the same value agree. -/
theorem Agrees.pure (a : α) : Agrees S (pure a) (pure a) :=
  fun s t h => ⟨.ok a, s, t, rfl, rfl, h⟩

/-- Walks that fail alike agree. -/
theorem Agrees.throw (e : Error) : Agrees S (throw e : Walk σ α) (throw e) :=
  fun s t h => ⟨.error e, s, t, rfl, rfl, h⟩

/-- Walks that give the same result agree. -/
theorem Agrees.liftM (x : Except Error α) : Agrees S (liftM x) (liftM x) :=
  fun s t h => ⟨x, s, t, run_liftM x s, run_liftM x t, h⟩

/-- What goes on in agreement after what agrees. -/
theorem Agrees.bind {x : Walk σ α} {y : Walk τ α} {f : α → Walk σ β} {g : α → Walk τ β}
    (hx : Agrees S x y) (hf : ∀ a, Agrees S (f a) (g a)) : Agrees S (x >>= f) (y >>= g) := by
  intro s t hst
  obtain ⟨r, s', t', hs, ht, hrelated⟩ := hx s t hst
  cases r with
  | ok a =>
    simp only [run_bind_of_ok hs, run_bind_of_ok ht]
    exact hf a s' t' hrelated
  | error e =>
    simp only [run_bind_of_error hs, run_bind_of_error ht]
    exact ⟨_, s', t', rfl, rfl, hrelated⟩

end Walk

/-! ## Walks from the start -/

section Start

variable {σ : Type}

/-- The walk to the text goes over the header first. -/
theorem locateJson_start [Source σ] :
    (locateJson .start : Walk σ Nat) = takeHeader >>= fun _ => locateJson .current := rfl

/-- The walk to the bytes goes over the text first. -/
theorem locateBinary_start [Stream σ] :
    (locateBinary .start : Walk σ (Option Nat)) =
      locateJson .start >>= fun n => skipPayload n >>= fun _ => locateBinary .current := rfl

/-- Takes the bytes that go with a document, from the end of its text on. -/
def takeBinary [Stream σ] (policy : LengthPolicy) (d : Document) : Walk σ Contents := do
  match ← locateBinary .current with
  | none => return ⟨d, [], none⟩
  | some n =>
    let payload ← takePayload n
    reconcile policy d payload

/-- A container is its text and the bytes that go with the document. -/
theorem unpackFrom_eq [Stream σ] (policy : LengthPolicy) :
    (unpackFrom policy : Walk σ Contents) =
      locateJson .start >>= fun n => takePayload n >>= fun text =>
        liftM (document text) >>= fun d => takeBinary policy d := rfl

/-- Takes the chunks of a container, from the end of its header on. -/
def takeChunks [Stream σ] (policy : LengthPolicy) : Walk σ Contents := do
  let n ← locateJson .current
  let text ← takePayload n
  let d ← document text
  takeBinary policy d

/-- A container is its header and its chunks. -/
theorem unpackFrom_eq_takeHeader [Stream σ] (policy : LengthPolicy) :
    (unpackFrom policy : Walk σ Contents) = takeHeader >>= fun _ => takeChunks policy := by
  rw [unpackFrom_eq, locateJson_start, bind_assoc]
  rfl

end Start

section Source

variable {σ τ : Type} [Source σ] [Source τ] {S : σ → τ → Prop}
  (htake : ∀ n, Agree S (take n) (take n))

include htake

/-- To take up to a number of bytes gives the same on both sides. -/
theorem agrees_takeUpTo (n : Nat) : Agrees S (takeUpTo n) (takeUpTo n) := by
  intro s t hst
  obtain ⟨r, s', t', hs, ht, hrelated⟩ := htake n s t hst
  unfold takeUpTo
  dsimp only [ExceptT.run, StateT.run, ExceptT.mk]
  rw [hs, ht]
  cases r with
  | ok b => exact ⟨_, s', t', rfl, rfl, hrelated⟩
  | error e => exact ⟨_, s', t', rfl, rfl, hrelated⟩

/-- To take a number of bytes or nothing gives the same on both sides. -/
theorem agrees_takeWhole? (n : Nat) : Agrees S (takeWhole? n) (takeWhole? n) := by
  rw [takeWhole?_eq, takeWhole?_eq]
  exact (agrees_takeUpTo htake n).bind fun b => .liftM (whole? n b)

/-- To take a payload gives the same on both sides. -/
theorem agrees_takePayload (n : Nat) : Agrees S (takePayload n) (takePayload n) := by
  rw [takePayload_eq, takePayload_eq]
  exact (agrees_takeUpTo htake n).bind fun b => .liftM (wholePayload n b)

/-- To take the header gives the same on both sides. -/
theorem agrees_takeHeader : Agrees S takeHeader takeHeader := by
  rw [takeHeader_eq, takeHeader_eq]
  refine (agrees_takeWhole? htake headerLength).bind fun b? => ?_
  cases b? with
  | none => exact .throw _
  | some b => exact .liftM _

/-- To take the header of a chunk gives the same on both sides. -/
theorem agrees_takeChunkHeader? : Agrees S takeChunkHeader? takeChunkHeader? :=
  (agrees_takeWhole? htake chunkHeaderLength).bind fun _ => .pure _

/-- To recognize a container gives the same on both sides. -/
theorem agree_recognize : Agree S recognize recognize := by
  intro s t hst
  obtain ⟨r, s', t', hs, ht, hrelated⟩ := htake headerLength s t hst
  unfold recognize
  rw [hs, ht]
  cases r with
  | ok b => exact ⟨_, s', t', rfl, rfl, hrelated⟩
  | error e => exact ⟨_, s', t', rfl, rfl, hrelated⟩

/-- To find the text gives the same on both sides. -/
theorem agrees_locateJson (origin : Origin) :
    Agrees S (locateJson origin) (locateJson origin) := by
  have hcurrent : Agrees S (locateJson .current) (locateJson .current) := by
    rw [locateJson_current, locateJson_current]
    exact (agrees_takeChunkHeader? htake).bind fun h? => .liftM (textLength h?)
  cases origin with
  | start => exact (agrees_takeHeader htake).bind fun _ => hcurrent
  | current => exact hcurrent

end Source

section Stream

variable {σ τ : Type} [Stream σ] [Stream τ] {S : σ → τ → Prop}
  (htake : ∀ n, Agree S (take n) (take n))

/-- To pass over a payload gives the same on both sides if passing over bytes does. -/
theorem agrees_skipPayload {n : Nat} (hskip : Agree S (Stream.skip n) (Stream.skip n)) :
    Agrees S (skipPayload n) (skipPayload n) := by
  intro s t hst
  obtain ⟨r, s', t', hs, ht, hrelated⟩ := hskip s t hst
  unfold skipPayload
  dsimp only [ExceptT.run, StateT.run, ExceptT.mk]
  rw [hs, ht]
  cases r with
  | ok u => exact ⟨_, s', t', rfl, rfl, hrelated⟩
  | error e => exact ⟨_, s', t', rfl, rfl, hrelated⟩

include htake

/-- Bytes are passed over from the start only. -/
theorem agrees_locateBinary (origin : Origin)
    (hskip : origin = .start → ∀ n, Agree S (Stream.skip n) (Stream.skip n)) :
    Agrees S (locateBinary origin) (locateBinary origin) := by
  have hcurrent : Agrees S (locateBinary .current) (locateBinary .current) := by
    rw [locateBinary_current, locateBinary_current]
    exact (agrees_takeChunkHeader? htake).bind fun h? => .liftM (bytesLength? h?)
  cases origin with
  | start =>
    rw [locateBinary_start, locateBinary_start]
    exact (agrees_locateJson htake .start).bind fun n =>
      (agrees_skipPayload (hskip rfl n)).bind fun _ => hcurrent
  | current => exact hcurrent

/-- To take the bytes gives the same on both sides. -/
theorem agrees_takeBinary (policy : LengthPolicy) (d : Document) :
    Agrees S (takeBinary policy d) (takeBinary policy d) := by
  refine (agrees_locateBinary htake .current nofun).bind fun n? => ?_
  cases n? with
  | none => exact .pure _
  | some n =>
    exact (agrees_takePayload htake n).bind fun payload => .liftM (reconcile policy d payload)

/-- To take the chunks gives the same on both sides. -/
theorem agrees_takeChunks (policy : LengthPolicy) :
    Agrees S (takeChunks policy) (takeChunks policy) := by
  refine (agrees_locateJson htake .current).bind fun n => ?_
  refine (agrees_takePayload htake n).bind fun text => ?_
  exact (Agrees.liftM (document text)).bind fun d => agrees_takeBinary htake policy d

/-- A container is opened without passing over bytes. -/
theorem agrees_unpackFrom (policy : LengthPolicy) :
    Agrees S (unpackFrom policy) (unpackFrom policy) := by
  rw [unpackFrom_eq_takeHeader, unpackFrom_eq_takeHeader]
  exact (agrees_takeHeader htake).bind fun _ => agrees_takeChunks htake policy

end Stream

/-! ## Containers at hand -/

/-- A payload at hand is taken if it is there. -/
theorem exists_run_takePayload_slice (s : Slice) (n : Nat) :
    ∃ t : Slice, t.rest = s.rest.drop n ∧ (takePayload n : Walk Slice Bytes).run.run s =
      (if s.rest.length < n then .error .truncated else .ok (s.rest.take n), t) := by
  obtain ⟨t, ht, hdrop⟩ := exists_run_takeUpTo s.gives n
  refine ⟨t, Slice.rest_eq_of_gives hdrop, ?_⟩
  have hfewer : (s.rest.take n).length < n ↔ s.rest.length < n := by
    rw [List.length_take]
    omega
  rw [takePayload, run_bind_of_ok ht]
  simp only [hfewer]
  split <;> rfl

/-- Cuts the bytes that go with a document out of what is at hand after its text. -/
def cutBinary (d : Document) (s : Slice) : Except Error Contents :=
  match (locateBinary .current).run.run s with
  | (.error e, _) => .error e
  | (.ok none, _) => .ok ⟨d, [], none⟩
  | (.ok (some n), t) =>
    if t.rest.length < n then .error .truncated
    else reconcile .truncateToDeclared d (t.rest.take n)

/-- A container at hand is its text and the bytes that go with the document. -/
theorem unpack_eq (c : Bytes) :
    unpack c = match (locateJson .start : Walk Slice Nat).run.run ⟨c, 0⟩ with
      | (.error e, _) => .error e
      | (.ok n, s) =>
        if s.rest.length < n then .error .truncated
        else document (s.rest.take n) >>= fun d => cutBinary d ⟨s.rest.drop n, s.taken + n⟩ := by
  unfold unpack
  dsimp only [bind, Except.bind]
  cases (locateJson .start : Walk Slice Nat).run.run ⟨c, 0⟩ with
  | mk r s =>
  cases r with
  | error e => rfl
  | ok n => rfl

/-- Cutting gives what taking does. -/
theorem run_takeBinary_slice (d : Document) (s : Slice) :
    ((takeBinary .truncateToDeclared d : Walk Slice Contents).run.run s).1 = cutBinary d s := by
  rw [takeBinary, cutBinary]
  cases hbinary : (locateBinary .current : Walk Slice _).run.run s with
  | mk r t =>
  cases r with
  | error e => rw [run_bind_of_error hbinary]
  | ok n? =>
    rw [run_bind_of_ok hbinary]
    cases n? with
    | none => rfl
    | some n =>
      obtain ⟨u, -, hu⟩ := exists_run_takePayload_slice t n
      dsimp only
      by_cases hn : t.rest.length < n
      · rw [if_pos hn] at hu ⊢
        rw [run_bind_of_error hu]
      · rw [if_neg hn] at hu ⊢
        rw [run_bind_of_ok hu]
        rfl

/-- A container at hand is opened as it is from a stream. -/
theorem unpackFrom_slice_eq_unpack (c : Bytes) :
    ((unpackFrom .truncateToDeclared : Walk Slice Contents).run.run ⟨c, 0⟩).1 = unpack c := by
  rw [unpackFrom_eq, unpack_eq]
  cases hjson : (locateJson .start : Walk Slice Nat).run.run ⟨c, 0⟩ with
  | mk r s =>
  cases r with
  | error e => rw [run_bind_of_error hjson]
  | ok n =>
    rw [run_bind_of_ok hjson]
    obtain ⟨t, hrest, ht⟩ := exists_run_takePayload_slice s n
    dsimp only
    by_cases hn : s.rest.length < n
    · rw [if_pos hn] at ht ⊢
      rw [run_bind_of_error ht]
    · rw [if_neg hn] at ht ⊢
      rw [run_bind_of_ok ht]
      cases document (s.rest.take n) with
      | error e => rfl
      | ok d =>
        show ((takeBinary .truncateToDeclared d : Walk Slice Contents).run.run t).1 = cutBinary d _
        -- The same bytes are left after the text, whether they were taken or cut off.
        have hleft : SameLeft t (⟨s.rest.drop n, s.taken + n⟩ : Slice) :=
          ⟨s.rest.drop n, hrest ▸ t.gives, Slice.gives _⟩
        rw [← run_takeBinary_slice]
        exact (agrees_takeBinary agree_take_of_left .truncateToDeclared d).fst_eq hleft

/-- A container is opened from every stream of it as it is if it is at hand. -/
theorem unpackFrom_eq_unpack {σ : Type} [Stream σ] {s : σ} {c : Bytes} (h : Gives s c) :
    ((unpackFrom .truncateToDeclared : Walk σ Contents).run.run s).1 = unpack c := by
  rw [← unpackFrom_slice_eq_unpack]
  have hleft : SameLeft s (⟨c, 0⟩ : Slice) := ⟨c, h, Slice.gives _⟩
  exact (agrees_unpackFrom agree_take_of_left .truncateToDeclared).fst_eq hleft

end GltfAsset.Container
