import GltfAsset.Proofs.Stream.Agreement

/-!
# Streams that fail, and streams that are watched

A transport that fails after a number of bytes gives these bytes and then the failure, in place of
those that would have come or of the end (`Sequential.FailsAt`). Whether a stream that does not fail
was read up to its end cannot be seen from its place, so `Watched` keeps account of it.
-/

namespace GltfAsset

open Source

/-- Gathering goes on as the first read tells. -/
theorem Source.gather_eq {σ : Type} [Source σ] {n : Nat} (hn : n ≠ 0) (acc : Bytes) (s : σ) :
    gather n acc s = match read n s with
      | (.bytes b, t) => gather (n - b.length) (b.reverse ++ acc) t
      | (.ended, t) => (.ok acc.reverse, t)
      | (.interrupted, t) => gather n acc t
      | (.failed e, t) => (.error e, t) := by
  rw [gather, dif_neg hn]
  split
  all_goals
    rename_i hread
    rw [hread]

/-! ## Streams that are watched -/

/-- A stream, and whether a read of it met the end. -/
structure Watched (σ : Type) where
  /-- The stream. -/
  stream : σ
  /-- Whether the end was met. -/
  met : Bool := false

namespace Watched

variable {σ : Type}

/-- What is known of the end after a read. -/
def sees (met : Bool) : ReadResult → Bool
  | .ended => true
  | _ => met

/-- Reads the stream. -/
def read [Source σ] (n : Nat) (w : Watched σ) : ReadResult × Watched σ :=
  let (r, s) := Source.read n w.stream
  (r, ⟨s, sees w.met r⟩)

instance [Source σ] : Source (Watched σ) where
  read := read
  position w := position w.stream
  patience w := patience w.stream
  patience_lt_of_bytes hn h := by
    obtain ⟨hread, rfl⟩ := Prod.mk.inj h
    exact patience_lt_of_bytes hn (Prod.ext hread rfl)
  patience_lt_of_interrupted hn h := by
    obtain ⟨hread, rfl⟩ := Prod.mk.inj h
    exact patience_lt_of_interrupted hn (Prod.ext hread rfl)

/-- What is passed over is read, so that the end is seen. -/
instance [Source σ] : Stream (Watched σ) where
  skip := discard

section Source

variable [Source σ] {w : Watched σ} {b : Bytes}

/-- A watched stream gives the same bytes. -/
theorem delivery {R : σ → Bytes → Prop} (hR : Delivery R) :
    Delivery fun (w : Watched σ) b => R w.stream b := by
  intro w b n hw hn
  have hstep := hR hw hn
  show Delivers _ n b (Watched.read n w)
  unfold Watched.read
  generalize Source.read n w.stream = result at hstep
  cases hstep with
  | bytes hne hlen ht => exact .bytes hne hlen ht
  | ended ht => exact .ended ht
  | interrupted ht => exact .interrupted ht

/-- A watched stream keeps track of the content as the stream does. -/
theorem tracks {c : Bytes} {I : σ → Prop} (h : Source.Tracks c I) :
    Source.Tracks c fun w : Watched σ => I w.stream where
  gives hw := by
    obtain ⟨R, hR, hgives⟩ := h.gives hw
    exact ⟨_, delivery hR, hgives⟩
  position_le hw := h.position_le hw
  read hw := h.read hw

/-- A read tells of the end. -/
theorem met_of_read {n : Nat} {r : ReadResult} {t : Watched σ} (h : Source.read n w = (r, t)) :
    t.met = sees w.met r := by
  obtain ⟨rfl, rfl⟩ := Prod.mk.inj h
  rfl

/-- A watched stream is read as the stream is. -/
theorem read_stream {n : Nat} {r : ReadResult} {t : Watched σ} (h : Source.read n w = (r, t)) :
    Source.read n w.stream = (r, t.stream) := by
  obtain ⟨rfl, rfl⟩ := Prod.mk.inj h
  rfl

/-- Gathering meets the end if fewer bytes are left than are wanted. -/
theorem met_gather {R : Watched σ → Bytes → Prop} (hR : Delivery R) (h : R w b) (n : Nat)
    (acc : Bytes) : (gather n acc w).2.met = (w.met || decide (b.length < n)) := by
  -- Along the reads that `gather` makes. Only the read that ends it sees the end, and it is made
  -- only if all that was left has been taken and more is wanted.
  fun_induction gather n acc w generalizing b with
  | case1 acc w =>
    simp
  | case2 n acc w hn p t hread ih =>
    simp only [List.unattach_reverse, List.unattach_attach] at ih
    cases hR.delivers h hn hread with
    | @bytes _ r _ hne hlen ht =>
      have hfewer : r.length < n - p.length ↔ (p ++ r).length < n := by
        rw [List.length_append]
        omega
      rw [ih ht, met_of_read hread]
      simp only [sees, hfewer]
  | case3 n acc w hn t hread =>
    cases hR.delivers h hn hread with
    | ended ht =>
      have hwanted : ([] : Bytes).length < n := Nat.pos_of_ne_zero hn
      rw [met_of_read hread]
      simp only [sees, hwanted, decide_true, Bool.or_true]
  | case4 n acc w hn t hread ih =>
    cases hR.delivers h hn hread with
    | interrupted ht =>
      rw [ih ht, met_of_read hread]
      rfl
  | case5 n acc w hn e t hread =>
    cases hR.delivers h hn hread

/-- Gathering from a watched stream gathers from the stream. -/
theorem gather_stream (n : Nat) (acc : Bytes) (w : Watched σ) :
    gather n acc w.stream = ((gather n acc w).1, (gather n acc w).2.stream) := by
  fun_induction gather n acc w with
  | case1 acc w => rw [gather, dif_pos rfl]
  | case2 n acc w hn p t hread ih =>
    simp only [List.unattach_reverse, List.unattach_attach] at ih
    rw [gather_eq hn, read_stream hread]
    exact ih
  | case3 n acc w hn t hread => rw [gather_eq hn, read_stream hread]
  | case4 n acc w hn t hread ih =>
    rw [gather_eq hn, read_stream hread]
    exact ih
  | case5 n acc w hn e t hread => rw [gather_eq hn, read_stream hread]

/-- A watched stream is taken from as the stream is. -/
theorem agree_take (n : Nat) :
    Agree (fun (w : Watched σ) (s : σ) => w.stream = s) (take n) (take n) := by
  rintro w s rfl
  exact ⟨_, _, _, rfl, gather_stream n [] w, rfl⟩

end Source

end Watched

/-! ## Streams that fail -/

namespace Source

variable {σ : Type}

/-- What a read of at most `n` bytes may give where the bytes `b` come before a failure, so that the
stream after it is related by `R` to the bytes that come before it then. -/
inductive Fails (R : σ → Bytes → Prop) (e : Failure) (n : Nat) : Bytes → ReadResult × σ → Prop
  /-- A piece: some of the bytes at the front. -/
  | bytes {p r : Bytes} {t : σ} (hne : p ≠ []) (hlen : p.length ≤ n) (ht : R t r) :
      Fails R e n (p ++ r) (.bytes p, t)
  /-- Nothing yet. -/
  | interrupted {b : Bytes} {t : σ} (ht : R t b) : Fails R e n b (.interrupted, t)
  /-- The failure, after all of the bytes. -/
  | failed {t : σ} (ht : R t []) : Fails R e n [] (.failed e, t)

/-- Gathering gives what is wanted if it comes before the failure, and fails if it does not. -/
theorem exists_gather_eq_of_fails [Source σ] {R : σ → Bytes → Prop} {e : Failure}
    (hR : ∀ {s : σ} {b : Bytes} {n : Nat}, R s b → n ≠ 0 → Fails R e n b (read n s)) {s : σ}
    {b : Bytes} (h : R s b) (n : Nat) (acc : Bytes) :
    ∃ t, gather n acc s =
        (if n ≤ b.length then .ok (acc.reverse ++ b.take n) else .error e, t) ∧
      R t (b.drop n) := by
  have hstep : ∀ {s : σ} {b : Bytes} {n : Nat} {x : ReadResult × σ}, R s b → n ≠ 0 →
      read n s = x → Fails R e n b x := fun h hn hread => hread ▸ hR h hn
  -- Along the reads that `gather` makes, as for a stream that does not fail. The end does not come.
  fun_induction gather n acc s generalizing b with
  | case1 acc s =>
    rw [if_pos (Nat.zero_le _), List.take_zero, List.append_nil]
    exact ⟨s, rfl, h⟩
  | case2 n acc s hn p t hread ih =>
    simp only [List.unattach_reverse, List.unattach_attach] at ih
    cases hstep h hn hread with
    | @bytes _ r _ hne hlen ht =>
      obtain ⟨u, hu, hdrop⟩ := ih ht
      have henough : n - p.length ≤ r.length ↔ n ≤ (p ++ r).length := by
        rw [List.length_append]
        omega
      refine ⟨u, ?_, ?_⟩
      · rw [hu, List.reverse_append, List.reverse_reverse, List.append_assoc, List.take_append,
          List.take_of_length_le hlen]
        simp only [henough]
      · rw [List.drop_append, List.drop_eq_nil_of_le hlen]
        exact hdrop
  | case3 n acc s hn t hread =>
    cases hstep h hn hread
  | case4 n acc s hn t hread ih =>
    cases hstep h hn hread with
    | interrupted ht => exact ih ht
  | case5 n acc s hn e' t hread =>
    cases hstep h hn hread with
    | failed ht =>
      have hwanted : ¬ n ≤ ([] : Bytes).length := hn ∘ Nat.le_zero.mp
      rw [if_neg hwanted, List.drop_nil]
      exact ⟨t, rfl, ht⟩

/-- In the states of `I`, the stream stands at one of the first `f` places of `c`, gives what comes
between it and the place `f`, and fails there. -/
structure Breaks [Source σ] (c : Bytes) (f : Nat) (e : Failure) (I : σ → Prop) : Prop where
  /-- The bytes before the failure are given, and then the failure. -/
  fails : ∀ {s : σ} {n : Nat}, I s → n ≠ 0 →
    Fails (fun t r => I t ∧ (c.take f).drop (position t) = r) e n ((c.take f).drop (position s))
      (read n s)
  /-- The place is before the failure. -/
  position_le : ∀ {s : σ}, I s → position s ≤ f

/-- Taking gives what is wanted if it comes before the failure, and fails if it does not. -/
theorem Breaks.exists_take_eq [Source σ] {c : Bytes} {f : Nat} {e : Failure} {I : σ → Prop} {s : σ}
    (h : Breaks c f e I) (hf : f ≤ c.length) (hs : I s) (n : Nat) :
    ∃ t, take n s =
        (if n ≤ f - position s then .ok ((c.drop (position s)).take n) else .error e, t) ∧
      I t ∧ position t = min (position s + n) f := by
  have hR : ∀ {s : σ} {b : Bytes} {n : Nat}, I s ∧ (c.take f).drop (position s) = b → n ≠ 0 →
      Fails (fun t r => I t ∧ (c.take f).drop (position t) = r) e n b (read n s) := by
    rintro s _ n ⟨hs, rfl⟩ hn
    exact h.fails hs hn
  obtain ⟨t, ht, hkept, hdrop⟩ := exists_gather_eq_of_fails hR ⟨hs, rfl⟩ n []
  have hlength : ∀ p, ((c.take f).drop p).length = f - p := by
    intro p
    rw [List.length_drop, List.length_take, Nat.min_eq_left hf]
  refine ⟨t, ?_, hkept, ?_⟩
  · rw [hlength, List.reverse_nil, List.nil_append] at ht
    rw [take, ht]
    split
    · rename_i hn
      rw [List.drop_take, List.take_take, Nat.min_eq_left hn]
    · rfl
  · have hleft := congrArg List.length hdrop
    rw [hlength, List.length_drop, hlength] at hleft
    have hle := h.position_le hs
    have hle' := h.position_le hkept
    omega

/-- A stream stands at the start of a content, and fails after `f` bytes of it. -/
def BreaksAt [Source σ] (c : Bytes) (f : Nat) (e : Failure) (s : σ) : Prop :=
  ∃ I, Breaks c f e I ∧ I s ∧ position s = 0

end Source

namespace Sequential

/-- The transport has given the content up to its place, and fails after `f` bytes of it. -/
structure FailsAt (c : Bytes) (f : Nat) (e : Failure) (s : Sequential) : Prop where
  /-- The place is before the failure. -/
  taken_le : s.taken ≤ f
  /-- The rest of the content is left. -/
  rest : s.rest = c.drop s.taken
  /-- The failure comes after the bytes that are missing up to it. -/
  failure : s.failure = some (f - s.taken, e)

variable {c : Bytes} {f : Nat} {e : Failure} {s : Sequential}

/-- What is at hand is what comes before the failure and was not taken. -/
theorem FailsAt.available (h : FailsAt c f e s) : s.available = (c.take f).drop s.taken := by
  rw [Sequential.available, h.failure, h.rest, List.drop_take]

/-- The front of a list that a longer front starts with. -/
theorem take_length_of_take_eq {α : Type} {xs p : List α} {m : Nat} (h : xs.take m = p) :
    p ++ xs.drop p.length = xs := by
  have hp : xs.take p.length = p := by
    rw [← h, List.length_take, ← List.take_eq_take_min]
  conv => rhs; rw [← List.take_append_drop p.length xs, hp]

/-- What is available is given, and then the failure. -/
theorem breaks (hf : f ≤ c.length) : Source.Breaks c f e (FailsAt c f e) where
  position_le hs := hs.taken_le
  fails := by
    intro s n hs hn
    have hlength : s.available.length = f - s.taken := by
      rw [hs.available, List.length_drop, List.length_take, Nat.min_eq_left hf]
    show Fails _ e n ((c.take f).drop s.taken) (Sequential.read n s)
    rw [← hs.available]
    unfold Sequential.read
    split
    · exact .interrupted ⟨⟨hs.taken_le, hs.rest, hs.failure⟩, hs.available.symm⟩
    -- The transport gives at most as much as is wanted, and at least one byte.
    generalize hm : min n (s.pace s.turn + 1) = m
    have hm0 : m ≠ 0 := by omega
    split
    · rename_i e' hnil hfailure
      have havailable := (List.take_eq_nil_iff.mp hnil).resolve_left hm0
      obtain rfl : e' = e := by
        rw [hs.failure] at hfailure
        exact (Prod.mk.inj (Option.some.inj hfailure)).2.symm
      rw [havailable]
      exact .failed ⟨⟨hs.taken_le, hs.rest, hs.failure⟩, hs.available.symm.trans havailable⟩
    · -- Nothing is available where the failure is, and nowhere before it.
      rename_i hnil hother
      have havailable := (List.take_eq_nil_iff.mp hnil).resolve_left hm0
      have hend : f - s.taken = 0 := by rw [← hlength, havailable, List.length_nil]
      exact absurd (hend ▸ hs.failure) (hother e)
    · rename_i p ps hpiece
      have hfront := take_length_of_take_eq hpiece
      have hlen := congrArg List.length hpiece
      rw [List.length_take, hlength, List.length_cons] at hlen
      have hle := hs.taken_le
      have hkept : FailsAt c f e
          { s with
            turn := s.turn + 1, resumed := false, rest := s.rest.drop (ps.length + 1)
            taken := s.taken + (ps.length + 1)
            failure := s.failure.map fun p => (p.1 - (ps.length + 1), p.2) } := by
        refine ⟨?_, ?_, ?_⟩
        · show s.taken + (ps.length + 1) ≤ f
          omega
        · show s.rest.drop (ps.length + 1) = c.drop (s.taken + (ps.length + 1))
          rw [hs.rest, List.drop_drop]
        · rw [hs.failure, Nat.sub_add_eq]
          rfl
      rw [← hfront]
      refine .bytes (List.cons_ne_nil p ps) ?_ ⟨hkept, ?_⟩
      · rw [List.length_cons]
        omega
      · rw [hs.available, List.drop_drop]
        rfl

/-- Bytes in sequence, in pieces of any sizes and with any interruptions, up to a failure. -/
theorem breaksAt (hf : f ≤ c.length) (pace : Nat → Nat) (interrupts : Nat → Bool) :
    BreaksAt c f e ({ rest := c, failure := some (f, e), pace, interrupts } : Sequential) :=
  ⟨_, breaks hf, ⟨Nat.zero_le _, rfl, rfl⟩, rfl⟩

/-- Bytes in sequence without a failure. -/
theorem begins (c : Bytes) (pace : Nat → Nat) (interrupts : Nat → Bool) :
    Stream.Begins c ({ rest := c, pace, interrupts } : Sequential) :=
  ⟨_, tracks, ⟨Nat.zero_le _, rfl, rfl⟩, rfl⟩

end Sequential

/-- Streams that pass over bytes by taking them. -/
def InSequence (σ : Type) [Stream σ] : Prop :=
  ∀ (n : Nat) (s : σ), Stream.skip n s = Source.discard n s

/-- A stream that cannot seek passes over bytes by taking them. -/
theorem Sequential.inSequence : InSequence Sequential := fun _ _ => rfl

/-- A watched stream passes over bytes by taking them. -/
theorem Watched.inSequence (σ : Type) [Source σ] : InSequence (Watched σ) := fun _ _ => rfl

/-- Streams that agree on what they give agree on passing over it. -/
theorem InSequence.agree {σ τ : Type} [Stream σ] [Stream τ] (hσ : InSequence σ) (hτ : InSequence τ)
    {S : σ → τ → Prop} {n : Nat} (h : Agree S (take n) (take n)) :
    Agree S (Stream.skip n) (Stream.skip n) := by
  intro s t hst
  obtain ⟨r, s', t', hs, ht, hrelated⟩ := h s t hst
  rw [hσ, hτ, Source.discard, Source.discard, hs, ht]
  cases r with
  | ok b => exact ⟨_, s', t', rfl, rfl, hrelated⟩
  | error e => exact ⟨_, s', t', rfl, rfl, hrelated⟩

/-! ## Beside a stream that does not fail -/

section Beside

variable {σ τ : Type} [Stream σ] [Source τ] {c : Bytes} {f : Nat} {e : Failure} {I : τ → Prop}
  {J : σ → Prop}

/-- A watched stream and one that fails stand at one place before the failure, and the end was not
met. -/
structure Beside (I : τ → Prop) (J : σ → Prop) (w : Watched τ) (s : σ) : Prop where
  /-- The state of the stream that is watched. -/
  sound : I w.stream
  /-- The state of the stream that fails. -/
  fails : J s
  /-- The place is the same. -/
  place : position w = position s
  /-- The end was not met. -/
  met : w.met = false

/-- A watched stream has met the end, or passed the place of a failure. -/
structure Past (I : τ → Prop) (f : Nat) (w : Watched τ) : Prop where
  /-- The state of the stream. -/
  sound : I w.stream
  /-- The end was met, or more than `f` bytes are taken. -/
  past : w.met = true ∨ f < position w

/-- What is given beside each other: the same, of which `P` holds, or the failure where more was
wanted than comes before it. -/
inductive GivenBeside {ρ : Type} (I : τ → Prop) (J : σ → Prop) (f : Nat) (P : ρ → Prop)
    (failed : ρ) : ρ × Watched τ → ρ × σ → Prop
  /-- The same. -/
  | same {r : ρ} {w : Watched τ} {s : σ} (hr : P r) (h : Beside I J w s) :
    GivenBeside I J f P failed (r, w) (r, s)
  /-- The failure. -/
  | failed {r : ρ} {w : Watched τ} {s : σ} (hw : Past I f w) (hs : position s = f) :
    GivenBeside I J f P failed (r, w) (failed, s)

/-- A watched stream takes what is there, and has met the end after it if less is there than was
wanted. -/
theorem Watched.exists_take_eq (hI : Source.Tracks c I) {w : Watched τ} (h : I w.stream) (n : Nat) :
    ∃ t : Watched τ, take n w = (.ok ((c.drop (position w)).take n), t) ∧ I t.stream ∧
      position t = min (position w + n) c.length ∧
      t.met = (w.met || decide (c.length - position w < n)) := by
  have htracks := Watched.tracks hI
  obtain ⟨t, ht, hkept, hposition⟩ := htracks.exists_take_eq h n
  refine ⟨t, ht, hkept, hposition, ?_⟩
  have hmet := met_gather htracks.delivery ⟨rfl, h⟩ n []
  rw [← take, ht, List.length_drop] at hmet
  exact hmet

/-- Taking is the same before the failure. Where it is not, more is wanted than comes before it, so
the other stream has met the end or passed the place. -/
theorem Beside.ends_take (hI : Source.Tracks c I) (hJ : Source.Breaks c f e J) (hf : f ≤ c.length)
    {w : Watched τ} {s : σ} (h : Beside I J w s) (n : Nat) :
    GivenBeside I J f (fun r => ∃ b, r = .ok b ∧ b.length = n) (.error e) (take n w)
      (take n s) := by
  obtain ⟨w', hw, hsound, hplace, hmet⟩ := Watched.exists_take_eq hI h.sound n
  obtain ⟨s', hs, hfails, hplace'⟩ := hJ.exists_take_eq hf h.fails n
  have hle := hJ.position_le h.fails
  rw [h.place, h.met, Bool.false_or] at hmet
  rw [h.place] at hw hplace
  rw [hw, hs]
  by_cases hn : n ≤ f - position s
  · have hmet' : w'.met = false := by
      rw [hmet, decide_eq_false]
      omega
    have hsame : position w' = position s' := by omega
    rw [if_pos hn]
    refine .same ⟨_, rfl, ?_⟩ ⟨hsound, hfails, hsame, hmet'⟩
    rw [List.length_take, List.length_drop]
    omega
  · have hpast : w'.met = true ∨ f < position w' := by
      rw [hmet, decide_eq_true_eq]
      omega
    have hend : position s' = f := by omega
    rw [if_neg hn]
    exact .failed ⟨hsound, hpast⟩ hend

/-- So is passing over bytes by taking them. -/
theorem Beside.ends_skip (hI : Source.Tracks c I) (hJ : Source.Breaks c f e J) (hf : f ≤ c.length)
    (hσ : InSequence σ) {w : Watched τ} {s : σ} (h : Beside I J w s) (n : Nat) :
    GivenBeside I J f (fun r => r = .ok ()) (.error e) (Stream.skip n w) (Stream.skip n s) := by
  have htake := h.ends_take hI hJ hf n
  rw [hσ, Watched.inSequence, Source.discard, Source.discard]
  generalize take n w = x, take n s = y at htake
  cases htake with
  | same hr h =>
    obtain ⟨b, rfl, hb⟩ := hr
    refine .same ?_ h
    rw [if_neg (by omega)]
  | @failed r w' s' hw hs =>
    cases r with
    | ok b => exact .failed hw hs
    | error e' => exact .failed hw hs

/-- A stream that is past the failure stays so when bytes are taken. -/
theorem agree_take_past (hI : Source.Tracks c I) (n : Nat) :
    Agree (fun w w' => w = w' ∧ Past I f w) (take n) (take n) := by
  rintro w _ ⟨rfl, h⟩
  obtain ⟨t, ht, hkept, hposition, hmet⟩ := Watched.exists_take_eq hI h.sound n
  have hle : position w ≤ c.length := hI.position_le h.sound
  refine ⟨_, t, t, ht, ht, rfl, hkept, ?_⟩
  rcases h.past with hend | hpast
  · left
    rw [hmet, hend, Bool.true_or]
  · right
    omega

end Beside

end GltfAsset
