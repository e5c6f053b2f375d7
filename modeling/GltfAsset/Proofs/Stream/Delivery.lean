import GltfAsset.Stream.Transport

/-!
# Streams of given bytes

`Source.Gives s b` says that a stream gives the bytes `b` and then ends: in pieces of its own
choosing, with reads that are interrupted, but without failing. What is taken from such a stream
depends on the bytes only (`Source.exists_take_eq`), and each of the transports gives the bytes that
it was made for.
-/

namespace GltfAsset

namespace Source

variable {σ : Type}

/-- What a read of at most `n` bytes may give where the bytes `b` are left, so that the stream after
it is related by `R` to the bytes that are left then. -/
inductive Delivers (R : σ → Bytes → Prop) (n : Nat) : Bytes → ReadResult × σ → Prop
  /-- A piece: some of the bytes at the front. -/
  | bytes {p r : Bytes} {t : σ} (hne : p ≠ []) (hlen : p.length ≤ n) (ht : R t r) :
      Delivers R n (p ++ r) (.bytes p, t)
  /-- The end, if nothing is left. -/
  | ended {t : σ} (ht : R t []) : Delivers R n [] (.ended, t)
  /-- Nothing yet. -/
  | interrupted {b : Bytes} {t : σ} (ht : R t b) : Delivers R n b (.interrupted, t)

/-- One read of a list of bytes gives its front, and leaves the rest. -/
theorem Delivers.ofBytes {R : σ → Bytes → Prop} {n : Nat} (hn : n ≠ 0) {b : Bytes} {t : σ}
    (ht : R t (b.drop n)) : Delivers R n b (ReadResult.ofBytes (b.take n), t) := by
  unfold ReadResult.ofBytes
  split
  · rename_i hnil
    obtain rfl := (List.take_eq_nil_iff.mp hnil).resolve_left hn
    rw [List.drop_nil] at ht
    exact .ended ht
  · rename_i hne
    have := Delivers.bytes hne (List.length_take_le n b) ht
    rwa [List.take_append_drop] at this

/-- What may be given under a relation may be given under another one that the stream after the
read is in too. -/
theorem Delivers.imp {R R' : σ → Bytes → Prop} {n : Nat} {b : Bytes} {x : ReadResult × σ}
    (h : Delivers R n b x) (hR : ∀ r, R x.2 r → R' x.2 r) : Delivers R' n b x := by
  cases h with
  | bytes hne hlen ht => exact .bytes hne hlen (hR _ ht)
  | ended ht => exact .ended (hR _ ht)
  | interrupted ht => exact .interrupted (hR _ ht)

variable [Source σ]

/-- A relation between streams and the bytes that are left in them, which every read keeps. -/
def Delivery (R : σ → Bytes → Prop) : Prop :=
  ∀ {s : σ} {b : Bytes} {n : Nat}, R s b → n ≠ 0 → Delivers R n b (read n s)

/-- What a read has given is what may be given. -/
theorem Delivery.delivers {R : σ → Bytes → Prop} (hR : Delivery R) {s : σ} {b : Bytes} {n : Nat}
    {x : ReadResult × σ} (h : R s b) (hn : n ≠ 0) (hread : read n s = x) : Delivers R n b x :=
  hread ▸ hR h hn

/-- A stream gives the bytes `b` and then ends. -/
def Gives (s : σ) (b : Bytes) : Prop := ∃ R : σ → Bytes → Prop, Delivery R ∧ R s b

/-- Gathering takes the front of what is left. -/
theorem Delivery.exists_gather_eq {R : σ → Bytes → Prop} (hR : Delivery R) {s : σ} {b : Bytes}
    (h : R s b) (n : Nat) (acc : Bytes) :
    ∃ t, gather n acc s = (.ok (acc.reverse ++ b.take n), t) ∧ R t (b.drop n) := by
  -- Along the reads that `gather` makes: a piece is the front of what is left, so the bytes shrink
  -- by it, and the relation carries over to the stream after it.
  fun_induction gather n acc s generalizing b with
  | case1 acc s =>
    -- No more is wanted.
    rw [List.take_zero, List.append_nil]
    exact ⟨s, rfl, h⟩
  | case2 n acc s hn p t hread ih =>
    simp only [List.unattach_reverse, List.unattach_attach] at ih
    cases hR.delivers h hn hread with
    | @bytes _ r _ hne hlen ht =>
      obtain ⟨u, hu, hdrop⟩ := ih ht
      refine ⟨u, ?_, ?_⟩
      · rw [hu, List.reverse_append, List.reverse_reverse, List.append_assoc, List.take_append,
          List.take_of_length_le hlen]
      · rw [List.drop_append, List.drop_eq_nil_of_le hlen]
        exact hdrop
  | case3 n acc s hn t hread =>
    -- The end, which only comes where nothing is left.
    cases hR.delivers h hn hread with
    | ended ht =>
      rw [List.take_nil, List.drop_nil, List.append_nil]
      exact ⟨t, rfl, ht⟩
  | case4 n acc s hn t hread ih =>
    cases hR.delivers h hn hread with
    | interrupted ht => exact ih ht
  | case5 n acc s hn e t hread =>
    -- No delivery is a failure.
    cases hR.delivers h hn hread

/-- Gathering all takes what is left, and nothing is left after it. -/
theorem Delivery.exists_gatherAll_eq {R : σ → Bytes → Prop} (hR : Delivery R) {s : σ} {b : Bytes}
    (h : R s b) (acc : Bytes) : ∃ t, gatherAll acc s = (.ok (acc.reverse ++ b), t) ∧ R t [] := by
  -- Along the reads that `gatherAll` makes, which stop at the end only.
  fun_induction gatherAll acc s generalizing b with
  | case1 acc s p t hread ih =>
    simp only [List.unattach_reverse, List.unattach_attach] at ih
    cases hR.delivers h (by decide) hread with
    | bytes _ _ ht =>
      obtain ⟨u, hu, hend⟩ := ih ht
      refine ⟨u, ?_, hend⟩
      rw [hu, List.reverse_append, List.reverse_reverse, List.append_assoc]
  | case2 acc s t hread =>
    cases hR.delivers h (by decide) hread with
    | ended ht =>
      rw [List.append_nil]
      exact ⟨t, rfl, ht⟩
  | case3 acc s t hread ih =>
    cases hR.delivers h (by decide) hread with
    | interrupted ht => exact ih ht
  | case4 acc s e t hread =>
    cases hR.delivers h (by decide) hread

/-- What is taken is the front of the bytes, all of them if there are no more, and the stream goes
on with the rest. -/
theorem exists_take_eq {s : σ} {b : Bytes} (h : Gives s b) (n : Nat) :
    ∃ t, take n s = (.ok (b.take n), t) ∧ Gives t (b.drop n) := by
  obtain ⟨R, hR, hs⟩ := h
  obtain ⟨t, ht, hdrop⟩ := hR.exists_gather_eq hs n []
  exact ⟨t, ht, R, hR, hdrop⟩

/-- All that is left is taken. -/
theorem exists_takeAll_eq {s : σ} {b : Bytes} (h : Gives s b) :
    ∃ t, takeAll s = (.ok b, t) ∧ Gives t [] := by
  obtain ⟨R, hR, hs⟩ := h
  obtain ⟨t, ht, hend⟩ := hR.exists_gatherAll_eq hs []
  exact ⟨t, ht, R, hR, hend⟩

/-- A stream gives the same bytes each time. -/
theorem Gives.unique {s : σ} {b b' : Bytes} (h : Gives s b) (h' : Gives s b') : b = b' := by
  -- Both are what one take gives that is long enough for either.
  obtain ⟨t, ht, -⟩ := exists_take_eq h (max b.length b'.length)
  obtain ⟨t', ht', -⟩ := exists_take_eq h' (max b.length b'.length)
  rw [List.take_of_length_le (Nat.le_max_left ..)] at ht
  rw [List.take_of_length_le (Nat.le_max_right ..)] at ht'
  exact Except.ok.inj (Prod.mk.inj (ht.symm.trans ht')).1

end Source

/-! ## The transports -/

open Source

/-- Bytes that are all at hand. -/
theorem Slice.delivery : Delivery fun (s : Slice) b => s.rest = b := by
  rintro s b n rfl hn
  exact .ofBytes hn rfl

/-- A slice gives the rest of its bytes. -/
theorem Slice.gives (s : Slice) : Gives s s.rest := ⟨_, delivery, rfl⟩

/-- What is left of bytes that are at hand is what they give. -/
theorem Slice.rest_eq_of_gives {s : Slice} {b : Bytes} (h : Gives s b) : s.rest = b :=
  s.gives.unique h

/-- A place moves by what was read, which is less than `n` where the list ends. -/
theorem drop_add_length_take {α : Type} (xs : List α) (p n : Nat) :
    xs.drop (p + ((xs.drop p).take n).length) = (xs.drop p).drop n := by
  rw [← List.drop_drop, List.length_take]
  rcases Nat.le_total n (xs.drop p).length with hle | hle
  · rw [Nat.min_eq_left hle]
  · rw [Nat.min_eq_right hle, List.drop_length, List.drop_eq_nil_of_le hle]

/-- The part of a file from a place on. -/
theorem Cursor.delivery : Delivery fun (s : Cursor) b => s.content.drop s.position = b := by
  rintro s b n rfl hn
  exact .ofBytes hn (drop_add_length_take s.content s.position n)

/-- A cursor gives the bytes after its position. -/
theorem Cursor.gives (s : Cursor) : Gives s (s.content.drop s.position) := ⟨_, delivery, rfl⟩

/-- A buffer is filled with at least as many bytes as are taken from it. -/
theorem drop_take_append_drop {α : Type} (xs : List α) {n m : Nat} (h : n ≤ m) :
    (xs.take m).drop n ++ xs.drop (xs.take m).length = xs.drop n := by
  rw [List.drop_take, List.length_take]
  rcases Nat.le_total m xs.length with hle | hle
  · rw [Nat.min_eq_left hle]
    -- The front that is taken ends inside the list.
    have : xs.drop m = (xs.drop n).drop (m - n) := by
      rw [List.drop_drop, Nat.add_sub_cancel' h]
    rw [this, List.take_append_drop]
  · rw [Nat.min_eq_right hle, List.drop_length, List.append_nil]
    refine List.take_of_length_le ?_
    rw [List.length_drop]
    omega

/-- The bytes in the buffer, and then the part of the file after them. -/
theorem Buffered.delivery :
    Delivery fun (s : Buffered) b => s.buffer ++ s.content.drop s.ahead = b := by
  rintro s b n rfl hn
  show Delivers _ n _ (Buffered.read n s)
  unfold Buffered.read
  split
  · -- The buffer is filled again from the file, with what is wanted and more.
    rename_i hempty
    have hmax : min n (max n (s.capacityPred + 1)) = n := by omega
    rw [hempty, List.nil_append]
    simp only [List.take_take, hmax]
    refine .ofBytes hn ?_
    show _ ++ s.content.drop (s.ahead + _) = _
    rw [← List.drop_drop]
    exact drop_take_append_drop _ (Nat.le_max_left n _)
  · -- The buffer has something, and the read is served from it alone.
    rename_i hne
    have hfront : s.buffer.take n ≠ [] := by
      rw [Ne, List.take_eq_nil_iff, not_or]
      exact ⟨hn, hne⟩
    have := Delivers.bytes (R := fun (s : Buffered) b => s.buffer ++ s.content.drop s.ahead = b)
      (t := { s with buffer := s.buffer.drop n }) hfront (List.length_take_le n _) rfl
    rwa [← List.append_assoc, List.take_append_drop] at this

/-- A buffered file gives its buffer and then what the file has after it. -/
theorem Buffered.gives (s : Buffered) : Gives s (s.buffer ++ s.content.drop s.ahead) :=
  ⟨_, delivery, rfl⟩

/-- The bytes that are left in sequence, if the transport does not fail. -/
theorem Sequential.delivery :
    Delivery fun (s : Sequential) b => s.rest = b ∧ s.failure = none := by
  rintro s b n ⟨rfl, hf⟩ hn
  show Delivers _ n _ (Sequential.read n s)
  unfold Sequential.read
  split
  · exact .interrupted ⟨rfl, hf⟩
  · -- Without a failure to come, all of the rest is available.
    have havailable : s.available = s.rest := by
      unfold available
      rw [hf]
    rw [havailable, hf]
    -- The transport gives at most as much as is wanted, and at least one byte.
    generalize hm : min n (s.pace s.turn + 1) = m
    have hm0 : m ≠ 0 := by omega
    cases htake : s.rest.take m with
    | nil =>
      have hrest := (List.take_eq_nil_iff.mp htake).resolve_left hm0
      rw [hrest]
      exact .ended ⟨rfl, rfl⟩
    | cons p ps =>
      have hlen : ps.length + 1 ≤ m := by
        rw [← List.length_cons (a := p), ← htake]
        exact List.length_take_le m _
      have hfront : p :: ps ++ s.rest.drop (ps.length + 1) = s.rest := by
        have htake' : s.rest.take (ps.length + 1) = p :: ps := by
          rw [← List.length_cons (a := p), ← htake, List.length_take, ← List.take_eq_take_min]
        rw [← htake', List.take_append_drop]
      conv => arg 3; rw [← hfront]
      refine .bytes (List.cons_ne_nil p ps) ?_ ⟨rfl, rfl⟩
      rw [List.length_cons]
      omega

/-- A stream that does not fail gives the rest of its bytes. -/
theorem Sequential.gives {s : Sequential} (h : s.failure = none) : Gives s s.rest :=
  ⟨_, delivery, rfl, h⟩

end GltfAsset
