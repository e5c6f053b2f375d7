import GltfAsset.Proofs.Extension.Readers

/-!
# Readers with more levels

A reader of values with parts is given the number of arrays and objects that may still be entered.
That number decides only whether the reader gives up for want of levels: if it does not, a reader
with one level more makes the same of the text (`Codec.Deepens`). So the least number of levels with
which a text is read is the nesting of that part of it that is read, and what is passed over does
not count.
-/

namespace GltfAsset.Json

variable {α β σ R : Type}

/-- The second result is the first one, unless this is for want of levels. -/
def Outlasts (deeper res : Except Error α) : Prop := res = .error .tooDeep ∨ deeper = res

/-- A result outlasts itself. -/
theorem Outlasts.refl (res : Except Error α) : Outlasts res res := .inr rfl

/-- What is done with the results is the same. -/
theorem Outlasts.bind {deeper res : Except Error α} {f g : α → Except Error β}
    (h : Outlasts deeper res) (hfg : ∀ x, res = .ok x → Outlasts (f x) (g x)) :
    Outlasts (deeper >>= f) (res >>= g) := by
  rcases h with rfl | rfl
  · exact .inl rfl
  · cases deeper with
    | error e => exact .refl _
    | ok x => exact hfg x rfl

/-- A change of the results changes nothing. -/
theorem Outlasts.map {deeper res : Except Error α} (h : Outlasts deeper res) (f : α → β) :
    Outlasts (deeper.map f) (res.map f) := by
  rcases h with rfl | rfl
  · exact .inl rfl
  · exact .refl _

namespace Reader

/-- The second reader reads what the first one does, unless the first gives up for want of
levels. -/
def Deepens (deeper rd : Reader α) : Prop := ∀ bs, Outlasts (deeper.run bs) (rd.run bs)

/-- A reader that needs no levels reads the same with more of them. -/
theorem Deepens.refl (rd : Reader α) : rd.Deepens rd := fun _ => .refl _

section

variable {deeper rd : Reader α}

/-- A reader with more levels refuses no more when what is read is changed. -/
theorem Deepens.map (h : deeper.Deepens rd) (f : α → β) : (deeper.map f).Deepens (rd.map f) :=
  fun bs => (h bs).map _

/-- A value that may be absent is read as deep as it is. -/
theorem Deepens.optional (h : deeper.Deepens rd) : deeper.optional.Deepens rd.optional := by
  intro bs
  simp only [Reader.optional, runOptional]
  split
  · exact (h bs).map _
  · split
    · exact .refl _
    · exact (h bs).map _

/-- A whole text is read as deep as the value in it. -/
theorem Deepens.all (h : deeper.Deepens rd) (bs : Bytes) : Outlasts (deeper.all bs) (rd.all bs) :=
  (h bs).bind fun _ _ => .refl _

/-! ### Arrays and objects -/

/-- The elements of an array are read as deep as each of them. -/
theorem Deepens.elements (h : deeper.Deepens rd) (limit : Option Nat) (acc : List α) (bs : Bytes) :
    Outlasts (elements deeper limit acc bs) (elements rd limit acc bs) := by
  fun_induction Reader.elements rd limit acc bs with
  | case1 acc bs => exact .inr elements_of_limit
  | case2 limit acc bs hlimit e hnext =>
    refine .inr ?_
    rw [Reader.elements, if_neg hlimit]
    split <;> simp_all
  | case3 limit acc bs hlimit r hnext => exact .inr (elements_of_end hlimit hnext)
  | case4 limit acc bs hlimit r hnext e hrun =>
    rw [elements_of_next hlimit hnext]
    -- The element is where the levels may be too few.
    rcases h r with herror | heq
    · rw [hrun] at herror
      exact .inl (by rw [Except.error.inj herror])
    · exact .inr (by rw [heq, hrun]; rfl)
  | case5 limit acc bs hlimit r hnext x s hrun ih =>
    rw [elements_of_next hlimit hnext]
    rcases h r with herror | heq
    · rw [hrun] at herror
      contradiction
    · rw [heq, hrun]
      exact ih

/-- An array is read as deep as its elements. -/
theorem Deepens.items (h : deeper.Deepens rd) (limit : Option Nat)
    (make : List α → Except Error β) (bs : Bytes) :
    Outlasts (items deeper limit make bs) (items rd limit make bs) :=
  (h.elements limit [] bs).bind fun _ _ => .refl _

/-- What is made with one level more is deeper if there is a level at all. -/
theorem deepens_sequence_below {f : Nat → Reader α} (h : ∀ n, (f (n + 1)).Deepens (f n))
    {expected : Expected} {limit : Option Nat} {make : List α → Except Error β} (n : Nat) :
    (sequence expected (below f (n + 1)) limit make).Deepens
      (sequence expected (below f n) limit make) := by
  intro bs
  simp only [sequence]
  split
  · exact .refl _
  · cases n with
    | zero => exact .inl rfl
    | succ n => exact (h n).items ..
  · exact .refl _

end

end Reader

/-- With more levels the same is done at each member, unless the levels are too few. -/
def Member.Deepens (deeper m : Member σ) : Prop :=
  ∀ s k bs, Outlasts (deeper.run s k bs) (m.run s k bs)

namespace Reader

/-- The members of an object are read as deep as each of them. -/
theorem outlasts_members {deeper m : Member σ} (h : deeper.Deepens m) (first : Bool) (s : σ)
    (bs : Bytes) : Outlasts (members deeper first s bs) (members m first s bs) := by
  fun_induction members m first s bs with
  | case1 first s bs e hnext =>
    refine .inr ?_
    rw [members]
    split <;> simp_all
  | case2 first s bs r hnext => exact .inr (members_of_end hnext)
  | case3 first s bs r hnext e hkey =>
    refine .inr ?_
    rw [members]
    split <;> simp_all
    split <;> simp_all
  | case4 first s bs r hnext k t hkey e hrun =>
    rw [members_of_next hnext hkey]
    rcases h s k t with herror | heq
    · rw [hrun] at herror
      exact .inl (by rw [Except.error.inj herror])
    · exact .inr (by rw [heq, hrun]; rfl)
  | case5 first s bs r hnext k t hkey u v hrun ih =>
    rw [members_of_next hnext hkey]
    rcases h s k t with herror | heq
    · rw [hrun] at herror
      contradiction
    · rw [heq, hrun]
      exact ih

/-- The entries of an object with any keys are read as deep as their values. -/
theorem Deepens.entries {deeper rd : Reader α} (h : deeper.Deepens rd) (bs : Bytes) :
    Outlasts (entries deeper bs) (entries rd bs) := by
  refine (outlasts_members (fun acc k bs => ?_) true [] bs).map _
  exact (Outlasts.refl (colon bs)).bind fun r _ => (h r).bind fun _ _ => .refl _

/-- An object with any keys has one level more than its values. -/
theorem deepens_pairs_below {f : Nat → Reader α} (h : ∀ n, (f (n + 1)).Deepens (f n)) (n : Nat) :
    (pairs (below f (n + 1))).Deepens (pairs (below f n)) := by
  intro bs
  simp only [pairs]
  split
  · exact .refl _
  · cases n with
    | zero => exact .inl rfl
    | succ n => exact (h n).entries _
  · exact .refl _

end Reader

open Reader

/-! ## Free values -/

/-- A free value is read as deep as its parts. -/
theorem deepens_readerOf {deeper inner : Option (Reader Value)}
    (h : ∀ rd ∈ inner, ∃ rd' ∈ deeper, rd'.Deepens rd) :
    (Value.readerOf deeper).Deepens (Value.readerOf inner) := by
  intro bs
  simp only [Value.readerOf]
  split
  case h_7 =>
    cases inner with
    | none => exact .inl rfl
    | some rd =>
      obtain ⟨rd', rfl, hrd⟩ := h rd rfl
      exact hrd.items ..
  case h_8 =>
    cases inner with
    | none => exact .inl rfl
    | some rd =>
      obtain ⟨rd', rfl, hrd⟩ := h rd rfl
      exact (hrd.entries _).map _
  all_goals exact .refl _

/-- A free value is read with more levels as it is with fewer, if these were enough. -/
theorem deepens_valueReader (n : Nat) : (Value.reader (n + 1)).Deepens (Value.reader n) := by
  induction n with
  | zero => exact deepens_readerOf (by simp)
  | succ n ih =>
    refine deepens_readerOf fun rd hrd => ⟨_, rfl, ?_⟩
    obtain rfl := Option.some.inj hrd
    exact ih

/-! ## Codecs -/

/-- With one level more the same is read, unless the levels are too few. -/
def Codec.Deepens (c : Codec α) : Prop := ∀ n, (c.reader (n + 1)).Deepens (c.reader n)

/-- With one level more the same is read of the member, unless the levels are too few. -/
def Field.Deepens (f : Field R) : Prop := ∀ n, (f.reader (n + 1)).Deepens (f.reader n)

namespace Schema

variable {s : Schema R}

/-- A member of a record is read as deep as its value. -/
theorem deepens_member (h : ∀ f ∈ s.fields, f.Deepens) (n : Nat) :
    (s.member (n + 1)).Deepens (s.member n) := by
  intro st k bs
  simp only [member]
  split
  · exact .refl _
  · rename_i f hf
    split
    · exact .refl _
    · have hmem : f ∈ s.fields := List.mem_of_find?_eq_some hf
      exact (Outlasts.refl (colon bs)).bind fun r _ => (h f hmem n r).bind fun _ _ => .refl _

/-- The members in the array form of a record are read as deep as their values. -/
theorem outlasts_readElements {n : Nat} {fs : List (Field R)} (h : ∀ f ∈ fs, f.Deepens) (i : Nat)
    (x : R) (bs : Bytes) :
    Outlasts (s.readElements (n + 1) fs i x bs) (s.readElements n fs i x bs) := by
  induction fs generalizing i x bs with
  | nil => exact .refl _
  | cons f fs ih =>
    rw [List.forall_mem_cons] at h
    rw [readElements, readElements]
    split
    · exact .refl _
    · split
      · exact .refl _
      · exact ih h.2 ..
    · rename_i r hnext
      rcases h.1 n r with herror | heq
      · exact .inl (by rw [herror])
      · rw [heq]
        split
        · exact .refl _
        · exact ih h.2 ..

/-- A record takes one level for itself, and its members those that are left. -/
theorem deepens_codec (h : ∀ f ∈ s.fields, f.Deepens) : s.codec.Deepens := by
  intro n bs
  simp only [codec, reader]
  split
  · exact .refl _
  · cases n with
    | zero => exact .inl rfl
    | succ n =>
      exact (outlasts_members (deepens_member h n) ..).bind fun _ _ => .refl _
  · cases n with
    | zero => exact .inl rfl
    | succ n => exact (outlasts_readElements h ..).bind fun _ _ => .refl _
  · exact .refl _

end Schema

end GltfAsset.Json
