import Mathlib.Data.List.TakeWhile
import Mathlib.Tactic.SplitIfs
import GltfAsset.Json.Record
import GltfAsset.Proofs.Extension.Scan

/-!
# Text after a value

Readers look no further than the value that they read: what is read at the start of a text is also
read if the text goes on. `Reader.Extends` is this property of a reader. It passes from the readers
of the parts to that of the whole, and so from the members of a record to the record
(`Schema.extends_codec`).
-/

namespace GltfAsset.Json

/-! ## Passing over a value -/

namespace Skip

variable {bs r rest : Bytes}

/-- What stands before a member is passed over whatever follows it. -/
theorem key_append {f : Frame} (h : f.key bs = .ok r) (rest : Bytes) :
    f.key (bs ++ rest) = .ok (r ++ rest) := by
  cases f with
  | array =>
    obtain rfl := Except.ok.inj h
    rfl
  | object =>
    unfold Frame.key at h
    simp only at h
    split at h
    · contradiction
    · rename_i b s hs
      simp only [Frame.key, skipSpace_append hs]
      split at h
      · rename_i hb
        obtain ⟨t, ht, h⟩ := bind_eq_ok_iff.mp h
        rw [if_pos hb, Text.skip_append ht, ok_bind]
        exact colon_append h rest
      · contradiction

/-- What one look at the start of a value shows if the text goes on. -/
def Start.append : Start → Bytes → Start
  | scalar r, rest => scalar (r ++ rest)
  | nested f r, rest => nested f (r ++ rest)

/-- A token is passed over in the same way if the text goes on. -/
theorem map_scalar_append {f : Bytes → Except Error Bytes} {s : Start}
    (hf : ∀ {r}, (r = [] → Ends rest) → f bs = .ok r → f (bs ++ rest) = .ok (r ++ rest))
    (hrest : s.rest = [] → Ends rest) (h : (f bs).map .scalar = .ok s) :
    (f (bs ++ rest)).map .scalar = .ok (s.append rest) := by
  obtain ⟨r, hr, rfl⟩ := map_eq_ok_iff.mp h
  rw [hf hrest hr]
  rfl

/-- The start of a value is passed over whatever follows once it is complete. -/
theorem start_append {s : Start} (hrest : s.rest = [] → Ends rest) (h : start bs = .ok s) :
    start (bs ++ rest) = .ok (s.append rest) := by
  unfold start at h
  split at h
  · contradiction
  · rename_i b t hs
    simp only [start, skipSpace_append hs]
    -- The byte at the front is the same, and so is the choice that is made by it.
    split_ifs at h with hnull htrue hfalse hminus hdigit hquote hbracket hbrace
    · rw [if_pos hnull]
      exact map_scalar_append (fun _ h => literal_append h rest) hrest h
    · rw [if_neg hnull, if_pos htrue]
      exact map_scalar_append (fun _ h => literal_append h rest) hrest h
    · rw [if_neg hnull, if_neg htrue, if_pos hfalse]
      exact map_scalar_append (fun _ h => literal_append h rest) hrest h
    · rw [if_neg hnull, if_neg htrue, if_neg hfalse, if_pos hminus]
      exact map_scalar_append Number.skipUnsigned_append hrest h
    · rw [if_neg hnull, if_neg htrue, if_neg hfalse, if_neg hminus, if_pos hdigit]
      exact map_scalar_append Number.skipUnsigned_append hrest h
    · rw [if_neg hnull, if_neg htrue, if_neg hfalse, if_neg hminus, if_neg hdigit, if_pos hquote]
      exact map_scalar_append (fun _ h => Text.skip_append h rest) hrest h
    · rw [if_neg hnull, if_neg htrue, if_neg hfalse, if_neg hminus, if_neg hdigit, if_neg hquote,
        if_pos hbracket]
      obtain rfl := Except.ok.inj h
      rfl
    · rw [if_neg hnull, if_neg htrue, if_neg hfalse, if_neg hminus, if_neg hdigit, if_neg hquote,
        if_neg hbracket, if_pos hbrace]
      obtain rfl := Except.ok.inj h
      rfl

/-- After a value without parts, the text goes on after it. -/
theorem run_value_scalar {fs : List Frame} (h : start bs = .ok (.scalar r)) :
    run .value fs bs = run .after fs r := by
  rw [run]
  split <;> simp_all

/-- After an opening mark, one value more is open. -/
theorem run_value_nested {f : Frame} {fs : List Frame} (h : start bs = .ok (.nested f r)) :
    run .value fs bs = run .opened (f :: fs) r := by
  rw [run]
  split <;> simp_all

/-- A value without parts between its marks is closed. -/
theorem run_opened_closing {f : Frame} {fs : List Frame} (h : skipSpace bs = f.closing :: r) :
    run .opened (f :: fs) bs = run .after fs r := by
  rw [run]
  split <;> simp_all

/-- The first part of a value comes after its opening mark. -/
theorem run_opened_key {f : Frame} {fs : List Frame} {b : UInt8} (h : skipSpace bs = b :: r)
    (hb : b ≠ f.closing) {s : Bytes} (hs : f.key bs = .ok s) :
    run .opened (f :: fs) bs = run .value (f :: fs) s := by
  conv => lhs; rw [run]
  split
  · simp_all
  · rename_i c t ht
    obtain ⟨rfl, rfl⟩ := List.cons.inj (h.symm.trans ht)
    rw [if_neg hb]
    split <;> simp_all

/-- A value is closed after its last part. -/
theorem run_after_closing {f : Frame} {fs : List Frame} (h : skipSpace bs = f.closing :: r) :
    run .after (f :: fs) bs = run .after fs r := by
  rw [run]
  split <;> simp_all

/-- The next part of a value comes after a comma. -/
theorem run_after_comma {f : Frame} {fs : List Frame} (h : skipSpace bs = Mark.comma :: r)
    (hf : Mark.comma ≠ f.closing) {s : Bytes} (hs : f.key r = .ok s) :
    run .after (f :: fs) bs = run .value (f :: fs) s := by
  conv => lhs; rw [run]
  split
  · simp_all
  · rename_i c t ht
    obtain ⟨rfl, rfl⟩ := List.cons.inj (h.symm.trans ht)
    rw [if_neg hf, if_pos rfl]
    split <;> simp_all

/-- What is left of the arrays and objects around is passed over whatever follows them. -/
theorem run_append {place : Place} {fs : List Frame} (hrest : r = [] → Ends rest)
    (h : run place fs bs = .ok r) : run place fs (bs ++ rest) = .ok (r ++ rest) := by
  -- Along the steps of the machine; those that fail are no steps of a run that succeeds.
  fun_induction run place fs bs with
  | case1 => contradiction
  | case2 fs bs s hs ih =>
    rw [run_value_scalar (start_append (ends_of_length_le (length_le_of_run h) hrest) hs)]
    exact ih h
  | case3 fs bs f s hs ih =>
    rw [run_value_nested (start_append (ends_of_length_le (length_le_of_run h) hrest) hs)]
    exact ih h
  | case4 =>
    -- Nothing is open, neither here nor after the last value.
    obtain rfl := Except.ok.inj h
    rw [run]
  | case5 => contradiction
  | case6 bs f fs t hs ih =>
    rw [run_opened_closing (skipSpace_append hs)]
    exact ih h
  | case7 => contradiction
  | case8 bs f fs b t hs hb s hk ih =>
    rw [run_opened_key (skipSpace_append hs) hb (key_append hk rest)]
    exact ih h
  | case9 =>
    obtain rfl := Except.ok.inj h
    rw [run]
  | case10 => contradiction
  | case11 bs f fs t hs ih =>
    rw [run_after_closing (skipSpace_append hs)]
    exact ih h
  | case12 => contradiction
  | case13 bs f fs t s hk hs hf ih =>
    rw [run_after_comma (skipSpace_append hs) hf (key_append hk rest)]
    exact ih h
  | case14 => contradiction

end Skip

/-- A value is passed over whatever follows once it is complete. -/
theorem skipValue_append {bs r rest : Bytes} (hrest : r = [] → Ends rest)
    (h : skipValue bs = .ok r) : skipValue (bs ++ rest) = .ok (r ++ rest) :=
  Skip.run_append hrest h

/-! ## Readers -/

namespace Reader

variable {α β σ : Type}

/-- What is read is also read if the text goes on. -/
structure Extends (rd : Reader α) : Prop where
  /-- Nothing is read of white space. -/
  starts : ∀ {bs r : Bytes} {x : α}, rd.run bs = .ok (x, r) → skipSpace bs ≠ []
  /-- The same is read of a longer text, if a number that takes all of the shorter one is over. -/
  append : ∀ {bs r rest : Bytes} {x : α}, (r = [] → Ends rest) → rd.run bs = .ok (x, r) →
    rd.run (bs ++ rest) = .ok (x, r ++ rest)

/-- A change of what is read changes nothing. -/
theorem Extends.map {rd : Reader α} (hrd : rd.Extends) (f : α → β) : (rd.map f).Extends where
  starts h := by
    obtain ⟨⟨y, s⟩, hy, -⟩ := map_eq_ok_iff.mp h
    exact hrd.starts hy
  append hrest h := by
    obtain ⟨⟨y, s⟩, hy, heq⟩ := map_eq_ok_iff.mp h
    obtain ⟨rfl, rfl⟩ := Prod.mk.inj heq
    simp only [Reader.map, hrd.append hrest hy, map_ok]

/-- Something stands in front of a value without parts. -/
theorem skipSpace_ne_nil_of_found {bs : Bytes} {s : Scalar} (h : found bs = .ok s) :
    skipSpace bs ≠ [] := by
  intro hs
  rw [found, hs] at h
  contradiction

/-- What is found is found whatever follows once it is complete. -/
theorem found_append {bs rest : Bytes} {s : Scalar} (hrest : s.rest = [] → Ends rest)
    (h : found bs = .ok s) : found (bs ++ rest) = .ok ⟨s.found, s.rest ++ rest⟩ := by
  unfold found at h
  split at h
  · contradiction
  · rename_i b t hs
    simp only [found, skipSpace_append hs]
    split_ifs at h with hnull htrue hfalse hnumber hquote hbracket hbrace
    · obtain ⟨r, hr, rfl⟩ := map_eq_ok_iff.mp h
      rw [if_pos hnull, literal_append hr]
      rfl
    · obtain ⟨r, hr, rfl⟩ := map_eq_ok_iff.mp h
      rw [if_neg hnull, if_pos htrue, literal_append hr]
      rfl
    · obtain ⟨r, hr, rfl⟩ := map_eq_ok_iff.mp h
      rw [if_neg hnull, if_neg htrue, if_pos hfalse, literal_append hr]
      rfl
    · -- Only a number needs the text after it not to go on with one.
      obtain ⟨⟨x, r⟩, hr, heq⟩ := map_eq_ok_iff.mp h
      rw [if_neg hnull, if_neg htrue, if_neg hfalse, if_pos hnumber]
      cases x with
      | integer n =>
        obtain rfl := heq
        rw [← List.cons_append, Number.read_append hrest hr]
        rfl
      | float x =>
        obtain rfl := heq
        rw [← List.cons_append, Number.read_append hrest hr]
        rfl
    · obtain ⟨⟨x, r⟩, hr, rfl⟩ := map_eq_ok_iff.mp h
      rw [if_neg hnull, if_neg htrue, if_neg hfalse, if_neg hnumber, if_pos hquote,
        Text.read_append hr]
      rfl
    · obtain rfl := Except.ok.inj h
      rw [if_neg hnull, if_neg htrue, if_neg hfalse, if_neg hnumber, if_neg hquote,
        if_pos hbracket]
    · obtain rfl := Except.ok.inj h
      rw [if_neg hnull, if_neg htrue, if_neg hfalse, if_neg hnumber, if_neg hquote,
        if_neg hbracket, if_pos hbrace]

/-- A value without parts is read to its end. -/
theorem extends_scalar (expected : Expected) (pick : Found → Option (Except Error α)) :
    (scalar expected pick).Extends where
  starts h := by
    simp only [scalar] at h
    split at h
    · contradiction
    · exact skipSpace_ne_nil_of_found ‹_›
  append hrest h := by
    simp only [scalar] at h ⊢
    split at h
    · contradiction
    · rename_i s hs
      split at h
      · rename_i x hx
        obtain ⟨rfl, rfl⟩ := Prod.mk.inj (Except.ok.inj h)
        rw [found_append hrest hs]
        simp only [hx]
      · contradiction
      · contradiction

/-- Strings are read to their end. -/
theorem extends_string : string.Extends := extends_scalar _ _

/-- Booleans are read to their end. -/
theorem extends_boolean : boolean.Extends := extends_scalar _ _

/-- Integers are read to their end. -/
theorem extends_integer : integer.Extends := extends_scalar _ _

/-- Floats are read to their end. -/
theorem extends_single : single.Extends := extends_scalar _ _

/-- A value that may be absent is read to its end if it is. -/
theorem Extends.optional {rd : Reader α} (hrd : rd.Extends) : rd.optional.Extends where
  starts h := by
    simp only [Reader.optional, runOptional] at h
    split at h
    · obtain ⟨⟨y, s⟩, hy, -⟩ := map_eq_ok_iff.mp h
      exact hrd.starts hy
    · rename_i hs
      rw [hs]
      exact List.cons_ne_nil _ _
  append {bs r rest x} hrest h := by
    simp only [Reader.optional, runOptional] at h ⊢
    split at h
    · -- After white space alone a value may appear in the longer text, but none was read here.
      rename_i hs
      obtain ⟨⟨y, s⟩, hy, -⟩ := map_eq_ok_iff.mp h
      exact absurd hs (hrd.starts hy)
    · rename_i b t hs
      rw [skipSpace_append hs]
      simp only
      split at h
      · rename_i hb
        obtain ⟨u, hu, heq⟩ := map_eq_ok_iff.mp h
        obtain ⟨rfl, rfl⟩ := Prod.mk.inj heq
        rw [if_pos hb, literal_append hu]
        rfl
      · rename_i hb
        obtain ⟨⟨y, s⟩, hy, heq⟩ := map_eq_ok_iff.mp h
        obtain ⟨rfl, rfl⟩ := Prod.mk.inj heq
        rw [if_neg hb, hrd.append hrest hy]
        rfl

/-! ### Arrays -/

/-- Nothing more is read if as many elements were read as are wanted. -/
theorem elements_of_limit {rd : Reader α} {acc : List α} {bs : Bytes} :
    elements rd (some 0) acc bs = .ok (acc.reverse, bs) := by
  rw [elements, if_pos rfl]

/-- Nothing more is read if no element comes next. -/
theorem elements_of_end {rd : Reader α} {limit : Option Nat} {acc : List α} {bs r : Bytes}
    (hlimit : limit ≠ some 0) (h : nextElement acc.isEmpty bs = .ok (false, r)) :
    elements rd limit acc bs = .ok (acc.reverse, r) := by
  rw [elements, if_neg hlimit]
  split <;> simp_all

/-- The element that comes next is read, and those after it. -/
theorem elements_of_next {rd : Reader α} {limit : Option Nat} {acc : List α} {bs r : Bytes}
    (hlimit : limit ≠ some 0) (h : nextElement acc.isEmpty bs = .ok (true, r)) :
    elements rd limit acc bs =
      rd.run r >>= fun p => elements rd (limit.map (· - 1)) (p.1 :: acc) p.2 := by
  rw [elements, if_neg hlimit]
  split
  · simp_all
  · simp_all
  · rename_i s hs
    obtain rfl : r = s := by simpa [h] using hs
    split <;> simp_all [bind, Except.bind]

/-- The elements of an array are read whatever follows the last one once it is complete. -/
theorem elements_append {rd : Reader α} (hrd : rd.Extends) {limit : Option Nat}
    {acc xs : List α} {bs r rest : Bytes} (hrest : r = [] → Ends rest)
    (h : elements rd limit acc bs = .ok (xs, r)) :
    elements rd limit acc (bs ++ rest) = .ok (xs, r ++ rest) := by
  -- Along the elements: the mark before each of them and the element itself are read in the longer
  -- text too.
  fun_induction elements rd limit acc bs with
  | case1 acc bs =>
    obtain ⟨rfl, rfl⟩ := Prod.mk.inj (Except.ok.inj h)
    exact elements_of_limit
  | case2 => contradiction
  | case3 limit acc bs hlimit s hs =>
    obtain ⟨rfl, rfl⟩ := Prod.mk.inj (Except.ok.inj h)
    exact elements_of_end hlimit (nextElement_append hs rest)
  | case4 => contradiction
  | case5 limit acc bs hlimit s hs x t hx ih =>
    have ht := ends_of_length_le (length_le_of_elements h) hrest
    rw [elements_of_next hlimit (nextElement_append hs rest), hrd.append ht hx]
    exact ih h

/-- The elements of an array end at its bracket, whatever follows that. -/
theorem items_append {rd : Reader α} (hrd : rd.Extends) {limit : Option Nat}
    {make : List α → Except Error β} {bs r : Bytes} {y : β}
    (h : items rd limit make bs = .ok (y, r)) (rest : Bytes) :
    items rd limit make (bs ++ rest) = .ok (y, r ++ rest) := by
  obtain ⟨⟨xs, s⟩, hxs, h⟩ := bind_eq_ok_iff.mp h
  obtain ⟨z, hz, h⟩ := bind_eq_ok_iff.mp h
  obtain ⟨t, ht, h⟩ := bind_eq_ok_iff.mp h
  obtain ⟨rfl, rfl⟩ := Prod.mk.inj (Except.ok.inj h)
  have hs : s = [] → Ends rest := ends_of_length_lt (length_lt_of_closeArray ht)
  rw [items, elements_append hrd hs hxs, ok_bind]
  simp only [hz, ok_bind, closeArray_append ht rest]

/-- An array is read to its end if its elements are. -/
theorem extends_sequence {expected : Expected} {inner : Option (Reader α)} {limit : Option Nat}
    {make : List α → Except Error β} (h : ∀ rd ∈ inner, rd.Extends) :
    (sequence expected inner limit make).Extends where
  starts h := by
    simp only [sequence] at h
    split at h
    · contradiction
    · exact skipSpace_ne_nil_of_found ‹_›
    · contradiction
  append _ hrun := by
    simp only [sequence] at hrun ⊢
    split at hrun
    · contradiction
    · rename_i s hs
      split at hrun
      · contradiction
      · rename_i rd
        rw [found_append (ends_of_length_lt (length_lt_of_items hrun)) hs]
        exact items_append (h rd rfl) hrun _
    · contradiction

/-! ### Objects -/

/-- Nothing more is read if no member comes next. -/
theorem members_of_end {m : Member σ} {first : Bool} {s : σ} {bs r : Bytes}
    (h : nextKey first bs = .ok (false, r)) : members m first s bs = .ok (s, r) := by
  rw [members]
  split <;> simp_all

/-- The member that comes next is read, and those after it. -/
theorem members_of_next {m : Member σ} {first : Bool} {s : σ} {bs r t : Bytes} {k : String}
    (h : nextKey first bs = .ok (true, r)) (hk : Text.read r = .ok (k, t)) :
    members m first s bs = m.run s k t >>= fun p => members m false p.1 p.2 := by
  conv => lhs; rw [members]
  split
  · simp_all
  · simp_all
  · rename_i u hu
    obtain rfl : r = u := by simpa [h] using hu
    split
    · simp_all
    · rename_i l v hv
      obtain ⟨rfl, rfl⟩ : k = l ∧ t = v := by simpa [hk] using hv
      split <;> simp_all [bind, Except.bind]

end Reader

/-- What is done at a member is also done if the text goes on. -/
def Member.Extends {σ : Type} (m : Member σ) : Prop :=
  ∀ {s t : σ} {k : String} {bs r rest : Bytes}, (r = [] → Ends rest) →
    m.run s k bs = .ok (t, r) → m.run s k (bs ++ rest) = .ok (t, r ++ rest)

namespace Reader

variable {α β σ : Type}

/-- The members of an object end at its brace, whatever follows that. -/
theorem members_append {m : Member σ} (hm : m.Extends) {first : Bool} {s t : σ} {bs r : Bytes}
    (h : members m first s bs = .ok (t, r)) (rest : Bytes) :
    members m first s (bs ++ rest) = .ok (t, r ++ rest) := by
  -- Along the members, as along the elements of an array; a value is not the last of the text.
  fun_induction members m first s bs with
  | case1 => contradiction
  | case2 first s bs u hu =>
    obtain ⟨rfl, rfl⟩ := Prod.mk.inj (Except.ok.inj h)
    exact members_of_end (nextKey_append hu rest)
  | case3 => contradiction
  | case4 => contradiction
  | case5 first s bs u hu k v hv t w hw ih =>
    have hw' : w = [] → Ends rest := ends_of_length_lt (length_lt_of_members h)
    rw [members_of_next (nextKey_append hu rest) (Text.read_append hv rest), hm hw' hw]
    exact ih h

/-- An entry is read to its end if its value is. -/
theorem Extends.entry {rd : Reader α} (hrd : rd.Extends) : (entry rd).Extends := by
  intro s t k bs r rest hrest h
  obtain ⟨u, hu, h⟩ := bind_eq_ok_iff.mp h
  obtain ⟨⟨x, v⟩, hx, h⟩ := bind_eq_ok_iff.mp h
  obtain ⟨rfl, rfl⟩ := Prod.mk.inj (Except.ok.inj h)
  simp only [Reader.entry, colon_append hu rest, hrd.append hrest hx, ok_bind]

/-- The entries of an object are read whatever follows its closing brace. -/
theorem entries_append {rd : Reader α} (hrd : rd.Extends) {bs r : Bytes}
    {xs : List (String × α)} (h : entries rd bs = .ok (xs, r)) (rest : Bytes) :
    entries rd (bs ++ rest) = .ok (xs, r ++ rest) := by
  obtain ⟨⟨ys, s⟩, hys, heq⟩ := map_eq_ok_iff.mp h
  obtain ⟨rfl, rfl⟩ := Prod.mk.inj heq
  rw [entries, members_append hrd.entry hys, map_ok]

/-- An object with any keys is read to its end if its values are. -/
theorem extends_pairs {inner : Option (Reader α)} (h : ∀ rd ∈ inner, rd.Extends) :
    (pairs inner).Extends where
  starts h := by
    simp only [pairs] at h
    split at h
    · contradiction
    · exact skipSpace_ne_nil_of_found ‹_›
    · contradiction
  append _ hrun := by
    simp only [pairs] at hrun ⊢
    split at hrun
    · contradiction
    · rename_i s hs
      split at hrun
      · contradiction
      · rename_i rd
        rw [found_append (ends_of_length_lt (length_lt_of_entries hrun)) hs]
        exact entries_append (h rd rfl) hrun _
    · contradiction

/-- A property of what is made with every number of levels is one of what is made with one less. -/
theorem forall_mem_below {f : Nat → α} {p : α → Prop} (h : ∀ n, p (f n)) :
    ∀ n, ∀ x ∈ below f n, p x := by
  intro n x hx
  cases n with
  | zero => contradiction
  | succ n =>
    obtain rfl := Option.some.inj hx
    exact h n

end Reader

/-! ## Codecs -/

open Reader

/-- A free value is read to its end if its parts are. -/
theorem extends_readerOf {inner : Option (Reader Value)} (h : ∀ rd ∈ inner, rd.Extends) :
    (Value.readerOf inner).Extends where
  starts h := by
    simp only [Value.readerOf] at h
    split at h
    · contradiction
    all_goals exact skipSpace_ne_nil_of_found ‹_›
  append hrest hrun := by
    simp only [Value.readerOf] at hrun ⊢
    split at hrun
    · contradiction
    -- A value without parts is the one that is found, of whichever kind it is.
    iterate 5
      · rename_i hs
        obtain ⟨rfl, rfl⟩ := Prod.mk.inj (Except.ok.inj hrun)
        rw [found_append hrest hs]
    · -- An array ends with its bracket, so nothing that follows belongs to it.
      rename_i s hs
      split at hrun
      · contradiction
      · rename_i rd
        rw [found_append (ends_of_length_lt (length_lt_of_items hrun)) hs]
        exact items_append (h rd rfl) hrun _
    · -- Nor does it to an object.
      rename_i s hs
      split at hrun
      · contradiction
      · rename_i rd
        obtain ⟨⟨ms, u⟩, hms, heq⟩ := map_eq_ok_iff.mp hrun
        obtain ⟨rfl, rfl⟩ := Prod.mk.inj heq
        rw [found_append (ends_of_length_lt (length_lt_of_entries hms)) hs]
        simp only [entries_append (h rd rfl) hms, map_ok]

/-- Free values are read to their end. -/
theorem extends_valueReader (n : Nat) : (Value.reader n).Extends := by
  induction n with
  | zero => exact extends_readerOf (by simp)
  | succ n ih => exact extends_readerOf (by simpa using ih)

namespace Codec

variable {α : Type}

/-- What the readers read is also read if the text goes on. -/
def Extends (c : Codec α) : Prop := ∀ n, (c.reader n).Extends

/-- The codec of strings reads to their end. -/
theorem extends_string : Codec.string.Extends := fun _ => Reader.extends_string

/-- The codec of booleans reads to their end. -/
theorem extends_boolean : Codec.boolean.Extends := fun _ => Reader.extends_boolean

/-- The codec of integers reads to their end. -/
theorem extends_integer : Codec.integer.Extends := fun _ => Reader.extends_integer

/-- The codec of floats reads to their end. -/
theorem extends_single : Codec.single.Extends := fun _ => Reader.extends_single

/-- An array of any length is read to its end if its elements are. -/
theorem extends_list {c : Codec α} (h : c.Extends) : c.list.Extends :=
  fun n => extends_sequence (forall_mem_below h n)

/-- An array of fixed length is read to its end if its elements are. -/
theorem extends_vector {k : Nat} {c : Codec α} (h : c.Extends) : (c.vector k).Extends :=
  fun n => extends_sequence (forall_mem_below h n)

/-- What collects the members of an object with any keys is read to its end if the values are. -/
theorem extends_map {collect : List (String × α) → List (String × α)} {c : Codec α}
    (h : c.Extends) : (c.map collect).Extends :=
  fun n => (extends_pairs (forall_mem_below h n)).map collect

end Codec

namespace Field

variable {R : Type}

/-- What the reader of a member reads is also read if the text goes on. -/
def Extends (f : Field R) : Prop := ∀ n, (f.reader n).Extends

end Field

namespace Schema

variable {R : Type} {s : Schema R}

/-- A member of a record is read to its end if its value is. -/
theorem extends_member (h : ∀ f ∈ s.fields, f.Extends) (n : Nat) : (s.member n).Extends := by
  intro st st' k bs r rest hrest hrun
  simp only [member] at hrun ⊢
  split at hrun
  · -- The value of an unknown member is passed over.
    obtain ⟨t, ht, hrun⟩ := bind_eq_ok_iff.mp hrun
    obtain ⟨u, hu, hrun⟩ := bind_eq_ok_iff.mp hrun
    obtain ⟨rfl, rfl⟩ := Prod.mk.inj (Except.ok.inj hrun)
    rw [colon_append ht, ok_bind, skipValue_append hrest hu]
    rfl
  · rename_i f hf
    split at hrun
    · contradiction
    · rename_i hnew
      obtain ⟨t, ht, hrun⟩ := bind_eq_ok_iff.mp hrun
      obtain ⟨⟨set, u⟩, hu, hrun⟩ := bind_eq_ok_iff.mp hrun
      obtain ⟨rfl, rfl⟩ := Prod.mk.inj (Except.ok.inj hrun)
      rw [if_neg hnew, colon_append ht, ok_bind,
        (h f (List.mem_of_find?_eq_some hf) n).append hrest hu]
      rfl

/-- The object form of a record is read whatever follows its closing brace. -/
theorem readObject_append (h : ∀ f ∈ s.fields, f.Extends) {n : Nat} {bs r : Bytes} {x : R}
    (hx : s.readObject n bs = .ok (x, r)) (rest : Bytes) :
    s.readObject n (bs ++ rest) = .ok (x, r ++ rest) := by
  obtain ⟨⟨st, t⟩, ht, hx⟩ := bind_eq_ok_iff.mp hx
  rw [readObject, members_append (extends_member h n) ht, ok_bind]
  simp only at hx ⊢
  split at hx
  · contradiction
  · obtain ⟨rfl, rfl⟩ := Prod.mk.inj (Except.ok.inj hx)
    rfl

/-- The members in the array form are read whatever follows the last one once it is complete. -/
theorem readElements_append {n : Nat} {fs : List (Field R)} (h : ∀ f ∈ fs, f.Extends) {i : Nat}
    {x y : R} {bs r rest : Bytes} (hrest : r = [] → Ends rest)
    (hx : s.readElements n fs i x bs = .ok (y, r)) :
    s.readElements n fs i x (bs ++ rest) = .ok (y, r ++ rest) := by
  -- The members are elements here, one after the other in the order of the table.
  induction fs generalizing i x bs with
  | nil =>
    obtain ⟨rfl, rfl⟩ := Prod.mk.inj (Except.ok.inj hx)
    rfl
  | cons f fs ih =>
    rw [List.forall_mem_cons] at h
    rw [readElements] at hx
    split at hx
    · contradiction
    · -- The array is over, and the members that are left keep their defaults.
      rename_i t ht
      simp only [readElements, nextElement_append ht rest]
      split at hx
      · contradiction
      · rename_i hrequired
        rw [if_neg hrequired]
        exact ih h.2 hx
    · rename_i t ht
      simp only [readElements, nextElement_append ht rest]
      split at hx
      · contradiction
      · rename_i set u hu
        have hu' := ends_of_length_le (length_le_of_readElements hx) hrest
        rw [(h.1 n).append hu' hu]
        exact ih h.2 hx

/-- The array form of a record is read whatever follows its closing bracket. -/
theorem readArray_append (h : ∀ f ∈ s.fields, f.Extends) {n : Nat} {bs r : Bytes} {x : R}
    (hx : s.readArray n bs = .ok (x, r)) (rest : Bytes) :
    s.readArray n (bs ++ rest) = .ok (x, r ++ rest) := by
  obtain ⟨⟨y, t⟩, hy, hx⟩ := bind_eq_ok_iff.mp hx
  obtain ⟨u, hu, hx⟩ := bind_eq_ok_iff.mp hx
  obtain ⟨rfl, rfl⟩ := Prod.mk.inj (Except.ok.inj hx)
  have ht : t = [] → Ends rest := ends_of_length_lt (length_lt_of_closeArray hu)
  rw [readArray, readElements_append h ht hy, ok_bind]
  simp only [closeArray_append hu rest, ok_bind]

/-- A record ends at its closing mark, whatever follows that. -/
theorem codec_append (h : ∀ f ∈ s.fields, f.Extends) {n : Nat} {bs r : Bytes} {x : R}
    (hx : (s.codec.reader n).run bs = .ok (x, r)) (rest : Bytes) :
    (s.codec.reader n).run (bs ++ rest) = .ok (x, r ++ rest) := by
  simp only [codec, reader] at hx ⊢
  split at hx
  · contradiction
  · rename_i t ht
    cases n with
    | zero => contradiction
    | succ n =>
      rw [found_append (ends_of_length_lt (length_lt_of_readObject hx)) ht]
      exact readObject_append h hx rest
  · rename_i t ht
    cases n with
    | zero => contradiction
    | succ n =>
      rw [found_append (ends_of_length_lt (length_lt_of_readArray hx)) ht]
      exact readArray_append h hx rest
  · contradiction

/-- A record is read to its end if its members are. -/
theorem extends_codec (h : ∀ f ∈ s.fields, f.Extends) : s.codec.Extends := fun n => {
  starts := by
    intro bs r x hx
    simp only [codec, reader] at hx
    split at hx
    · contradiction
    all_goals exact skipSpace_ne_nil_of_found ‹_›
  append _ hx := codec_append h hx _ }

end Schema

end GltfAsset.Json
