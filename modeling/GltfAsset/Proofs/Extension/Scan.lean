import GltfAsset.Json.Number
import GltfAsset.Json.Text

/-!
# Text after a mark, a number or a string

What is read at the start of a text does not depend on what follows it, but for the one byte by
which it is seen that a number is over. So it is also read if the text goes on: after a number that
took all of the text, as long as the text does not go on with a byte of which a number could be made
(`Ends`), and in any way if that byte was there already. The lemmas follow the functions that read
marks, numbers and strings one by one.
-/

namespace GltfAsset.Json

section Except

variable {ε α β : Type}

/-- Two steps succeed if the first one does, and the second one with its result. -/
theorem bind_eq_ok_iff {x : Except ε α} {f : α → Except ε β} {b : β} :
    (x >>= f) = .ok b ↔ ∃ a, x = .ok a ∧ f a = .ok b := by
  cases x with
  | error e => simp [bind, Except.bind]
  | ok a => simp [bind, Except.bind]

/-- A changed result is made of one before the change. -/
theorem map_eq_ok_iff {x : Except ε α} {f : α → β} {b : β} :
    x.map f = .ok b ↔ ∃ a, x = .ok a ∧ f a = b := by
  cases x with
  | error e => simp [Except.map]
  | ok a => simp [Except.map]

/-- What comes after a result goes on with it. -/
theorem ok_bind {a : α} {f : α → Except ε β} : (Except.ok a >>= f) = f a := rfl

/-- A result is changed. -/
theorem map_ok {a : α} {f : α → β} : (Except.ok a : Except ε α).map f = .ok (f a) := rfl

end Except

/-- No number goes on with this text. -/
def Ends (bs : Bytes) : Prop :=
  ∀ b ∈ bs.head?, isDigit b = false ∧ b ≠ Mark.point ∧ Number.isExponentMark b = false

/-- A number that ends with the text is complete. -/
theorem ends_nil : Ends [] := by simp [Ends]

/-- A number is complete before a byte that is no digit, no point and no mark of an exponent. -/
theorem ends_cons {b : UInt8} {bs : Bytes} :
    Ends (b :: bs) ↔ isDigit b = false ∧ b ≠ Mark.point ∧ Number.isExponentMark b = false := by
  simp [Ends]

/-- What is left earlier is no shorter, so it is over only if all is. -/
theorem ends_of_length_le {s r rest : Bytes} (h : r.length ≤ s.length)
    (hrest : r = [] → Ends rest) : s = [] → Ends rest := by
  rintro rfl
  exact hrest (List.eq_nil_of_length_eq_zero (Nat.le_zero.mp h))

/-- If something is still to be taken, nothing is asked. -/
theorem ends_of_length_lt {s r rest : Bytes} (h : r.length < s.length) : s = [] → Ends rest := by
  rintro rfl
  exact absurd h (Nat.not_lt_zero _)

/-! ## Marks -/

/-- White space ends at the same byte if there is one. -/
theorem skipSpace_append {bs r rest : Bytes} {b : UInt8} (h : skipSpace bs = b :: r) :
    skipSpace (bs ++ rest) = b :: (r ++ rest) := by
  unfold skipSpace at *
  rw [List.dropWhile_append, h]
  rfl

/-- A word is found whatever follows it. -/
theorem literal_append {word bs r : Bytes} (h : literal word bs = .ok r) (rest : Bytes) :
    literal word (bs ++ rest) = .ok (r ++ rest) := by
  fun_induction literal word bs with
  | case1 bs =>
    obtain rfl := Except.ok.inj h
    rfl
  | case2 => contradiction
  | case3 word bs b ih =>
    rw [List.cons_append, literal, if_pos rfl]
    exact ih h
  | case4 => contradiction

/-- A colon is found whatever follows it. -/
theorem colon_append {bs r : Bytes} (h : colon bs = .ok r) (rest : Bytes) :
    colon (bs ++ rest) = .ok (r ++ rest) := by
  unfold colon at h
  split at h
  · contradiction
  · rename_i b s hs
    split at h
    · rename_i hb
      obtain rfl := Except.ok.inj h
      rw [colon, skipSpace_append hs]
      exact if_pos hb
    · contradiction

/-- Whether one more element comes is seen whatever follows. -/
theorem nextElement_append {first more : Bool} {bs r : Bytes}
    (h : nextElement first bs = .ok (more, r)) (rest : Bytes) :
    nextElement first (bs ++ rest) = .ok (more, r ++ rest) := by
  unfold nextElement at h
  split at h
  · contradiction
  · rename_i b s hs
    rw [nextElement, skipSpace_append hs]
    repeat' split at h
    all_goals first
      | contradiction
      | simp only [Except.ok.injEq, Prod.mk.injEq] at h
        obtain ⟨rfl, rfl⟩ := h
    · -- The bracket that closes the array.
      rename_i hb
      simp only [if_pos hb, List.cons_append]
    · -- The first element, at which the rest begins.
      rename_i hb hfirst
      simp only [if_neg hb, if_pos hfirst, List.cons_append]
    · -- A further element, after a comma and the white space that follows it.
      rename_i hb hfirst hcomma _ c t ht hc
      simp only [if_neg hb, if_neg hfirst, if_pos hcomma, skipSpace_append ht, if_neg hc,
        List.cons_append]

/-- The end of an array is found whatever follows it. -/
theorem closeArray_append {bs r : Bytes} (h : closeArray bs = .ok r) (rest : Bytes) :
    closeArray (bs ++ rest) = .ok (r ++ rest) := by
  unfold closeArray at h
  split at h
  · contradiction
  · rename_i b s hs
    split at h
    · rename_i hb
      obtain rfl := Except.ok.inj h
      rw [closeArray, skipSpace_append hs]
      exact if_pos hb
    · repeat' split at h
      all_goals contradiction

/-- Whether one more key comes is seen whatever follows. -/
theorem nextKey_append {first more : Bool} {bs r : Bytes} (h : nextKey first bs = .ok (more, r))
    (rest : Bytes) : nextKey first (bs ++ rest) = .ok (more, r ++ rest) := by
  unfold nextKey at h
  split at h
  · contradiction
  · rename_i b s hs
    rw [nextKey, skipSpace_append hs]
    repeat' split at h
    all_goals first
      | contradiction
      | simp only [Except.ok.injEq, Prod.mk.injEq] at h
        obtain ⟨rfl, rfl⟩ := h
    · -- The brace that closes the object.
      rename_i hb
      simp only [if_pos hb]
    · -- The first key.
      rename_i hb hfirst hquote
      simp only [if_neg hb, if_pos hfirst, if_pos hquote]
    · -- A further key, after a comma.
      rename_i hb hfirst hcomma _ c t ht hquote
      simp only [if_neg hb, if_neg hfirst, if_pos hcomma, skipSpace_append ht, if_pos hquote]

/-! ## Numbers -/

namespace Number

/-- A digit is passed over. -/
theorem afterDigits_cons_of_isDigit {b : UInt8} (hb : isDigit b = true) (bs : Bytes) :
    afterDigits (b :: bs) = afterDigits bs := by
  rw [afterDigits, List.dropWhile_cons_of_pos hb, afterDigits]

/-- The digits at the start of a text are the same if none follow it. -/
theorem digits_append {bs rest : Bytes} (hrest : afterDigits bs = [] → Ends rest) :
    digits (bs ++ rest) = digits bs := by
  induction bs with
  | nil =>
    cases rest with
    | nil => rfl
    | cons b rest => simp [digits, (ends_cons.mp (hrest rfl)).1]
  | cons b bs ih =>
    unfold digits at ih ⊢
    rw [List.cons_append, List.takeWhile_cons, List.takeWhile_cons]
    split
    · rename_i hb
      rw [afterDigits_cons_of_isDigit hb] at hrest
      rw [ih hrest]
    · rfl

/-- The digits are passed over, and what follows them is joined by what follows the text. -/
theorem afterDigits_append {bs rest : Bytes} (hrest : afterDigits bs = [] → Ends rest) :
    afterDigits (bs ++ rest) = afterDigits bs ++ rest := by
  induction bs with
  | nil =>
    cases rest with
    | nil => rfl
    | cons b rest => simp [afterDigits, (ends_cons.mp (hrest rfl)).1]
  | cons b bs ih =>
    by_cases hb : isDigit b = true
    · rw [afterDigits_cons_of_isDigit hb] at hrest
      rw [List.cons_append, afterDigits_cons_of_isDigit hb, afterDigits_cons_of_isDigit hb,
        ih hrest]
    · rw [List.cons_append, afterDigits, List.dropWhile_cons_of_neg hb, afterDigits,
        List.dropWhile_cons_of_neg hb, List.cons_append]

/-- The sign of an exponent that is there stands at its front. -/
theorem exponentSign_append {bs : Bytes} (h : (exponentSign bs).2 ≠ []) (rest : Bytes) :
    exponentSign (bs ++ rest) = ((exponentSign bs).1, (exponentSign bs).2 ++ rest) := by
  cases bs with
  | nil => exact absurd rfl h
  | cons b bs =>
    simp only [exponentSign, List.cons_append]
    repeat' split
    all_goals rfl

variable {negative : Bool} {s : Nat} {e : Int} {bs r rest : Bytes} {x : Number}

/-- An exponent is read whatever follows a number that is complete. -/
theorem readExponent_append (hrest : r = [] → Ends rest)
    (h : readExponent negative s e bs = .ok (x, r)) :
    readExponent negative s e (bs ++ rest) = .ok (x, r ++ rest) := by
  unfold readExponent at h
  simp only at h
  split at h
  · contradiction
  · rename_i b t hsign
    have hne : (exponentSign bs).2 ≠ [] := by rw [hsign]; exact List.cons_ne_nil b t
    rw [readExponent, exponentSign_append hne]
    simp only [hsign, List.cons_append] at h ⊢
    split at h
    · rename_i hdigit
      have hr : r = afterDigits (b :: t) := by
        split at h
        · split at h
          · contradiction
          · exact (Prod.mk.inj (Except.ok.inj h)).2.symm
        · obtain ⟨y, -, heq⟩ := bind_eq_ok_iff.mp h
          exact (Prod.mk.inj (Except.ok.inj heq)).2.symm
      rw [hr] at hrest
      rw [if_pos hdigit, ← List.cons_append, digits_append hrest, afterDigits_append hrest]
      split at h
      · -- An exponent that is too large to be taken at its value gives zero, if anything.
        rename_i hlarge
        rw [if_pos hlarge]
        split at h
        · contradiction
        · rename_i hzero
          simp only [Except.ok.injEq, Prod.mk.injEq] at h
          obtain ⟨rfl, rfl⟩ := h
          rw [if_neg hzero]
      · rename_i hlarge
        obtain ⟨y, hparts, heq⟩ := bind_eq_ok_iff.mp h
        obtain ⟨rfl, rfl⟩ := Prod.mk.inj (Except.ok.inj heq)
        rw [if_neg hlarge, hparts]
        rfl
    · contradiction

/-- A number without fraction is read whatever follows once it is complete. -/
theorem finish_append (hrest : r = [] → Ends rest) (h : finish negative s e bs = .ok (x, r)) :
    finish negative s e (bs ++ rest) = .ok (x, r ++ rest) := by
  cases bs with
  | nil =>
    -- The number was over with its text, and no exponent follows it now.
    rw [finish] at h
    obtain ⟨y, hparts, heq⟩ := map_eq_ok_iff.mp h
    obtain ⟨rfl, rfl⟩ := Prod.mk.inj heq
    cases rest with
    | nil =>
      rw [List.append_nil, finish, hparts]
      rfl
    | cons b rest =>
      have hb := (ends_cons.mp (hrest rfl)).2.2
      simp [finish, hb, hparts, map_ok]
  | cons b bs =>
    rw [finish] at h
    rw [List.cons_append, finish]
    split at h
    · rename_i hb
      rw [if_pos hb]
      exact readExponent_append hrest h
    · rename_i hb
      obtain ⟨y, hparts, heq⟩ := map_eq_ok_iff.mp h
      obtain ⟨rfl, rfl⟩ := Prod.mk.inj heq
      rw [if_neg hb, hparts]
      rfl

/-- A fraction is read whatever follows a number that is complete. -/
theorem readFraction_append (hrest : r = [] → Ends rest)
    (h : readFraction negative s e bs = .ok (x, r)) :
    readFraction negative s e (bs ++ rest) = .ok (x, r ++ rest) := by
  unfold readFraction at h
  split at h
  · contradiction
  · rename_i b t
    split at h
    · rename_i hb
      have hafter := ends_of_length_le (length_le_of_finish h) hrest
      rw [List.cons_append, readFraction, if_pos hb, ← List.cons_append, digits_append hafter,
        afterDigits_append hafter]
      exact finish_append hrest h
    · contradiction

/-- What comes after the whole part is read whatever follows a number that is complete. -/
theorem afterWhole_append {g : Gathered} (hrest : r = [] → Ends rest)
    (h : afterWhole negative g bs = .ok (x, r)) :
    afterWhole negative g (bs ++ rest) = .ok (x, r ++ rest) := by
  cases bs with
  | nil =>
    rw [afterWhole] at h
    cases rest with
    | nil =>
      rw [List.append_nil, List.append_nil, afterWhole]
      exact h
    | cons b rest =>
      have hr : r = [] := by
        split at h
        · exact (Prod.mk.inj (Except.ok.inj h)).2.symm
        · exact List.eq_nil_of_length_eq_zero (Nat.le_zero.mp (length_le_of_finish h))
      obtain ⟨-, hpoint, hmark⟩ := ends_cons.mp (hrest hr)
      rw [List.nil_append, afterWhole, if_neg hpoint]
      -- A whole number is itself, unless some of its digits were dropped: then it is a float.
      split at h
      · rename_i hdropped
        simp only [Except.ok.injEq, Prod.mk.injEq] at h
        obtain ⟨rfl, rfl⟩ := h
        simp [hmark, hdropped]
      · rename_i hdropped
        rw [if_pos (Or.inr hdropped)]
        exact finish_append hrest h
  | cons b bs =>
    rw [afterWhole] at h
    rw [List.cons_append, afterWhole]
    split at h
    · rename_i hb
      rw [if_pos hb]
      exact readFraction_append hrest h
    · rename_i hb
      rw [if_neg hb]
      split at h
      · rename_i hmark
        rw [if_pos hmark]
        exact finish_append hrest h
      · rename_i hmark
        rw [if_neg hmark]
        simp only [Except.ok.injEq, Prod.mk.injEq] at h
        obtain ⟨rfl, rfl⟩ := h
        rfl

/-- A number without sign is read whatever follows once it is complete. -/
theorem readUnsigned_append (hrest : r = [] → Ends rest)
    (h : readUnsigned negative bs = .ok (x, r)) :
    readUnsigned negative (bs ++ rest) = .ok (x, r ++ rest) := by
  unfold readUnsigned at h
  split at h
  · contradiction
  · rename_i b t
    repeat' split at h
    · contradiction
    · contradiction
    · rename_i hdigit hzero
      have hafter := ends_of_length_le (length_le_of_afterWhole h) hrest
      have htail : afterDigits t = [] → Ends rest := by
        rwa [afterDigits_cons_of_isDigit (Decidable.not_not.mp hdigit)] at hafter
      rw [List.cons_append, readUnsigned, if_neg hdigit, digits_append htail, if_neg hzero,
        ← List.cons_append, digits_append hafter, afterDigits_append hafter]
      exact afterWhole_append hrest h

/-- A number is read whatever follows once it is complete. -/
theorem read_append (hrest : r = [] → Ends rest) (h : read bs = .ok (x, r)) :
    read (bs ++ rest) = .ok (x, r ++ rest) := by
  unfold read at h
  split at h
  · contradiction
  · rename_i b t
    rw [List.cons_append, read]
    split at h
    · rename_i hb
      rw [if_pos hb]
      exact readUnsigned_append hrest h
    · rename_i hb
      rw [if_neg hb, ← List.cons_append]
      exact readUnsigned_append hrest h

/-- Digits are passed over whatever follows a number that is complete. -/
theorem skipDigits_append (hrest : r = [] → Ends rest) (h : skipDigits bs = .ok r) :
    skipDigits (bs ++ rest) = .ok (r ++ rest) := by
  unfold skipDigits at h
  split at h
  · contradiction
  · rename_i hne
    obtain rfl := Except.ok.inj h
    rw [skipDigits, digits_append hrest, if_neg hne, afterDigits_append hrest]

/-- An exponent is passed over whatever follows a number that is complete. -/
theorem skipExponent_append (hrest : r = [] → Ends rest) (h : skipExponent bs = .ok r) :
    skipExponent (bs ++ rest) = .ok (r ++ rest) := by
  cases bs with
  | nil =>
    obtain rfl := Except.ok.inj h
    cases rest with
    | nil => rfl
    | cons b rest => simp [skipExponent, (ends_cons.mp (hrest rfl)).2.2]
  | cons b bs =>
    rw [skipExponent] at h
    rw [List.cons_append, skipExponent]
    split at h
    · rename_i hb
      have hne : (exponentSign bs).2 ≠ [] := by
        intro hnil
        rw [hnil] at h
        contradiction
      rw [if_pos hb, exponentSign_append hne]
      exact skipDigits_append hrest h
    · rename_i hb
      obtain rfl := Except.ok.inj h
      rw [if_neg hb]
      rfl

/-- A fraction is passed over whatever follows a number that is complete. -/
theorem skipFraction_append (hrest : r = [] → Ends rest) (h : skipFraction bs = .ok r) :
    skipFraction (bs ++ rest) = .ok (r ++ rest) := by
  cases bs with
  | nil =>
    obtain rfl := Except.ok.inj h
    cases rest with
    | nil => rfl
    | cons b rest => simp [skipFraction, (ends_cons.mp (hrest rfl)).2.1]
  | cons b bs =>
    rw [skipFraction] at h
    rw [List.cons_append, skipFraction]
    split at h
    · rename_i hb
      rw [if_pos hb]
      exact skipDigits_append hrest h
    · rename_i hb
      obtain rfl := Except.ok.inj h
      rw [if_neg hb]
      rfl

/-- A number without sign is passed over whatever follows once it is complete. -/
theorem skipUnsigned_append (hrest : r = [] → Ends rest) (h : skipUnsigned bs = .ok r) :
    skipUnsigned (bs ++ rest) = .ok (r ++ rest) := by
  unfold skipUnsigned at h
  split at h
  · contradiction
  · rename_i b t
    split at h
    · contradiction
    · rename_i hzero
      obtain ⟨u, hu, h⟩ := bind_eq_ok_iff.mp h
      obtain ⟨v, hv, h⟩ := bind_eq_ok_iff.mp h
      have hv' := ends_of_length_le (length_le_of_skipExponent h) hrest
      have hu' := ends_of_length_le (length_le_of_skipFraction hv) hv'
      -- The zero that may not be followed by a digit is one itself.
      have hzero' : ¬ (b = 0x30 ∧ digits (t ++ rest) ≠ []) := by
        rintro ⟨rfl, hne⟩
        have hafter : u = afterDigits t := by
          rw [skipDigits, afterDigits_cons_of_isDigit (by decide)] at hu
          split at hu
          · contradiction
          · exact (Except.ok.inj hu).symm
        rw [digits_append (hafter ▸ hu')] at hne
        exact hzero ⟨rfl, hne⟩
      rw [List.cons_append, skipUnsigned, if_neg hzero', ← List.cons_append,
        skipDigits_append hu' hu, ok_bind, skipFraction_append hv' hv, ok_bind]
      exact skipExponent_append hrest h

end Number

/-! ## Strings -/

namespace Text

/-- Four hexadecimal digits are read whatever follows them. -/
theorem hexWord_append {bs r : Bytes} {n : Nat} (h : hexWord bs = .ok (n, r)) (rest : Bytes) :
    hexWord (bs ++ rest) = .ok (n, r ++ rest) := by
  unfold hexWord at h
  split at h
  · rename_i a b c d s
    simp only [List.cons_append, hexWord]
    split at h
    · obtain ⟨rfl, rfl⟩ := Prod.mk.inj (Except.ok.inj h)
      rfl
    · contradiction
  · contradiction

/-- A byte is read whatever follows it. -/
theorem next_append {bs r : Bytes} {b : UInt8} (h : next bs = .ok (b, r)) (rest : Bytes) :
    next (bs ++ rest) = .ok (b, r ++ rest) := by
  cases bs with
  | nil => contradiction
  | cons c bs =>
    obtain ⟨rfl, rfl⟩ := Prod.mk.inj (Except.ok.inj h)
    rfl

/-- The code point of an escape is read whatever follows it. -/
theorem unicode_append {bs r : Bytes} {c : Char} (h : unicode bs = .ok (c, r)) (rest : Bytes) :
    unicode (bs ++ rest) = .ok (c, r ++ rest) := by
  obtain ⟨⟨n, s⟩, hn, h⟩ := bind_eq_ok_iff.mp h
  rw [unicode, hexWord_append hn, ok_bind]
  simp only at h ⊢
  split at h
  · contradiction
  · rename_i hlow
    rw [if_neg hlow]
    split at h
    · rename_i hhigh
      rw [if_pos hhigh]
      obtain ⟨⟨b, s₁⟩, hb, h⟩ := bind_eq_ok_iff.mp h
      rw [next_append hb, ok_bind]
      simp only at h ⊢
      -- The second half of a pair: a backslash, the letter and its four digits.
      split at h
      · contradiction
      · rename_i hslash
        rw [if_neg hslash]
        obtain ⟨⟨u, s₂⟩, hu, h⟩ := bind_eq_ok_iff.mp h
        rw [next_append hu, ok_bind]
        simp only at h ⊢
        split at h
        · contradiction
        · rename_i hletter
          rw [if_neg hletter]
          obtain ⟨⟨m, s₃⟩, hm, h⟩ := bind_eq_ok_iff.mp h
          rw [hexWord_append hm, ok_bind]
          simp only at h ⊢
          split at h
          · rename_i hpair
            obtain ⟨rfl, rfl⟩ := Prod.mk.inj (Except.ok.inj h)
            rw [if_pos hpair]
          · contradiction
    · -- A unit that is a character by itself.
      rename_i hhigh
      obtain ⟨rfl, rfl⟩ := Prod.mk.inj (Except.ok.inj h)
      rw [if_neg hhigh]

/-- What an escape stands for is read whatever follows it. -/
theorem unescape_append {bs r u : Bytes} (h : unescape bs = .ok (u, r)) (rest : Bytes) :
    unescape (bs ++ rest) = .ok (u, r ++ rest) := by
  obtain ⟨⟨b, s⟩, hb, h⟩ := bind_eq_ok_iff.mp h
  rw [unescape, next_append hb, ok_bind]
  simp only at h ⊢
  split at h
  · obtain ⟨rfl, rfl⟩ := Prod.mk.inj (Except.ok.inj h)
    rfl
  · split at h
    · rename_i hletter
      obtain ⟨⟨c, t⟩, hc, h⟩ := bind_eq_ok_iff.mp h
      obtain ⟨rfl, rfl⟩ := Prod.mk.inj (Except.ok.inj h)
      rw [if_pos hletter, unicode_append hc]
      rfl
    · contradiction

/-- An escape is passed over whatever follows it. -/
theorem skipEscape_append {bs r : Bytes} (h : skipEscape bs = .ok r) (rest : Bytes) :
    skipEscape (bs ++ rest) = .ok (r ++ rest) := by
  obtain ⟨⟨b, s⟩, hb, h⟩ := bind_eq_ok_iff.mp h
  rw [skipEscape, next_append hb, ok_bind]
  simp only at h ⊢
  split at h
  · rename_i hshort
    obtain rfl := Except.ok.inj h
    rw [if_pos hshort]
  · rename_i hshort
    rw [if_neg hshort]
    split at h
    · rename_i hletter
      obtain ⟨⟨n, t⟩, hn, h⟩ := bind_eq_ok_iff.mp h
      obtain rfl := Except.ok.inj h
      rw [if_pos hletter, hexWord_append hn]
      rfl
    · contradiction

/-- The inside of a string is read whatever follows the closing quote. -/
theorem body_append {acc bs u r : Bytes} (h : body acc bs = .ok (u, r)) (rest : Bytes) :
    body acc (bs ++ rest) = .ok (u, r ++ rest) := by
  fun_induction body acc bs with
  | case1 => contradiction
  | case2 acc s =>
    -- The quotation mark at the end.
    obtain ⟨rfl, rfl⟩ := Prod.mk.inj (Except.ok.inj h)
    rw [List.cons_append, body, if_pos rfl]
  | case3 => contradiction
  | case4 acc s v t hu hquote ih =>
    -- An escape is followed by the same text, and then by the rest.
    rw [List.cons_append, body, if_neg hquote, if_pos rfl]
    split
    · rename_i e he
      rw [unescape_append hu] at he
      contradiction
    · rename_i v' t' he
      rw [unescape_append hu] at he
      obtain ⟨rfl, rfl⟩ := Prod.mk.inj (Except.ok.inj he)
      exact ih h
  | case5 => contradiction
  | case6 acc b s hquote hslash hcontrol ih =>
    rw [List.cons_append, body, if_neg hquote, if_neg hslash, if_neg hcontrol]
    exact ih h

/-- A string is read whatever follows it. -/
theorem read_append {bs r : Bytes} {s : String} (h : read bs = .ok (s, r)) (rest : Bytes) :
    read (bs ++ rest) = .ok (s, r ++ rest) := by
  obtain ⟨⟨u, t⟩, hu, h⟩ := bind_eq_ok_iff.mp h
  rw [read, body_append hu, ok_bind]
  simp only at h ⊢
  split at h
  · obtain ⟨rfl, rfl⟩ := Prod.mk.inj (Except.ok.inj h)
    rfl
  · contradiction

/-- A string is passed over whatever follows it. -/
theorem skip_append {bs r : Bytes} (h : skip bs = .ok r) (rest : Bytes) :
    skip (bs ++ rest) = .ok (r ++ rest) := by
  fun_induction skip bs with
  | case1 => contradiction
  | case2 s =>
    obtain rfl := Except.ok.inj h
    rw [List.cons_append, skip, if_pos rfl]
  | case3 => contradiction
  | case4 s t ht hquote ih =>
    -- The escape is passed over in both texts.
    rw [List.cons_append, skip, if_neg hquote, if_pos rfl]
    split
    · rename_i e he
      rw [skipEscape_append ht] at he
      contradiction
    · rename_i t' he
      rw [skipEscape_append ht] at he
      obtain rfl := Except.ok.inj he
      exact ih h
  | case5 => contradiction
  | case6 b s hquote hslash hcontrol ih =>
    rw [List.cons_append, skip, if_neg hquote, if_neg hslash, if_neg hcontrol]
    exact ih h

end Text

end GltfAsset.Json
