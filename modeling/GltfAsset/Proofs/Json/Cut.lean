import GltfAsset.Proofs.Json.Floats
import GltfAsset.Proofs.Json.Written

/-!
# Marks, strings and numbers that are cut short

What is made of the beginning of a mark, a string or a number that was written. The text ends too
early for a literal, a string or the end of an array or object (`EndsEarly`). A number may be
complete without its last digits, and then it takes all that is left of the text (`Cut`); in no
case is it refused as too large, for an exponent without its last digit is no greater than a tenth
of what it was (`Power.valueOf_of_isPrefix`).
-/

namespace GltfAsset.Json

variable {α β : Type}

/-- The text ends too early. -/
def EndsEarly (res : Except Error α) : Prop := ∃ u, res = .error (.endOfInput u)

/-- The text ends too early, or what is read takes all of it. -/
def Cut (res : Except Error (α × Bytes)) : Prop := EndsEarly res ∨ ∃ x, res = .ok (x, [])

/-- This failure is that the text ends too early. -/
theorem endsEarly_error (u : Unfinished) : EndsEarly (.error (.endOfInput u) : Except Error α) :=
  ⟨u, rfl⟩

/-- What ends too early does so whatever comes next. -/
theorem EndsEarly.bind {res : Except Error α} (h : EndsEarly res) (f : α → Except Error β) :
    EndsEarly (res >>= f) := by
  obtain ⟨u, rfl⟩ := h
  exact endsEarly_error u

/-- What ends too early does so whatever would be made of it. -/
theorem EndsEarly.map {res : Except Error α} (h : EndsEarly res) (f : α → β) :
    EndsEarly (res.map f) := by
  obtain ⟨u, rfl⟩ := h
  exact endsEarly_error u

/-- What takes all of the text does so whatever is made of it. -/
theorem Cut.map {res : Except Error (α × Bytes)} (h : Cut res) (f : α → β) :
    Cut (res.map fun p => (f p.1, p.2)) := by
  rcases h with h | ⟨x, rfl⟩
  · exact .inl (h.map _)
  · exact .inr ⟨f x, rfl⟩

/-! ## Beginnings of a text -/

/-- A beginning of two texts in a row ends in the first of them, or in the second. -/
theorem prefix_append_cases {p a b : Bytes} (h : p <+: a ++ b) :
    p <+: a ∨ ∃ q, p = a ++ q ∧ q <+: b := by
  obtain ⟨t, ht⟩ := h
  rcases List.append_eq_append_iff.mp ht with ⟨s, rfl, -⟩ | ⟨q, rfl, rfl⟩
  · exact .inl (List.prefix_append ..)
  · exact .inr ⟨q, rfl, List.prefix_append ..⟩

/-- After white space, a beginning of a text is empty or starts as the text does. -/
theorem skipSpace_of_isPrefix {p w : Bytes} (h : p <+: w) :
    skipSpace p = [] ∨
      ∃ b s t, skipSpace w = b :: s ∧ skipSpace p = b :: t ∧ t <+: s := by
  obtain ⟨t, rfl⟩ := h
  cases hp : skipSpace p with
  | nil => exact .inl rfl
  | cons b s => exact .inr ⟨b, s ++ t, s, skipSpace_append hp, rfl, List.prefix_append ..⟩

/-- A beginning of white space is white space. -/
theorem skipSpace_of_isPrefix_blank {p w : Bytes} (h : p <+: w) (hw : skipSpace w = []) :
    skipSpace p = [] := by
  rcases skipSpace_of_isPrefix h with hp | ⟨b, s, t, hs, -⟩
  · exact hp
  · rw [hw] at hs
    contradiction

/-- Before the mark that closes a list there is only space. -/
theorem skipSpace_of_isPrefix_closed {p w : Bytes} {b : UInt8} (hw : skipSpace w = [])
    (h : p <+: w ++ [b]) (hne : p ≠ w ++ [b]) : skipSpace p = [] :=
  (List.prefix_concat_iff.mp h).elim (fun h => absurd h hne) (skipSpace_of_isPrefix_blank · hw)

/-- No number goes on with the beginning of a text if none does with the text. -/
theorem ends_of_isPrefix {p w : Bytes} (h : p <+: w) (hw : Ends w) : Ends p := by
  obtain ⟨t, rfl⟩ := h
  cases p with
  | nil => exact ends_nil
  | cons b p => exact ends_cons.mpr (ends_cons.mp hw)

/-! ## Marks -/

section

variable {bs : Bytes} (h : skipSpace bs = [])

include h

/-- Nothing is found in white space. -/
theorem endsEarly_found : EndsEarly (Reader.found bs) := by
  rw [Reader.found, h]
  exact endsEarly_error _

/-- A colon is missing. -/
theorem endsEarly_colon : EndsEarly (colon bs) := by
  rw [colon, h]
  exact endsEarly_error _

/-- The next element or the end of the array is missing. -/
theorem endsEarly_nextElement (first : Bool) : EndsEarly (nextElement first bs) := by
  rw [nextElement, h]
  exact endsEarly_error _

/-- After a comma the next element is missing. -/
theorem endsEarly_nextElement_comma : EndsEarly (nextElement false (Mark.comma :: bs)) := by
  rw [nextElement, skipSpace_of_not_space rfl]
  simp only [h]
  exact endsEarly_error _

/-- The end of the array is missing. -/
theorem endsEarly_closeArray : EndsEarly (closeArray bs) := by
  rw [closeArray, h]
  exact endsEarly_error _

/-- The next key or the end of the object is missing. -/
theorem endsEarly_nextKey (first : Bool) : EndsEarly (nextKey first bs) := by
  rw [nextKey, h]
  exact endsEarly_error _

/-- After a comma the next key is missing. -/
theorem endsEarly_nextKey_comma : EndsEarly (nextKey false (Mark.comma :: bs)) := by
  rw [nextKey, skipSpace_of_not_space rfl]
  simp only [h]
  exact endsEarly_error _

end

/-- A word is cut short unless it is all there. -/
theorem literal_of_isPrefix {word p : Bytes} (h : p <+: word) :
    EndsEarly (literal word p) ∨ literal word p = .ok [] := by
  induction word generalizing p with
  | nil =>
    obtain rfl := List.prefix_nil.mp h
    exact .inr rfl
  | cons c word ih =>
    rcases List.prefix_cons_iff.mp h with rfl | ⟨t, rfl, ht⟩
    · exact .inl (endsEarly_error _)
    · rw [literal, if_pos rfl]
      exact ih ht

/-! ## Strings -/

namespace Text

/-- A string without closing quote ends too early. -/
theorem body_nil (acc : Bytes) : body acc [] = .error (.endOfInput .string) := by rw [body]

/-- What is said of an escape is said of the string that it stands in. -/
theorem body_backslash_error {acc r : Bytes} {e : Error} (h : unescape r = .error e) :
    body acc (Mark.backslash :: r) = .error e := by
  rw [body, if_neg (by decide), if_pos rfl]
  split <;> simp_all

/-- What is written for a byte of a string is the byte or an escape. -/
theorem escape_cases (b : UInt8) : escape b = [b] ∨ (∃ c, escape b = [Mark.backslash, c]) ∨
    ∃ c d, escape b = [Mark.backslash, 0x75, 0x30, 0x30, c, d] := by
  unfold escape
  repeat' split
  all_goals simp

/-- A byte of a string is cut short unless what is written for it is all there. -/
theorem endsEarly_body_of_escape {b : UInt8} {p : Bytes} (h : p <+: escape b)
    (hne : p ≠ escape b) (acc : Bytes) : EndsEarly (body acc p) := by
  have hunescape : ∀ r u, unescape r = .error (.endOfInput u) →
      EndsEarly (body acc (Mark.backslash :: r)) := fun r u hr => ⟨u, body_backslash_error hr⟩
  rcases escape_cases b with hb | ⟨d, hb⟩ | ⟨d, e, hb⟩
  · -- The byte itself: nothing of it is left.
    simp only [hb, List.prefix_cons_iff, List.prefix_nil] at h hne
    obtain rfl | ⟨_, rfl, rfl⟩ := h
    · exact ⟨_, body_nil acc⟩
    · contradiction
  · -- A backslash and a letter: the letter is missing.
    simp only [hb, List.prefix_cons_iff, List.prefix_nil] at h hne
    obtain rfl | ⟨_, rfl, rfl | ⟨_, rfl, rfl⟩⟩ := h
    · exact ⟨_, body_nil acc⟩
    · exact hunescape [] _ rfl
    · contradiction
  · -- A code point: some of its four digits are missing.
    simp only [hb, List.prefix_cons_iff, List.prefix_nil] at h hne
    obtain rfl | ⟨_, rfl, rfl | ⟨_, rfl, rfl | ⟨_, rfl, rfl | ⟨_, rfl, rfl | ⟨_, rfl, rfl |
      ⟨_, rfl, rfl⟩⟩⟩⟩⟩⟩ := h
    · exact ⟨_, body_nil acc⟩
    · exact hunescape [] _ rfl
    · exact hunescape [0x75] _ rfl
    · exact hunescape [0x75, 0x30] _ rfl
    · exact hunescape [0x75, 0x30, 0x30] _ rfl
    · exact hunescape [0x75, 0x30, 0x30, d] _ rfl
    · contradiction

/-- The bytes of a string are cut short unless the closing quote is there. -/
theorem endsEarly_body_of_isPrefix {bs p : Bytes} (h : p <+: bs.flatMap escape ++ [Mark.quote])
    (hne : p ≠ bs.flatMap escape ++ [Mark.quote]) (acc : Bytes) : EndsEarly (body acc p) := by
  induction bs generalizing p acc with
  | nil =>
    simp only [List.flatMap_nil, List.nil_append, List.prefix_cons_iff, List.prefix_nil] at h hne
    obtain rfl | ⟨_, rfl, rfl⟩ := h
    · exact ⟨_, body_nil acc⟩
    · contradiction
  | cons b bs ih =>
    rw [List.flatMap_cons, List.append_assoc] at h hne
    by_cases hb : p <+: escape b ∧ p ≠ escape b
    · exact endsEarly_body_of_escape hb.1 hb.2 acc
    · -- The text of the byte is all there, and the rest is cut short.
      obtain ⟨q, rfl, hq⟩ : ∃ q, p = escape b ++ q ∧ q <+: bs.flatMap escape ++ [Mark.quote] := by
        rcases prefix_append_cases h with hp | hp
        · obtain rfl : p = escape b := by
            by_contra hne
            exact hb ⟨hp, hne⟩
          exact ⟨[], (List.append_nil _).symm, List.nil_prefix⟩
        · exact hp
      rw [body_escape]
      exact ih hq (fun heq => hne (by rw [heq])) _

/-- A string is cut short unless its closing quote is there. -/
theorem endsEarly_read_of_isPrefix {s : String} {p : Bytes} (h : p <+: quoted s)
    (hne : p ≠ quoted s) : EndsEarly (read p) :=
  (endsEarly_body_of_isPrefix h hne []).bind _

end Text

/-! ## Integers and other numbers -/

namespace Number

/-- The beginnings of a decimal are those of its quotients by powers of ten. -/
theorem exists_decimal_of_isPrefix {n : Nat} {p : Bytes} (h : p <+: decimal n) (hne : p ≠ []) :
    ∃ m ≤ n, p = decimal m ∧ (m = 0 → n = 0) := by
  induction n using Nat.strongRecOn generalizing p with
  | _ n ih =>
    rcases Nat.lt_or_ge n 10 with hlt | hge
    · -- A single digit has no beginning but itself.
      have hd := decimal_of_lt hlt
      rw [hd] at h
      rcases List.prefix_cons_iff.mp h with rfl | ⟨t, rfl, ht⟩
      · exact absurd rfl hne
      · exact ⟨n, Nat.le_refl n, by rw [hd, List.prefix_nil.mp ht], id⟩
    · -- The last digit is there, or the beginning is one of the tenth of the number.
      have hd := decimal_of_le hge
      rw [hd] at h
      rcases List.prefix_concat_iff.mp h with rfl | hp
      · exact ⟨n, Nat.le_refl n, hd.symm, id⟩
      · obtain ⟨m, hm, rfl, hzero⟩ := ih (n / 10) (by omega) hp hne
        exact ⟨m, by omega, rfl, fun h => by have := hzero h; omega⟩

/-- An integer that is cut short is one of the same sign that is no greater, or only a sign. -/
theorem exists_ofInt_of_isPrefix {n : Int} {p : Bytes} (h : p <+: ofInt n) :
    p = [] ∨ p = [Mark.minus] ∨ ∃ m, p = ofInt m ∧ min n 0 ≤ m ∧ m ≤ max n 0 := by
  have hdecimal : Bytes.ofChars (Nat.toDigits 10 n.natAbs) = decimal n.natAbs := rfl
  have hofInt : ∀ m : Nat, ofInt m = decimal m := fun m => by
    rw [ofInt, if_neg (by omega), Int.natAbs_natCast]
    rfl
  have hofNeg : ∀ m : Nat, m ≠ 0 → ofInt (-m) = Mark.minus :: decimal m := fun m hm => by
    rw [ofInt, if_pos (by omega), Int.natAbs_neg, Int.natAbs_natCast]
    rfl
  rw [ofInt, hdecimal] at h
  by_cases hp : p = []
  · exact .inl hp
  · by_cases hneg : n < 0
    · -- Behind the sign stands a beginning of the digits, if anything does.
      simp only [if_pos hneg, List.prefix_cons_iff] at h
      obtain rfl | ⟨t, rfl, ht⟩ := h
      · exact .inl rfl
      · by_cases ht' : t = []
        · exact .inr (.inl (by rw [ht']))
        · obtain ⟨m, hm, rfl, hzero⟩ := exists_decimal_of_isPrefix ht ht'
          refine .inr (.inr ⟨-m, (hofNeg m fun h => ?_).symm, by omega, by omega⟩)
          have := hzero h
          omega
    · simp only [if_neg hneg] at h
      obtain ⟨m, hm, rfl, -⟩ := exists_decimal_of_isPrefix h hp
      exact .inr (.inr ⟨m, (hofInt m).symm, by omega, by omega⟩)

/-- The powers of ten up to the sixtieth are below 2 ^ 200. -/
theorem numerator_powerOfTen_lt : ∀ k ≤ 60, Format.double.numerator (powerOfTen k) <
    2 ^ 200 * Format.double.denominator (powerOfTen k) := by
  decide +kernel

/-- A significand times one of these powers of ten is finite. -/
theorem mul_lt_top {m k : Nat} (hm : m ≤ reach) (hk : k ≤ 60) :
    Format.double.mul m (powerOfTen k) < Format.double.top := by
  -- The significand is below 2 ^ 66 and the power of ten below 2 ^ 200.
  have hlt : Format.double.numerator m * Format.double.numerator (powerOfTen k) <
      2 ^ 266 * (Format.double.denominator m * Format.double.denominator (powerOfTen k)) := by
    calc Format.double.numerator m * Format.double.numerator (powerOfTen k)
        < 2 ^ 66 * Format.double.denominator m *
          (2 ^ 200 * Format.double.denominator (powerOfTen k)) :=
          Nat.mul_lt_mul'' (numerator_lt_of_le_reach hm) (numerator_powerOfTen_lt k hk)
      _ = 2 ^ 266 * (Format.double.denominator m * Format.double.denominator (powerOfTen k)) := by
          rw [show 266 = 66 + 200 from rfl, Nat.pow_add]
          ac_rfl
  exact Nat.lt_of_le_of_lt (Format.round_le hlt) (by decide +kernel)

/-- A significand times a power of ten that is far from the greatest one is finite. -/
theorem exists_scale {m : Nat} {e : Int} (hm : m ≤ reach) (he : e ≤ 60) :
    ∃ p, scale m e = .ok p := by
  fun_induction scale m e with
  | case1 m e hpower hsign p htop =>
    have := mul_lt_top hm (show e.natAbs ≤ 60 by omega)
    omega
  | case2 m e hpower hsign p htop => exact ⟨p, rfl⟩
  | case3 => exact ⟨_, rfl⟩
  | case4 => exact ⟨_, rfl⟩
  | case5 m e hpower hzero hsign =>
    simp only [maxPower] at hpower
    omega
  | case6 m e hpower hzero hsign ih =>
    exact ih (div_le_reach hm) (by simp only [maxPower] at *; omega)

/-- Zero is no greater for any power of ten. -/
theorem exists_scale_zero (e : Int) : ∃ p, scale 0 e = .ok p := by
  have hmul : ∀ p, Format.double.mul 0 p = 0 := fun p => by
    simp [Format.mul, Format.numerator, Format.significand, Format.round, Format.binade,
      Format.double]
  rw [scale]
  split
  · split
    · rw [hmul]
      exact ⟨0, if_neg (by decide)⟩
    · exact ⟨_, rfl⟩
  · exact ⟨0, if_pos rfl⟩

/-- A number other than zero is refused if its power of ten is above the greatest one. -/
theorem le_maxPower_of_scale {m p : Nat} {e : Int} (hm : m ≠ 0) (h : scale m e = .ok p) :
    e ≤ maxPower := by
  by_contra hlt
  rw [scale, if_neg (by omega), if_neg hm, if_pos (by omega)] at h
  contradiction

variable {negative : Bool} {s : Nat} {e : Int}

/-- A number is not too large if its power of ten is at most the sixtieth. -/
theorem exists_ofParts (hs : s < limit) (he : e ≤ 60) : ∃ x, ofParts negative s e = .ok x := by
  obtain ⟨p, hp⟩ := exists_scale (round_le_reach hs) he
  exact ⟨_, by rw [ofParts, hp, map_ok]⟩

/-- Zero is a number for any power of ten. -/
theorem exists_ofParts_zero (e : Int) : ∃ x, ofParts negative 0 e = .ok x := by
  obtain ⟨p, hp⟩ := exists_scale_zero e
  exact ⟨_, by rw [ofParts, Format.round, if_pos rfl, hp, map_ok]⟩

/-- No more digits are dropped than there are. -/
theorem dropped_gather_le (s : Nat) (ds : Bytes) : (gather s ds).dropped ≤ ds.length := by
  have hfold : ∀ g : Gathered, (ds.foldl Gathered.push g).dropped ≤ g.dropped + ds.length := by
    induction ds with
    | nil => exact fun g => Nat.le_refl _
    | cons d ds ih =>
      intro g
      have hpush : (g.push d).dropped ≤ g.dropped + 1 := by
        unfold Gathered.push
        grind
      have := ih (g.push d)
      simp only [List.foldl_cons, List.length_cons]
      omega
  simpa [gather] using hfold ⟨s, 0, 0⟩

/-- An exponent without its last digits is no greater than a tenth of what it was, unless it is too
large to be taken at its value. -/
theorem exponentValue_append_le {ds ts : Bytes} (hts : ts ≠ [])
    (h : exponentValue (ds ++ ts) ≤ maxExponent) :
    10 * exponentValue ds ≤ exponentValue (ds ++ ts) := by
  -- Each digit makes the exponent at least ten times as great, as long as it is not too large.
  have hpush : ∀ n d, min (maxExponent + 1) (10 * n + digitValue d) ≤ maxExponent →
      10 * n ≤ min (maxExponent + 1) (10 * n + digitValue d) := by
    intro n d h
    omega
  have hfold : ∀ (ts : Bytes) (n : Nat),
      ts.foldl (fun n d => min (maxExponent + 1) (10 * n + digitValue d)) n ≤ maxExponent →
      n ≤ ts.foldl (fun n d => min (maxExponent + 1) (10 * n + digitValue d)) n := by
    intro ts
    induction ts with
    | nil => exact fun n _ => Nat.le_refl n
    | cons d ts ih =>
      intro n h
      simp only [List.foldl_cons] at h ⊢
      have h₁ := ih _ h
      have h₂ := hpush n d (h₁.trans h)
      omega
  -- The first digit that was cut off makes it ten times as great, and the others no less.
  obtain ⟨d, ts, rfl⟩ := List.exists_cons_of_ne_nil hts
  simp only [exponentValue, List.foldl_append, List.foldl_cons] at h ⊢
  have h₁ := hfold ts _ h
  exact (hpush _ d (h₁.trans h)).trans h₁

end Number

namespace Power

open Number

variable {negative : Bool} {s : Nat} {e : Int}

/-- A number that is not too large is not so either if the last digits of its exponent are cut
off. -/
theorem valueOf_of_isPrefix {down : Bool} {ds ds' : Bytes} {x : Number} (hs : s < limit)
    (he : e ≤ 20) (h : valueOf down ds negative s e = .ok x) (hp : ds' <+: ds) :
    ∃ y, valueOf down ds' negative s e = .ok y := by
  obtain ⟨ts, rfl⟩ := hp
  rcases eq_or_ne ts [] with rfl | hts
  · exact ⟨x, by rwa [List.append_nil] at h⟩
  have htenth : exponentValue (ds' ++ ts) ≤ maxExponent →
      10 * exponentValue ds' ≤ exponentValue (ds' ++ ts) := exponentValue_append_le hts
  simp only [valueOf] at h ⊢
  split
  · -- If this exponent is too large to be taken at its value, so is the one with more digits.
    rename_i hlarge
    refine ⟨_, if_neg fun hup => ?_⟩
    rw [if_pos (by omega), if_pos hup] at h
    contradiction
  · cases down with
    | true =>
      -- A negative exponent makes no number too large.
      exact exists_ofParts hs (by simp only [if_true]; omega)
    | false =>
      -- A positive one is at most a tenth of what it was, which was not too large.
      simp only [Bool.false_eq_true, if_false, not_false_eq_true, and_true] at h ⊢
      rcases eq_or_ne s 0 with rfl | hzero
      · exact exists_ofParts_zero _
      rw [if_pos hzero] at h
      split at h
      · contradiction
      · rename_i hsmall
        obtain ⟨p, hp, -⟩ := map_eq_ok_iff.mp h
        rcases eq_or_ne (Format.double.round s 1) 0 with hround | hround
        · obtain ⟨q, hq⟩ := exists_scale_zero (e + exponentValue ds')
          exact ⟨_, by rw [ofParts, hround, hq, map_ok]⟩
        · have hpower := le_maxPower_of_scale hround hp
          have := htenth (by omega)
          exact exists_ofParts hs (by simp only [maxPower] at hpower; omega)

end Power

namespace Number

variable {negative : Bool} {s : Nat} {e : Int} {x : Number} {q : Bytes}

/-- The beginning of a text starts with a digit only if the text does. -/
theorem noDigit_of_isPrefix {w : Bytes} (h : q <+: w) (hw : NoDigit w) : NoDigit q := by
  obtain ⟨t, rfl⟩ := h
  cases q with
  | nil => exact fun _ hb => by contradiction
  | cons b q => exact hw

/-- An exponent without its last digits is one, and without all of them the text ends too early. -/
theorem cut_readExponent {sign : Option Bool} {ds : Bytes} (hs : s < limit) (he : e ≤ 20)
    (hds : ∀ d ∈ ds, isDigit d = true)
    (h : Power.valueOf (sign == some true) ds negative s e = .ok x)
    (hq : q <+: Power.signText sign ++ ds) : Cut (readExponent negative s e q) := by
  -- Without a digit the text ends too early, be the sign there or not.
  have hsign : ∀ q, q <+: Power.signText sign → Cut (readExponent negative s e q) := by
    intro q hq
    have hcases : q = [] ∨ q = [Mark.minus] ∨ q = [Mark.plus] := by
      rcases sign with - | (- | -)
      · exact .inl (List.prefix_nil.mp hq)
      all_goals
        simp only [Power.signText, List.prefix_cons_iff, List.prefix_nil] at hq
        grind
    obtain rfl | rfl | rfl := hcases
    all_goals exact .inl (endsEarly_error _)
  rcases prefix_append_cases hq with hq | ⟨t, rfl, ht⟩
  · exact hsign q hq
  · rcases eq_or_ne t [] with rfl | hne
    · exact hsign _ (by simp)
    · -- With at least one digit there is an exponent.
      obtain ⟨y, hy⟩ := Power.valueOf_of_isPrefix hs he h ht
      have hread : readExponent negative s e (Power.signText sign ++ (t ++ [])) =
          (Power.valueOf (sign == some true) t negative s e).map (·, []) :=
        readExponent_digits hne (fun d hd => hds d (ht.subset hd)) (noDigit_of_ends ends_nil)
      rw [List.append_nil, hy] at hread
      exact .inr ⟨y, hread⟩

/-- A number may be cut before its power of ten, or in it. -/
theorem cut_finish {p : Option Power} (hs : s < limit) (he : e ≤ 20)
    (h : Power.value negative s e p = .ok x) (hq : q <+: Power.text p) :
    Cut (finish negative s e q) := by
  -- Without the power the number is complete.
  have hnil : Cut (finish negative s e []) := by
    obtain ⟨y, hy⟩ : ∃ y, ofParts negative s e = .ok y := exists_ofParts hs (by omega)
    exact .inr ⟨y, by rw [finish, hy, map_ok]⟩
  cases p with
  | none =>
    rw [List.prefix_nil.mp hq]
    exact hnil
  | some p =>
    rcases List.prefix_cons_iff.mp hq with rfl | ⟨t, rfl, ht⟩
    · exact hnil
    · rw [finish, if_pos p.isExponentMark_letter]
      exact cut_readExponent hs he p.isDigit h ht

/-- A number may be cut in its fraction, or in the power after it. -/
theorem cut_readFraction {ds : Bytes} {p : Option Power} (hs : s < limit) (he : e ≤ 20)
    (hne : ds ≠ []) (hds : ∀ d ∈ ds, isDigit d = true)
    (h : Power.value negative (gather s ds).significand (e - (gather s ds).kept) p = .ok x)
    (hq : q <+: ds ++ Power.text p) : Cut (readFraction negative s e q) := by
  rcases prefix_append_cases hq with hq | ⟨t, rfl, ht⟩
  · rcases eq_or_ne q [] with rfl | hne
    · exact .inl (endsEarly_error _)
    · -- Some of the digits are left.
      have hread : readFraction negative s e (q ++ []) =
          finish negative (gather s q).significand (e - (gather s q).kept) [] :=
        readFraction_append_digits hne (fun d hd => hds d (hq.subset hd)) (noDigit_of_ends ends_nil)
      obtain ⟨y, hy⟩ : ∃ y, ofParts negative (gather s q).significand (e - (gather s q).kept) =
          .ok y := exists_ofParts (significand_gather_lt hs) (by omega)
      rw [List.append_nil, finish, hy] at hread
      exact .inr ⟨y, hread⟩
  · -- The digits are all there, and what is cut short is the power after them.
    have hnext : NoDigit t := by
      have := noDigit_power (p := p) ends_nil
      rw [List.append_nil] at this
      exact noDigit_of_isPrefix ht this
    rw [readFraction_append_digits hne hds hnext]
    exact cut_finish (significand_gather_lt hs) (by omega) h ht

variable {n : Numeral}

/-- A number may be cut right after its whole digits, or in the fraction or the power after them. -/
theorem cut_afterWhole (hlength : n.whole.length ≤ 20) (h : n.value = .ok x)
    (hq : q <+: Numeral.fractionText n.fraction ++ Power.text n.power) :
    Cut (afterWhole n.negative (gather 0 n.whole) q) := by
  have hs : (gather 0 n.whole).significand < limit := significand_gather_lt (by decide +kernel)
  have he : ((gather 0 n.whole).dropped : Int) ≤ 20 := by
    have := dropped_gather_le 0 n.whole
    omega
  -- Right after its whole digits the number is complete.
  have hnil : Cut (afterWhole n.negative (gather 0 n.whole) []) := by
    obtain ⟨y, hy⟩ : ∃ y, ofParts n.negative (gather 0 n.whole).significand
        (gather 0 n.whole).dropped = .ok y := exists_ofParts hs (by omega)
    rw [afterWhole]
    split
    · exact .inr ⟨_, rfl⟩
    · exact cut_finish (p := none) hs he hy List.nil_prefix
  rcases eq_or_ne q [] with rfl | hne
  · exact hnil
  have hds := n.isDigit_fraction
  unfold Numeral.value at h
  cases hn : n.fraction with
  | cons d ds =>
    -- What is left starts with the point of the fraction.
    rw [hn] at hds hq
    simp only [hn] at h
    rcases List.prefix_cons_iff.mp hq with rfl | ⟨t, rfl, ht⟩
    · contradiction
    · rw [afterWhole, if_pos rfl]
      exact cut_readFraction hs he (List.cons_ne_nil d ds) hds h ht
  | nil =>
    -- There is no fraction, so it starts with the letter of the power, if there is one.
    rw [hn, Numeral.fractionText, List.nil_append] at hq
    cases hp : n.power with
    | none =>
      rw [hp] at hq
      exact absurd (List.prefix_nil.mp hq) hne
    | some p =>
      rw [hp] at hq
      simp only [hn, hp] at h
      rcases List.prefix_cons_iff.mp hq with rfl | ⟨t, rfl, ht⟩
      · contradiction
      · rw [afterWhole, if_neg p.letter_ne_point, if_pos (.inl p.isExponentMark_letter)]
        exact cut_finish hs he h hq

/-- The digits before the point are a number by themselves, and so are the first of them. -/
theorem cut_readUnsigned_whole (hlength : n.whole.length ≤ 20) (hq : q <+: n.whole) :
    Cut (readUnsigned n.negative q) := by
  rcases eq_or_ne q [] with rfl | hne
  · exact .inl (endsEarly_error _)
  · -- A zero in front is the only digit, as it is in the whole number.
    have hlead : q.head? = some 0x30 → q = [0x30] := by
      intro hzero
      obtain ⟨t, ht⟩ := hq
      have hwhole := n.lead (by rw [← ht, List.head?_append_of_ne_nil _ hne, hzero])
      obtain ⟨d, q, rfl⟩ := List.exists_cons_of_ne_nil hne
      rw [← ht, List.cons_append] at hwhole
      obtain ⟨rfl, hnil⟩ := List.cons.inj hwhole
      rw [(List.append_eq_nil_iff.mp hnil).1]
    -- So the first digits write a number, which is not too large.
    let k : Numeral := ⟨n.negative, q, hne, fun d hd => n.isDigit_whole d (hq.subset hd), hlead,
      [], by simp, none⟩
    obtain ⟨y, hy⟩ : ∃ y, k.value = .ok y := by
      have hdropped := dropped_gather_le 0 q
      have := hq.length_le
      simp only [k, Numeral.value]
      split
      · exact ⟨_, rfl⟩
      · exact exists_ofParts (significand_gather_lt (by decide +kernel)) (by omega)
    have hread := readUnsigned_numeral k ends_nil
    rw [List.append_nil, hy] at hread
    simp only [k, Numeral.unsigned, Numeral.fractionText, Power.text, List.append_nil] at hread
    exact .inr ⟨y, hread⟩

/-- A number without sign may be cut in its whole digits, or after them. -/
theorem cut_readUnsigned (hlength : n.whole.length ≤ 20) (h : n.value = .ok x)
    (hq : q <+: n.unsigned) : Cut (readUnsigned n.negative q) := by
  rcases prefix_append_cases hq with hq | ⟨t, rfl, ht⟩
  · exact cut_readUnsigned_whole hlength hq
  · -- The whole digits are all there.
    have hnext : NoDigit t := by
      have := noDigit_fraction n.fraction n.power ends_nil
      rw [List.append_nil] at this
      exact noDigit_of_isPrefix ht this
    rw [readUnsigned_append_whole n hnext]
    exact cut_afterWhole hlength h ht

/-- A number that is not too large is cut short before its digits, its fraction or its exponent are
over; elsewhere it is a number without its end. -/
theorem cut_read (hlength : n.whole.length ≤ 20) (h : n.value = .ok x) (hq : q <+: n.text) :
    Cut (read q) := by
  rcases eq_or_ne q [] with rfl | hne
  · exact .inl (endsEarly_error _)
  have hread : ∀ t, t <+: n.unsigned → Cut (readUnsigned n.negative t) :=
    fun t ht => cut_readUnsigned hlength h ht
  -- What is left is what comes after the sign, if there is one.
  rw [Numeral.text] at hq
  cases hnegative : n.negative with
  | true =>
    rw [hnegative] at hq hread
    rcases List.prefix_cons_iff.mp hq with rfl | ⟨t, rfl, ht⟩
    · contradiction
    · exact hread t ht
  | false =>
    rw [hnegative, if_neg (by decide)] at hq
    rw [hnegative] at hread
    obtain ⟨d, ds, hn⟩ := List.exists_cons_of_ne_nil n.whole_ne_nil
    have hq' := hq
    rw [Numeral.unsigned, hn, List.cons_append] at hq'
    rcases List.prefix_cons_iff.mp hq' with rfl | ⟨t, rfl, -⟩
    · contradiction
    · rw [read, if_neg (ne_minus_of_whole n hn)]
      exact hread _ hq

end Number

end GltfAsset.Json
