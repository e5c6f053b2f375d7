import Mathlib.Data.List.TakeWhile
import GltfAsset.Proofs.Json.Range

/-!
# The grammar of numbers

A `Numeral` is a number as JSON writes it: a sign, digits before the point, digits after it, and an
exponent, all but the digits before the point being optional. Its text is passed over to its end
(`Number.skipUnsigned_numeral`), and it is read to its end, or refused because the number is too
large, as its value says (`Number.read_numeral`).
-/

namespace GltfAsset.Json

open Number

/-- An exponent. -/
structure Power where
  /-- Whether its letter is a capital. -/
  capital : Bool
  /-- Its sign, if there is one: whether it is a minus sign. -/
  sign : Option Bool
  /-- Its digits. -/
  digits : Bytes
  /-- There are digits. -/
  ne_nil : digits ≠ []
  /-- All of them are digits. -/
  isDigit : ∀ d ∈ digits, isDigit d = true

/-- A number. -/
structure Numeral where
  /-- Whether it has a minus sign. -/
  negative : Bool
  /-- The digits before the point. -/
  whole : Bytes
  /-- There are digits before the point. -/
  whole_ne_nil : whole ≠ []
  /-- All of them are digits. -/
  isDigit_whole : ∀ d ∈ whole, isDigit d = true
  /-- A zero at the front stands alone. -/
  lead : whole.head? = some 0x30 → whole = [0x30]
  /-- The digits after the point; without any there is no point. -/
  fraction : Bytes
  /-- All of them are digits. -/
  isDigit_fraction : ∀ d ∈ fraction, isDigit d = true
  /-- The exponent, if there is one. -/
  power : Option Power

namespace Power

/-- The sign of an exponent. -/
def signText : Option Bool → Bytes
  | none => []
  | some true => [Mark.minus]
  | some false => [Mark.plus]

/-- The letter of an exponent. -/
def letter (p : Power) : UInt8 := if p.capital then 0x45 else 0x65

/-- The text of an exponent that may be absent. -/
def text : Option Power → Bytes
  | none => []
  | some p => p.letter :: (signText p.sign ++ p.digits)

/-- The letter of a power of ten is a mark of an exponent. -/
theorem isExponentMark_letter (p : Power) : isExponentMark p.letter = true := by
  unfold letter
  split <;> rfl

/-- The letter of a power of ten is no point. -/
theorem letter_ne_point (p : Power) : p.letter ≠ Mark.point := by
  unfold letter
  split <;> decide

/-- The letter of a power of ten is no digit. -/
theorem isDigit_letter (p : Power) : Json.isDigit p.letter = false := by
  unfold letter
  split <;> rfl

/-- The number with the given sign, significand and exponent, to which the digits of a further
exponent are added, or from which they are taken if it is negative. -/
def valueOf (down : Bool) (ds : Bytes) (negative : Bool) (s : Nat) (e : Int) :
    Except Error Number :=
  let k := exponentValue ds
  if maxExponent < k then
    if s ≠ 0 ∧ ¬down then .error .numberOutOfRange else .ok (.float (.ofMagnitude negative 0))
  else ofParts negative s (if down then e - k else e + k)

/-- The number with the given sign, significand and exponent before the exponent that is
written. -/
def value (negative : Bool) (s : Nat) (e : Int) : Option Power → Except Error Number
  | none => ofParts negative s e
  | some p => valueOf (p.sign == some true) p.digits negative s e

end Power

namespace Numeral

variable (n : Numeral)

/-- The text of a fraction. -/
def fractionText : Bytes → Bytes
  | [] => []
  | d :: ds => Mark.point :: d :: ds

/-- The text after the sign. -/
def unsigned : Bytes := n.whole ++ (fractionText n.fraction ++ Power.text n.power)

/-- A number without sign is written part by part. -/
theorem unsigned_append (rest : Bytes) : n.unsigned ++ rest =
    n.whole ++ (fractionText n.fraction ++ (Power.text n.power ++ rest)) := by
  rw [unsigned, List.append_assoc, List.append_assoc]

/-- The text of a number. -/
def text : Bytes := if n.negative then Mark.minus :: n.unsigned else n.unsigned

/-- The number that is meant, if it is not too large. -/
def value : Except Error Number :=
  let g := gather 0 n.whole
  match n.fraction, n.power with
  | [], none =>
    if g.dropped = 0 then .ok (Number.whole n.negative g.significand)
    else ofParts n.negative g.significand g.dropped
  | [], p => Power.value n.negative g.significand g.dropped p
  | ds, p =>
    let h := gather g.significand ds
    Power.value n.negative h.significand (g.dropped - h.kept) p

end Numeral

/-! ## Reading -/

namespace Number

/-- No digit comes next. -/
def NoDigit (bs : Bytes) : Prop := ∀ b ∈ bs.head?, isDigit b = false

/-- A text that no number goes on with starts with no digit. -/
theorem noDigit_of_ends {bs : Bytes} (h : Ends bs) : NoDigit bs := fun b hb => (h b hb).1

section

variable {ds rest : Bytes}

/-- The digits of a text are those at its start. -/
theorem digits_of_isDigit (hds : ∀ d ∈ ds, isDigit d = true) (hrest : NoDigit rest) :
    digits (ds ++ rest) = ds := by
  rw [digits, List.takeWhile_append_of_pos hds]
  cases rest with
  | nil => simp
  | cons b rest => simp [hrest b rfl]

/-- What follows the digits of a text is left. -/
theorem afterDigits_of_isDigit (hds : ∀ d ∈ ds, isDigit d = true) (hrest : NoDigit rest) :
    afterDigits (ds ++ rest) = rest := by
  rw [afterDigits, List.dropWhile_append_of_pos hds]
  cases rest with
  | nil => rfl
  | cons b rest => simp [hrest b rfl]

/-- The sign of an exponent is told from its digits. -/
theorem exponentSign_signText (sign : Option Bool) {d : UInt8} (hd : isDigit d = true)
    (rest : Bytes) : exponentSign (Power.signText sign ++ d :: rest) =
      (sign == some true, d :: rest) := by
  cases sign with
  | none =>
    have hplus : d ≠ Mark.plus := by
      rintro rfl
      contradiction
    have hminus : d ≠ Mark.minus := by
      rintro rfl
      contradiction
    simp [Power.signText, exponentSign, hplus, hminus]
  | some down => cases down <;> rfl

end

variable {negative : Bool} {s : Nat} {e : Int} {rest : Bytes}

/-- The digits of an exponent are read at their value. -/
theorem readExponent_digits {sign : Option Bool} {ds : Bytes} (hne : ds ≠ [])
    (hds : ∀ d ∈ ds, isDigit d = true) (hrest : NoDigit rest) :
    readExponent negative s e (Power.signText sign ++ (ds ++ rest)) =
      (Power.valueOf (sign == some true) ds negative s e).map (·, rest) := by
  obtain ⟨d, ds, rfl⟩ := List.exists_cons_of_ne_nil hne
  have hd : isDigit d = true := hds d List.mem_cons_self
  rw [readExponent, List.cons_append, exponentSign_signText sign hd, ← List.cons_append]
  simp only [List.cons_append, hd, if_true]
  rw [← List.cons_append, digits_of_isDigit hds hrest, afterDigits_of_isDigit hds hrest,
    Power.valueOf]
  split
  · split <;> rfl
  · cases ofParts negative s _ <;> rfl

/-- A mark of an exponent comes next, or what comes next is no part of a number. -/
theorem noDigit_power {p : Option Power} (hrest : Ends rest) : NoDigit (Power.text p ++ rest) := by
  cases p with
  | none => exact noDigit_of_ends hrest
  | some p =>
    intro b hb
    obtain rfl := Option.some.inj hb
    exact p.isDigit_letter

/-- What a number ends with is a power of ten or nothing. -/
theorem finish_power {p : Option Power} (hrest : Ends rest) :
    finish negative s e (Power.text p ++ rest) = (Power.value negative s e p).map (·, rest) := by
  cases p with
  | none =>
    cases rest with
    | nil => rfl
    | cons b rest => simp [Power.text, Power.value, finish, (ends_cons.mp hrest).2.2]
  | some p =>
    rw [Power.text, List.cons_append, finish, if_pos p.isExponentMark_letter,
      List.append_assoc,
      readExponent_digits p.ne_nil p.isDigit (noDigit_of_ends hrest)]
    rfl

/-- The digits of a fraction are gathered. -/
theorem readFraction_append_digits {ds : Bytes} (hne : ds ≠ []) (hds : ∀ d ∈ ds, isDigit d = true)
    (hrest : NoDigit rest) : readFraction negative s e (ds ++ rest) =
      finish negative (gather s ds).significand (e - (gather s ds).kept) rest := by
  obtain ⟨d, ds, rfl⟩ := List.exists_cons_of_ne_nil hne
  have hd : isDigit d = true := hds d List.mem_cons_self
  rw [List.cons_append, readFraction, if_pos hd, ← List.cons_append, digits_of_isDigit hds hrest,
    afterDigits_of_isDigit hds hrest]

/-- After the digits before the point comes a point, or else an exponent if there is one. -/
theorem noDigit_fraction (ds : Bytes) (p : Option Power) (hrest : Ends rest) :
    NoDigit (Numeral.fractionText ds ++ (Power.text p ++ rest)) := by
  cases ds with
  | nil => exact noDigit_power hrest
  | cons d ds =>
    intro b hb
    obtain rfl := Option.some.inj hb
    rfl

/-- A fraction and a power of ten are read behind the whole part. -/
theorem afterWhole_numeral (n : Numeral) (hrest : Ends rest) :
    afterWhole n.negative (gather 0 n.whole)
      (Numeral.fractionText n.fraction ++ (Power.text n.power ++ rest)) =
      n.value.map (·, rest) := by
  unfold Numeral.value
  have hds := n.isDigit_fraction
  cases hn : n.fraction with
  | cons d ds =>
    rw [hn] at hds
    rw [Numeral.fractionText, List.cons_append, afterWhole, if_pos rfl,
      readFraction_append_digits (List.cons_ne_nil d ds) hds (noDigit_power hrest)]
    exact finish_power hrest
  | nil =>
    cases hp : n.power with
    | none =>
      -- A whole number, unless too many of its digits were passed over.
      simp only [Numeral.fractionText, Power.text, List.nil_append]
      cases rest with
      | nil =>
        rw [afterWhole]
        split <;> rfl
      | cons b rest =>
        obtain ⟨-, hpoint, hmark⟩ := ends_cons.mp hrest
        by_cases hdropped : (gather 0 n.whole).dropped = 0
        · simp [afterWhole, hpoint, hmark, hdropped, Except.map]
        · simp [afterWhole, hpoint, hmark, hdropped, finish]
    | some p =>
      have hfinish : finish n.negative (gather 0 n.whole).significand (gather 0 n.whole).dropped
            (Power.text (some p) ++ rest) =
          (Power.value n.negative (gather 0 n.whole).significand (gather 0 n.whole).dropped
            (some p)).map (·, rest) := finish_power hrest
      rw [Power.text, List.cons_append] at hfinish
      rw [Numeral.fractionText, List.nil_append, Power.text, List.cons_append, afterWhole,
        if_neg p.letter_ne_point, if_pos (.inl p.isExponentMark_letter)]
      exact hfinish

/-- A zero at the front is not followed by a digit. -/
theorem not_zero_digit (n : Numeral) {d : UInt8} {ds : Bytes} (hn : n.whole = d :: ds)
    (hrest : NoDigit rest) : ¬ (d = 0x30 ∧ digits (ds ++ rest) ≠ []) := by
  rintro ⟨rfl, hne⟩
  have hlead := n.lead (by rw [hn]; rfl)
  rw [hn] at hlead
  obtain rfl := (List.cons.inj hlead).2
  exact hne (digits_of_isDigit (by simp) hrest)

/-- The digits before the point are gathered. -/
theorem readUnsigned_append_whole (n : Numeral) (hrest : NoDigit rest) :
    readUnsigned n.negative (n.whole ++ rest) =
      afterWhole n.negative (gather 0 n.whole) rest := by
  obtain ⟨d, ds, hn⟩ := List.exists_cons_of_ne_nil n.whole_ne_nil
  have hd : isDigit d = true := n.isDigit_whole d (hn ▸ List.mem_cons_self)
  have hds := n.isDigit_whole
  have hzero := not_zero_digit n hn hrest
  rw [hn] at hds ⊢
  rw [List.cons_append, readUnsigned, if_neg (not_not_intro hd), if_neg hzero, ← List.cons_append,
    digits_of_isDigit hds hrest, afterDigits_of_isDigit hds hrest]

/-- A number without sign is read at its value. -/
theorem readUnsigned_numeral (n : Numeral) (hrest : Ends rest) :
    readUnsigned n.negative (n.unsigned ++ rest) = n.value.map (·, rest) := by
  rw [Numeral.unsigned_append,
    readUnsigned_append_whole n (noDigit_fraction n.fraction n.power hrest)]
  exact afterWhole_numeral n hrest

/-- The first digit of a number is no sign. -/
theorem ne_minus_of_whole (n : Numeral) {d : UInt8} {ds : Bytes} (hn : n.whole = d :: ds) :
    d ≠ Mark.minus := by
  rintro rfl
  have := n.isDigit_whole Mark.minus (hn ▸ List.mem_cons_self)
  contradiction

/-- How the text of a number starts. -/
theorem exists_numeral_text (n : Numeral) :
    ∃ b r, n.text = b :: r ∧ (b = Mark.minus ∨ isDigit b = true) := by
  obtain ⟨d, ds, hn⟩ := List.exists_cons_of_ne_nil n.whole_ne_nil
  have hd : isDigit d = true := n.isDigit_whole d (hn ▸ List.mem_cons_self)
  rw [Numeral.text, Numeral.unsigned, hn]
  split
  · exact ⟨_, _, rfl, .inl rfl⟩
  · exact ⟨_, _, rfl, .inr hd⟩

/-- A number is read to its end and has its value, whatever text comes after it. -/
theorem read_numeral (n : Numeral) (hrest : Ends rest) :
    read (n.text ++ rest) = n.value.map (·, rest) := by
  have hread := readUnsigned_numeral n hrest
  rw [Numeral.text]
  cases hnegative : n.negative with
  | true =>
    rw [hnegative] at hread
    exact hread
  | false =>
    obtain ⟨d, ds, hn⟩ := List.exists_cons_of_ne_nil n.whole_ne_nil
    rw [hnegative, Numeral.unsigned, hn] at hread
    rw [if_neg (by decide), Numeral.unsigned, hn]
    rw [List.cons_append, List.cons_append] at hread ⊢
    rw [read, if_neg (ne_minus_of_whole n hn)]
    exact hread

/-! ## Passing over -/

/-- A power of ten is passed over. -/
theorem skipExponent_power {p : Option Power} (hrest : Ends rest) :
    skipExponent (Power.text p ++ rest) = .ok rest := by
  cases p with
  | none =>
    cases rest with
    | nil => rfl
    | cons b rest => simp [Power.text, skipExponent, (ends_cons.mp hrest).2.2]
  | some p =>
    have hrest := noDigit_of_ends hrest
    obtain ⟨d, ds, hp⟩ := List.exists_cons_of_ne_nil p.ne_nil
    have hd : isDigit d = true := p.isDigit d (hp ▸ List.mem_cons_self)
    have hsign := exponentSign_signText p.sign hd (ds ++ rest)
    rw [← List.cons_append, ← hp] at hsign
    rw [Power.text, List.cons_append, skipExponent, if_pos p.isExponentMark_letter,
      List.append_assoc, hsign, skipDigits, digits_of_isDigit p.isDigit hrest, if_neg p.ne_nil,
      afterDigits_of_isDigit p.isDigit hrest]

/-- A fraction is passed over. -/
theorem skipFraction_numeral (n : Numeral) (hrest : Ends rest) :
    skipFraction (Numeral.fractionText n.fraction ++ (Power.text n.power ++ rest)) =
      .ok (Power.text n.power ++ rest) := by
  have hds := n.isDigit_fraction
  cases hn : n.fraction with
  | nil =>
    rw [Numeral.fractionText, List.nil_append]
    cases hp : n.power with
    | none =>
      cases rest with
      | nil => rfl
      | cons b rest => simp [Power.text, skipFraction, (ends_cons.mp hrest).2.1]
    | some p =>
      rw [Power.text, List.cons_append, skipFraction, if_neg p.letter_ne_point]
  | cons d ds =>
    rw [hn] at hds
    have hnext := noDigit_power (p := n.power) hrest
    rw [Numeral.fractionText, List.cons_append, skipFraction, if_pos rfl, skipDigits,
      digits_of_isDigit hds hnext, if_neg (List.cons_ne_nil d ds), afterDigits_of_isDigit hds hnext]

/-- A number is passed over to its end. -/
theorem skipUnsigned_numeral (n : Numeral) (hrest : Ends rest) :
    skipUnsigned (n.unsigned ++ rest) = .ok rest := by
  obtain ⟨d, ds, hn⟩ := List.exists_cons_of_ne_nil n.whole_ne_nil
  have hnext := noDigit_fraction n.fraction n.power hrest
  rw [Numeral.unsigned_append, hn, List.cons_append, skipUnsigned,
    if_neg (not_zero_digit n hn hnext), ← List.cons_append, ← hn, skipDigits,
    digits_of_isDigit n.isDigit_whole hnext, if_neg n.whole_ne_nil,
    afterDigits_of_isDigit n.isDigit_whole hnext, ok_bind, skipFraction_numeral n hrest, ok_bind]
  exact skipExponent_power hrest

end Number

end GltfAsset.Json
