import Mathlib.Data.List.DropRight
import GltfAsset.Json.Error
import GltfAsset.Proofs.Json.Numeral
import GltfAsset.Proofs.Json.Scalars
import GltfAsset.Proofs.Number.Shortest
import GltfAsset.Proofs.Text.Order

/-!
# Floats are written as numbers

The text of a finite float, in the style of either format, is a number in the grammar of JSON, with
no more than twenty digits before the point (`FloatStyle.exists_numeral`).
-/

namespace GltfAsset

open Json

namespace Bytes

/-- ASCII characters are written as one byte each. -/
theorem ofString_ofList_of_ascii {cs : List Char} (h : ∀ c ∈ cs, c.val ≤ 127) :
    ofString (String.ofList cs) = ofChars cs := by
  rw [ofString_ofList]
  induction cs with
  | nil => rfl
  | cons c cs ih =>
    rw [List.forall_mem_cons] at h
    have hsize : c.utf8Size = 1 := Char.utf8Size_eq_one_iff.mpr h.1
    rw [List.flatMap_cons, ih h.2, String.utf8EncodeChar_eq_singleton hsize]
    rfl

/-- A digit as a character and as a byte. -/
theorem isDigit_ofChar {c : Char} (hc : c.isDigit = true) :
    isDigit (ofChar c) = true ∧ (ofChar c = 0x30 → c = '0') := by
  obtain ⟨h₁, h₂⟩ : 48 ≤ c.val.toNat ∧ c.val.toNat ≤ 57 := by
    simpa [Char.isDigit, UInt32.le_iff_toNat_le] using hc
  have hbyte : (ofChar c).toNat = c.val.toNat := by
    rw [ofChar, Nat.toUInt8, UInt8.toNat_ofNat', Nat.mod_eq_of_lt (show c.toNat < 256 by
      simp only [Char.toNat]
      omega), Char.toNat]
  constructor
  · rw [isDigit, Bool.and_eq_true, decide_eq_true_eq, decide_eq_true_eq, UInt8.le_iff_toNat_le,
      UInt8.le_iff_toNat_le, hbyte]
    exact ⟨h₁, h₂⟩
  · intro h
    have hval : c.val.toNat = 48 := by
      rw [← hbyte, h]
      rfl
    exact Char.ext (UInt32.toNat_inj.mp hval)

end Bytes

namespace FloatStyle

open Bytes

/-- The characters are digits. -/
def AllDigits (cs : List Char) : Prop := ∀ c ∈ cs, c.isDigit = true

/-- Digits are bytes that are digits. -/
theorem AllDigits.ofChars {cs : List Char} (h : AllDigits cs) :
    ∀ d ∈ ofChars cs, isDigit d = true :=
  List.forall_mem_map.mpr fun c hc => (isDigit_ofChar (h c hc)).1

/-- The digits of a number are digits. -/
theorem allDigits_toDigits (n : Nat) : AllDigits (Nat.toDigits 10 n) := fun _ hc =>
  Nat.isDigit_of_mem_toDigits (by decide) (by decide) hc

/-- Digits after digits are digits. -/
theorem AllDigits.append {cs ds : List Char} (hcs : AllDigits cs) (hds : AllDigits ds) :
    AllDigits (cs ++ ds) := List.forall_mem_append.mpr ⟨hcs, hds⟩

/-- Zeros are digits. -/
theorem allDigits_zeros (k : Nat) : AllDigits (List.replicate k '0') := fun c hc => by
  rw [List.eq_of_mem_replicate hc]
  rfl

/-- Digits are ASCII. -/
theorem AllDigits.ascii {cs : List Char} (h : AllDigits cs) : ∀ c ∈ cs, c.val ≤ 127 := by
  intro c hc
  have hdigit : c.val.toNat ≤ 57 := by
    have := h c hc
    simp only [Char.isDigit, ge_iff_le, UInt32.le_iff_toNat_le, Bool.and_eq_true,
      decide_eq_true_eq] at this
    exact this.2
  exact UInt32.le_iff_toNat_le.mpr (hdigit.trans (by decide))

/-- The characters of a fraction. -/
def fractionChars : List Char → List Char
  | [] => []
  | c :: cs => '.' :: c :: cs

/-- The characters of an exponent that may be absent, from whether it is negative and its digits. -/
def powerChars : Option (Bool × List Char) → List Char
  | none => []
  | some (down, ds) => 'e' :: (if down then '-' else '+') :: ds

/-- The characters are a number without sign, with no more than twenty digits before the point. -/
structure IsUnsigned (cs : List Char) : Prop where
  /-- There are ASCII characters alone. -/
  ascii : ∀ c ∈ cs, c.val ≤ 127
  /-- The number. -/
  numeral : ∃ n : Numeral, ofChars cs = n.unsigned ∧ n.whole.length ≤ 20

/-- A number is put together from its parts. -/
theorem isUnsigned_of_parts (whole : List Char) {fraction : List Char}
    (power : Option (Bool × List Char))
    (hne : whole ≠ []) (hwhole : AllDigits whole) (hlength : whole.length ≤ 20)
    (hlead : whole.head? = some '0' → whole = ['0']) (hfraction : AllDigits fraction)
    (hpower : ∀ p ∈ power, p.2 ≠ [] ∧ AllDigits p.2) :
    IsUnsigned (whole ++ (fractionChars fraction ++ powerChars power)) where
  -- Besides digits there are the point, the letter and the sign.
  ascii := by
    refine List.forall_mem_append.mpr ⟨hwhole.ascii, List.forall_mem_append.mpr ⟨?_, ?_⟩⟩
    · cases fraction with
      | nil => simp [fractionChars]
      | cons c cs => exact List.forall_mem_cons.mpr ⟨by decide, hfraction.ascii⟩
    · rcases power with - | ⟨down, ds⟩
      · simp [powerChars]
      · have hds := (hpower _ rfl).2.ascii
        cases down with
        | true =>
          exact List.forall_mem_cons.mpr ⟨by decide, List.forall_mem_cons.mpr ⟨by decide, hds⟩⟩
        | false =>
          exact List.forall_mem_cons.mpr ⟨by decide, List.forall_mem_cons.mpr ⟨by decide, hds⟩⟩
  -- The bytes of the parts are those of the parts of the numeral.
  numeral := by
    have hlead' : (ofChars whole).head? = some 0x30 → ofChars whole = [0x30] := by
      intro h
      obtain ⟨c, cs, rfl⟩ := List.exists_cons_of_ne_nil hne
      have hc : c = '0' := (isDigit_ofChar (hwhole c List.mem_cons_self)).2 (Option.some.inj h)
      rw [hlead (by rw [hc]; rfl)]
      rfl
    obtain ⟨p, hp⟩ : ∃ p : Option Power, ofChars (powerChars power) = Power.text p := by
      rcases power with - | ⟨down, ds⟩
      · exact ⟨none, rfl⟩
      · have hds := hpower _ rfl
        refine ⟨some ⟨false, some down, ofChars ds, by simpa [ofChars] using hds.1,
          hds.2.ofChars⟩, ?_⟩
        cases down <;> rfl
    have hf : ofChars (fractionChars fraction) = Numeral.fractionText (ofChars fraction) := by
      cases fraction <;> rfl
    refine ⟨⟨false, ofChars whole, by simpa [ofChars] using hne, hwhole.ofChars, hlead',
      ofChars fraction, hfraction.ofChars, p⟩, ?_, by simpa [ofChars] using hlength⟩
    rw [Numeral.unsigned, ← hp, ← hf]
    simp only [ofChars, List.map_append]

section

variable {style : FloatStyle} {ds : List Char} {k : Int}

/-- In positional form, the digits before the point are those up to the power of ten of one. -/
theorem isUnsigned_fixed (hne : ds ≠ []) (hds : AllDigits ds)
    (hlead : ds.head? = some '0' → ds = ['0'] ∧ k = 0) (hk : k < 20) :
    IsUnsigned (style.fixed ds k) := by
  rw [fixed]
  split
  · -- Below one, there is a zero before the point, and zeros may stand after it.
    obtain ⟨c, cs, hcs⟩ := List.exists_cons_of_ne_nil
      (List.append_ne_nil_of_right_ne_nil (List.replicate (-k - 1).toNat '0') hne)
    have hfraction : AllDigits (c :: cs) := hcs ▸ (allDigits_zeros _).append hds
    rw [hcs]
    have := isUnsigned_of_parts ['0'] none (by simp) (by simp [AllDigits])
      (by decide) (fun _ => rfl) hfraction (by simp)
    simpa [fractionChars, powerChars] using this
  · rename_i hneg
    obtain ⟨w, hw⟩ := Nat.exists_eq_succ_of_ne_zero (show (k + 1).toNat ≠ 0 by omega)
    simp only [hw]
    split
    · -- Zeros fill the places that have no digit.
      rename_i hle
      have hfraction : AllDigits (if style.pointZero then ['0'] else []) := by
        split <;> simp [AllDigits]
      have hlead' : (ds ++ List.replicate (w.succ - ds.length) '0').head? = some '0' →
          ds ++ List.replicate (w.succ - ds.length) '0' = ['0'] := by
        intro h
        rw [List.head?_append_of_ne_nil _ hne] at h
        obtain ⟨rfl, rfl⟩ := hlead h
        obtain rfl : w = 0 := by simpa using hw.symm
        rfl
      have := isUnsigned_of_parts _ none (List.append_ne_nil_of_left_ne_nil hne _)
        (hds.append (allDigits_zeros (w.succ - ds.length))) (by simp; omega) hlead' hfraction
        (by simp)
      cases hzero : style.pointZero with
      | true => simpa [hzero, fractionChars, powerChars] using this
      | false => simpa [hzero, fractionChars, powerChars] using this
    · -- The point stands between the digits.
      rename_i hlt
      obtain ⟨c, cs, hcs⟩ := List.exists_cons_of_ne_nil (l := ds.drop w.succ) (by simpa using hlt)
      have hfraction : AllDigits (c :: cs) := fun d hd =>
        hds d (List.mem_of_mem_drop (i := w.succ) (hcs ▸ hd))
      have hlead' : (ds.take w.succ).head? = some '0' → ds.take w.succ = ['0'] := by
        intro h
        rw [List.head?_take, if_neg (Nat.succ_ne_zero w)] at h
        rw [(hlead h).1, List.take_of_length_le (by simp)]
      have := isUnsigned_of_parts (ds.take w.succ) none (by simpa using hne)
        (fun d hd => hds d (List.mem_of_mem_take hd)) (by simp; omega) hlead' hfraction (by simp)
      rw [hcs]
      simpa [fractionChars, powerChars] using this

/-- With an exponent, one digit stands before the point. -/
theorem isUnsigned_scientific (hne : ds ≠ []) (hds : AllDigits ds) :
    IsUnsigned (scientific ds k) := by
  obtain ⟨d, ds, rfl⟩ := List.exists_cons_of_ne_nil hne
  obtain ⟨hd, hds⟩ := List.forall_mem_cons.mp hds
  have hpower : Nat.toDigits 10 k.natAbs ≠ [] := by
    obtain ⟨b, r, hr, -⟩ := Number.exists_decimal_eq_cons k.natAbs
    intro h
    rw [Number.decimal, h] at hr
    contradiction
  have := isUnsigned_of_parts [d] (some (decide (k < 0), Nat.toDigits 10 k.natAbs)) (by simp)
    (by simpa [AllDigits] using hd) (by simp) (by simp) hds
    (by rintro _ ⟨⟩; exact ⟨hpower, allDigits_toDigits _⟩)
  rw [scientific]
  cases ds with
  | nil => simpa [fractionChars, powerChars] using this
  | cons c cs => simpa [fractionChars, powerChars] using this

end

/-- The digits of a positive number without the zeros at its end are not none, and the first of them
is not zero. -/
theorem significantDigits_spec {n : Nat} (hn : n ≠ 0) : significantDigits n ≠ [] ∧
    AllDigits (significantDigits n) ∧ (significantDigits n).head? ≠ some '0' := by
  obtain ⟨b, r, hr, hzero⟩ := Number.exists_decimal_eq_cons n
  obtain ⟨c, cs, hcs⟩ : ∃ c cs, Nat.toDigits 10 n = c :: cs := by
    refine List.exists_cons_of_ne_nil fun h => ?_
    rw [Number.decimal, h] at hr
    contradiction
  have hc : c ≠ '0' := by
    rintro rfl
    rw [Number.decimal, hcs] at hr
    exact hn (hzero (List.cons.inj hr).1.symm).1
  have hprefix : significantDigits n <+: c :: cs := hcs ▸ List.rdropWhile_prefix ..
  have hne : significantDigits n ≠ [] := by
    intro h
    have hall := List.rdropWhile_eq_nil_iff.mp h c (hcs ▸ List.mem_cons_self)
    exact hc (by simpa using hall)
  refine ⟨hne, fun d hd => allDigits_toDigits n d (hcs ▸ hprefix.subset hd), fun h => ?_⟩
  obtain ⟨d, ds, hds⟩ := List.exists_cons_of_ne_nil hne
  rw [hds] at hprefix h
  exact hc ((List.cons_prefix_cons.mp hprefix).1.symm.trans (Option.some.inj h))

/-- What is written of a positive magnitude, if no number with more than twenty digits before the
point is written positionally. -/
theorem isUnsigned_magnitude {style : FloatStyle} {low high : Int}
    (hstyle : style.positional = some (low, high)) (hhigh : high < 20) (F : Format) {m : Nat}
    (hm : m ≠ 0) : IsUnsigned (style.magnitude F m) := by
  obtain ⟨hne, hds, hlead⟩ := significantDigits_spec (F.digits_shortest_pos style.tie hm).ne'
  simp only [magnitude, hstyle]
  split
  · exact isUnsigned_fixed hne hds (fun h => absurd h hlead) (by omega)
  · exact isUnsigned_scientific hne hds

/-- What is written of a finite float. -/
theorem exists_numeral (style : FloatStyle) {low high : Int}
    (hstyle : style.positional = some (low, high)) (hhigh : high < 20) {F : Format} {x : Binary F}
    (hx : x.IsFinite) :
    ∃ n : Numeral, ofString (style.text x) = n.text ∧ n.whole.length ≤ 20 := by
  cases x with
  | nan => exact absurd hx id
  | signed negative m =>
    have hfinite : m.val ≠ F.top := Nat.ne_of_lt hx
    have hbody : IsUnsigned (if m.val = 0 then style.fixed ['0'] 0 else style.magnitude F m) := by
      split
      · exact isUnsigned_fixed (by simp) (by simp [AllDigits]) (fun _ => ⟨rfl, rfl⟩) (by decide)
      · exact isUnsigned_magnitude hstyle hhigh F ‹_›
    obtain ⟨n, hn, hlength⟩ := hbody.numeral
    refine ⟨{ n with negative := negative }, ?_, hlength⟩
    rw [text, if_neg hfinite]
    cases negative with
    | true =>
      have hminus : ∀ c ∈ '-' :: _, c.val ≤ 127 :=
        List.forall_mem_cons.mpr ⟨by decide, hbody.ascii⟩
      exact (ofString_ofList_of_ascii hminus).trans (congrArg (Mark.minus :: ·) hn)
    | false => exact (ofString_ofList_of_ascii hbody.ascii).trans hn

end FloatStyle

end GltfAsset
