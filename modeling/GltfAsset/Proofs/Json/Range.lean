import Mathlib.Algebra.Ring.Nat
import GltfAsset.Json.Reader
import GltfAsset.Proofs.Extension.Scan

/-!
# The range of the numbers that are read

An integer that is read has 64 bits, with or without sign, and any other number is a finite float:
what would be infinite is refused. The significand of a number stays below `2 ^ 64`, so it is only a
multiplication by a power of ten that could go beyond the largest float, and that case is looked
for.
-/

namespace GltfAsset

namespace Format

variable {F : Format}

/-- A number that is less than a multiple by a power of two has no more binary digits. -/
theorem log2_le_of_lt_mul {n d k : Nat} (hn : n ≠ 0) (h : n < 2 ^ k * d) :
    n.log2 ≤ k + d.log2 := by
  have hd : d < 2 ^ (d.log2 + 1) := Nat.lt_log2_self
  have hlt : n < 2 ^ (k + (d.log2 + 1)) := by
    calc n < 2 ^ k * d := h
      _ ≤ 2 ^ k * 2 ^ (d.log2 + 1) := Nat.mul_le_mul_left _ (Nat.le_of_lt hd)
      _ = 2 ^ (k + (d.log2 + 1)) := (Nat.pow_add ..).symm
  have := (Nat.log2_lt hn).mpr hlt
  omega

/-- The leading bit of a quotient that is below a power of two. -/
theorem leadingBit_le {n d k : Nat} (hn : n ≠ 0) (h : n < 2 ^ k * d) : leadingBit n d ≤ k := by
  have := log2_le_of_lt_mul hn h
  unfold leadingBit
  split <;> omega

/-- A quotient is less than twice the power of two at its leading bit. -/
theorem exists_lt_leadingBit {n d : Nat} (hd : d ≠ 0) :
    ∃ e : Nat, n * 2 ^ d.log2 < d * 2 ^ e ∧ leadingBit n d + 1 = (e : Int) - d.log2 := by
  unfold leadingBit
  split
  · rename_i h
    rw [Nat.shiftLeft_eq, Nat.shiftLeft_eq] at h
    exact ⟨n.log2, h, by omega⟩
  · refine ⟨n.log2 + 1, ?_, by omega⟩
    calc n * 2 ^ d.log2 < 2 ^ (n.log2 + 1) * 2 ^ d.log2 :=
        Nat.mul_lt_mul_of_pos_right Nat.lt_log2_self (Nat.two_pow_pos _)
      _ ≤ 2 ^ (n.log2 + 1) * d := Nat.mul_le_mul_left _ (Nat.log2_self_le hd)
      _ = d * 2 ^ (n.log2 + 1) := Nat.mul_comm ..

/-- The nearest integer to a quotient that is below an integer is no greater than it. -/
theorem divNearest_le {n d k : Nat} (h : n < k * d) : divNearest n d ≤ k := by
  have hq : n / d < k := Nat.div_lt_of_lt_mul (by rwa [Nat.mul_comm])
  simp only [divNearest]
  split <;> omega

/-- The quotient is less than two binades when it is counted in spacings of the magnitudes around
it. -/
theorem divNearest_le_binade {n d s : Nat} (hd : d ≠ 0)
    (hs : leadingBit n d + F.scale - (F.precision - 1 : Nat) ≤ s) :
    divNearest (n <<< (F.scale - s)) (d <<< (s - F.scale)) ≤ 2 * F.binade := by
  obtain ⟨e, he, hbit⟩ := exists_lt_leadingBit (n := n) hd
  apply divNearest_le
  simp only [Nat.shiftLeft_eq, binade, Nat.one_mul]
  -- Both sides are multiplied by the power of two at the leading bit of the denominator.
  refine Nat.lt_of_mul_lt_mul_right (a := 2 ^ d.log2) ?_
  calc n * 2 ^ (F.scale - s) * 2 ^ d.log2 = n * 2 ^ d.log2 * 2 ^ (F.scale - s) :=
      Nat.mul_right_comm ..
    _ < d * 2 ^ e * 2 ^ (F.scale - s) := Nat.mul_lt_mul_of_pos_right he (Nat.two_pow_pos _)
    _ = d * 2 ^ (e + (F.scale - s)) := by rw [Nat.mul_assoc, ← Nat.pow_add]
    _ ≤ d * 2 ^ (1 + (F.precision - 1) + (s - F.scale) + d.log2) :=
      Nat.mul_le_mul_left _ (Nat.pow_le_pow_right Nat.two_pos (by omega))
    _ = 2 * 2 ^ (F.precision - 1) * (d * 2 ^ (s - F.scale)) * 2 ^ d.log2 := by
      simp only [Nat.pow_add, Nat.pow_one]
      ac_rfl

/-- The magnitude nearest to a quotient below a power of two. -/
theorem round_le {n d k : Nat} (h : n < 2 ^ k * d) :
    F.round n d ≤ (k + F.scale - (F.precision - 1) + 2) * F.binade := by
  unfold round
  split
  · exact Nat.zero_le _
  · rename_i hn
    have hd : d ≠ 0 := by
      rintro rfl
      omega
    have hbit := leadingBit_le hn h
    have hq := divNearest_le_binade (F := F) (n := n) hd (Int.self_le_toNat _)
    refine Nat.le_trans (Nat.min_le_right ..) ?_
    rw [Nat.add_mul]
    exact Nat.add_le_add (Nat.mul_le_mul_right _ (by omega)) hq

/-- The exact value of a magnitude is a fraction. -/
theorem denominator_pos (m : Nat) : 0 < F.denominator m := by
  rw [denominator, Nat.shiftLeft_eq, Nat.one_mul]
  exact Nat.two_pow_pos _

/-- A significand has no more bits than the format has. -/
theorem significand_lt (m : Nat) : F.significand m < 2 * F.binade := by
  have hbinade : 0 < F.binade := by
    rw [binade, Nat.shiftLeft_eq, Nat.one_mul]
    exact Nat.two_pow_pos _
  have := Nat.mod_lt m hbinade
  unfold significand
  split <;> omega

/-- The exact value of a magnitude that lies so many binades above one. -/
theorem numerator_lt {m k : Nat} (h : m ≤ (F.scale + k + 1) * F.binade) :
    F.numerator m < 2 ^ (F.precision - 1 + 1 + k) * F.denominator m := by
  have hspacing : F.spacing m - F.scale ≤ k := by
    have := Nat.div_le_of_le_mul (Nat.mul_comm .. ▸ h)
    simp only [spacing]
    omega
  calc F.numerator m = F.significand m * 2 ^ (F.spacing m - F.scale) := Nat.shiftLeft_eq ..
    _ < 2 * F.binade * 2 ^ (F.spacing m - F.scale) :=
      Nat.mul_lt_mul_of_pos_right (significand_lt m) (Nat.two_pow_pos _)
    _ ≤ 2 * F.binade * 2 ^ k := Nat.mul_le_mul_left _ (Nat.pow_le_pow_right Nat.two_pos hspacing)
    _ = 2 ^ (F.precision - 1 + 1 + k) := by
      rw [binade, Nat.shiftLeft_eq, Nat.one_mul, Nat.pow_add, Nat.pow_succ, Nat.mul_comm 2]
    _ ≤ 2 ^ (F.precision - 1 + 1 + k) * F.denominator m :=
      Nat.le_mul_of_pos_right _ (denominator_pos m)

/-- A division takes away the power of two that the divisor is not below. -/
theorem div_le {m p j k : Nat} (hm : F.numerator m < 2 ^ (k + j) * F.denominator m)
    (hp : 2 ^ j * F.denominator p ≤ F.numerator p) :
    F.div m p ≤ (k + F.scale - (F.precision - 1) + 2) * F.binade := by
  apply round_le
  calc F.numerator m * F.denominator p < 2 ^ (k + j) * F.denominator m * F.denominator p :=
      Nat.mul_lt_mul_of_pos_right hm (denominator_pos p)
    _ = 2 ^ k * F.denominator m * (2 ^ j * F.denominator p) := by
      rw [Nat.pow_add]
      ac_rfl
    _ ≤ 2 ^ k * F.denominator m * F.numerator p := Nat.mul_le_mul_left _ hp
    _ = 2 ^ k * (F.denominator m * F.numerator p) := Nat.mul_assoc ..

end Format

namespace Json.Number

/-- A number as it can be held: an integer has 64 bits, with or without sign, and any other number
is finite. -/
def Fits : Number → Prop
  | .integer n => Int64.minValue.toInt ≤ n ∧ n < limit
  | .float x => x.IsFinite

/-- The significand of a number is rounded to a magnitude of at most this. -/
def reach : Nat := 1088 * Format.double.binade

/-- The bound is that of a finite number. -/
theorem reach_lt_top : reach < Format.double.top := by decide +kernel

/-- The significand of a number is rounded to at most the bound. -/
theorem round_le_reach {s : Nat} (h : s < limit) : Format.double.round s 1 ≤ reach :=
  Format.round_le (k := 64) h

/-- Magnitudes up to the bound are below 2 ^ 66. -/
theorem numerator_lt_of_le_reach {m : Nat} (h : m ≤ reach) :
    Format.double.numerator m < 2 ^ 66 * Format.double.denominator m :=
  Format.numerator_lt (k := 13) h

/-- The powers of ten that are divided by are at least one. -/
theorem denominator_powerOfTen_le : ∀ k ≤ maxPower,
    2 ^ 0 * Format.double.denominator (powerOfTen k) ≤ Format.double.numerator (powerOfTen k) := by
  decide +kernel

/-- The greatest one is at least 2 ^ 66. -/
theorem denominator_maxPower_le : 2 ^ 66 * Format.double.denominator (powerOfTen maxPower) ≤
    Format.double.numerator (powerOfTen maxPower) := by
  decide +kernel

/-- To divide by a power of ten gives a finite number. -/
theorem div_lt_top {m k : Nat} (hm : m ≤ reach) (hk : k ≤ maxPower) :
    Format.double.div m (powerOfTen k) < Format.double.top := by
  have := Format.div_le (k := 66) (numerator_lt_of_le_reach hm) (denominator_powerOfTen_le k hk)
  exact Nat.lt_of_le_of_lt this (by decide +kernel)

/-- To divide by the greatest power of ten leaves a number within the bound. -/
theorem div_le_reach {m : Nat} (hm : m ≤ reach) :
    Format.double.div m (powerOfTen maxPower) ≤ reach := by
  have := Format.div_le (k := 0) (j := 66) (by simpa using numerator_lt_of_le_reach hm)
    denominator_maxPower_le
  exact Nat.le_trans this (by decide +kernel)

/-- What does not come out as infinite is finite. -/
theorem scale_lt_top {m p : Nat} {e : Int} (hm : m ≤ reach) (h : scale m e = .ok p) :
    p < Format.double.top := by
  fun_induction scale m e with
  | case1 => cases h
  | case2 m e he hsign q hq =>
    obtain rfl := Except.ok.inj h
    exact Nat.lt_of_le_of_ne (Format.round_le_top ..) hq
  | case3 m e he hsign =>
    obtain rfl := Except.ok.inj h
    exact div_lt_top hm he
  | case4 =>
    obtain rfl := Except.ok.inj h
    exact Nat.lt_of_le_of_lt hm reach_lt_top
  | case5 => cases h
  | case6 m e he hm' hsign ih => exact ih (div_le_reach hm) h

/-- A float whose magnitude is below the top is finite. -/
theorem isFinite_ofMagnitude {negative : Bool} {m : Nat} (h : m < Format.double.top) :
    (Binary.ofMagnitude negative m : Double).IsFinite :=
  Nat.lt_of_le_of_lt (Nat.min_le_right ..) h

/-! ## Reading -/

variable {negative : Bool} {s : Nat} {e : Int} {bs r : Bytes} {x : Number}

/-- What is made of a significand and an exponent can be held. -/
theorem fits_of_ofParts (hs : s < limit) (h : ofParts negative s e = .ok x) : x.Fits := by
  obtain ⟨m, hm, rfl⟩ := map_eq_ok_iff.mp h
  rw [Fits]
  exact isFinite_ofMagnitude (scale_lt_top (round_le_reach hs) hm)

/-- The significand that is gathered stays below the limit with each digit. -/
theorem significand_push_lt {g : Gathered} {b : UInt8} (h : g.significand < limit) :
    (g.push b).significand < limit := by
  unfold Gathered.push
  grind

/-- The significand that is gathered is below the limit. -/
theorem significand_gather_lt {ds : Bytes} (hs : s < limit) :
    (gather s ds).significand < limit := by
  have hfold : ∀ g : Gathered, g.significand < limit →
      (ds.foldl Gathered.push g).significand < limit := by
    induction ds with
    | nil => exact fun _ h => h
    | cons d ds ih => exact fun g h => ih _ (significand_push_lt h)
  exact hfold _ hs

/-- A number with an exponent can be held. -/
theorem fits_of_readExponent (hs : s < limit) (h : readExponent negative s e bs = .ok (x, r)) :
    x.Fits := by
  simp only [readExponent] at h
  split at h
  · contradiction
  · split at h
    · split at h
      · split at h
        · contradiction
        · -- A number that is too small to be told from zero.
          obtain ⟨rfl, -⟩ := Prod.mk.inj (Except.ok.inj h)
          rw [Fits]
          exact isFinite_ofMagnitude (by decide +kernel)
      · obtain ⟨y, hy, heq⟩ := bind_eq_ok_iff.mp h
        obtain ⟨rfl, -⟩ := Prod.mk.inj (Except.ok.inj heq)
        exact fits_of_ofParts hs hy
    · contradiction

/-- A number that is complete can be held. -/
theorem fits_of_finish (hs : s < limit) (h : finish negative s e bs = .ok (x, r)) : x.Fits := by
  unfold finish at h
  split at h
  · obtain ⟨y, hy, heq⟩ := map_eq_ok_iff.mp h
    obtain ⟨rfl, -⟩ := Prod.mk.inj heq
    exact fits_of_ofParts hs hy
  · split at h
    · exact fits_of_readExponent hs h
    · obtain ⟨y, hy, heq⟩ := map_eq_ok_iff.mp h
      obtain ⟨rfl, -⟩ := Prod.mk.inj heq
      exact fits_of_ofParts hs hy

/-- A number with a fraction can be held. -/
theorem fits_of_readFraction (hs : s < limit) (h : readFraction negative s e bs = .ok (x, r)) :
    x.Fits := by
  unfold readFraction at h
  split at h
  · contradiction
  · split at h
    · exact fits_of_finish (significand_gather_lt hs) h
    · contradiction

/-- A number without fraction and exponent can be held. -/
theorem fits_whole (hs : s < limit) : (whole negative s).Fits := by
  unfold whole
  split
  · split
    · exact Nat.lt_of_le_of_lt (round_le_reach hs) reach_lt_top
    · rename_i hmin
      simp only [Fits]
      omega
  · refine ⟨?_, by omega⟩
    have : Int64.minValue.toInt ≤ 0 := by decide
    omega

/-- Whatever comes after the whole part, the number can be held. -/
theorem fits_of_afterWhole {g : Gathered} (hg : g.significand < limit)
    (h : afterWhole negative g bs = .ok (x, r)) : x.Fits := by
  unfold afterWhole at h
  repeat' split at h
  all_goals
    grind [→ fits_of_finish, → fits_of_readFraction, fits_whole]

/-- A number without sign can be held. -/
theorem fits_of_readUnsigned (h : readUnsigned negative bs = .ok (x, r)) : x.Fits := by
  unfold readUnsigned at h
  repeat' split at h
  · contradiction
  · contradiction
  · contradiction
  · exact fits_of_afterWhole (significand_gather_lt (by decide +kernel)) h

/-- A number that is read can be held. -/
theorem fits_of_read (h : read bs = .ok (x, r)) : x.Fits := by
  unfold read at h
  repeat' split at h
  · contradiction
  · exact fits_of_readUnsigned h
  · exact fits_of_readUnsigned h

end Json.Number

end GltfAsset
