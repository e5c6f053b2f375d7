import Mathlib.Algebra.Order.Ring.Nat
import GltfAsset.Number.Shortest

/-!
# The shortest decimal is not zero

The interval of a positive float does not reach zero, so a decimal that lies in it is not zero. If
none was found when the digits of a significand are used up, the last one is cut off instead; it is
not zero since the power of ten at which the search began is at most the float
(`Format.pow_decimalExponent_le`).
-/

namespace GltfAsset

namespace Neighbourhood

variable {h : Neighbourhood}

/-- The centre in units of a power of ten. -/
theorem scaled_centre (h : Neighbourhood) (e : Int) :
    (h.scaled e).centre = h.centre * 10 ^ (-e).toNat := by
  cases e with
  | ofNat e => simp [scaled]
  | negSucc e => simp [scaled]

/-- The denominator in units of a power of ten. -/
theorem scaled_denominator (h : Neighbourhood) (e : Int) :
    (h.scaled e).denominator = h.denominator * 10 ^ e.toNat := by
  cases e with
  | ofNat e => simp [scaled]
  | negSucc e => simp [scaled]

/-- There is something below the centre in these units as well. -/
theorem scaled_lower_pos (hlower : 0 < h.lower) (e : Int) : 0 < (h.scaled e).lower := by
  cases e with
  | ofNat e => exact hlower
  | negSucc e => exact Nat.mul_pos hlower (Nat.pow_pos (by decide))

/-- There is something above the centre in these units as well. -/
theorem scaled_upper_pos (hupper : 0 < h.upper) (e : Int) : 0 < (h.scaled e).upper := by
  cases e with
  | ofNat e => exact hupper
  | negSucc e => exact Nat.mul_pos hupper (Nat.pow_pos (by decide))

/-- What lies in an interval above zero is not zero. -/
theorem Covers.pos {c : Nat} (hc : h.Covers c) (hlower : 0 < h.lower) (hupper : 0 < h.upper) :
    0 < c := by
  rcases Nat.eq_zero_or_pos c with rfl | hpos
  · simp only [Covers, Nat.zero_mul] at hc
    omega
  · exact hpos

/-- The nearest decimal is in the neighbourhood. -/
theorem covers_of_nearest? {tie : Tie} {c : Nat} (hc : h.nearest? tie = some c) : h.Covers c := by
  simp only [nearest?] at hc
  repeat' split at hc
  all_goals grind

end Neighbourhood

namespace Format

/-! ## The power of ten at which the search begins -/

/-- A number of so many bits has at least so many digits. -/
theorem pow_digitsOfBits_le {n : Nat} (hn : n ≠ 0) : 10 ^ digitsOfBits n.log2 ≤ n := by
  calc 10 ^ digitsOfBits n.log2 = 1000 ^ (n.log2 / 10) := by
        rw [digitsOfBits, Nat.mul_comm, Nat.pow_mul]
    _ ≤ 1024 ^ (n.log2 / 10) := Nat.pow_le_pow_left (by decide) _
    _ = 2 ^ (10 * (n.log2 / 10)) := (Nat.pow_mul 2 10 _).symm
    _ ≤ 2 ^ n.log2 := Nat.pow_le_pow_right Nat.two_pos (Nat.mul_div_le ..)
    _ ≤ n := Nat.log2_self_le hn

/-- From a number of digits that is no greater, the count goes on to one. -/
theorem pow_decimalLength_go_le {n k : Nat} (hk : 10 ^ k ≤ n) (bits : Nat) :
    ∃ j, decimalLength.go n (k + 1) bits = j + 1 ∧ 10 ^ j ≤ n := by
  induction bits generalizing k with
  | zero => exact ⟨k, rfl, hk⟩
  | succ bits ih =>
    rw [decimalLength.go]
    split
    · exact ⟨k, rfl, hk⟩
    · rename_i hlt
      exact ih (Nat.le_of_not_lt hlt)

/-- A number is at least the power of ten of its first digit. -/
theorem pow_decimalLength_le {n : Nat} (hn : n ≠ 0) :
    ∃ j, decimalLength n = j + 1 ∧ 10 ^ j ≤ n :=
  pow_decimalLength_go_le (pow_digitsOfBits_le hn) _

/-- The multiplications by ten end when the denominator is reached, or after the given number of
them. -/
theorem exists_decimalExponent_go (d n : Nat) (e : Int) (steps : Nat) :
    ∃ j ≤ steps, decimalExponent.go d n e steps = e - j ∧ (d ≤ n * 10 ^ j ∨ j = steps) := by
  induction steps generalizing n e with
  | zero => exact ⟨0, Nat.le_refl _, by simp [decimalExponent.go], .inr rfl⟩
  | succ steps ih =>
    rw [decimalExponent.go]
    split
    · rename_i hle
      exact ⟨0, Nat.zero_le _, by simp, .inl (by simpa using hle)⟩
    · obtain ⟨j, hj, hgo, hreach⟩ := ih (n * 10) (e - 1)
      refine ⟨j + 1, Nat.succ_le_succ hj, by rw [hgo]; omega, hreach.imp (fun h => ?_) (by simp)⟩
      rwa [Nat.pow_succ', ← Nat.mul_assoc]

variable {F : Format} {m : Nat}

/-- A positive magnitude is at least its power of ten: the two sides are multiplied by what makes
both of them whole numbers. -/
theorem pow_decimalExponent_le (hm : F.numerator m ≠ 0) :
    F.denominator m * 10 ^ (F.decimalExponent m).toNat ≤
      F.numerator m * 10 ^ (-F.decimalExponent m).toNat := by
  simp only [decimalExponent]
  generalize F.numerator m = n at hm
  generalize F.denominator m = d
  split
  · rename_i hle
    rcases Nat.eq_zero_or_pos d with rfl | hd
    · simp
    have hq : n / d ≠ 0 := Nat.ne_of_gt (Nat.div_pos hle hd)
    obtain ⟨j, hj, hpow⟩ := pow_decimalLength_le hq
    have hexp : ((decimalLength (n / d) : Nat) : Int) - 1 = j := by omega
    rw [hexp]
    simpa using (Nat.mul_le_mul_left d hpow).trans (Nat.mul_div_le n d)
  · rename_i hlt
    obtain ⟨j, -, hgo, hreach⟩ := exists_decimalExponent_go d
      (n * Nat.pow 10 (digitsOfBits (d.log2 - n.log2 - 1)))
      (-(digitsOfBits (d.log2 - n.log2 - 1) : Nat)) d.log2
    generalize digitsOfBits (d.log2 - n.log2 - 1) = k at hgo hreach
    have hexp : (-(k : Int) - j).toNat = 0 ∧ (-(-(k : Int) - j)).toNat = k + j := by omega
    rw [hgo, hexp.1, hexp.2, Nat.pow_zero, Nat.mul_one, Nat.pow_add, ← Nat.mul_assoc]
    rcases hreach with hreach | rfl
    · exact hreach
    · -- As many factors of ten as the denominator has bits after the first are enough.
      have hbits : d.log2 ≠ 0 := by
        intro h
        have := Nat.log2_lt (n := d) (k := 1) (by omega)
        omega
      calc d ≤ 2 ^ (d.log2 + 1) := Nat.le_of_lt Nat.lt_log2_self
        _ ≤ 2 ^ (2 * d.log2) := Nat.pow_le_pow_right Nat.two_pos (by omega)
        _ = 4 ^ d.log2 := Nat.pow_mul 2 2 _
        _ ≤ 10 ^ d.log2 := Nat.pow_le_pow_left (by decide) _
        _ = 1 * 10 ^ d.log2 := (Nat.one_mul _).symm
        _ ≤ n * 10 ^ k * 10 ^ d.log2 := by
          refine Nat.mul_le_mul_right _ (Nat.one_le_iff_ne_zero.mpr ?_)
          exact Nat.mul_ne_zero hm (Nat.pow_pos (by decide)).ne'

/-! ## The interval of a positive magnitude -/

/-- A magnitude other than zero has a significand. -/
theorem significand_pos (hm : m ≠ 0) : 0 < F.significand m := by
  have : 0 < F.binade := by simp [binade, Nat.shiftLeft_eq]
  unfold significand
  split <;> omega

/-- The spacing below a magnitude is no greater. -/
theorem spacing_pred_le : F.spacing (m - 1) ≤ F.spacing m := by
  have := Nat.div_le_div_right (c := F.binade) (Nat.sub_le m 1)
  simp only [spacing]
  omega

/-- There is something on both sides of a magnitude other than zero. -/
theorem neighbourhood_pos (hm : m ≠ 0) :
    0 < (F.neighbourhood m).lower ∧ 0 < (F.neighbourhood m).upper := by
  have hvalue : ∀ s, 0 < F.significand m <<< s := fun s => by
    rw [Nat.shiftLeft_eq]
    exact Nat.mul_pos (significand_pos hm) (Nat.two_pow_pos _)
  exact ⟨Nat.add_pos_right _ (hvalue _), Nat.add_pos_left (hvalue _) _⟩

/-- The centre of the interval is the exact value of the magnitude. -/
theorem neighbourhood_centre (m : Nat) :
    (F.neighbourhood m).centre * F.denominator m =
      F.numerator m * (F.neighbourhood m).denominator := by
  have hle := spacing_pred_le (F := F) (m := m)
  simp only [neighbourhood, denominator, numerator, Nat.shiftLeft_eq, Nat.one_mul]
  generalize hs : min (F.spacing (m - 1)) F.scale = s
  have hexp : F.spacing m - s + (F.scale - F.spacing m) =
      F.spacing m - F.scale + (F.scale - s) := by omega
  calc 2 * (F.significand m * 2 ^ (F.spacing m - s)) * 2 ^ (F.scale - F.spacing m)
      = 2 * F.significand m * 2 ^ (F.spacing m - s + (F.scale - F.spacing m)) := by
        rw [Nat.pow_add]
        ac_rfl
    _ = 2 * F.significand m * 2 ^ (F.spacing m - F.scale + (F.scale - s)) := by rw [hexp]
    _ = F.significand m * 2 ^ (F.spacing m - F.scale) * (2 * 2 ^ (F.scale - s)) := by
        rw [Nat.pow_add]
        ac_rfl

/-- What is left of a positive magnitude in units of its power of ten, or of a smaller one, is not
zero. -/
theorem scaled_denominator_le_centre (hm : m ≠ 0) {e : Int} (he : e ≤ F.decimalExponent m) :
    ((F.neighbourhood m).scaled e).denominator ≤ ((F.neighbourhood m).scaled e).centre := by
  have hnumerator : F.numerator m ≠ 0 := by
    rw [numerator, Nat.shiftLeft_eq]
    exact Nat.mul_ne_zero (significand_pos hm).ne' (Nat.two_pow_pos _).ne'
  have hdenominator : 0 < F.denominator m := by
    rw [denominator, Nat.shiftLeft_eq, Nat.one_mul]
    exact Nat.two_pow_pos _
  have hpow := pow_decimalExponent_le hnumerator
  have hcentre := neighbourhood_centre (F := F) m
  rw [Neighbourhood.scaled_denominator, Neighbourhood.scaled_centre]
  generalize (F.neighbourhood m).denominator = b at hcentre ⊢
  generalize (F.neighbourhood m).centre = a at hcentre ⊢
  refine Nat.le_of_mul_le_mul_right ?_ hdenominator
  calc b * 10 ^ e.toNat * F.denominator m
      ≤ b * 10 ^ (F.decimalExponent m).toNat * F.denominator m :=
        Nat.mul_le_mul_right _ (Nat.mul_le_mul_left _ (Nat.pow_le_pow_right (by decide) (by omega)))
    _ = b * (F.denominator m * 10 ^ (F.decimalExponent m).toNat) := by ac_rfl
    _ ≤ b * (F.numerator m * 10 ^ (-F.decimalExponent m).toNat) := Nat.mul_le_mul_left _ hpow
    _ = a * F.denominator m * 10 ^ (-F.decimalExponent m).toNat := by
        rw [hcentre]
        ac_rfl
    _ ≤ a * F.denominator m * 10 ^ (-e).toNat :=
        Nat.mul_le_mul_left _ (Nat.pow_le_pow_right (by decide) (by omega))
    _ = a * 10 ^ (-e).toNat * F.denominator m := Nat.mul_right_comm ..

/-- From an exponent that is low enough, the search finds digits. -/
theorem digits_shortest_go_pos {tie : Tie} (hm : m ≠ 0) {e : Int} (he : e ≤ F.decimalExponent m)
    (k : Nat) : 0 < (shortest.go tie (F.neighbourhood m) e k).digits := by
  induction k generalizing e with
  | zero =>
    have hdenominator : 0 < ((F.neighbourhood m).scaled e).denominator := by
      rw [Neighbourhood.scaled_denominator, neighbourhood, Nat.shiftLeft_eq]
      exact Nat.mul_pos (Nat.mul_pos (by decide) (Nat.two_pow_pos _)) (Nat.pow_pos (by decide))
    exact Nat.div_pos (scaled_denominator_le_centre hm he) hdenominator
  | succ k ih =>
    obtain ⟨hlower, hupper⟩ := neighbourhood_pos (F := F) hm
    rw [shortest.go]
    split
    · rename_i c hc
      exact (Neighbourhood.covers_of_nearest? hc).pos (Neighbourhood.scaled_lower_pos hlower e)
        (Neighbourhood.scaled_upper_pos hupper e)
    · exact ih (by omega)

/-- The shortest decimal of a positive magnitude is not zero. -/
theorem digits_shortest_pos (F : Format) (tie : Tie) (hm : m ≠ 0) :
    0 < (F.shortest tie m).digits :=
  digits_shortest_go_pos hm (Int.le_refl _) _

end Format

end GltfAsset
