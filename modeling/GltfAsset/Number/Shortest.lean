import GltfAsset.Number.Binary

/-!
# The fewest digits that read back

Every positive finite float is the nearest float to a whole interval of reals. `Format.shortest`
finds the decimal with the fewest digits in that interval, and of those the one nearest to the
float. It tries one digit, two digits and so on: if a decimal of the given length lies in the
interval, so does one of the two such decimals next to the float, so only these are tested.
-/

namespace GltfAsset

/-- The decimal number `digits * 10 ^ exponent`. -/
structure Decimal where
  /-- The digits, as one number. -/
  digits : Nat
  /-- The power of ten of the last digit. -/
  exponent : Int
deriving DecidableEq, Repr

/-- Which of two equally near decimals is chosen. -/
inductive Tie where
  /-- The one whose last digit is even. -/
  | toEven
  /-- The larger one. -/
  | up
deriving DecidableEq, Repr

/-- A positive number inside the interval that belongs to it, all over a common denominator. -/
structure Neighbourhood where
  /-- The numerator of the lower end. -/
  lower : Nat
  /-- The numerator of the number itself. -/
  centre : Nat
  /-- The numerator of the upper end. -/
  upper : Nat
  /-- The common denominator. -/
  denominator : Nat
  /-- Whether the ends belong to the interval. -/
  closed : Bool
deriving Repr

namespace Neighbourhood

/-- The whole number `c` lies in the interval: strictly inside, or at an end that belongs to it. -/
def Covers (h : Neighbourhood) (c : Nat) : Prop :=
  (h.lower < c * h.denominator ∧ c * h.denominator < h.upper) ∨
    (h.closed = true ∧ (c * h.denominator = h.lower ∨ c * h.denominator = h.upper))

instance (h : Neighbourhood) (c : Nat) : Decidable (h.Covers c) :=
  inferInstanceAs (Decidable ((_ ∧ _) ∨ (_ ∧ (_ ∨ _))))

/-- The numbers divided by `10 ^ e`. -/
def scaled (h : Neighbourhood) : Int → Neighbourhood
  | .ofNat e => { h with denominator := h.denominator * Nat.pow 10 e }
  | .negSucc e =>
    let t := Nat.pow 10 (e + 1)
    { h with lower := h.lower * t, centre := h.centre * t, upper := h.upper * t }

/-- The whole number in the interval that is nearest to the centre, if the interval has one. -/
def nearest? (h : Neighbourhood) (tie : Tie) : Option Nat :=
  let q := h.centre / h.denominator
  let r := h.centre % h.denominator
  if h.Covers q ∧ h.Covers (q + 1) then
    if 2 * r < h.denominator then some q
    else if h.denominator < 2 * r then some (q + 1)
    else match tie with
      | .toEven => if q % 2 = 0 then some q else some (q + 1)
      | .up => some (q + 1)
  else if h.Covers q then some q
  else if h.Covers (q + 1) then some (q + 1)
  else none

end Neighbourhood

namespace Format

variable (F : Format)

/-- The reals that round to a positive finite magnitude: they reach half way to its neighbours,
and the ends belong to it when it is even. All are counted in the spacing of the lower neighbour,
or in ones if that is greater. -/
def neighbourhood (m : Nat) : Neighbourhood :=
  let s := min (F.spacing (m - 1)) F.scale
  let value (k : Nat) : Nat := F.significand k <<< (F.spacing k - s)
  { lower := value (m - 1) + value m
    centre := 2 * value m
    upper := value m + value (m + 1)
    denominator := 2 <<< (F.scale - s)
    closed := m % 2 = 0 }

/-- A number of decimal digits that is certainly needed for ten bits and more: ten bits are worth
more than three digits. -/
def digitsOfBits (bits : Nat) : Nat := bits / 10 * 3

/-- The number of decimal digits of `n`, at least one. Digits are added to those that its bits are
certainly worth until there are enough. -/
def decimalLength (n : Nat) : Nat := go (digitsOfBits n.log2 + 1) n.log2
where
  /-- Adds digits until there are enough; there are never more of them than bits. -/
  go (k : Nat) : Nat → Nat
    | 0 => k
    | bits + 1 => if n < Nat.pow 10 k then k else go (k + 1) bits

/-- The exponent of the power of ten at or below a positive magnitude. For a magnitude below one
the first power of ten that makes it at least one is searched, from the digits on that the missing
bits are certainly worth. -/
def decimalExponent (m : Nat) : Int :=
  let n := F.numerator m
  let d := F.denominator m
  if d ≤ n then (decimalLength (n / d) : Int) - 1
  else
    let k := digitsOfBits (d.log2 - n.log2 - 1)
    go d (n * Nat.pow 10 k) (-k) d.log2
where
  /-- Multiplies by ten until the denominator is reached. -/
  go (d n : Nat) (e : Int) : Nat → Int
    | 0 => e
    | k + 1 => if d ≤ n then e else go d (n * 10) (e - 1) k

/-- The decimal with the fewest digits among those that round to the positive finite magnitude,
nearest to it among these. A significand has more bits than any such decimal has digits. -/
def shortest (tie : Tie) (m : Nat) : Decimal :=
  go (F.neighbourhood m) (F.decimalExponent m) F.precision
where
  /-- Tries the decimals whose last digit stands at `10 ^ e`, then finer ones. -/
  go (h : Neighbourhood) (e : Int) : Nat → Decimal
    | 0 => ⟨(h.scaled e).centre / (h.scaled e).denominator, e⟩
    | k + 1 =>
      match (h.scaled e).nearest? tie with
      | some c => ⟨c, e⟩
      | none => go h (e - 1) k

end Format

end GltfAsset
