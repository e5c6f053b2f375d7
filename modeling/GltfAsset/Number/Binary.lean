/-!
# Binary floating point, in exact arithmetic

A `Format` is a binary interchange format, given by its precision and the width of its exponent
field. A *magnitude* is a natural number that counts the non-negative floats from zero upward, so
the order of magnitudes is the order of the floats and the magnitude after the largest finite one
is infinity. `Format.numerator` and `Format.denominator` give the exact value of a magnitude,
`Format.round` the magnitude nearest to a quotient, and `Binary` adds the sign and the one value
that is not a number. No hardware float is involved.
-/

namespace GltfAsset

/-- A binary floating-point format. -/
structure Format where
  /-- The number of bits of a significand, the leading one included. -/
  precision : Nat
  /-- The number of bits of the exponent field. -/
  exponentBits : Nat
deriving DecidableEq, Repr

namespace Format

/-- The 32-bit format. -/
def single : Format := ⟨24, 8⟩

/-- The 64-bit format. -/
def double : Format := ⟨53, 11⟩

variable (F : Format)

/-- The number of consecutive magnitudes that share one exponent. -/
def binade : Nat := 1 <<< (F.precision - 1)

/-- One is this power of two, counted in least positive floats. -/
def scale : Nat := (1 <<< (F.exponentBits - 1)) - 2 + (F.precision - 1)

/-- The magnitude of infinity. -/
def top : Nat := ((1 <<< F.exponentBits) - 1) * F.binade

/-- The significand of a magnitude, as a whole number. The first binade lacks the leading bit. -/
def significand (m : Nat) : Nat := if m < F.binade then m else F.binade + m % F.binade

/-- The power of two, counted in least positive floats, by which a magnitude and the next one
differ. The first two binades are spaced by that float; each later one is spaced twice as widely as
the one before. -/
def spacing (m : Nat) : Nat := m / F.binade - 1

/-- The numerator of the exact value of a magnitude, over its denominator. -/
def numerator (m : Nat) : Nat := F.significand m <<< (F.spacing m - F.scale)

/-- The denominator of the exact value of a magnitude: a power of two, which is one if the spacing
is a whole number. -/
def denominator (m : Nat) : Nat := 1 <<< (F.scale - F.spacing m)

/-- The integer nearest to `n / d`; a tie goes to the even neighbour. -/
def divNearest (n d : Nat) : Nat :=
  let q := n / d
  let r := n % d
  if 2 * r < d ∨ (2 * r = d ∧ q % 2 = 0) then q else q + 1

/-- The place of the leading bit of a positive quotient `n / d`: the greatest power of two that is
not above it. -/
def leadingBit (n d : Nat) : Int :=
  if n <<< d.log2 < d <<< n.log2 then (n.log2 : Int) - d.log2 - 1 else (n.log2 : Int) - d.log2

/-- The magnitude nearest to `n / d`; a tie goes to the even magnitude, and a quotient beyond the
largest finite float goes to infinity. The leading bit of the quotient fixes the spacing of the
magnitudes around it, and the quotient is rounded to a whole number of these. -/
def round (n d : Nat) : Nat :=
  if n = 0 then 0
  else
    let s := (leadingBit n d + F.scale - (F.precision - 1 : Nat)).toNat
    min F.top (s * F.binade + divNearest (n <<< (F.scale - s)) (d <<< (s - F.scale)))

/-- The product of two finite magnitudes. -/
def mul (a b : Nat) : Nat :=
  F.round (F.numerator a * F.numerator b) (F.denominator a * F.denominator b)

/-- The quotient of a finite magnitude by a finite magnitude other than zero. -/
def div (a b : Nat) : Nat :=
  F.round (F.numerator a * F.denominator b) (F.denominator a * F.numerator b)

/-- A quotient rounds to no more than the top. -/
theorem round_le_top (n d : Nat) : F.round n d ≤ F.top := by
  unfold round
  split
  · exact Nat.zero_le _
  · exact Nat.min_le_left ..

end Format

/-- A floating-point number of the given format. -/
inductive Binary (F : Format) where
  /-- The value that is not a number. -/
  | nan
  /-- A finite number or an infinity, by its sign and its magnitude. -/
  | signed (negative : Bool) (magnitude : Fin (F.top + 1))
deriving DecidableEq, Repr

/-- The 32-bit floating-point numbers. -/
abbrev Single := Binary .single

/-- The 64-bit floating-point numbers. -/
abbrev Double := Binary .double

namespace Binary

variable {F : Format}

/-- The float nearest to `n / d`, with the given sign. -/
def ofQuotient (negative : Bool) (n d : Nat) : Binary F :=
  .signed negative ⟨F.round n d, Nat.lt_succ_of_le (F.round_le_top n d)⟩

/-- The float of the given sign and magnitude; a magnitude beyond infinity counts as infinity. -/
def ofMagnitude (negative : Bool) (m : Nat) : Binary F :=
  .signed negative ⟨min F.top m, Nat.lt_succ_of_le (Nat.min_le_left ..)⟩

/-- The float nearest to an integer. -/
def ofInt (n : Int) : Binary F := ofQuotient (n < 0) n.natAbs 1

instance : OfNat (Binary F) n where
  ofNat := ofInt n

instance : Inhabited (Binary F) := ⟨0⟩

/-- A float is finite when it is a number below infinity in magnitude. -/
def IsFinite : Binary F → Prop
  | nan => False
  | signed _ m => m.val < F.top

instance : (x : Binary F) → Decidable x.IsFinite
  | nan => .isFalse id
  | signed _ m => inferInstanceAs (Decidable (m.val < F.top))

/-- The nearest float of another format; signs, infinities and the non-number are kept. -/
def convert (G : Format) : Binary F → Binary G
  | nan => nan
  | signed s m => if m.val < F.top then ofQuotient s (F.numerator m) (F.denominator m)
    else ofMagnitude s G.top

/-- The place of a number on the line: its magnitude, negated if the sign is negative. Both zeros
have the same place. -/
def place : Binary F → Option Int
  | nan => none
  | signed s m => some (if s then -(m.val : Int) else m.val)

/-- Numeric order; false if an operand is not a number. -/
instance : LT (Binary F) where
  lt x y := ∃ a ∈ x.place, ∃ b ∈ y.place, a < b

/-- Numeric order; false if an operand is not a number. -/
instance : LE (Binary F) where
  le x y := ∃ a ∈ x.place, ∃ b ∈ y.place, a ≤ b

/-- Numeric equality: both zeros are equal, and what is not a number is not even equal to itself. -/
def Same (x y : Binary F) : Prop := ∃ a ∈ x.place, a ∈ y.place

instance (x y : Binary F) : Decidable (x < y) :=
  inferInstanceAs (Decidable (∃ a ∈ x.place, ∃ b ∈ y.place, a < b))

instance (x y : Binary F) : Decidable (x ≤ y) :=
  inferInstanceAs (Decidable (∃ a ∈ x.place, ∃ b ∈ y.place, a ≤ b))

instance (x y : Binary F) : Decidable (x.Same y) :=
  inferInstanceAs (Decidable (∃ a ∈ x.place, a ∈ y.place))

end Binary

end GltfAsset
