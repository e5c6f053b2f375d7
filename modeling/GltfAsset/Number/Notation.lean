import GltfAsset.Number.Shortest

/-!
# How a float is written

`FloatStyle` holds the choices of a written form that the digits leave open: which powers of ten
are written positionally, whether a whole number is given `.0`, and which of two equally near
decimals is taken. `FloatStyle.text` writes a float in such a form.
-/

namespace GltfAsset

/-- The choices that fix the written form of a float. -/
structure FloatStyle where
  /-- The exponents of the leading digit, lowest and highest, for which the number is written
  positionally; outside of them it is written with an exponent. Absent if all are. -/
  positional : Option (Int × Int)
  /-- Whether a whole number that is written positionally ends in `.0`. -/
  pointZero : Bool
  /-- The choice between two equally near decimals. -/
  tie : Tie
deriving DecidableEq, Repr

namespace FloatStyle

/-- A number in positional form, from its digits and the exponent of the first of them. -/
def fixed (style : FloatStyle) (ds : List Char) (k : Int) : List Char :=
  if k < 0 then '0' :: '.' :: (List.replicate (-k - 1).toNat '0' ++ ds)
  else
    let whole := (k + 1).toNat
    if ds.length ≤ whole then
      ds ++ List.replicate (whole - ds.length) '0' ++ if style.pointZero then ['.', '0'] else []
    else ds.take whole ++ '.' :: ds.drop whole

/-- A number with an exponent: one digit before the point, and the sign of the exponent always
written. -/
def scientific (ds : List Char) (k : Int) : List Char :=
  ds.take 1 ++ (if ds.length ≤ 1 then [] else '.' :: ds.drop 1) ++
    'e' :: (if k < 0 then '-' else '+') :: Nat.toDigits 10 k.natAbs

/-- The digits of a number without the zeros at its end. -/
def significantDigits (n : Nat) : List Char :=
  ((Nat.toDigits 10 n).reverse.dropWhile (· = '0')).reverse

/-- The written form of a positive finite magnitude. -/
def magnitude (style : FloatStyle) (F : Format) (m : Nat) : List Char :=
  let d := F.shortest style.tie m
  let ds := significantDigits d.digits
  let k := d.exponent + Format.decimalLength d.digits - 1
  match style.positional with
  | none => style.fixed ds k
  | some (low, high) => if low ≤ k ∧ k ≤ high then style.fixed ds k else scientific ds k

/-- The written form of a float. -/
def text (style : FloatStyle) {F : Format} : Binary F → String
  | .nan => "NaN"
  | .signed negative m =>
    let body :=
      if m.val = F.top then ['i', 'n', 'f']
      else if m.val = 0 then style.fixed ['0'] 0
      else style.magnitude F m
    String.ofList (if negative then '-' :: body else body)

end FloatStyle

end GltfAsset
