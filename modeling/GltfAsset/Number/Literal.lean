import GltfAsset.Number.Binary

/-!
# Floats written as text

`Double.ofText?` reads the text of a version such as `2.0`: an optional sign, then digits with an
optional point and at least one digit on either side of it, then an optional exponent; or one of
the words `inf`, `infinity` and `nan` in any letter case. Nothing may stand before or after. The
result is the float nearest to the decimal that is written, of whose exponent only the digits up to
the one with which it reaches `65536` count.
-/

namespace GltfAsset

namespace Literal

/-- The value of a digit. -/
def digit (c : Char) : Nat := c.toNat - '0'.toNat

/-- The number that digits write after the digits of another number. -/
def append (n : Nat) (ds : List Char) : Nat := ds.foldl (fun n c => 10 * n + digit c) n

/-- The number of digits up to which a number is read digit by digit. -/
def shortRun : Nat := 64

/-- The number that digits write. Of a long run, both halves are read on their own, so that the
numbers to be multiplied are of one size. -/
def value (ds : List Char) : Nat :=
  let k := ds.length / 2
  if ds.length ≤ shortRun then append 0 ds
  else value (ds.take k) * Nat.pow 10 (ds.length - k) + value (ds.drop k)
termination_by ds.length
decreasing_by all_goals simp only [shortRun, List.length_take, List.length_drop] at *; omega

/-- A leading sign, as whether it is negative, and what follows it. -/
def sign : List Char → Bool × List Char
  | '+' :: r => (false, r)
  | '-' :: r => (true, r)
  | r => (false, r)

/-- An exponent is complete once it reaches this number. -/
def exponentLimit : Nat := 65536

/-- The exponent that digits write. A digit is taken as long as the exponent before it is below the
limit; those after it are passed over. -/
def exponentValue (ds : List Char) : Nat :=
  ds.foldl (fun n c => if n < exponentLimit then 10 * n + digit c else n) 0

/-- The exponent that ends a literal; zero if there is none. -/
def exponent? : List Char → Option Int
  | [] => some 0
  | c :: r =>
    let (negative, ds) := sign r
    if (c = 'e' ∨ c = 'E') ∧ ds ≠ [] ∧ ds.all Char.isDigit then
      some (if negative then -(exponentValue ds : Int) else exponentValue ds)
    else none

/-- The digits after a point, if one comes next, and what follows them. -/
def fraction : List Char → List Char × List Char
  | '.' :: r => (r.takeWhile Char.isDigit, r.dropWhile Char.isDigit)
  | r => ([], r)

/-- An unsigned decimal as it is written. -/
structure Numeral where
  /-- The digits, those after the point included. -/
  digits : List Char
  /-- The power of ten of the last digit. -/
  exponent : Int
deriving DecidableEq, Repr

/-- The unsigned decimal that a text writes. -/
def numeral? (s : List Char) : Option Numeral :=
  let whole := s.takeWhile Char.isDigit
  let (part, r) := fraction (s.dropWhile Char.isDigit)
  if whole = [] ∧ part = [] then none
  else (exponent? r).map fun e => ⟨whole ++ part, e - part.length⟩

/-- The magnitude nearest to a decimal. A decimal whose leading digit stands above `10 ^ 400` or
below `10 ^ -400` is beyond every finite magnitude or below half of the least one. -/
def Numeral.magnitude (d : Numeral) : Nat :=
  let ds := d.digits.dropWhile (· = '0')
  let k := d.exponent + ds.length
  if ds = [] ∨ k < -400 then 0
  else if 400 < k then Format.double.top
  else match d.exponent with
    | .ofNat e => Format.double.round (value ds * Nat.pow 10 e) 1
    | .negSucc e => Format.double.round (value ds) (Nat.pow 10 (e + 1))

end Literal

/-- The float that a text writes, if it writes one. -/
def Double.ofText? (s : String) : Option Double :=
  let (negative, r) := Literal.sign s.toList
  let word := r.map Char.toLower
  if word = ['n', 'a', 'n'] then some .nan
  else if word = "inf".toList ∨ word = "infinity".toList then
    some (.ofMagnitude negative Format.double.top)
  else (Literal.numeral? r).map fun d => .ofMagnitude negative d.magnitude

end GltfAsset
