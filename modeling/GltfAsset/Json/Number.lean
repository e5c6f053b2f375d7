import GltfAsset.Json.Scan

/-!
# Numbers in JSON text

`Number.read` reads a number. Without fraction and exponent it is an integer as long as it fits 64
bits; anything else is a 64-bit float. The digits are gathered into a significand below `2 ^ 64`:
further digits are dropped and, before the point, counted in the exponent. The float is then the
significand, rounded once, multiplied or divided by one rounded power of ten, so that a number is
in general not the float nearest to its decimal. `Number.skip` checks the shape of a number only.
-/

namespace GltfAsset.Json

/-- A number as it is read. -/
inductive Number where
  /-- An integer of 64 bits, with or without sign. -/
  | integer (n : Int)
  /-- Any other number. -/
  | float (x : Double)
deriving DecidableEq, Repr

namespace Number

/-- The digits at the start of a text. -/
def digits (bs : Bytes) : Bytes := bs.takeWhile isDigit

/-- The text after the digits at its start. -/
def afterDigits (bs : Bytes) : Bytes := bs.dropWhile isDigit

/-- The value of a digit. -/
def digitValue (b : UInt8) : Nat := b.toNat - 0x30

/-- The first number that has more than 64 bits. -/
def limit : Nat := 1 <<< 64

/-- Digits gathered so far. -/
structure Gathered where
  /-- The number that the digits kept write. -/
  significand : Nat
  /-- The number of digits kept. -/
  kept : Nat
  /-- The number of digits dropped, because the first of them would have made the significand too
  large. -/
  dropped : Nat
deriving DecidableEq, Repr

/-- Takes one digit more. -/
def Gathered.push (g : Gathered) (b : UInt8) : Gathered :=
  let s := 10 * g.significand + digitValue b
  if g.dropped = 0 ∧ s < limit then ⟨s, g.kept + 1, 0⟩ else { g with dropped := g.dropped + 1 }

/-- Appends digits to a significand. -/
def gather (significand : Nat) (ds : Bytes) : Gathered :=
  ds.foldl Gathered.push ⟨significand, 0, 0⟩

/-- The magnitude nearest to a power of ten. -/
def powerOfTen (k : Nat) : Nat := Format.double.round (Nat.pow 10 k) 1

/-- The greatest power of ten that is a finite float. -/
def maxPower : Nat := 308

/-- A magnitude times a power of ten, in one rounded operation where the power is a finite float.
A smaller power is approached by dividing by the greatest one, until nothing is left. -/
def scale (m : Nat) (e : Int) : Except Error Nat :=
  if e.natAbs ≤ maxPower then
    if 0 ≤ e then
      let p := Format.double.mul m (powerOfTen e.natAbs)
      if p = Format.double.top then .error .numberOutOfRange else .ok p
    else .ok (Format.double.div m (powerOfTen e.natAbs))
  else if m = 0 then .ok m
  else if 0 ≤ e then .error .numberOutOfRange
  else scale (Format.double.div m (powerOfTen maxPower)) (e + maxPower)
termination_by e.natAbs
decreasing_by simp only [maxPower] at *; omega

/-- The float `significand * 10 ^ e` with the given sign. -/
def ofParts (negative : Bool) (significand : Nat) (e : Int) : Except Error Number :=
  (scale (Format.double.round significand 1) e).map fun m => .float (.ofMagnitude negative m)

/-- The greatest exponent that is taken at its value. -/
def maxExponent : Nat := 2147483647

/-- The exponent that digits write; one above the greatest that is taken at its value counts as the
next one. -/
def exponentValue (ds : Bytes) : Nat :=
  ds.foldl (fun n d => min (maxExponent + 1) (10 * n + digitValue d)) 0

/-- The sign at the start of an exponent, as whether it is negative, and the text after it. -/
def exponentSign : Bytes → Bool × Bytes
  | [] => (false, [])
  | b :: r =>
    if b = Mark.plus then (false, r) else if b = Mark.minus then (true, r) else (false, b :: r)

/-- Reads the exponent, from after its letter, and finishes the number. -/
def readExponent (negative : Bool) (significand : Nat) (e : Int) (bs : Bytes) :
    Except Error (Number × Bytes) :=
  let (down, r) := exponentSign bs
  match r with
  | [] => .error (.endOfInput .value)
  | b :: _ =>
    if isDigit b then
      let k := exponentValue (digits r)
      if maxExponent < k then
        if significand ≠ 0 ∧ ¬down then .error .numberOutOfRange
        else .ok (.float (.ofMagnitude negative 0), afterDigits r)
      else do
        let x ← ofParts negative significand (if down then e - k else e + k)
        .ok (x, afterDigits r)
    else .error .invalidNumber

/-- Whether a byte starts an exponent. -/
def isExponentMark (b : UInt8) : Bool := b = 0x65 || b = 0x45

/-- Finishes a number that has a fraction, an exponent or dropped digits. -/
def finish (negative : Bool) (significand : Nat) (e : Int) (bs : Bytes) :
    Except Error (Number × Bytes) :=
  match bs with
  | [] => (ofParts negative significand e).map (·, [])
  | b :: r =>
    if isExponentMark b then readExponent negative significand e r
    else (ofParts negative significand e).map (·, b :: r)

/-- Reads the fraction, from after the point, and finishes the number. -/
def readFraction (negative : Bool) (significand : Nat) (e : Int) (bs : Bytes) :
    Except Error (Number × Bytes) :=
  match bs with
  | [] => .error (.endOfInput .value)
  | b :: _ =>
    if isDigit b then
      let g := gather significand (digits bs)
      finish negative g.significand (e - g.kept) (afterDigits bs)
    else .error .invalidNumber

/-- The number without fraction and exponent that has the given sign and digits. Zero with a minus
sign and a number below the least signed integer of 64 bits are floats. -/
def whole (negative : Bool) (significand : Nat) : Number :=
  if negative then
    if significand = 0 ∨ -(significand : Int) < Int64.minValue.toInt then
      .float (.ofQuotient true significand 1)
    else .integer (-significand)
  else .integer significand

/-- Reads what follows the digits before the point. -/
def afterWhole (negative : Bool) (g : Gathered) (bs : Bytes) : Except Error (Number × Bytes) :=
  match bs with
  | [] =>
    if g.dropped = 0 then .ok (whole negative g.significand, [])
    else finish negative g.significand g.dropped []
  | b :: r =>
    if b = Mark.point then readFraction negative g.significand g.dropped r
    else if isExponentMark b ∨ g.dropped ≠ 0 then
      finish negative g.significand g.dropped (b :: r)
    else .ok (whole negative g.significand, b :: r)

/-- Reads a number, from after its sign. A zero at its start may not be followed by a digit. -/
def readUnsigned (negative : Bool) (bs : Bytes) : Except Error (Number × Bytes) :=
  match bs with
  | [] => .error (.endOfInput .value)
  | b :: r =>
    if ¬isDigit b then .error .invalidNumber
    else if b = 0x30 ∧ (digits r) ≠ [] then .error .invalidNumber
    else afterWhole negative (gather 0 (digits bs)) (afterDigits bs)

/-- Reads a number, whose first byte is known to be a minus sign or a digit. -/
def read (bs : Bytes) : Except Error (Number × Bytes) :=
  match bs with
  | [] => .error (.endOfInput .value)
  | b :: r => if b = Mark.minus then readUnsigned true r else readUnsigned false (b :: r)

/-- Passes over at least one digit. -/
def skipDigits (bs : Bytes) : Except Error Bytes :=
  if digits bs = [] then .error .invalidNumber else .ok (afterDigits bs)

/-- Passes over an exponent, if there is one. -/
def skipExponent (bs : Bytes) : Except Error Bytes :=
  match bs with
  | [] => .ok []
  | b :: r => if isExponentMark b then skipDigits (exponentSign r).2 else .ok (b :: r)

/-- Passes over a fraction, if there is one. -/
def skipFraction (bs : Bytes) : Except Error Bytes :=
  match bs with
  | [] => .ok []
  | b :: r => if b = Mark.point then skipDigits r else .ok (b :: r)

/-- Passes over a number, from after its sign. -/
def skipUnsigned (bs : Bytes) : Except Error Bytes :=
  match bs with
  | [] => .error .invalidNumber
  | b :: r => do
    if b = 0x30 ∧ digits r ≠ [] then .error .invalidNumber
    else
      let s ← skipDigits (b :: r)
      let s ← skipFraction s
      skipExponent s

/-- The written form of an integer. -/
def ofInt (n : Int) : Bytes :=
  let ds := Bytes.ofChars (Nat.toDigits 10 n.natAbs)
  if n < 0 then Mark.minus :: ds else ds

/-! ### Every number takes something from the text -/

/-- Passing over digits leaves no more than there was. -/
theorem length_afterDigits_le (bs : Bytes) : (afterDigits bs).length ≤ bs.length :=
  (List.dropWhile_sublist isDigit).length_le

/-- After the sign of an exponent there is no more than there was. -/
theorem length_exponentSign_le (bs : Bytes) : (exponentSign bs).2.length ≤ bs.length := by
  unfold exponentSign
  repeat' split
  all_goals simp

/-- Reading an exponent leaves no more than there was. -/
theorem length_le_of_readExponent {negative : Bool} {s : Nat} {e : Int} {bs r : Bytes} {x : Number}
    (h : readExponent negative s e bs = .ok (x, r)) : r.length ≤ bs.length := by
  have h₁ := length_exponentSign_le bs
  have h₂ := length_afterDigits_le (exponentSign bs).2
  simp only [readExponent, bind, Except.bind] at h
  repeat' split at h
  all_goals simp_all
  all_goals grind

/-- Completing a number leaves no more than there was. -/
theorem length_le_of_finish {negative : Bool} {s : Nat} {e : Int} {bs r : Bytes} {x : Number}
    (h : finish negative s e bs = .ok (x, r)) : r.length ≤ bs.length := by
  unfold finish Except.map at h
  repeat' split at h
  all_goals grind [→ length_le_of_readExponent]

/-- Reading a fraction leaves no more than there was. -/
theorem length_le_of_readFraction {negative : Bool} {s : Nat} {e : Int} {bs r : Bytes} {x : Number}
    (h : readFraction negative s e bs = .ok (x, r)) : r.length ≤ bs.length := by
  have := length_afterDigits_le bs
  unfold readFraction at h
  repeat' split at h
  all_goals grind [→ length_le_of_finish]

/-- Reading what comes after the whole part leaves no more than there was. -/
theorem length_le_of_afterWhole {negative : Bool} {g : Gathered} {bs r : Bytes} {x : Number}
    (h : afterWhole negative g bs = .ok (x, r)) : r.length ≤ bs.length := by
  unfold afterWhole at h
  repeat' split at h
  all_goals grind [→ length_le_of_finish, → length_le_of_readFraction]

/-- A number without sign takes at least one byte. -/
theorem length_lt_of_readUnsigned {negative : Bool} {bs r : Bytes} {x : Number}
    (h : readUnsigned negative bs = .ok (x, r)) : r.length < bs.length := by
  unfold readUnsigned at h
  repeat' split at h
  · contradiction
  · contradiction
  · contradiction
  · rename_i b s hb _
    have h₁ : afterDigits (b :: s) = afterDigits s := by
      simp only [Bool.not_eq_true, Bool.not_eq_false] at hb
      simp [afterDigits, hb]
    have h₂ := length_afterDigits_le s
    have h₃ := length_le_of_afterWhole h
    simp only [h₁, List.length_cons] at *
    omega

/-- A number takes at least one byte. -/
theorem length_lt_of_read {bs r : Bytes} {x : Number} (h : read bs = .ok (x, r)) :
    r.length < bs.length := by
  unfold read at h
  repeat' split at h
  all_goals grind [→ length_lt_of_readUnsigned]

/-- At least one digit is passed over. -/
theorem length_lt_of_skipDigits {bs r : Bytes} (h : skipDigits bs = .ok r) :
    r.length < bs.length := by
  unfold skipDigits at h
  split at h
  · contradiction
  · rename_i hd
    cases bs with
    | nil => simp [digits] at hd
    | cons b s =>
      have hb : isDigit b = true := by
        cases hb : isDigit b <;> simp_all [digits]
      have h₁ : afterDigits (b :: s) = afterDigits s := by simp [afterDigits, hb]
      have h₂ := length_afterDigits_le s
      simp only [h₁, Except.ok.injEq] at h
      simp only [← h, List.length_cons]
      omega

/-- Passing over an exponent leaves no more than there was. -/
theorem length_le_of_skipExponent {bs r : Bytes} (h : skipExponent bs = .ok r) :
    r.length ≤ bs.length := by
  unfold skipExponent at h
  repeat' split at h
  · simp_all
  · rename_i r _
    have := length_exponentSign_le r
    grind [→ length_lt_of_skipDigits]
  · simp_all

/-- Passing over a fraction leaves no more than there was. -/
theorem length_le_of_skipFraction {bs r : Bytes} (h : skipFraction bs = .ok r) :
    r.length ≤ bs.length := by
  unfold skipFraction at h
  repeat' split at h
  all_goals grind [→ length_lt_of_skipDigits]

/-- Passing over a number without sign takes at least one byte. -/
theorem length_lt_of_skipUnsigned {bs r : Bytes} (h : skipUnsigned bs = .ok r) :
    r.length < bs.length := by
  simp only [skipUnsigned, bind, Except.bind] at h
  repeat' split at h
  all_goals
    grind [→ length_lt_of_skipDigits, → length_le_of_skipFraction, → length_le_of_skipExponent]

end Number

end GltfAsset.Json
