import Mathlib.Data.List.TakeWhile
import GltfAsset.Json.Basic
import GltfAsset.Proofs.Extension.Scan

/-!
# Strings and integers are read back

What `Text.quote` writes is read by `Text.read` as the same string, and what `Number.ofInt` writes
is read by `Number.read` as the same integer if it has 64 bits, whatever text comes after it.
-/

namespace GltfAsset.Json

/-! ## Strings -/

namespace Text

/-- A string is over at the closing quote. -/
theorem body_quote (acc r : Bytes) : body acc (Mark.quote :: r) = .ok (acc.reverse, r) := by
  rw [body, if_pos rfl]

/-- An escape stands for its bytes. -/
theorem body_backslash {acc r u s : Bytes} (h : unescape r = .ok (u, s)) :
    body acc (Mark.backslash :: r) = body (u.reverse ++ acc) s := by
  conv => lhs; rw [body]
  rw [if_neg (by decide), if_pos rfl]
  split <;> simp_all

/-- Any other byte stands for itself. -/
theorem body_plain {acc r : Bytes} {b : UInt8} (hquote : b ≠ Mark.quote)
    (hslash : b ≠ Mark.backslash) (hcontrol : ¬ b < 0x20) :
    body acc (b :: r) = body (b :: acc) r := by
  conv => lhs; rw [body]
  rw [if_neg hquote, if_neg hslash, if_neg hcontrol]

/-- A backslash and a letter stand for one byte. -/
theorem unescape_short {b c : UInt8} (h : shortEscape? b = some c) (r : Bytes) :
    unescape (b :: r) = .ok ([c], r) := by
  simp only [unescape, next, ok_bind, h]

/-- A hexadecimal digit has its value. -/
theorem hexValue?_hexDigit : ∀ n < 16, hexValue? (hexDigit n) = some n := by decide

/-- Two hexadecimal digits write a byte. -/
theorem hexWord_hexDigits (b : UInt8) (r : Bytes) :
    hexWord (0x30 :: 0x30 :: hexDigit (b.toNat / 16) :: hexDigit (b.toNat % 16) :: r) =
      .ok (b.toNat, r) := by
  have hb := b.toNat_lt
  have hzero : hexValue? 0x30 = some 0 := rfl
  rw [hexWord, hzero, hexValue?_hexDigit _ (by omega), hexValue?_hexDigit _ (by omega)]
  simp only [Except.ok.injEq, Prod.mk.injEq, and_true]
  omega

/-- A control character is one byte. -/
theorem ofString_control : ∀ n < 0x20, Bytes.ofString (Char.ofNat n).toString = [n.toUInt8] := by
  decide +kernel

/-- A control character in four hexadecimal digits stands for its byte. -/
theorem unescape_control {b : UInt8} (hb : b < 0x20) (r : Bytes) :
    unescape (0x75 :: 0x30 :: 0x30 :: hexDigit (b.toNat / 16) :: hexDigit (b.toNat % 16) :: r) =
      .ok ([b], r) := by
  have hlt : b.toNat < 0x20 := UInt8.lt_iff_toNat_lt.mp hb
  have hlow : ¬ IsLowSurrogate b.toNat := fun h => by
    have := h.1
    omega
  have hhigh : ¬ IsHighSurrogate b.toNat := fun h => by
    have := h.1
    omega
  have hshort : shortEscape? 0x75 = none := rfl
  simp only [unescape, next, ok_bind, hshort, if_true, unicode, hexWord_hexDigits, if_neg hlow,
    if_neg hhigh, ofString_control _ hlt]
  rw [Nat.toUInt8, UInt8.ofNat_toNat]

/-- What is written for a byte of a string stands for this byte. -/
theorem body_escape (acc r : Bytes) (b : UInt8) : body acc (escape b ++ r) = body (b :: acc) r := by
  unfold escape
  -- The bytes that have an escape of their own, with the backslash and the quotation mark first.
  split
  · rename_i hb
    subst hb
    exact body_backslash (unescape_short rfl r)
  rename_i hquote
  split
  · rename_i hb
    subst hb
    exact body_backslash (unescape_short rfl r)
  rename_i hslash
  split
  · rename_i hb
    subst hb
    exact body_backslash (unescape_short rfl r)
  split
  · rename_i hb
    subst hb
    exact body_backslash (unescape_short rfl r)
  split
  · rename_i hb
    subst hb
    exact body_backslash (unescape_short rfl r)
  split
  · rename_i hb
    subst hb
    exact body_backslash (unescape_short rfl r)
  split
  · rename_i hb
    subst hb
    exact body_backslash (unescape_short rfl r)
  -- The other control characters, and the bytes that are written as they are.
  split
  · rename_i hcontrol
    exact body_backslash (unescape_control hcontrol r)
  · rename_i hcontrol
    exact body_plain hquote hslash hcontrol

/-- The bytes of a string are read up to the closing quote. -/
theorem body_flatMap_escape (acc bs rest : Bytes) :
    body acc (bs.flatMap escape ++ Mark.quote :: rest) = .ok (acc.reverse ++ bs, rest) := by
  induction bs generalizing acc with
  | nil =>
    rw [List.flatMap_nil, List.nil_append, body_quote, List.append_nil]
  | cons b bs ih =>
    rw [List.flatMap_cons, List.append_assoc, body_escape, ih, List.reverse_cons,
      List.append_assoc, List.singleton_append]

/-- The text of a string after its opening quote. -/
def quoted (s : String) : Bytes := (Bytes.ofString s).flatMap escape ++ [Mark.quote]

/-- A string is written as the opening quote and what comes after it. -/
theorem quote_eq (s : String) : quote s = Mark.quote :: quoted s := rfl

/-- A string that is written is read back. -/
theorem read_quoted (s : String) (rest : Bytes) : read (quoted s ++ rest) = .ok (s, rest) := by
  rw [quoted, List.append_assoc, List.singleton_append, read, body_flatMap_escape, ok_bind,
    List.reverse_nil, List.nil_append]
  simp only [Bytes.toString?_ofString]

end Text

/-! ## Integers -/

namespace Number

/-- The digit of a number below ten. -/
theorem isDigit_digitChar : ∀ n < 10, isDigit (Bytes.ofChar n.digitChar) = true ∧
    digitValue (Bytes.ofChar n.digitChar) = n ∧
    (Bytes.ofChar n.digitChar = 0x30 → n = 0) := by
  decide

/-- The digits of a number. -/
def decimal (n : Nat) : Bytes := Bytes.ofChars (Nat.toDigits 10 n)

/-- A number below ten has one digit. -/
theorem decimal_of_lt {n : Nat} (h : n < 10) : decimal n = [Bytes.ofChar n.digitChar] := by
  rw [decimal, Nat.toDigits_of_lt_base h]
  rfl

/-- A number from ten on has the digits of its tenth part and one more. -/
theorem decimal_of_le {n : Nat} (h : 10 ≤ n) :
    decimal n = decimal (n / 10) ++ [Bytes.ofChar (n % 10).digitChar] := by
  rw [decimal, Nat.toDigits_of_base_le (by decide) h, decimal, Bytes.ofChars, List.map_append]
  rfl

/-- All bytes of a decimal are digits. -/
theorem isDigit_of_mem_decimal (n : Nat) : ∀ b ∈ decimal n, isDigit b = true := by
  induction n using Nat.strongRecOn with
  | _ n ih =>
    rcases Nat.lt_or_ge n 10 with hn | hn
    · rw [decimal_of_lt hn]
      simpa using (isDigit_digitChar n hn).1
    · rw [decimal_of_le hn]
      intro b hb
      rcases List.mem_append.mp hb with hb | hb
      · exact ih (n / 10) (by omega) b hb
      · rw [List.mem_singleton.mp hb]
        exact (isDigit_digitChar (n % 10) (by omega)).1

/-- A decimal starts with a zero only if it is zero. -/
theorem exists_decimal_eq_cons (n : Nat) :
    ∃ b r, decimal n = b :: r ∧ (b = 0x30 → n = 0 ∧ r = []) := by
  induction n using Nat.strongRecOn with
  | _ n ih =>
    rcases Nat.lt_or_ge n 10 with hn | hn
    · exact ⟨_, [], decimal_of_lt hn, fun h => ⟨(isDigit_digitChar n hn).2.2 h, rfl⟩⟩
    · obtain ⟨b, r, hr, hzero⟩ := ih (n / 10) (by omega)
      rw [decimal_of_le hn, hr]
      refine ⟨b, _, rfl, fun h => ?_⟩
      have := (hzero h).1
      omega

/-- The digits of a number below the limit are all kept. -/
theorem gather_decimal {n : Nat} (hn : n < limit) :
    (gather 0 (decimal n)).significand = n ∧ (gather 0 (decimal n)).dropped = 0 := by
  -- The last digit is appended to the significand of those before it, which is less than `n`.
  induction n using Nat.strongRecOn with
  | _ n ih =>
    rcases Nat.lt_or_ge n 10 with hlt | hge
    · have hvalue := (isDigit_digitChar n hlt).2.1
      rw [decimal_of_lt hlt, gather, List.foldl_cons, List.foldl_nil, Gathered.push]
      simp [hvalue, hn]
    · obtain ⟨hsig, hdropped⟩ := ih (n / 10) (by omega) (by omega)
      have hvalue := (isDigit_digitChar (n % 10) (by omega)).2.1
      have hsum : 10 * (n / 10) + n % 10 = n := Nat.div_add_mod n 10
      rw [gather] at hsig hdropped
      rw [decimal_of_le hge, gather, List.foldl_append, List.foldl_cons, List.foldl_nil,
        Gathered.push]
      simp [hsig, hdropped, hvalue, hsum, hn]

/-- The digits of a decimal are read to its end. -/
theorem digits_decimal (n : Nat) : digits (decimal n) = decimal n := by
  rw [digits, List.takeWhile_eq_self_iff]
  exact isDigit_of_mem_decimal n

/-- Nothing comes after the digits of a decimal. -/
theorem afterDigits_decimal (n : Nat) : afterDigits (decimal n) = [] := by
  rw [afterDigits, List.dropWhile_eq_nil_iff]
  exact isDigit_of_mem_decimal n

/-- A natural number that is written is read back, with the sign before it. -/
theorem readUnsigned_decimal {negative : Bool} {n : Nat} (hn : n < limit) :
    readUnsigned negative (decimal n) = .ok (whole negative n, []) := by
  obtain ⟨b, r, hr, hzero⟩ := exists_decimal_eq_cons n
  obtain ⟨hsig, hdropped⟩ := gather_decimal hn
  have hdigits := digits_decimal n
  have hafter := afterDigits_decimal n
  have hb : isDigit b = true := isDigit_of_mem_decimal n b (hr ▸ List.mem_cons_self)
  rw [hr] at hsig hdropped hdigits hafter ⊢
  have hlead : ¬ (b = 0x30 ∧ digits r ≠ []) := by
    rintro ⟨h, hne⟩
    rw [(hzero h).2] at hne
    exact hne rfl
  rw [readUnsigned, if_neg (not_not_intro hb), if_neg hlead, hdigits, hafter, afterWhole,
    if_pos hdropped, hsig]

/-- An integer of 64 bits that is written is read back. -/
theorem read_ofInt {n : Int} (hmin : Int64.minValue.toInt ≤ n) (hmax : n < limit) :
    read (ofInt n) = .ok (.integer n, []) := by
  have hlt : n.natAbs < limit := by
    have : Int64.minValue.toInt = -9223372036854775808 := by decide
    have : limit = 18446744073709551616 := by decide
    omega
  have hdecimal : Bytes.ofChars (Nat.toDigits 10 n.natAbs) = decimal n.natAbs := rfl
  by_cases hneg : n < 0
  · -- With a sign before it, a number that is not zero and not below the least integer is one.
    have hwhole : whole true n.natAbs = .integer n := by
      rw [whole, if_pos rfl, if_neg (by omega)]
      congr
      omega
    simp only [ofInt, if_pos hneg, hdecimal, read, readUnsigned_decimal hlt, hwhole, if_true]
  · have hwhole : whole false n.natAbs = .integer n := by
      rw [whole, if_neg (by decide)]
      congr
      omega
    obtain ⟨b, r, hr, -⟩ := exists_decimal_eq_cons n.natAbs
    have hb : isDigit b = true := isDigit_of_mem_decimal n.natAbs b (hr ▸ List.mem_cons_self)
    -- The text starts with a digit, so no sign is read.
    have hminus : b ≠ Mark.minus := by
      rintro rfl
      contradiction
    have hread : readUnsigned false (decimal n.natAbs) = .ok (whole false n.natAbs, []) :=
      readUnsigned_decimal hlt
    simp only [ofInt, if_neg hneg, hdecimal]
    rw [hr] at hread ⊢
    rw [read, if_neg hminus, hread, hwhole]

end Number

end GltfAsset.Json
