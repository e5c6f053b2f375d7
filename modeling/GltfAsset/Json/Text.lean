import GltfAsset.Json.Scan

/-!
# Strings in JSON text

`Text.quote` writes a string between quotes: quote, backslash and control characters are escaped,
all else stays as it is. `Text.read` reads what follows an opening quote, up to and including the
closing one, and `Text.skip` passes over it without looking at what it means.
-/

namespace GltfAsset.Json.Text

/-- The digit of a number below sixteen. -/
def hexDigit (n : Nat) : UInt8 := (if n < 10 then 0x30 + n else 0x57 + n).toUInt8

/-- The written form of one byte of a string: the two-character escapes where there is one, the
code point in four digits for the other controls. -/
def escape (b : UInt8) : Bytes :=
  if b = Mark.quote then [Mark.backslash, Mark.quote]
  else if b = Mark.backslash then [Mark.backslash, Mark.backslash]
  else if b = 0x08 then [Mark.backslash, 0x62]
  else if b = 0x0C then [Mark.backslash, 0x66]
  else if b = 0x0A then [Mark.backslash, 0x6E]
  else if b = 0x0D then [Mark.backslash, 0x72]
  else if b = 0x09 then [Mark.backslash, 0x74]
  else if b < 0x20 then
    [Mark.backslash, 0x75, 0x30, 0x30, hexDigit (b.toNat / 16), hexDigit (b.toNat % 16)]
  else [b]

/-- A string between quotes. -/
def quote (s : String) : Bytes :=
  Mark.quote :: ((Bytes.ofString s).flatMap escape ++ [Mark.quote])

/-- The value of a hexadecimal digit of either case. -/
def hexValue? (b : UInt8) : Option Nat :=
  let n := b.toNat
  if 0x30 ≤ n ∧ n ≤ 0x39 then some (n - 0x30)
  else if 0x41 ≤ n ∧ n ≤ 0x46 then some (n - 0x37)
  else if 0x61 ≤ n ∧ n ≤ 0x66 then some (n - 0x57)
  else none

/-- Reads four hexadecimal digits. That the text ends before the fourth is found out first. -/
def hexWord : Bytes → Except Error (Nat × Bytes)
  | a :: b :: c :: d :: r =>
    match hexValue? a, hexValue? b, hexValue? c, hexValue? d with
    | some a, some b, some c, some d => .ok (((a * 16 + b) * 16 + c) * 16 + d, r)
    | _, _, _, _ => .error .invalidEscape
  | _ => .error (.endOfInput .string)

/-- Reads one byte that a string cannot do without. -/
def next : Bytes → Except Error (UInt8 × Bytes)
  | [] => .error (.endOfInput .string)
  | b :: r => .ok (b, r)

/-- The second half of a surrogate pair. -/
def IsLowSurrogate (n : Nat) : Prop := 0xDC00 ≤ n ∧ n ≤ 0xDFFF

instance (n : Nat) : Decidable (IsLowSurrogate n) := inferInstanceAs (Decidable (_ ∧ _))

/-- The first half of a surrogate pair. -/
def IsHighSurrogate (n : Nat) : Prop := 0xD800 ≤ n ∧ n ≤ 0xDBFF

instance (n : Nat) : Decidable (IsHighSurrogate n) := inferInstanceAs (Decidable (_ ∧ _))

/-- Reads what follows a backslash and the letter `u`: four digits, and the second half of the pair
if they are the first half of one. -/
def unicode (bs : Bytes) : Except Error (Char × Bytes) := do
  let (n, bs) ← hexWord bs
  if IsLowSurrogate n then .error .loneSurrogate
  else if IsHighSurrogate n then
    let (b, bs) ← next bs
    if b ≠ Mark.backslash then .error .unexpectedEndOfHexEscape
    else
      let (b, bs) ← next bs
      if b ≠ 0x75 then .error .unexpectedEndOfHexEscape
      else
        let (m, bs) ← hexWord bs
        if IsLowSurrogate m then
          .ok (Char.ofNat (0x10000 + (n - 0xD800) * 0x400 + (m - 0xDC00)), bs)
        else .error .loneSurrogate
  else .ok (Char.ofNat n, bs)

/-- The byte that a backslash and one letter stand for. -/
def shortEscape? (b : UInt8) : Option UInt8 :=
  if b = Mark.quote ∨ b = Mark.backslash ∨ b = 0x2F then some b
  else if b = 0x62 then some 0x08
  else if b = 0x66 then some 0x0C
  else if b = 0x6E then some 0x0A
  else if b = 0x72 then some 0x0D
  else if b = 0x74 then some 0x09
  else none

/-- Reads what follows a backslash, and gives the bytes that it stands for. -/
def unescape (bs : Bytes) : Except Error (Bytes × Bytes) := do
  let (b, bs) ← next bs
  match shortEscape? b with
  | some c => .ok ([c], bs)
  | none =>
    if b = 0x75 then
      let (c, bs) ← unicode bs
      .ok (Bytes.ofString c.toString, bs)
    else .error .invalidEscape

/-- Passes over what follows a backslash: surrogates are not looked at. -/
def skipEscape (bs : Bytes) : Except Error Bytes := do
  let (b, bs) ← next bs
  if (shortEscape? b).isSome then .ok bs
  else if b = 0x75 then
    let (_, bs) ← hexWord bs
    .ok bs
  else .error .invalidEscape

/-! ### Every escape takes something from the text -/

/-- Four hexadecimal digits take at least one byte. -/
theorem length_lt_of_hexWord {bs r : Bytes} {n : Nat} (h : hexWord bs = .ok (n, r)) :
    r.length < bs.length := by
  unfold hexWord at h
  split at h
  · split at h
    · simp only [Except.ok.injEq, Prod.mk.injEq] at h
      simp only [← h.2, List.length_cons]
      omega
    · contradiction
  · contradiction

/-- A byte is taken. -/
theorem length_lt_of_next {bs r : Bytes} {b : UInt8} (h : next bs = .ok (b, r)) :
    r.length < bs.length := by
  cases bs <;> simp_all [next]

/-- The code point of an escape takes at least one byte. -/
theorem length_lt_of_unicode {bs r : Bytes} {c : Char} (h : unicode bs = .ok (c, r)) :
    r.length < bs.length := by
  simp only [unicode, bind, Except.bind] at h
  repeat' split at h
  all_goals first
    | contradiction
    | simp only [Except.ok.injEq, Prod.mk.injEq] at h
      grind [→ length_lt_of_hexWord, → length_lt_of_next]

/-- An escape takes at least one byte. -/
theorem length_lt_of_unescape {bs r u : Bytes} (h : unescape bs = .ok (u, r)) :
    r.length < bs.length := by
  simp only [unescape, bind, Except.bind] at h
  repeat' split at h
  all_goals first
    | contradiction
    | simp only [Except.ok.injEq, Prod.mk.injEq] at h
      grind [→ length_lt_of_unicode, → length_lt_of_next]

/-- Passing over an escape takes at least one byte. -/
theorem length_lt_of_skipEscape {bs r : Bytes} (h : skipEscape bs = .ok r) :
    r.length < bs.length := by
  simp only [skipEscape, bind, Except.bind] at h
  repeat' split at h
  all_goals first
    | contradiction
    | simp only [Except.ok.injEq] at h
      grind [→ length_lt_of_hexWord, → length_lt_of_next]

/-! ### Whole strings -/

/-- Reads the rest of a string, whose bytes so far are given in reverse. -/
def body (acc : Bytes) (bs : Bytes) : Except Error (Bytes × Bytes) :=
  match bs with
  | [] => .error (.endOfInput .string)
  | b :: r =>
    if b = Mark.quote then .ok (acc.reverse, r)
    else if b = Mark.backslash then
      match _h : unescape r with
      | .error e => .error e
      | .ok (u, s) => body (u.reverse ++ acc) s
    else if b < 0x20 then .error .controlCharacter
    else body (b :: acc) r
termination_by bs.length
decreasing_by
  · have := length_lt_of_unescape _h; simp only [List.length_cons]; omega
  · simp

/-- Reads what follows an opening quote. That the bytes are UTF-8 is found out last. -/
def read (bs : Bytes) : Except Error (String × Bytes) := do
  let (u, r) ← body [] bs
  match Bytes.toString? u with
  | some s => .ok (s, r)
  | none => .error .invalidUnicode

/-- Passes over what follows an opening quote, up to and including the closing one. -/
def skip (bs : Bytes) : Except Error Bytes :=
  match bs with
  | [] => .error (.endOfInput .string)
  | b :: r =>
    if b = Mark.quote then .ok r
    else if b = Mark.backslash then
      match _h : skipEscape r with
      | .error e => .error e
      | .ok s => skip s
    else if b < 0x20 then .error .controlCharacter
    else skip r
termination_by bs.length
decreasing_by
  · have := length_lt_of_skipEscape _h; simp only [List.length_cons]; omega
  · simp

/-- The inside of a string takes at least its closing quote. -/
theorem length_lt_of_body {acc bs u r : Bytes} (h : body acc bs = .ok (u, r)) :
    r.length < bs.length := by
  fun_induction body acc bs <;> simp_all <;> grind [→ length_lt_of_unescape]

/-- A string takes at least one byte. -/
theorem length_lt_of_read {bs r : Bytes} {s : String} (h : read bs = .ok (s, r)) :
    r.length < bs.length := by
  simp only [read, bind, Except.bind] at h
  repeat' split at h
  all_goals first
    | contradiction
    | simp only [Except.ok.injEq, Prod.mk.injEq] at h
      grind [→ length_lt_of_body]

/-- Passing over a string takes at least one byte. -/
theorem length_lt_of_skip {bs r : Bytes} (h : skip bs = .ok r) : r.length < bs.length := by
  fun_induction skip bs <;> simp_all <;> grind [→ length_lt_of_skipEscape]

end GltfAsset.Json.Text
