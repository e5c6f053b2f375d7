import GltfAsset.Bytes
import GltfAsset.Json.Error

/-!
# Marks between values

The pieces of JSON text that carry no value of their own: white space, the three literal words,
and the marks that separate elements, keys and values. Each function takes the text that is left
and gives back what is left after it.
-/

namespace GltfAsset.Json

namespace Mark

/-- The mark `"`. -/
@[match_pattern] abbrev quote : UInt8 := 0x22

/-- The mark `,`. -/
@[match_pattern] abbrev comma : UInt8 := 0x2C

/-- The mark `:`. -/
@[match_pattern] abbrev colon : UInt8 := 0x3A

/-- The mark `[`. -/
@[match_pattern] abbrev openBracket : UInt8 := 0x5B

/-- The mark `\`. -/
@[match_pattern] abbrev backslash : UInt8 := 0x5C

/-- The mark `]`. -/
@[match_pattern] abbrev closeBracket : UInt8 := 0x5D

/-- The mark of an opening brace. -/
@[match_pattern] abbrev openBrace : UInt8 := 0x7B

/-- The mark of a closing brace. -/
@[match_pattern] abbrev closeBrace : UInt8 := 0x7D

/-- The mark `-`. -/
@[match_pattern] abbrev minus : UInt8 := 0x2D

/-- The mark `+`. -/
@[match_pattern] abbrev plus : UInt8 := 0x2B

/-- The mark `.`. -/
@[match_pattern] abbrev point : UInt8 := 0x2E

end Mark

/-- White space: space, tab, line feed and carriage return. -/
def isSpace (b : UInt8) : Bool := b = 0x20 || b = 0x09 || b = 0x0A || b = 0x0D

/-- A decimal digit. -/
def isDigit (b : UInt8) : Bool := 0x30 ≤ b && b ≤ 0x39

/-- The text without the white space at its start. -/
def skipSpace (bs : Bytes) : Bytes := bs.dropWhile isSpace

/-- Reads the rest of a literal word, letter by letter. -/
def literal : Bytes → Bytes → Except Error Bytes
  | [], bs => .ok bs
  | _ :: _, [] => .error (.endOfInput .value)
  | c :: word, b :: bs => if b = c then literal word bs else .error .expectedIdent

/-- What follows the `n` of `null`. -/
def restOfNull : Bytes := [0x75, 0x6C, 0x6C]

/-- What follows the `t` of `true`. -/
def restOfTrue : Bytes := [0x72, 0x75, 0x65]

/-- What follows the `f` of `false`. -/
def restOfFalse : Bytes := [0x61, 0x6C, 0x73, 0x65]

/-- Reads the colon between a key and its value. -/
def colon (bs : Bytes) : Except Error Bytes :=
  match skipSpace bs with
  | [] => .error (.endOfInput .object)
  | b :: r => if b = Mark.colon then .ok r else .error .expectedColon

/-- Whether an element of an array comes next. If so, the rest is where it starts; if not, the rest
is the closing bracket and what follows it. -/
def nextElement (first : Bool) (bs : Bytes) : Except Error (Bool × Bytes) :=
  match skipSpace bs with
  | [] => .error (.endOfInput .list)
  | b :: r =>
    if b = Mark.closeBracket then .ok (false, b :: r)
    else if first then .ok (true, b :: r)
    else if b = Mark.comma then
      match skipSpace r with
      | [] => .error (.endOfInput .value)
      | c :: s => if c = Mark.closeBracket then .error .trailingComma else .ok (true, c :: s)
    else .error .expectedListSeparator

/-- Reads the bracket that closes an array of which no further element is wanted. -/
def closeArray (bs : Bytes) : Except Error Bytes :=
  match skipSpace bs with
  | [] => .error (.endOfInput .list)
  | b :: r =>
    if b = Mark.closeBracket then .ok r
    else if b = Mark.comma then
      if (skipSpace r).head? = some Mark.closeBracket then .error .trailingComma
      else .error .trailingCharacters
    else .error .trailingCharacters

/-- Whether a member of an object comes next. If so, the rest is what follows the opening quote of
its key; if not, the rest is what follows the closing brace. -/
def nextKey (first : Bool) (bs : Bytes) : Except Error (Bool × Bytes) :=
  match skipSpace bs with
  | [] => .error (.endOfInput .object)
  | b :: r =>
    if b = Mark.closeBrace then .ok (false, r)
    else if first then
      if b = Mark.quote then .ok (true, r) else .error .keyNotString
    else if b = Mark.comma then
      match skipSpace r with
      | [] => .error (.endOfInput .value)
      | c :: s =>
        if c = Mark.quote then .ok (true, s)
        else if c = Mark.closeBrace then .error .trailingComma
        else .error .keyNotString
    else .error .expectedObjectSeparator

/-! ### Every mark takes something from the text -/

/-- Skipping white space leaves no more than there was. -/
theorem length_skipSpace_le (bs : Bytes) : (skipSpace bs).length ≤ bs.length :=
  (List.dropWhile_sublist isSpace).length_le

/-- Taking a word leaves no more than there was. -/
theorem length_le_of_literal {word bs r : Bytes} (h : literal word bs = .ok r) :
    r.length ≤ bs.length := by
  fun_induction literal word bs with
  | case1 => simp_all
  | case2 => contradiction
  | case3 word bs b ih => have := ih h; simp only [List.length_cons]; omega
  | case4 => contradiction

/-- Taking a colon leaves less than there was. -/
theorem length_lt_of_colon {bs r : Bytes} (h : colon bs = .ok r) : r.length < bs.length := by
  have := length_skipSpace_le bs
  unfold colon at h
  split at h
  · contradiction
  · rename_i c s hs
    simp only [hs, List.length_cons] at *
    split at h
    · obtain rfl := Except.ok.inj h
      omega
    · contradiction

/-- Going on to an element leaves no more than there was. -/
theorem length_le_of_nextElement {first b : Bool} {bs r : Bytes}
    (h : nextElement first bs = .ok (b, r)) : r.length ≤ bs.length := by
  have := length_skipSpace_le bs
  unfold nextElement at h
  split at h
  · contradiction
  · rename_i c s hs
    have := length_skipSpace_le s
    simp only [hs, List.length_cons] at *
    repeat' split at h
    all_goals simp_all
    all_goals grind

/-- Closing an array leaves less than there was. -/
theorem length_lt_of_closeArray {bs r : Bytes} (h : closeArray bs = .ok r) :
    r.length < bs.length := by
  have := length_skipSpace_le bs
  unfold closeArray at h
  split at h
  · contradiction
  · rename_i c s hs
    simp only [hs, List.length_cons] at *
    split at h
    · obtain rfl := Except.ok.inj h
      omega
    · repeat' split at h
      all_goals contradiction

/-- Taking a key leaves less than there was. -/
theorem length_lt_of_nextKey {first b : Bool} {bs r : Bytes}
    (h : nextKey first bs = .ok (b, r)) : r.length < bs.length := by
  have := length_skipSpace_le bs
  unfold nextKey at h
  split at h
  · contradiction
  · rename_i c s hs
    have := length_skipSpace_le s
    simp only [hs, List.length_cons] at *
    repeat' split at h
    all_goals simp_all
    all_goals grind

end GltfAsset.Json
