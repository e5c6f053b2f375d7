import GltfAsset.Json.Number
import GltfAsset.Json.Text

/-!
# Passing over a value

`skipValue` passes over one JSON value whose content is of no interest. Strings, numbers and literal
words are checked in shape only, and arrays and objects may be nested to any depth: the ones that
are open are kept in a list, innermost first.
-/

namespace GltfAsset.Json

namespace Skip

/-- The two kinds of nesting. -/
inductive Frame where
  /-- An array. -/
  | array
  /-- An object. -/
  | object
deriving DecidableEq, Repr

namespace Frame

/-- The mark that ends it. -/
def closing : Frame → UInt8
  | array => Mark.closeBracket
  | object => Mark.closeBrace

/-- What is unfinished when the text ends inside it. -/
def unfinished : Frame → Unfinished
  | array => .list
  | object => .object

/-- The complaint about a mark that neither continues nor ends it. -/
def expectedSeparator : Frame → Error
  | array => .expectedListSeparator
  | object => .expectedObjectSeparator

/-- Passes over what stands before a value: the key and its colon in an object, nothing in an
array. -/
def key : Frame → Bytes → Except Error Bytes
  | array, bs => .ok bs
  | object, bs =>
    match skipSpace bs with
    | [] => .error (.endOfInput .object)
    | b :: r => if b = Mark.quote then Text.skip r >>= colon else .error .keyNotString

end Frame

/-- Where in the text the skipping stands. -/
inductive Place where
  /-- Before a value. -/
  | value
  /-- After an opening mark. -/
  | opened
  /-- After a value. -/
  | after
deriving DecidableEq, Repr

/-- How much is still to come at a place, of what does not take anything from the text. -/
def Place.weight : Place → Nat
  | value => 0
  | opened | after => 1

/-- What one look at the start of a value shows. -/
inductive Start where
  /-- A value without parts, and the text after it. -/
  | scalar (rest : Bytes)
  /-- An opening mark, and the text after it. -/
  | nested (frame : Frame) (rest : Bytes)

/-- The text after the first token of a value. -/
def Start.rest : Start → Bytes
  | scalar r => r
  | nested _ r => r

/-- Passes over a value without parts, or over the opening mark of one that has parts. -/
def start (bs : Bytes) : Except Error Start :=
  match skipSpace bs with
  | [] => .error (.endOfInput .value)
  | b :: r =>
    if b = 0x6E then (literal restOfNull r).map .scalar
    else if b = 0x74 then (literal restOfTrue r).map .scalar
    else if b = 0x66 then (literal restOfFalse r).map .scalar
    else if b = Mark.minus then (Number.skipUnsigned r).map .scalar
    else if isDigit b then (Number.skipUnsigned (b :: r)).map .scalar
    else if b = Mark.quote then (Text.skip r).map .scalar
    else if b = Mark.openBracket then .ok (.nested .array r)
    else if b = Mark.openBrace then .ok (.nested .object r)
    else .error .expectedValue

/-- Taking a key leaves no more than there was. -/
theorem length_le_of_key {f : Frame} {bs r : Bytes} (h : f.key bs = .ok r) :
    r.length ≤ bs.length := by
  have := length_skipSpace_le bs
  cases f <;> simp only [Frame.key, bind, Except.bind] at h
  · simp_all
  · repeat' split at h
    all_goals grind [→ Text.length_lt_of_skip, → length_lt_of_colon]

/-- The start of a value takes at least a byte. -/
theorem length_lt_of_start {bs : Bytes} {s : Start} (h : start bs = .ok s) :
    s.rest.length < bs.length := by
  have := length_skipSpace_le bs
  unfold start Except.map at h
  repeat' split at h
  all_goals
    grind [Start.rest, → length_le_of_literal, → Number.length_lt_of_skipUnsigned,
      → Text.length_lt_of_skip]

/-- Passes over the rest of the nested values that are open, from the given place in the innermost
one on. -/
def run (place : Place) (frames : List Frame) (bs : Bytes) : Except Error Bytes :=
  match place with
  | .value =>
    match _h : start bs with
    | .error e => .error e
    | .ok (.scalar r) => run .after frames r
    | .ok (.nested f r) => run .opened (f :: frames) r
  | .opened =>
    match frames with
    | [] => .ok bs
    | f :: fs =>
      match _h : skipSpace bs with
      | [] => .error (.endOfInput f.unfinished)
      | b :: r =>
        if b = f.closing then run .after fs r
        else
          match _hk : f.key bs with
          | .error e => .error e
          | .ok s => run .value (f :: fs) s
  | .after =>
    match frames with
    | [] => .ok bs
    | f :: fs =>
      match _h : skipSpace bs with
      | [] => .error (.endOfInput f.unfinished)
      | b :: r =>
        if b = f.closing then run .after fs r
        else if b = Mark.comma then
          match _hk : f.key r with
          | .error e => .error e
          | .ok s => run .value (f :: fs) s
        else .error f.expectedSeparator
termination_by 2 * bs.length + place.weight
decreasing_by
  -- before a value: what starts it takes something from the text
  · have := length_lt_of_start _h
    simp only [Start.rest, Place.weight] at *
    omega
  · have := length_lt_of_start _h
    simp only [Start.rest, Place.weight] at *
    omega
  -- after an opening mark: the closing mark is taken, or the place weighs less
  · have := length_skipSpace_le bs
    simp only [_h, List.length_cons] at *
    simp only [Place.weight]
    omega
  · have := length_le_of_key _hk
    simp only [Place.weight]
    omega
  -- after a value: the closing mark or the comma is taken
  · have := length_skipSpace_le bs
    simp only [_h, List.length_cons] at *
    simp only [Place.weight]
    omega
  · have := length_skipSpace_le bs
    have := length_le_of_key _hk
    simp only [_h, List.length_cons] at *
    simp only [Place.weight]
    omega

end Skip

/-- Passes over one value. -/
def skipValue (bs : Bytes) : Except Error Bytes := Skip.run .value [] bs

/-- Passing over what is open leaves no more than there was. -/
theorem Skip.length_le_of_run {place : Place} {fs : List Frame} {bs r : Bytes}
    (h : run place fs bs = .ok r) : r.length ≤ bs.length := by
  fun_induction run place fs bs <;>
    grind [Start.rest, → length_lt_of_start, → length_le_of_key, length_skipSpace_le]

/-- Passing over a value takes at least a byte. -/
theorem length_lt_of_skipValue {bs r : Bytes} (h : skipValue bs = .ok r) :
    r.length < bs.length := by
  unfold skipValue Skip.run at h
  split at h
  · contradiction
  all_goals
    grind [Skip.Start.rest, → Skip.length_lt_of_start, → Skip.length_le_of_run]

end GltfAsset.Json
