import GltfAsset.Number.Notation
import GltfAsset.Text.Quoted

/-!
# Why a JSON text is refused

`Json.Error` has one constructor for each cause. `Json.Error.message` is its wording and
`Json.Error.category` tells apart text that ends too early, text that is no JSON, and JSON whose
values are not the ones that are wanted. A float in a message is worded as a text writes it.
-/

namespace GltfAsset.Json

/-! ## How a text writes floats

Both formats give the fewest digits that read back and always a point or an exponent; they differ
in the powers of ten that are written positionally. -/

/-- A 64-bit float is positional from `0.00001` up to, but not including, `10 ^ 16`. -/
def doubleStyle : FloatStyle := ⟨some (-5, 15), true, .toEven⟩

/-- A 32-bit float is positional from `0.000001` up to, but not including, `10 ^ 13`. -/
def singleStyle : FloatStyle := ⟨some (-6, 12), true, .toEven⟩

/-! ## Errors -/

/-- How the reader of a value describes what it wants. -/
inductive Expected where
  /-- A string. -/
  | string
  /-- A boolean. -/
  | boolean
  /-- A signed 64-bit integer. -/
  | integer
  /-- A 32-bit float. -/
  | single
  /-- An array of any length. -/
  | sequence
  /-- An array of the given length. -/
  | array (length : Nat)
  /-- An object with any keys. -/
  | map
  /-- The record of the given name. -/
  | record (name : String)
  /-- The record of the given name, written as the array of its members. -/
  | members (name : String) (count : Nat)
deriving DecidableEq, Repr

/-- What stands in the text where something else is wanted. -/
inductive Found where
  /-- The literal `null`. -/
  | null
  /-- A boolean. -/
  | boolean (b : Bool)
  /-- A number without fraction and exponent. -/
  | integer (n : Int)
  /-- Any other number. -/
  | float (x : Double)
  /-- A string. -/
  | string (s : String)
  /-- An array. -/
  | sequence
  /-- An object. -/
  | map
deriving DecidableEq, Repr

/-- What was being read when the text ended. -/
inductive Unfinished where
  /-- An array. -/
  | list
  /-- An object. -/
  | object
  /-- A string. -/
  | string
  /-- A value. -/
  | value
deriving DecidableEq, Repr

/-- Why a text is refused. -/
inductive Error where
  /-- The text ends too early. -/
  | endOfInput (within : Unfinished)
  /-- A key is not followed by a colon. -/
  | expectedColon
  /-- An element is followed by neither a comma nor the end of the array. -/
  | expectedListSeparator
  /-- A member is followed by neither a comma nor the end of the object. -/
  | expectedObjectSeparator
  /-- A literal is misspelt. -/
  | expectedIdent
  /-- No value starts here. -/
  | expectedValue
  /-- A comma is followed by the end of the array or object. -/
  | trailingComma
  /-- Something follows where the text or the array should end. -/
  | trailingCharacters
  /-- A key is not a string. -/
  | keyNotString
  /-- A string holds an unescaped control character. -/
  | controlCharacter
  /-- A backslash is followed by no known escape. -/
  | invalidEscape
  /-- A string is not UTF-8. -/
  | invalidUnicode
  /-- The first half of a surrogate pair is not followed by an escape. -/
  | unexpectedEndOfHexEscape
  /-- Half of a surrogate pair stands alone. -/
  | loneSurrogate
  /-- A number is malformed. -/
  | invalidNumber
  /-- A number is too large for a 64-bit float. -/
  | numberOutOfRange
  /-- Arrays and objects are nested too deeply. -/
  | tooDeep
  /-- A required member is absent. -/
  | missingField (name : String)
  /-- A member is given twice. -/
  | duplicateField (name : String)
  /-- An array has too few elements. -/
  | invalidLength (length : Nat) (expected : Expected)
  /-- A value is of the wrong kind. -/
  | invalidType (found : Found) (expected : Expected)
  /-- An integer does not fit. -/
  | integerOutOfRange (n : Int)
deriving DecidableEq, Repr

/-- The three classes of refusal. -/
inductive Category where
  /-- The text is no JSON. -/
  | malformed
  /-- The values are not the ones that are wanted. -/
  | data
  /-- The text ends too early. -/
  | endOfInput
deriving DecidableEq, Repr

namespace Expected

/-- The wording. -/
def text : Expected → String
  | string => "a string"
  | boolean => "a boolean"
  | integer => "i64"
  | single => "f32"
  | sequence => "a sequence"
  | array n => s!"an array of length {n}"
  | map => "a map"
  | record name => s!"struct {name}"
  | members name n => s!"struct {name} with {n} element" ++ if n = 1 then "" else "s"

end Expected

namespace Found

/-- The wording. -/
def text : Found → String
  | null => "null"
  | boolean b => if b then "boolean `true`" else "boolean `false`"
  | integer n => s!"integer `{n}`"
  | float x => "floating point `" ++ doubleStyle.text x ++ "`"
  | string s => "string " ++ Text.quoted s
  | sequence => "sequence"
  | map => "map"

end Found

namespace Unfinished

/-- The wording. -/
def text : Unfinished → String
  | list => "a list"
  | object => "an object"
  | string => "a string"
  | value => "a value"

end Unfinished

namespace Error

/-- The wording. -/
def message : Error → String
  | endOfInput u => "EOF while parsing " ++ u.text
  | expectedColon => "expected `:`"
  | expectedListSeparator => "expected `,` or `]`"
  | expectedObjectSeparator => "expected `,` or `\x7d`"
  | expectedIdent => "expected ident"
  | expectedValue => "expected value"
  | trailingComma => "trailing comma"
  | trailingCharacters => "trailing characters"
  | keyNotString => "key must be a string"
  | controlCharacter => "control character (\\u0000-\\u001F) found while parsing a string"
  | invalidEscape => "invalid escape"
  | invalidUnicode => "invalid unicode code point"
  | unexpectedEndOfHexEscape => "unexpected end of hex escape"
  | loneSurrogate => "lone leading surrogate in hex escape"
  | invalidNumber => "invalid number"
  | numberOutOfRange => "number out of range"
  | tooDeep => "recursion limit exceeded"
  | missingField name => s!"missing field `{name}`"
  | duplicateField name => s!"duplicate field `{name}`"
  | invalidLength n e => s!"invalid length {n}, expected {e.text}"
  | invalidType f e => s!"invalid type: {f.text}, expected {e.text}"
  | integerOutOfRange n => s!"invalid value: integer `{n}`, expected i64"

/-- The class of the refusal. -/
def category : Error → Category
  | endOfInput _ => .endOfInput
  | missingField _ | duplicateField _ | invalidLength .. | invalidType .. | integerOutOfRange _ =>
    .data
  | _ => .malformed

end Error

end GltfAsset.Json
