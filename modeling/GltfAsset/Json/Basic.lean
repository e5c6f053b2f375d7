import GltfAsset.Json.Number
import GltfAsset.Json.Text

/-!
# JSON trees and their text

`Json` is the tree that a document is written through. `Json.write` turns a tree into text in one of
two layouts, and `Json.nesting` is the number of arrays and objects around the innermost value.
-/

namespace GltfAsset

/-- A JSON value to be written. -/
inductive Json where
  /-- The literal `null`. -/
  | null
  /-- A boolean. -/
  | boolean (b : Bool)
  /-- A number, by its text. -/
  | numeral (text : Bytes)
  /-- A string. -/
  | string (s : String)
  /-- An array. -/
  | array (items : List Json)
  /-- An object, by its keys and their values in order. -/
  | object (members : List (String × Json))

namespace Json

/-- How values are set out. -/
inductive Layout where
  /-- Without any white space. -/
  | compact
  /-- One element or member on a line, indented by two spaces for each level. -/
  | indented
deriving DecidableEq, Repr

instance : Inhabited Layout := ⟨.compact⟩

namespace Layout

/-- What starts a line at the given level. -/
def newline : Layout → Nat → Bytes
  | compact, _ => []
  | indented, n => 0x0A :: List.replicate (2 * n) 0x20

/-- What stands between a key and its value. -/
def colon : Layout → Bytes
  | compact => [Mark.colon]
  | indented => [Mark.colon, 0x20]

end Layout

mutual

/-- The text of a value that stands at the given level. -/
def write (l : Layout) (n : Nat) : Json → Bytes
  | .null => 0x6E :: restOfNull
  | .boolean true => 0x74 :: restOfTrue
  | .boolean false => 0x66 :: restOfFalse
  | .numeral t => t
  | .string s => Text.quote s
  | .array [] => [Mark.openBracket, Mark.closeBracket]
  | .array (v :: vs) =>
    Mark.openBracket ::
      (l.newline (n + 1) ++ write l (n + 1) v ++ writeItems l n vs ++ [Mark.closeBracket])
  | .object [] => [Mark.openBrace, Mark.closeBrace]
  | .object ((k, v) :: ms) =>
    Mark.openBrace ::
      (l.newline (n + 1) ++ Text.quote k ++ l.colon ++ write l (n + 1) v ++ writeMembers l n ms ++
        [Mark.closeBrace])

/-- The text of the elements after the first one, up to the closing bracket. -/
def writeItems (l : Layout) (n : Nat) : List Json → Bytes
  | [] => l.newline n
  | v :: vs => Mark.comma :: (l.newline (n + 1) ++ write l (n + 1) v ++ writeItems l n vs)

/-- The text of the members after the first one, up to the closing brace. -/
def writeMembers (l : Layout) (n : Nat) : List (String × Json) → Bytes
  | [] => l.newline n
  | (k, v) :: ms =>
    Mark.comma ::
      (l.newline (n + 1) ++ Text.quote k ++ l.colon ++ write l (n + 1) v ++ writeMembers l n ms)

end

/-- The text of a value. -/
def render (l : Layout) (v : Json) : Bytes := write l 0 v

/-- A float, by its text in the given style; what is not finite has no JSON number and becomes
`null`. -/
def ofFloat (style : FloatStyle) {F : Format} (x : Binary F) : Json :=
  if x.IsFinite then .numeral (Bytes.ofString (style.text x)) else .null

/-- An integer. -/
def ofInt (n : Int) : Json := .numeral (Number.ofInt n)

mutual

/-- The greatest number of arrays and objects around a part of the value, itself included. -/
def nesting : Json → Nat
  | .array vs => nestingItems vs + 1
  | .object ms => nestingMembers ms + 1
  | _ => 0

/-- The greatest nesting of the elements. -/
def nestingItems : List Json → Nat
  | [] => 0
  | v :: vs => max (nesting v) (nestingItems vs)

/-- The greatest nesting of the members. -/
def nestingMembers : List (String × Json) → Nat
  | [] => 0
  | (_, v) :: ms => max (nesting v) (nestingMembers ms)

end

end Json

end GltfAsset
