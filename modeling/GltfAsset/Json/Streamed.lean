import GltfAsset.Json.Basic
import GltfAsset.Stream.Receiver

/-!
# JSON text, written piece by piece

`Json.writeTo` writes the text of a tree to a receiver while it goes through the tree: one write for
each literal, number, mark and indentation, and for each part of a string between two escapes.
Nothing of the text is held back, so a receiver that fails has the start of it.
-/

namespace GltfAsset.Json

open Receiver

variable {σ : Type} [Receiver σ]

/-- Writes the white space before a line, two spaces for each level. -/
def indentTo : Nat → Writing σ Unit
  | 0 => pure ()
  | n + 1 => do
    send [0x20, 0x20]
    indentTo n

/-- Starts a line at the given level, after what ends the line before. -/
def Layout.startTo (ending : Bytes) (n : Nat) : Layout → Writing σ Unit
  | compact => send ending
  | indented => do
    send (ending ++ [0x0A])
    indentTo n

namespace Text

/-- Writes the bytes of a string. Those before the next one that has to be escaped are written
together, and are given in reverse. -/
def escapeTo (plain : Bytes) : Bytes → Writing σ Unit
  | [] => send plain.reverse
  | b :: bs =>
    if escape b = [b] then escapeTo (b :: plain) bs
    else do
      send plain.reverse
      send (escape b)
      escapeTo [] bs

/-- Writes a string between quotes. -/
def quoteTo (s : String) : Writing σ Unit := do
  send [Mark.quote]
  escapeTo [] (Bytes.ofString s)
  send [Mark.quote]

end Text

mutual

/-- Writes the text of a value that stands at the given level. -/
def writeTo (l : Layout) (n : Nat) : Json → Writing σ Unit
  | .null => send (0x6E :: restOfNull)
  | .boolean true => send (0x74 :: restOfTrue)
  | .boolean false => send (0x66 :: restOfFalse)
  | .numeral t => send t
  | .string s => Text.quoteTo s
  | .array [] => do
    send [Mark.openBracket]
    send [Mark.closeBracket]
  | .array (v :: vs) => do
    send [Mark.openBracket]
    l.startTo [] (n + 1)
    writeTo l (n + 1) v
    writeItemsTo l n vs
    send [Mark.closeBracket]
  | .object [] => do
    send [Mark.openBrace]
    send [Mark.closeBrace]
  | .object ((k, v) :: ms) => do
    send [Mark.openBrace]
    l.startTo [] (n + 1)
    Text.quoteTo k
    send l.colon
    writeTo l (n + 1) v
    writeMembersTo l n ms
    send [Mark.closeBrace]

/-- Writes the elements after the first one, up to the closing bracket. -/
def writeItemsTo (l : Layout) (n : Nat) : List Json → Writing σ Unit
  | [] => l.startTo [] n
  | v :: vs => do
    l.startTo [Mark.comma] (n + 1)
    writeTo l (n + 1) v
    writeItemsTo l n vs

/-- Writes the members after the first one, up to the closing brace. -/
def writeMembersTo (l : Layout) (n : Nat) : List (String × Json) → Writing σ Unit
  | [] => l.startTo [] n
  | (k, v) :: ms => do
    l.startTo [Mark.comma] (n + 1)
    Text.quoteTo k
    send l.colon
    writeTo l (n + 1) v
    writeMembersTo l n ms

end

end GltfAsset.Json
