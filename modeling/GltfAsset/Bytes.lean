/-!
# Byte strings

Files, containers and JSON texts are lists of bytes. `Bytes.ofString` gives those of a string, and
`Bytes.toString?` reads them (`Bytes.toString?_ofString`). A word of four bytes and the number that
it writes determine each other (`Bytes.toNat_ofWord`, `Bytes.ofWord_toNat`).
-/

namespace GltfAsset

/-- A sequence of bytes. -/
abbrev Bytes := List UInt8

namespace Bytes

/-- The UTF-8 form of a string. -/
def ofString (s : String) : Bytes := s.toByteArray.data.toList

/-- The string whose UTF-8 form is given, or `none` if the bytes are not UTF-8. -/
def toString? (b : Bytes) : Option String := String.fromUTF8? ⟨b.toArray⟩

/-- The byte of an ASCII character. -/
def ofChar (c : Char) : UInt8 := c.toNat.toUInt8

/-- The bytes of a list of ASCII characters. -/
def ofChars (cs : List Char) : Bytes := cs.map ofChar

/-- The first number that a word of four bytes cannot hold. -/
def wordLimit : Nat := 1 <<< 32

/-- The four bytes of a word, least significant first. -/
def ofWord (n : Nat) : Bytes :=
  [n.toUInt8, (n >>> 8).toUInt8, (n >>> 16).toUInt8, (n >>> 24).toUInt8]

/-- The number that bytes write, least significant first. -/
def toNat : Bytes → Nat
  | [] => 0
  | b :: r => b.toNat + 256 * toNat r

/-- A string is read from its bytes. -/
theorem toString?_ofString (s : String) : toString? (ofString s) = some s := by
  have h : (⟨(ofString s).toArray⟩ : ByteArray) = s.toByteArray := rfl
  simp [toString?, h, String.fromUTF8?, s.isValidUTF8, String.fromUTF8]

/-- A word has four bytes. -/
@[simp] theorem length_ofWord (n : Nat) : (ofWord n).length = 4 := rfl

/-- A number that fits a word is read from its bytes. -/
theorem toNat_ofWord {n : Nat} (h : n < wordLimit) : toNat (ofWord n) = n := by
  simp only [wordLimit, Nat.shiftLeft_eq] at h
  simp only [ofWord, toNat, Nat.toUInt8, UInt8.toNat_ofNat', Nat.shiftRight_eq_div_pow]
  omega

/-- Four bytes write a number that fits a word. -/
theorem toNat_lt_wordLimit {b : Bytes} (h : b.length = 4) : toNat b < wordLimit := by
  match b, h with
  | [b₀, b₁, b₂, b₃], _ =>
    have h₀ := b₀.toNat_lt
    have h₁ := b₁.toNat_lt
    have h₂ := b₂.toNat_lt
    have h₃ := b₃.toNat_lt
    simp only [toNat, wordLimit, Nat.shiftLeft_eq]
    omega

/-- Four bytes are the word of the number that they write. -/
theorem ofWord_toNat {b : Bytes} (h : b.length = 4) : ofWord (toNat b) = b := by
  match b, h with
  | [b₀, b₁, b₂, b₃], _ =>
    have h₀ := b₀.toNat_lt
    have h₁ := b₁.toNat_lt
    have h₂ := b₂.toNat_lt
    have h₃ := b₃.toNat_lt
    simp only [ofWord, toNat, List.cons.injEq, and_true, ← UInt8.toNat_inj, Nat.toUInt8,
      UInt8.toNat_ofNat', Nat.shiftRight_eq_div_pow]
    omega

end Bytes

end GltfAsset
