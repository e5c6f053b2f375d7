import GltfAsset.Json.Streamed
import GltfAsset.Proofs.Stream.Reception

/-!
# The text that is written piece by piece

Going through a tree, `Json.writeTo` writes the text of the tree: piece after piece what
`Json.write` puts together (`writes_writeTo`), so a receiver that fails has the start of the text.
The proof goes along the tree, and in each case along the pieces in their order.
-/

namespace GltfAsset.Json

open Receiver

variable {σ : Type} [Receiver σ]

/-- An indentation is written as two spaces a level. -/
theorem writes_indentTo (n : Nat) :
    Writes id (indentTo n : Writing σ Unit) (List.replicate (2 * n) 0x20) := by
  induction n with
  | zero => exact writes_pure
  | succ n ih =>
    have hspaces : List.replicate (2 * (n + 1)) (0x20 : UInt8) =
        [0x20, 0x20] ++ List.replicate (2 * n) 0x20 := by
      rw [Nat.mul_succ, Nat.add_comm, ← List.replicate_append_replicate]
      rfl
    rw [hspaces]
    exact (writes_send _).append ih

/-- A line is started after what ends the line before. -/
theorem writes_startTo (ending : Bytes) (n : Nat) (l : Layout) :
    Writes id (l.startTo ending n : Writing σ Unit) (ending ++ l.newline n) := by
  cases l with
  | compact =>
    show Writes id (send ending : Writing σ Unit) (ending ++ [])
    rw [List.append_nil]
    exact writes_send ending
  | indented =>
    have hline : ending ++ Layout.newline .indented n =
        (ending ++ [0x0A]) ++ List.replicate (2 * n) 0x20 := by
      rw [List.append_assoc]
      rfl
    rw [hline]
    exact (writes_send _).append (writes_indentTo n)

namespace Text

/-- The bytes of a string are written with their escapes, after those that wait. -/
theorem writes_escapeTo (plain bs : Bytes) :
    Writes id (escapeTo plain bs : Writing σ Unit) (plain.reverse ++ bs.flatMap escape) := by
  induction bs generalizing plain with
  | nil =>
    rw [List.flatMap_nil, List.append_nil]
    exact writes_send plain.reverse
  | cons b bs ih =>
    rw [List.flatMap_cons, escapeTo]
    split
    · -- The byte stands for itself, and is written with those before it.
      rename_i hplain
      have h := ih (b :: plain)
      rw [List.reverse_cons, List.append_assoc] at h
      rw [hplain]
      exact h
    · exact (writes_send plain.reverse).append ((writes_send (escape b)).append (ih []))

/-- A string is written with its quotes. -/
theorem writes_quoteTo (s : String) : Writes id (quoteTo s : Writing σ Unit) (quote s) :=
  (writes_send [Mark.quote]).append ((writes_escapeTo [] _).append (writes_send [Mark.quote]))

end Text

mutual

/-- What is written is the text of the value. -/
theorem writes_writeTo (l : Layout) (n : Nat) :
    ∀ v : Json, Writes id (v.writeTo l n : Writing σ Unit) (v.write l n)
  | .null => writes_send _
  | .boolean true => writes_send _
  | .boolean false => writes_send _
  | .numeral t => writes_send t
  | .string s => Text.writes_quoteTo s
  | .array [] => (writes_send [Mark.openBracket]).append (writes_send [Mark.closeBracket])
  | .array (v :: vs) => by
    have h := (writes_send (σ := σ) [Mark.openBracket]).append ((writes_startTo [] (n + 1) l).append
      ((writes_writeTo l (n + 1) v).append ((writes_writeItemsTo l n vs).append
        (writes_send [Mark.closeBracket]))))
    rw [write, List.append_assoc, List.append_assoc]
    exact h
  | .object [] => (writes_send [Mark.openBrace]).append (writes_send [Mark.closeBrace])
  | .object ((k, v) :: ms) => by
    have h := (writes_send (σ := σ) [Mark.openBrace]).append ((writes_startTo [] (n + 1) l).append
      ((Text.writes_quoteTo k).append ((writes_send l.colon).append
        ((writes_writeTo l (n + 1) v).append ((writes_writeMembersTo l n ms).append
          (writes_send [Mark.closeBrace]))))))
    rw [write]
    simp only [List.append_assoc]
    exact h

/-- Items are written as they are in one text. -/
theorem writes_writeItemsTo (l : Layout) (n : Nat) :
    ∀ vs : List Json, Writes id (writeItemsTo l n vs : Writing σ Unit) (writeItems l n vs)
  | [] => writes_startTo [] n l
  | v :: vs => by
    have h := (writes_startTo (σ := σ) [Mark.comma] (n + 1) l).append
      ((writes_writeTo l (n + 1) v).append (writes_writeItemsTo l n vs))
    rw [writeItems, List.append_assoc]
    exact h

/-- Members are written as they are in one text. -/
theorem writes_writeMembersTo (l : Layout) (n : Nat) :
    ∀ ms : List (String × Json),
      Writes id (writeMembersTo l n ms : Writing σ Unit) (writeMembers l n ms)
  | [] => writes_startTo [] n l
  | (k, v) :: ms => by
    have h := (writes_startTo (σ := σ) [Mark.comma] (n + 1) l).append
      ((Text.writes_quoteTo k).append ((writes_send l.colon).append
        ((writes_writeTo l (n + 1) v).append (writes_writeMembersTo l n ms))))
    rw [writeMembers]
    simp only [List.append_assoc]
    exact h

end

end GltfAsset.Json
