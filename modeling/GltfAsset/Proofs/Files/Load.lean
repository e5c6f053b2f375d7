import Mathlib.Control.Monad.Basic
import GltfAsset.Files
import GltfAsset.Proofs.Container.Agreement

/-!
# Files are loaded as their bytes are

A file is looked at through a place in it and then read through a buffer, while the bytes of a file
that are at hand are cut. Both give the same, errors included, since a document is decoded from the
same bytes and a container is opened from every stream of its bytes in the same way
(`opening_streamed_eq_atHand`).
-/

namespace GltfAsset

open Source

/-- The document in a stream is that of the bytes that are left in it. -/
theorem Document.readFrom_eq {σ : Type} [Source σ] {s : σ} {b : Bytes} (h : Gives s b) :
    (Document.readFrom s).1 = (Document.decode b).mapError .text := by
  obtain ⟨t, ht, -⟩ := exists_takeAll_eq h
  rw [Document.readFrom, ht]

namespace Directory

/-- Whether a file is a container is told from a place in it as it is from its bytes. -/
theorem recognize_cursor_eq (b : Bytes) :
    (Container.recognize (⟨b, 0⟩ : Cursor)).1 = (Container.recognize (⟨b, 0⟩ : Slice)).1 := by
  have hleft : SameLeft (⟨b, 0⟩ : Cursor) (⟨b, 0⟩ : Slice) := ⟨b, Cursor.gives _, Slice.gives _⟩
  exact (Container.agree_recognize agree_take_of_left).fst_eq hleft

/-- The asset in a file is the asset in its bytes. -/
theorem load_eq_of_read {dir : Directory} {name : String} {b : Bytes} (h : dir.read name = .ok b) :
    dir.load name = GltfAsset.load b := by
  have hfile : Gives ({ content := b, capacityPred := readAhead - 1 } : Buffered) b :=
    Buffered.gives _
  simp only [load, h, recognize_cursor_eq, GltfAsset.load, Document.readFrom_eq hfile]
  split
  · exact congrArg _ (Container.unpackFrom_eq_unpack hfile)
  · cases Document.decode b <;> rfl

end Directory

/-- A container gives the same document, bytes and warning, or the same error, whether it is at hand
or comes through a stream; and a file of any name gives what its bytes give, a container or the text
of a document. -/
theorem opening_streamed_eq_atHand (c : Bytes) :
    (∀ (σ : Type) [Stream σ] (s : σ), Gives s c →
      ((Container.unpackFrom .truncateToDeclared :
        Container.Walk σ Container.Contents).run.run s).1 = Container.unpack c) ∧
    ∀ (dir : Directory) (name : String), dir.read name = .ok c → dir.load name = load c :=
  ⟨fun _ _ _ h => Container.unpackFrom_eq_unpack h, fun _ _ h => Directory.load_eq_of_read h⟩

/-- A container that is cut in its text, from pieces of two bytes and in a file named as a text. -/
theorem opening_streamed_eq_atHand_cut :
    let c : Bytes := Container.header 100 ++ Bytes.ofWord 80 ++
      Bytes.ofWord Container.ChunkKind.json.code ++ Bytes.ofString "\x7b"
    let s : Sequential := { rest := c, pace := fun _ => 1 }
    let dir : Directory := { files := [(Directory.resolve "a.gltf", c)] }
    ((Container.unpackFrom .truncateToDeclared :
        Container.Walk Sequential Container.Contents).run.run s).1 = Container.unpack c ∧
      dir.load "a.gltf" = load c ∧ load c = .error (.malformedContainer .truncated) := by
  intro c s dir
  obtain ⟨hstream, hfile⟩ := opening_streamed_eq_atHand c
  have hread : dir.read "a.gltf" = .ok c := by
    have hname : Directory.terminator ∉ "a.gltf".toList := by decide
    simp only [Directory.read, if_neg hname, dir, List.lookup_cons_self]
  exact ⟨hstream Sequential s (Sequential.gives rfl), hfile _ _ hread, by decide +kernel⟩

end GltfAsset
