import GltfAsset.Proofs.Container.Packed
import GltfAsset.Proofs.Json.Streamed

/-!
# Writing to receivers that fail

A document and a container are written part after part, and the parts are those of the text and of
the container in their order. So a receiver that fails has the start of what `Document.encode` and
`Container.pack` make whole, up to its limit, and its failure is reported as one of the transport
(`Document.writing_stops_at_limit`).
-/

namespace GltfAsset

open Receiver Container

variable {σ : Type} [Receiver σ]

namespace Document

/-- Of the text of a document, what is within the limit is written. -/
theorem exists_writeTo_eq {s : σ} {m : Limit} (h : Limited s m) (l : Json.Layout) (d : Document) :
    ∃ t, d.writeTo l s = ((m.answer (d.encode l).length).mapError .transport, t) ∧
      written t = written s ++ (d.encode l).take (m.most (d.encode l).length) := by
  have hwrites : Writes id ((codec.toJson d).writeTo l 0 : Writing σ Unit) (d.encode l) :=
    Json.writes_writeTo l 0 (codec.toJson d)
  obtain ⟨t, ht, hwritten, -⟩ := hwrites.exists_run_eq h
  refine ⟨t, ?_, hwritten⟩
  unfold writeTo
  rw [ht]
  cases m.answer (d.encode l).length with
  | ok => rfl
  | error e => rfl

/-- A receiver that takes `k` bytes, in pieces of any sizes, and then fails has the first `k` bytes
of the container or of the text in either layout, and its failure is reported; if they are not
longer than that, it has them whole and there is no error. -/
theorem writing_stops_at_limit {s : σ} {k : Nat} {e : Failure} (hs : Limited s (some (k, e)))
    (d : Document) :
    (∀ bin g, pack d bin = .ok g →
      WrittenUpTo k (Container.Error.transport e) g s ((packTo d bin).run.run s)) ∧
    ∀ l, WrittenUpTo k (Document.Error.transport e) (d.encode l) s (d.writeTo l s) := by
  constructor
  · intro bin g hg
    obtain ⟨hfits, rfl⟩ := pack_eq_ok_iff.mp hg
    obtain ⟨t, ht, hwritten, -⟩ := (writes_packTo hfits).exists_run_eq hs
    exact writtenUpTo_of_eq ht hwritten
  · intro l
    obtain ⟨t, ht, hwritten⟩ := exists_writeTo_eq hs l d
    exact writtenUpTo_of_eq ht hwritten

/-- A place for thirty bytes that takes three at a time and interrupts every write: the text of 27
bytes is written whole, and the container is cut within its text. -/
theorem writing_stops_at_limit_thirty :
    let d : Document := { asset := { version := "2.0" } }
    let e : Failure := ⟨.other, some "full"⟩
    let s : Sink := { limit := some (30, e), pace := some 2, interrupts := true }
    Limited s (some (30, e)) ∧
      ((d.writeTo .compact s).1 = .ok () ∧ (d.writeTo .compact s).2.written = d.encode .compact) ∧
      ((packTo d [1, 2, 3, 4, 5]).run.run s).1 = .error (.transport e) ∧
      ((packTo d [1, 2, 3, 4, 5]).run.run s).2.written =
        header 64 ++ Bytes.ofWord 28 ++ Bytes.ofWord ChunkKind.json.code ++
          (d.encode .compact).take 10 := by
  intro d e s
  have hs : Limited s (some (30, e)) := s.limited
  have hg : pack d [1, 2, 3, 4, 5] = .ok (packed (d.encode .compact) [1, 2, 3, 4, 5]) :=
    pack_eq_ok_iff.mpr ⟨by decide +kernel, rfl⟩
  obtain ⟨hcontainer, htext⟩ := writing_stops_at_limit hs d
  obtain ⟨herror, hwritten⟩ := (hcontainer _ _ hg).cut (by decide +kernel)
  have hpart : (packed (d.encode .compact) [1, 2, 3, 4, 5]).take 30 =
      header 64 ++ Bytes.ofWord 28 ++ Bytes.ofWord ChunkKind.json.code ++
        (d.encode .compact).take 10 := by decide +kernel
  exact ⟨hs, (htext .compact).whole (by decide +kernel), herror, hwritten.trans hpart⟩

end Document

end GltfAsset
