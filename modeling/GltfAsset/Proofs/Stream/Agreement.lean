import GltfAsset.Proofs.Stream.Place

/-!
# Streams that agree

Two streams of different transports are related if the same bytes are left in both
(`Source.SameLeft`), or if they stand at the same place of one content (`Source.SamePlace`). A
relation is kept by an operation of both if the operation gives the same on related streams and
leaves them related (`Source.Agree`). Taking bytes keeps the first relation, and passing
over bytes keeps the second one too.
-/

namespace GltfAsset.Source

variable {σ τ ρ : Type}

/-- From streams related by `S`, both operations give the same and leave related streams. -/
def Agree (S : σ → τ → Prop) (f : σ → ρ × σ) (g : τ → ρ × τ) : Prop :=
  ∀ (s : σ) (t : τ), S s t → ∃ r s' t', f s = (r, s') ∧ g t = (r, t') ∧ S s' t'

/-- What is given is the same. -/
theorem Agree.fst_eq {S : σ → τ → Prop} {f : σ → ρ × σ} {g : τ → ρ × τ} (h : Agree S f g) {s : σ}
    {t : τ} (hst : S s t) : (f s).1 = (g t).1 := by
  obtain ⟨r, s', t', hs, ht, -⟩ := h s t hst
  rw [hs, ht]

/-- What is made of the same is the same. -/
theorem Agree.map {ρ' : Type} {S : σ → τ → Prop} {f : σ → ρ × σ} {g : τ → ρ × τ} (h : Agree S f g)
    (k : ρ → ρ') : Agree S (fun s => (f s).map k id) (fun t => (g t).map k id) := by
  intro s t hst
  obtain ⟨r, s', t', hs, ht, hrelated⟩ := h s t hst
  simp only [hs, ht]
  exact ⟨k r, s', t', rfl, rfl, hrelated⟩

section Left

variable [Source σ] [Source τ]

/-- The same bytes are left in two streams. -/
def SameLeft (s : σ) (t : τ) : Prop := ∃ b, Gives s b ∧ Gives t b

/-- Streams with the same bytes left take the same. -/
theorem agree_take_of_left (n : Nat) :
    Agree (SameLeft (σ := σ) (τ := τ)) (take n) (take n) := by
  rintro s t ⟨b, hs, ht⟩
  obtain ⟨s', hs, hs'⟩ := exists_take_eq hs n
  obtain ⟨t', ht, ht'⟩ := exists_take_eq ht n
  exact ⟨_, s', t', hs, ht, b.drop n, hs', ht'⟩

end Left

section Place

variable [Source σ] [Source τ] {c : Bytes} {I : σ → Prop} {J : τ → Prop}

/-- Two streams are in the given states, at one place. -/
structure SamePlace (I : σ → Prop) (J : τ → Prop) (s : σ) (t : τ) : Prop where
  /-- The state of the first. -/
  left : I s
  /-- The state of the second. -/
  right : J t
  /-- The place is the same. -/
  position : position s = position t

/-- Streams at one place take the same, and stay at one place. -/
theorem agree_take_of_place (hI : Tracks c I) (hJ : Tracks c J) (n : Nat) :
    Agree (SamePlace I J) (take n) (take n) := by
  rintro s t ⟨hs, ht, hposition⟩
  obtain ⟨s', hs, hs', hplace⟩ := hI.exists_take_eq hs n
  obtain ⟨t', ht, ht', hplace'⟩ := hJ.exists_take_eq ht n
  rw [hposition] at hs hplace
  exact ⟨_, s', t', hs, ht, hs', ht', hplace.trans hplace'.symm⟩

end Place

/-- Streams at one place pass over the same, and stay at one place. -/
theorem agree_skip_of_place [Stream σ] [Stream τ] {c : Bytes} {I : σ → Prop} {J : τ → Prop}
    (hI : Stream.Tracks c I) (hJ : Stream.Tracks c J) (n : Nat) :
    Agree (SamePlace I J) (Stream.skip n) (Stream.skip n) := by
  rintro s t ⟨hs, ht, hposition⟩
  obtain ⟨s', hs, hs', hplace⟩ := hI.exists_skip_eq hs n
  obtain ⟨t', ht, ht', hplace'⟩ := hJ.exists_skip_eq ht n
  rw [hposition] at hs hplace
  exact ⟨_, s', t', hs, ht, hs', ht', hplace.trans hplace'.symm⟩

end GltfAsset.Source
