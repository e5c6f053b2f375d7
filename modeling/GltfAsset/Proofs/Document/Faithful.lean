import GltfAsset.Proofs.Document.Steady

/-!
# Faithful codecs

A codec is faithful if what is written of a value with readable leaves is read as this value just in
case that its leaves can be written. This passes from the types of the members to the records
(`lifts_faithful`): their members are put in one after the other, and the record that comes out is
the one that was written if and only if each of its parts is.
-/

namespace GltfAsset

open Json

namespace Json.Codec

variable {α : Type} [Leaves α] {c : Codec α}

/-- A value with readable leaves is read back if and only if its leaves can be written. -/
structure Faithful (c : Codec α) : Prop where
  /-- The text of the value does not depend on its place. -/
  steady : SteadyCodec α c
  /-- It is read as the value if the leaves of this can be written. -/
  reread_iff : ∀ {x : α}, AllLeaves Leaf.Readable x →
    (c.reread x = .ok x ↔ AllLeaves Leaf.Writable x)
  /-- In that case it is not `null`. -/
  ne_null : ∀ {x : α}, AllLeaves Leaf.Writable x → c.toJson x ≠ .null

/-- A value whose leaves are readable is read in the same way wherever it stands. -/
theorem Faithful.steady_of_readable (hc : c.Faithful) {x : α} (h : AllLeaves Leaf.Readable x) :
    c.Steady x :=
  hc.steady x (h.imp fun _ => Leaf.Readable.wellFormed)

/-! ### Values -/

/-- A value without leaves is read back whatever it is. -/
theorem faithful_of_rereads [Leafless α] (hstarts : ∀ x, Starts (c.toJson x))
    (hnull : ∀ x, c.toJson x ≠ .null) (h : ∀ x, Rereads c.reader (c.toJson x) (.ok x)) :
    c.Faithful where
  steady x _ := (h x).steady (hstarts x)
  reread_iff {x} _ := iff_of_true (h x).reread_eq (allLeaves_of_leafless x)
  ne_null {x} _ := hnull x

/-- A float that is not finite is not read. -/
theorem rereads_single_null {x : Single} (h : ¬ x.IsFinite) :
    Rereads single.reader (single.toJson x) (.error (.invalidType .null .single)) := by
  have hj : single.toJson x = .null := if_neg h
  rw [hj]
  simp only [single, Reader.single]
  exact rereads_scalar (fun l m rest _ => found_null l m rest) rfl

/-- A finite float is read back wherever it stands if it is where its text stands alone. -/
theorem rereads_single {x : Single} (h : x.IsFinite) (hread : x.ReadsBack) :
    Rereads single.reader (single.toJson x) (.ok x) := by
  have hj : single.toJson x = .numeral (Bytes.ofString (singleStyle.text x)) := if_pos h
  rw [hj]
  refine ⟨fun {l m n bs rest} _ hrest hbs => ?_⟩
  rw [write] at hbs
  have hrun := Reader.extends_single.append (fun _ => hrest) hread
  simp only [single, Reader.single, Reader.scalar, found_congr hbs] at hrun ⊢
  exact hrun

/-- Floats are read back if and only if they are finite. -/
theorem faithful_single : single.Faithful where
  steady x _ := steady_single x
  reread_iff {x} h := by
    rw [allLeaves_single] at h ⊢
    by_cases hx : x.IsFinite
    · exact iff_of_true (rereads_single hx (h hx)).reread_eq hx
    · refine iff_of_false ?_ hx
      rw [reread, (rereads_single_null hx).reread_eq]
      exact fun h => by contradiction
  ne_null {x} h := by
    have hj : single.toJson x = .numeral (Bytes.ofString (singleStyle.text x)) :=
      if_pos (allLeaves_single.mp h)
    rw [hj]
    exact Json.noConfusion

/-- A list is read back if and only if its elements are. -/
theorem Faithful.list (hc : c.Faithful) : c.list.Faithful where
  steady _ h := steady_list fun x hx => hc.steady x (allLeaves_list.mp h x hx)
  reread_iff h := by
    rw [allLeaves_list] at h ⊢
    rw [list_reread_eq_ok_iff fun x hx => hc.steady_of_readable (h x hx)]
    exact forall₂_congr fun x hx => hc.reread_iff (h x hx)
  ne_null _ h := by contradiction

/-- An array of fixed length is read back if and only if its elements are. -/
theorem Faithful.vector (hc : c.Faithful) {k : Nat} : (c.vector k).Faithful where
  steady _ h := steady_vector fun x hx => hc.steady x (allLeaves_vector.mp h x hx)
  reread_iff h := by
    rw [allLeaves_vector] at h ⊢
    rw [vector_reread_eq_ok_iff fun x hx => hc.steady_of_readable (h x hx)]
    exact forall₂_congr fun x hx => hc.reread_iff (h x hx)
  ne_null _ h := by contradiction

/-- A value that may be absent is read back if and only if its leaves can be written. -/
theorem Faithful.rereadOption_eq_ok_iff (hc : c.Faithful) {o : Option α}
    (h : AllLeaves Leaf.Readable o) :
    c.rereadOption o = .ok o ↔ AllLeaves Leaf.Writable o := by
  cases o with
  | none => simp [rereadOption, allLeaves_option]
  | some x =>
    simp only [allLeaves_option, Option.mem_some_iff, forall_eq'] at h ⊢
    by_cases hnull : c.toJson x = .null
    · -- What is written as `null` comes back as absent, and has a leaf that cannot be written.
      rw [rereadOption_null hnull]
      have hne : (.ok none : Except Error (Option α)) ≠ .ok (some x) := by simp
      exact iff_of_false hne fun hx => hc.ne_null hx hnull
    · rw [rereadOption_some (hc.steady_of_readable h) hnull, ← hc.reread_iff h]
      cases c.reread x <;> simp [Except.map]

/-- A free value that may be absent is read back if and only if it is not `null`. -/
theorem value_rereadOption_eq_ok_iff {o : Option Value} (h : AllLeaves Leaf.Readable o) :
    value.rereadOption o = .ok o ↔ AllLeaves Leaf.Writable o := by
  cases o with
  | none => simp [rereadOption, allLeaves_option]
  | some v =>
    simp only [allLeaves_option, Option.mem_some_iff, forall_eq', allLeaves_value] at h ⊢
    by_cases hnull : value.toJson v = .null
    · -- Of the free values this is `null` alone.
      rw [rereadOption_null hnull]
      have hne : (.ok none : Except Error (Option Value)) ≠ .ok (some v) := by simp
      exact iff_of_false hne fun hx => hx ((Value.toJson_eq_null_iff h.1).mp hnull)
    · have hv : v ≠ .null := by
        rintro rfl
        exact hnull rfl
      have hreread : value.reread v = .ok v := (Value.returns h.1 h.2).reread_eq
      have hsteady : value.Steady v := Value.steady h.1
      rw [rereadOption_some hsteady hnull, hreread]
      exact iff_of_true rfl hv

end Json.Codec

/-! ## Records -/

namespace Json

variable {R β : Type} {f : Field R} {fs : List (Field R)} {copy : R → R → R} {r x z : R}

/-- What a member spares stays as it is when the member is read. -/
theorem Field.Spares.refill {look : R → β} (h : f.Spares look) (hrefill : f.refill r x = .ok z) :
    look z = look x := by
  rw [Field.refill] at hrefill
  split at hrefill
  · obtain rfl := Except.ok.inj hrefill
    rfl
  · obtain ⟨set, hset, rfl⟩ := map_eq_ok_iff.mp hrefill
    obtain ⟨⟨set, rest⟩, hrun, rfl⟩ := map_eq_ok_iff.mp hset
    exact h _ _ set rest hrun x

/-- What all members spare stays as it is when they are read. -/
theorem Schema.eq_of_refill {look : R → β} (h : ∀ f ∈ fs, f.Spares look)
    (hrefill : refill r fs x = .ok z) : look z = look x := by
  induction fs generalizing x with
  | nil =>
    obtain rfl := refill_nil.mp hrefill
    rfl
  | cons f fs ih =>
    rw [List.forall_mem_cons] at h
    obtain ⟨y, hy, hrefill⟩ := bind_eq_ok_iff.mp hrefill
    rw [ih h.2 hrefill, h.1.refill hy]

variable [Leaves R] [Leaves β]

/-- The record comes out if its first member is read back and it comes out of the others. -/
theorem Part.refill_cons_eq_ok_iff {get : R → β} {set : β → R → R} (part : Part get set fs)
    {res : Except Error β} (hf : f.refill r x = res.map (set · x)) :
    Schema.refill r (f :: fs) x = .ok r ↔
      res = .ok (get r) ∧ Schema.refill r fs (set (get r) x) = .ok r := by
  rw [Schema.refill_cons hf]
  constructor
  · rintro ⟨y, hy, hrefill⟩
    -- What was put in is still there in the end.
    have hget : get r = y := by
      rw [Schema.eq_of_refill part.spared hrefill, part.get_set]
    subst hget
    exact ⟨hy, hrefill⟩
  · rintro ⟨hres, hrefill⟩
    exact ⟨_, hres, hrefill⟩

/-- An absent member stays absent when it is put in again. -/
theorem Part.set_none {γ : Type} [Leaves γ] {get : R → Option γ} {set : Option γ → R → R}
    (part : Part get set fs) (hx : get x = none) : set none x = x := by
  rw [← hx, part.set_get]

/-- An empty list stays empty when it is put in again. -/
theorem Part.set_nil {get : R → List β} {set : List β → R → R} (part : Part get set fs)
    (hx : get x = []) : set [] x = x := by
  rw [← hx, part.set_get]

/-- A record comes out if and only if the leaves of its first member can be written and it comes out
of the others, where the leaves so far can be written and the member is not there yet. -/
theorem Field.Made.refill_cons_eq_ok_iff (h : f.Made (fun _ _ c => c.Faithful) fs copy)
    (hr : AllLeaves Leaf.Readable r) (hx : AllLeaves Leaf.Writable x)
    (habsent : f.required = true ∨ f.toJson x = none) :
    Schema.refill r (f :: fs) x = .ok r ↔
      AllLeaves Leaf.Writable (copy r x) ∧ Schema.refill r fs (copy r x) = .ok r := by
  cases h with
  | always codec part =>
    rw [part.refill_cons_eq_ok_iff refill_always, codec.reread_iff (part.leaves_get _ r hr),
      part.allLeaves_set_iff hx]
  | optional codec part =>
    have hnone := Option.map_eq_none_iff.mp (habsent.resolve_left Bool.noConfusion)
    rw [part.refill_cons_eq_ok_iff (refill_optional (part.set_none hnone)),
      codec.rereadOption_eq_ok_iff (part.leaves_get _ r hr), part.allLeaves_set_iff hx]
  | free part =>
    have hnone := Option.map_eq_none_iff.mp (habsent.resolve_left Bool.noConfusion)
    rw [part.refill_cons_eq_ok_iff (refill_optional (part.set_none hnone)),
      Codec.value_rereadOption_eq_ok_iff (part.leaves_get _ r hr), part.allLeaves_set_iff hx]
  | @many _ _ _ _ get _ codec part =>
    have hnil : get x = [] := by
      simpa [toJson_many] using habsent.resolve_left Bool.noConfusion
    rw [part.refill_cons_eq_ok_iff (refill_many (part.set_nil hnil)),
      codec.list.reread_iff (part.leaves_get _ r hr), part.allLeaves_set_iff hx]

/-- The record comes out of its members, read one after the other, if and only if its leaves can be
written. -/
theorem Members.refill_eq_ok_iff (h : Members (fun _ _ c => c.Faithful) r fs x)
    (hr : AllLeaves Leaf.Readable r) (hx : AllLeaves Leaf.Writable x)
    (habsent : ∀ f ∈ fs, f.required = true ∨ f.toJson x = none) :
    Schema.refill r fs x = .ok r ↔ AllLeaves Leaf.Writable r := by
  induction h with
  | nil => exact iff_of_true rfl hx
  | @cons f fs copy x made _ ih =>
    rw [List.forall_mem_cons] at habsent
    have habsent' : ∀ g ∈ fs, g.required = true ∨ g.toJson (copy r x) = none := fun g hg => by
      rw [made.toJson_copy hg]
      exact habsent.2 g hg
    rw [made.refill_cons_eq_ok_iff hr hx habsent.1]
    constructor
    · rintro ⟨hcopy, hrefill⟩
      exact (ih hcopy habsent').mp hrefill
    · intro hwritable
      have hcopy := made.leaves_copy hwritable hx
      exact ⟨hcopy, (ih hcopy habsent').mpr hwritable⟩

/-- The records of a lawful type are read back if and only if their leaves can be written. -/
theorem Schema.Lawful.faithful {s : Schema R} (hs : s.Lawful fun _ _ c => c.Faithful) :
    s.codec.Faithful where
  steady := lifts_steady.record (hs.imp fun h => h.steady)
  reread_iff {r} hr := by
    have hsteady := hs.imp (Q := SteadyCodec) fun h => h.steady
    have hzero : (0 : Single).IsFinite := by decide
    have hwritable : AllLeaves Leaf.Writable s.initial := hs.allLeaves_initial hzero trivial
    rw [Codec.reread, (hsteady.rereads (hr.imp fun _ => Leaf.Readable.wellFormed)).reread_eq,
      (hs.members r).refill_eq_ok_iff hr hwritable fun f hf => hs.toJson_initial hf]
  ne_null _ h := by contradiction

end Json

namespace Attributes

/-- An attribute with a new name is put at the end. -/
theorem put_of_notMem {k : String} {a : Int64} {as : Attributes} (h : k ∉ as.map Prod.fst) :
    put k a as = as ++ [(k, a)] := by
  induction as with
  | nil => rfl
  | cons e as ih =>
    rw [List.map_cons, List.mem_cons, not_or] at h
    rw [put, if_neg (Ne.symm h.1), ih h.2, List.cons_append]

/-- Attributes with distinct names stay as they are. -/
theorem ofEntries_of_nodup {as : Attributes} (h : (as.map Prod.fst).Nodup) : ofEntries as = as := by
  -- Each attribute is new among those before it.
  have hput : ∀ (acc : Attributes) (e : String × Int64), (∀ f ∈ acc, f.1 ≠ e.1) →
      put e.1 e.2 acc = acc ++ [e] := by
    intro acc e he
    refine put_of_notMem fun hmem => ?_
    obtain ⟨f, hf, heq⟩ := List.mem_map.mp hmem
    exact he f hf heq
  have hfold : as.foldl (fun as e => put e.1 e.2 as) [] = [] ++ as :=
    foldl_eq_append hput (List.pairwise_map.mp h)
  rw [ofEntries, hfold, List.nil_append]

/-- What is made of attributes by giving them one after the other is read of their text. -/
theorem reread_eq (as : Attributes) : codec.reread as = .ok (ofEntries as) :=
  Codec.map_reread_eq (fun e _ => Codec.steady_integer e.2)
    fun e _ => (Codec.rereads_integer e.2).reread_eq

/-- Attributes with distinct names are read back. -/
theorem faithful : codec.Faithful where
  steady := lifts_steady.attributes
  reread_iff {as} h := by
    rw [allLeaves_attributes] at h ⊢
    rw [reread_eq, ofEntries_of_nodup h]
    exact iff_of_true rfl trivial
  ne_null _ h := by contradiction

end Attributes

/-- That values are read back if and only if their leaves can be written is passed on. -/
theorem Json.lifts_faithful : Lifts fun _ _ c => c.Faithful where
  string := Codec.faithful_of_rereads starts_string (fun _ h => by contradiction)
    Codec.rereads_string
  boolean := Codec.faithful_of_rereads starts_boolean (fun _ h => by contradiction)
    Codec.rereads_boolean
  integer := Codec.faithful_of_rereads (fun n => (Codec.steady_integer n).starts)
    (fun _ h => by contradiction) Codec.rereads_integer
  single := Codec.faithful_single
  attributes := Attributes.faithful
  list hc := hc.list
  vector hc := hc.vector
  record hs := hs.faithful

end GltfAsset
