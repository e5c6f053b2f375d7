import Mathlib.Data.String.Basic
import GltfAsset.Proofs.Json.Range
import GltfAsset.Proofs.Json.Values

/-!
# What the readers give

A property that a reader gives to all its values passes from the readers of elements and members to
those of arrays and objects (`Reader.Yields`). In this way the values of any shape that are read are
found to be such as can be held, and to be nested no deeper than the levels that the reader was
given (`Value.yields_reader`).
-/

namespace GltfAsset.Json

variable {α β σ : Type}

/-! ## Nesting -/

/-- The elements are nested as deep as the deepest of them. -/
theorem nestingItems_le_iff {js : List Json} {n : Nat} :
    nestingItems js ≤ n ↔ ∀ j ∈ js, j.nesting ≤ n := by
  induction js with
  | nil => simp [nestingItems]
  | cons j js ih => rw [nestingItems, Nat.max_le, ih, List.forall_mem_cons]

/-- The values of members are nested as deep as the deepest of them. -/
theorem nestingMembers_le_iff {ms : List (String × Json)} {n : Nat} :
    nestingMembers ms ≤ n ↔ ∀ km ∈ ms, km.2.nesting ≤ n := by
  induction ms with
  | nil => simp [nestingMembers]
  | cons km ms ih => rw [nestingMembers, Nat.max_le, ih, List.forall_mem_cons]

/-- A float is nested in nothing. -/
theorem nesting_ofFloat {style : FloatStyle} {F : Format} {x : Binary F} :
    (ofFloat style x).nesting = 0 := by
  unfold ofFloat
  split <;> rfl

namespace Reader

variable {P : α → Prop} {rd : Reader α}

/-- Every value that is read has the property. -/
def Yields (rd : Reader α) (P : α → Prop) : Prop := ∀ bs x r, rd.run bs = .ok (x, r) → P x

/-- A property of what is read may be weakened. -/
theorem Yields.imp {Q : α → Prop} (h : rd.Yields P) (hPQ : ∀ x, P x → Q x) : rd.Yields Q :=
  fun bs x r hrun => hPQ x (h bs x r hrun)

/-- What is made of the values that are read. -/
theorem Yields.map {f : α → β} {Q : β → Prop} (h : rd.Yields fun x => Q (f x)) :
    (rd.map f).Yields Q := by
  intro bs y r hrun
  obtain ⟨⟨x, s⟩, hx, heq⟩ := map_eq_ok_iff.mp hrun
  obtain ⟨rfl, rfl⟩ := Prod.mk.inj heq
  exact h bs x s hx

/-- A value that is there is read from a text that does not start with the `n` of `null`. -/
theorem run_of_runOptional {bs r : Bytes} {x : α} (h : runOptional rd bs = .ok (some x, r)) :
    rd.run bs = .ok (x, r) ∧ (skipSpace bs).head? ≠ some 0x6E := by
  have hsome : (rd.run bs).map (fun p => (some p.1, p.2)) = .ok (some x, r) →
      rd.run bs = .ok (x, r) := by
    intro h
    obtain ⟨⟨y, s⟩, hy, heq⟩ := map_eq_ok_iff.mp h
    cases heq
    exact hy
  unfold runOptional at h
  split at h
  · rename_i hs
    exact ⟨hsome h, by simp [hs]⟩
  · rename_i b s hs
    split at h
    · obtain ⟨s, -, heq⟩ := map_eq_ok_iff.mp h
      cases heq
    · rename_i hb
      exact ⟨hsome h, by simp [hs, hb]⟩

/-- A value that may be absent has the property if it is there. -/
theorem Yields.optional (h : rd.Yields P) : rd.optional.Yields fun o => ∀ x ∈ o, P x := by
  rintro bs o r hrun x rfl
  exact h bs x r (run_of_runOptional hrun).1

/-- What is read of a whole text has the property. -/
theorem Yields.all {bs : Bytes} {x : α} (h : rd.Yields P) (hrun : rd.all bs = .ok x) : P x := by
  obtain ⟨⟨y, r⟩, hy, hrun⟩ := bind_eq_ok_iff.mp hrun
  simp only at hrun
  split at hrun
  · obtain rfl := Except.ok.inj hrun
    exact h bs y r hy
  · contradiction

/-! ## Values without parts -/

/-- What is found can be held if it is a number. -/
def Fits : Found → Prop
  | .integer n => (Number.integer n).Fits
  | .float x => (Number.float x).Fits
  | _ => True

/-- A number that is found can be held, and `null` is found only where its first letter stands. -/
theorem fits_of_found {bs : Bytes} {s : Scalar} (h : found bs = .ok s) :
    Fits s.found ∧ (s.found = .null → (skipSpace bs).head? = some 0x6E) := by
  unfold found at h
  split at h
  · contradiction
  · rename_i b r hs
    rw [hs]
    repeat' split at h
    · rename_i hb
      obtain ⟨t, -, rfl⟩ := map_eq_ok_iff.mp h
      exact ⟨trivial, fun _ => by rw [hb, List.head?_cons]⟩
    · obtain ⟨t, -, rfl⟩ := map_eq_ok_iff.mp h
      exact ⟨trivial, fun hnull => by cases hnull⟩
    · obtain ⟨t, -, rfl⟩ := map_eq_ok_iff.mp h
      exact ⟨trivial, fun hnull => by cases hnull⟩
    · obtain ⟨⟨x, t⟩, hx, heq⟩ := map_eq_ok_iff.mp h
      have hfits := Number.fits_of_read hx
      cases x with
      | integer n =>
        cases heq
        exact ⟨hfits, fun hnull => by cases hnull⟩
      | float x =>
        cases heq
        exact ⟨hfits, fun hnull => by cases hnull⟩
    · obtain ⟨⟨x, t⟩, -, heq⟩ := map_eq_ok_iff.mp h
      cases heq
      exact ⟨trivial, fun hnull => by cases hnull⟩
    · obtain rfl := Except.ok.inj h
      exact ⟨trivial, fun hnull => by cases hnull⟩
    · obtain rfl := Except.ok.inj h
      exact ⟨trivial, fun hnull => by cases hnull⟩
    · contradiction

/-- A value without parts is made of what is found, and a number that is found can be held. -/
theorem yields_scalar {expected : Expected} {pick : Found → Option (Except Error α)}
    (h : ∀ y x, Fits y → pick y = some (.ok x) → P x) : (scalar expected pick).Yields P := by
  intro bs x r hrun
  simp only [scalar] at hrun
  split at hrun
  · contradiction
  · rename_i s hs
    split at hrun
    · rename_i y hy
      obtain ⟨rfl, -⟩ := Prod.mk.inj (Except.ok.inj hrun)
      exact h s.found y (fits_of_found hs).1 hy
    · contradiction
    · contradiction

/-- A 32-bit float that is read is a number, finite or not. -/
theorem yields_single : single.Yields (· ≠ .nan) := by
  refine yields_scalar fun y x hy hx => ?_
  split at hx
  · obtain rfl := Except.ok.inj (Option.some.inj hx)
    simp [Binary.ofInt, Binary.ofQuotient]
  · rename_i z
    obtain rfl := Except.ok.inj (Option.some.inj hx)
    -- The 64-bit float that it comes from is a number.
    cases z with
    | nan => exact absurd hy id
    | signed negative m =>
      simp only [Binary.convert]
      split <;> simp [Binary.ofQuotient, Binary.ofMagnitude]
  · contradiction

/-! ## Arrays -/

/-- All elements that are read have the property. -/
theorem forall_of_elements {limit : Option Nat} {acc xs : List α} {bs r : Bytes}
    (h : rd.Yields P) (hacc : ∀ x ∈ acc, P x) (hrun : elements rd limit acc bs = .ok (xs, r)) :
    ∀ x ∈ xs, P x := by
  fun_induction elements rd limit acc bs with
  | case1 =>
    obtain ⟨rfl, -⟩ := Prod.mk.inj (Except.ok.inj hrun)
    simpa using hacc
  | case2 => contradiction
  | case3 =>
    obtain ⟨rfl, -⟩ := Prod.mk.inj (Except.ok.inj hrun)
    simpa using hacc
  | case4 => contradiction
  | case5 limit acc bs hlimit r' hnext x s hx ih =>
    exact ih (List.forall_mem_cons.mpr ⟨h r' x s hx, hacc⟩) hrun

/-- A value is made of elements that were read. -/
theorem exists_of_items {limit : Option Nat} {make : List α → Except Error β} {bs r : Bytes} {y : β}
    (h : rd.Yields P) (hrun : items rd limit make bs = .ok (y, r)) :
    ∃ xs, (∀ x ∈ xs, P x) ∧ make xs = .ok y := by
  obtain ⟨⟨xs, s⟩, hxs, hrun⟩ := bind_eq_ok_iff.mp hrun
  obtain ⟨z, hz, hrun⟩ := bind_eq_ok_iff.mp hrun
  obtain ⟨t, -, hrun⟩ := bind_eq_ok_iff.mp hrun
  obtain ⟨rfl, -⟩ := Prod.mk.inj (Except.ok.inj hrun)
  exact ⟨xs, forall_of_elements h (by simp) hxs, hz⟩

/-- An array is made of elements that have the property. -/
theorem yields_sequence {expected : Expected} {inner : Option (Reader α)} {limit : Option Nat}
    {make : List α → Except Error β} (h : ∀ rd ∈ inner, rd.Yields P) :
    (sequence expected inner limit make).Yields fun y =>
      inner.isSome ∧ ∃ xs, (∀ x ∈ xs, P x) ∧ make xs = .ok y := by
  intro bs y r hrun
  simp only [sequence] at hrun
  split at hrun
  · contradiction
  · split at hrun
    · contradiction
    · exact ⟨rfl, exists_of_items (h _ rfl) hrun⟩
  · contradiction

/-! ## Objects -/

/-- What each member keeps holds after all of them. -/
theorem members_induction {m : Member σ} {I : σ → Prop} {first : Bool} {s t : σ} {bs r : Bytes}
    (hstep : ∀ s k bs t r, m.run s k bs = .ok (t, r) → I s → I t)
    (hrun : members m first s bs = .ok (t, r)) (hs : I s) : I t := by
  fun_induction members m first s bs with
  | case1 => contradiction
  | case2 =>
    obtain ⟨rfl, -⟩ := Prod.mk.inj (Except.ok.inj hrun)
    exact hs
  | case3 => contradiction
  | case4 => contradiction
  | case5 first s bs r₁ hkey k r₂ htext u r₃ hu ih => exact ih hrun (hstep s k r₂ u r₃ hu hs)

/-- The values of all entries that are read have the property. -/
theorem forall_of_entries {bs r : Bytes} {es : List (String × α)} (h : rd.Yields P)
    (hrun : entries rd bs = .ok (es, r)) : ∀ e ∈ es, P e.2 := by
  obtain ⟨⟨acc, s⟩, hacc, heq⟩ := map_eq_ok_iff.mp hrun
  obtain ⟨rfl, -⟩ := Prod.mk.inj heq
  have hentry : ∀ acc k bs acc' r, (entry rd).run acc k bs = .ok (acc', r) →
      (∀ e ∈ acc, P e.2) → ∀ e ∈ acc', P e.2 := by
    intro acc k bs acc' r hrun hacc
    obtain ⟨r₁, -, hrun⟩ := bind_eq_ok_iff.mp hrun
    obtain ⟨⟨x, r₂⟩, hx, hrun⟩ := bind_eq_ok_iff.mp hrun
    obtain ⟨rfl, -⟩ := Prod.mk.inj (Except.ok.inj hrun)
    exact List.forall_mem_cons.mpr ⟨h r₁ x r₂ hx, hacc⟩
  simpa using members_induction hentry hacc (by simp)

/-- An object with any keys has values that have the property. -/
theorem yields_pairs {inner : Option (Reader α)} (h : ∀ rd ∈ inner, rd.Yields P) :
    (pairs inner).Yields fun es => inner.isSome ∧ ∀ e ∈ es, P e.2 := by
  intro bs es r hrun
  simp only [pairs] at hrun
  split at hrun
  · contradiction
  · split at hrun
    · contradiction
    · exact ⟨rfl, forall_of_entries (h _ rfl) hrun⟩
  · contradiction

end Reader

end GltfAsset.Json

namespace GltfAsset.Value

open Json

/-! ## Values of any shape -/

/-- Elements are well formed if each of them is. -/
theorem wellFormedItems_iff {vs : List Value} : WellFormedItems vs ↔ ∀ v ∈ vs, v.WellFormed := by
  induction vs with
  | nil => simp [WellFormedItems]
  | cons v vs ih => rw [WellFormedItems, ih, List.forall_mem_cons]

/-- Members are well formed if the value of each of them is. -/
theorem wellFormedMembers_iff {ms : List (String × Value)} :
    WellFormedMembers ms ↔ ∀ m ∈ ms, m.2.WellFormed := by
  induction ms with
  | nil => simp [WellFormedMembers]
  | cons m ms ih => rw [WellFormedMembers, ih, List.forall_mem_cons]

/-- A member that was put in its place is the new one or one of the others. -/
theorem mem_insertMember {k : String} {v : Value} {ms : List (String × Value)}
    {m : String × Value} (h : m ∈ insertMember k v ms) : m = (k, v) ∨ m ∈ ms := by
  induction ms with
  | nil => exact .inl (List.mem_singleton.mp h)
  | cons l ms ih =>
    rw [insertMember] at h
    split at h
    · exact List.mem_cons.mp h
    · split at h
      · exact (List.mem_cons.mp h).imp_right (List.mem_cons_of_mem _)
      · rcases List.mem_cons.mp h with rfl | h
        · exact .inr List.mem_cons_self
        · exact (ih h).imp_right (List.mem_cons_of_mem _)

/-- A member that is put in its place keeps the order of the keys. -/
theorem pairwise_insertMember {k : String} {v : Value} {ms : List (String × Value)}
    (h : ms.Pairwise (·.1 < ·.1)) : (insertMember k v ms).Pairwise (·.1 < ·.1) := by
  induction ms with
  | nil => exact List.pairwise_singleton ..
  | cons l ms ih =>
    obtain ⟨hl, hms⟩ := List.pairwise_cons.mp h
    rw [insertMember]
    split
    · rename_i hlt
      refine List.pairwise_cons.mpr ⟨List.forall_mem_cons.mpr ⟨hlt, fun m hm => ?_⟩, h⟩
      exact lt_trans hlt (hl m hm)
    · rename_i hlt
      split
      · rename_i heq
        subst heq
        exact List.pairwise_cons.mpr ⟨hl, hms⟩
      · rename_i hne
        refine List.pairwise_cons.mpr ⟨fun m hm => ?_, ih hms⟩
        rcases mem_insertMember hm with rfl | hm
        · exact lt_of_le_of_ne (not_lt.mp hlt) (Ne.symm hne)
        · exact hl m hm

/-- A value as it is read with so many levels left. -/
structure Held (n : Nat) (v : Value) : Prop where
  /-- It can be held. -/
  wellFormed : v.WellFormed
  /-- It is nested no deeper than there are levels. -/
  nesting_le : v.toJson.nesting ≤ n

/-- An array that was read is nested one level deeper than its elements. -/
theorem held_array {n : Nat} {vs : List Value} (h : ∀ v ∈ vs, v.Held n) :
    (array vs).Held (n + 1) where
  wellFormed := by
    rw [WellFormed, wellFormedItems_iff]
    exact fun v hv => (h v hv).wellFormed
  nesting_le := by
    rw [toJson, nesting, toJsonItems_eq]
    refine Nat.succ_le_succ (nestingItems_le_iff.mpr ?_)
    exact List.forall_mem_map.mpr fun v hv => (h v hv).nesting_le

/-- An object that was read is nested one level deeper than its values. -/
theorem held_object {n : Nat} {ms : List (String × Value)} (hkeys : ms.Pairwise (·.1 < ·.1))
    (h : ∀ m ∈ ms, m.2.Held n) : (object ms).Held (n + 1) where
  wellFormed := by
    rw [WellFormed, wellFormedMembers_iff]
    exact ⟨List.pairwise_map.mpr hkeys, fun m hm => (h m hm).wellFormed⟩
  nesting_le := by
    rw [toJson, nesting, toJsonMembers_eq]
    refine Nat.succ_le_succ (nestingMembers_le_iff.mpr ?_)
    exact List.forall_mem_map.mpr fun m hm => (h m hm).nesting_le

/-- The members of an object are put in order one after the other. -/
theorem held_ofMembers {n : Nat} {ms : List (String × Value)} (h : ∀ m ∈ ms, m.2.Held n) :
    (ofMembers ms).Held (n + 1) := by
  have hfold : ∀ acc : List (String × Value), acc.Pairwise (·.1 < ·.1) ∧ (∀ m ∈ acc, m.2.Held n) →
      (ms.foldl (fun acc m => insertMember m.1 m.2 acc) acc).Pairwise (·.1 < ·.1) ∧
        ∀ m ∈ ms.foldl (fun acc m => insertMember m.1 m.2 acc) acc, m.2.Held n := by
    induction ms with
    | nil => exact fun _ hacc => hacc
    | cons m ms ih =>
      rw [List.forall_mem_cons] at h
      intro acc hacc
      refine ih h.2 _ ⟨pairwise_insertMember hacc.1, fun l hl => ?_⟩
      rcases mem_insertMember hl with rfl | hl
      · exact h.1
      · exact hacc.2 l hl
  obtain ⟨hkeys, hms⟩ := hfold [] ⟨.nil, by simp⟩
  exact held_object hkeys hms

/-- A value without parts is nested in nothing. -/
theorem held_of_nesting_eq_zero {n : Nat} {v : Value} (h : v.WellFormed)
    (hnesting : v.toJson.nesting = 0) : v.Held n := ⟨h, by omega⟩

/-- A value is read with one level more than its parts, and `null` is read only where it stands. -/
theorem held_of_run_readerOf {inner : Option (Reader Value)} {n : Nat} {bs r : Bytes} {v : Value}
    (h : ∀ rd ∈ inner, ∃ k, n = k + 1 ∧ rd.Yields (Held k))
    (hrun : (readerOf inner).run bs = .ok (v, r)) :
    v.Held n ∧ (v = .null → (skipSpace bs).head? = some 0x6E) := by
  simp only [readerOf] at hrun
  split at hrun
  · contradiction
  · rename_i hfound
    obtain ⟨rfl, -⟩ := Prod.mk.inj (Except.ok.inj hrun)
    exact ⟨held_of_nesting_eq_zero trivial rfl, fun _ => (Reader.fits_of_found hfound).2 rfl⟩
  · obtain ⟨rfl, -⟩ := Prod.mk.inj (Except.ok.inj hrun)
    exact ⟨held_of_nesting_eq_zero trivial rfl, fun hnull => by cases hnull⟩
  · rename_i hfound
    obtain ⟨rfl, -⟩ := Prod.mk.inj (Except.ok.inj hrun)
    exact ⟨held_of_nesting_eq_zero (Reader.fits_of_found hfound).1 rfl, fun hnull => by cases hnull⟩
  · rename_i hfound
    obtain ⟨rfl, -⟩ := Prod.mk.inj (Except.ok.inj hrun)
    exact ⟨held_of_nesting_eq_zero (Reader.fits_of_found hfound).1 nesting_ofFloat,
      fun hnull => by cases hnull⟩
  · obtain ⟨rfl, -⟩ := Prod.mk.inj (Except.ok.inj hrun)
    exact ⟨held_of_nesting_eq_zero trivial rfl, fun hnull => by cases hnull⟩
  · split at hrun
    · contradiction
    · obtain ⟨k, rfl, hrd⟩ := h _ rfl
      obtain ⟨vs, hvs, hv⟩ := Reader.exists_of_items hrd hrun
      obtain rfl := Except.ok.inj hv
      exact ⟨held_array hvs, fun hnull => by cases hnull⟩
  · split at hrun
    · contradiction
    · obtain ⟨k, rfl, hrd⟩ := h _ rfl
      obtain ⟨⟨ms, s⟩, hms, heq⟩ := map_eq_ok_iff.mp hrun
      cases heq
      exact ⟨held_ofMembers (Reader.forall_of_entries hrd hms), fun hnull => by cases hnull⟩

/-- A value that is read can be held, and it is nested no deeper than the reader was allowed to
go. -/
theorem held_of_run : ∀ {n : Nat} {bs r : Bytes} {v : Value}, (reader n).run bs = .ok (v, r) →
    v.Held n ∧ (v = .null → (skipSpace bs).head? = some 0x6E)
  | 0, _, _, _, hrun => held_of_run_readerOf (by simp) hrun
  | n + 1, _, _, _, hrun => by
    refine held_of_run_readerOf (fun rd hrd => ⟨n, rfl, ?_⟩) hrun
    obtain rfl := Option.some.inj hrd
    exact fun _ _ _ hrun => (held_of_run hrun).1

/-- Where a value may be absent, `null` is not read as a value. -/
theorem yields_optional_reader (n : Nat) :
    (reader n).optional.Yields fun o => ∀ v ∈ o, v ≠ .null ∧ v.Held n := by
  rintro bs o r hrun v rfl
  obtain ⟨hv, hhead⟩ := Reader.run_of_runOptional hrun
  obtain ⟨hheld, hnull⟩ := held_of_run hv
  exact ⟨fun h => hhead (hnull h), hheld⟩

end GltfAsset.Value
