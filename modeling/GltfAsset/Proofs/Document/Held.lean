import Mathlib.Data.List.Nodup
import GltfAsset.Proofs.Document.Induction
import GltfAsset.Proofs.Json.Records

/-!
# What codecs read

A codec holds if each value that it reads has leaves as a text gives them, and is written no deeper
than it was read. This passes from the types of the members to the records: the members are put in
one by one, each of them changes its own part of the record, and a required one is read in any case.
-/

namespace GltfAsset

open Json

namespace Json.Codec

variable {α : Type} [Leaves α] {c : Codec α}

/-- A value as it is read with so many levels left. -/
structure Held (c : Codec α) (n : Nat) (x : α) : Prop where
  /-- The leaves are such as are read. -/
  leaves : AllLeaves Leaf.Decoded x
  /-- It is written no deeper than there are levels. -/
  nesting_le : (c.toJson x).nesting ≤ n

/-- All values that are read are held. -/
def Holds (c : Codec α) : Prop := ∀ n, (c.reader n).Yields (c.Held n)

/-- All values that are read where they may be absent are held. -/
def HoldsOptional (c : Codec α) : Prop :=
  ∀ n, (c.reader n).optional.Yields fun o => ∀ x ∈ o, c.Held n x

/-- A value that is held is so where it may be absent. -/
theorem Holds.optional (hc : c.Holds) : c.HoldsOptional := fun n => (hc n).optional

/-- A free value that is there is not `null`. -/
theorem holdsOptional_value : value.HoldsOptional := fun n =>
  (Value.yields_optional_reader n).imp fun _ ho v hv =>
    ⟨allLeaves_value.mpr ⟨(ho v hv).1, (ho v hv).2.wellFormed⟩, (ho v hv).2.nesting_le⟩

/-- A value without leaves and parts is held. -/
theorem holds_of_leafless [Leafless α] (hnesting : ∀ x, (c.toJson x).nesting = 0) : c.Holds :=
  fun n _ x _ _ => ⟨allLeaves_of_leafless x, (hnesting x).le.trans n.zero_le⟩

/-- A 32-bit float that is read is a number. -/
theorem holds_single : single.Holds := fun n =>
  Reader.yields_single.imp fun _ hx =>
    ⟨allLeaves_single.mpr hx, nesting_ofFloat.le.trans n.zero_le⟩

/-- The elements of an array are read with one level less. -/
theorem exists_held_of_sequence (hc : c.Holds) {β : Type} {expected : Expected}
    {limit : Option Nat} {make : List α → Except Error β} (n : Nat) :
    (Reader.sequence expected (Reader.below c.reader n) limit make).Yields fun y =>
      ∃ k xs, n = k + 1 ∧ (∀ x ∈ xs, c.Held k x) ∧ make xs = .ok y := by
  intro bs y r hrun
  cases n with
  | zero =>
    have h := Reader.yields_sequence (P := fun _ => True) (by simp [Reader.below]) bs y r hrun
    exact absurd h.1 (by simp [Reader.below])
  | succ k =>
    have h := Reader.yields_sequence (by simpa [Reader.below] using hc k) bs y r hrun
    obtain ⟨-, xs, hxs, hy⟩ := h
    exact ⟨k, xs, rfl, hxs, hy⟩

/-- A list is nested one level deeper than its elements. -/
theorem Holds.list (hc : c.Holds) : c.list.Holds := by
  intro n bs y r hrun
  obtain ⟨k, xs, rfl, hxs, hmake⟩ := exists_held_of_sequence hc n bs y r hrun
  obtain rfl := Except.ok.inj hmake
  refine ⟨allLeaves_list.mpr fun x hx => (hxs x hx).leaves, Nat.succ_le_succ ?_⟩
  exact nestingItems_le_iff.mpr (List.forall_mem_map.mpr fun x hx => (hxs x hx).nesting_le)

/-- An array of fixed length is nested one level deeper than its elements. -/
theorem Holds.vector (hc : c.Holds) {k : Nat} : (c.vector k).Holds := by
  intro n bs y r hrun
  obtain ⟨m, xs, rfl, hxs, hmake⟩ := exists_held_of_sequence hc n bs y r hrun
  split at hmake
  · obtain rfl := Except.ok.inj hmake
    refine ⟨allLeaves_vector.mpr fun x hx => (hxs x hx).leaves, Nat.succ_le_succ ?_⟩
    exact nestingItems_le_iff.mpr (List.forall_mem_map.mpr fun x hx => (hxs x hx).nesting_le)
  · contradiction

end Json.Codec

/-! ## Members -/

namespace Json.Field

variable {α R : Type} {name : String} {c : Codec α} {n : Nat} {r : R}

/-- The member of the record, if it is written, has no more levels. -/
def Within (f : Field R) (n : Nat) (r : R) : Prop := ∀ j ∈ f.toJson r, j.nesting ≤ n

/-- A required member has as many levels as what is written of it. -/
theorem within_always {get : R → α} {set : α → R → R} :
    (always name c get set).Within n r ↔ (c.toJson (get r)).nesting ≤ n := by
  simp [Within]

/-- A member that is absent has no levels. -/
theorem within_optional {get : R → Option α} {set : Option α → R → R} :
    (optional name c get set).Within n r ↔ ∀ x ∈ get r, (c.toJson x).nesting ≤ n := by
  simp [Within]

/-- A list that is not written has no levels. -/
theorem within_many {get : R → List α} {set : List α → R → R}
    (h : (c.list.toJson (get r)).nesting ≤ n) : (many name c get set).Within n r := by
  intro j hj
  rw [toJson_many] at hj
  split at hj
  · contradiction
  · obtain rfl := Option.some.inj hj
    exact h

variable [Leaves R] [Leaves α] {fs : List (Field R)}

/-- Each reading of the member puts it into the record: the leaves stay such as are read, and the
member is written no deeper than it was read. -/
def Sets (f : Field R) : Prop :=
  ∀ n, (f.reader n).Yields fun set => ∀ r, AllLeaves Leaf.Decoded r →
    AllLeaves Leaf.Decoded (set r) ∧ f.Within n (set r)

/-- A member that may be absent is put in. -/
theorem sets_optional {get : R → Option α} {set : Option α → R → R} (hc : c.HoldsOptional)
    (part : Part get set fs) : (optional name c get set).Sets := fun n =>
  Reader.Yields.map <| (hc n).imp fun o ho r hr =>
    ⟨part.leaves_set _ o r (allLeaves_option.mpr fun x hx => (ho x hx).leaves) hr,
      within_optional.mpr ((part.get_set o r).symm ▸ fun x hx => (ho x hx).nesting_le)⟩

/-- A member is put in if its codec holds. -/
theorem Made.sets {f : Field R} {copy : R → R → R} (h : f.Made (fun _ _ c => c.Holds) fs copy) :
    f.Sets := by
  cases h with
  | always codec part =>
    exact fun n => Reader.Yields.map <| (codec n).imp fun x hx r hr =>
      ⟨part.leaves_set _ x r hx.leaves hr,
        within_always.mpr ((part.get_set x r).symm ▸ hx.nesting_le)⟩
  | optional codec part => exact sets_optional codec.optional part
  | free part => exact sets_optional Codec.holdsOptional_value part
  | many codec part =>
    exact fun n => Reader.Yields.map <| (codec.list n).imp fun xs hxs r hr =>
      ⟨part.leaves_set _ xs r hxs.leaves hr,
        within_many ((part.get_set xs r).symm ▸ hxs.nesting_le)⟩

end Json.Field

/-! ## Records -/

namespace Json.Schema

variable {R : Type} [Leaves R] {s : Schema R} {n : Nat} {names : List String} {r : R}

/-- A record into which the members with the given names were put. -/
structure Filled (s : Schema R) (n : Nat) (names : List String) (r : R) : Prop where
  /-- The leaves are such as are read. -/
  leaves : AllLeaves Leaf.Decoded r
  /-- Apart from required members that are still to come, the members are written no deeper than
  they were read. -/
  within : ∀ f ∈ s.fields, (f.required = true → f.name ∈ names) → f.Within n r

/-- Once no required member is missing, the record is held. -/
theorem Filled.held (h : s.Filled n names r)
    (hrequired : ∀ f ∈ s.fields, f.required = true → f.name ∈ names) :
    s.codec.Held (n + 1) r where
  leaves := h.leaves
  nesting_le := by
    refine Nat.succ_le_succ (nestingMembers_le_iff.mpr fun km hkm => ?_)
    obtain ⟨f, hf, hj, -⟩ := mem_members_iff.mp hkm
    exact h.within f hf (hrequired f hf) km.2 hj

/-- Before anything is read, no member is put in. -/
theorem filled_initial (hs : s.Lawful fun _ _ c => c.Holds) (n : Nat) :
    s.Filled n [] s.initial where
  leaves := hs.allLeaves_initial (fun h => by cases h) List.nodup_nil
  within f hf hrequired := by
    rcases hs.toJson_initial hf with h | h
    · exact absurd (hrequired h) List.not_mem_nil
    · intro j hj
      rw [h] at hj
      contradiction

/-- A member that is read is put in, and the others stay as they are. -/
theorem Filled.set (hs : s.Lawful fun _ _ c => c.Holds) (h : s.Filled n names r) {g : Field R}
    (hg : g ∈ s.fields) {set : R → R} {bs rest : Bytes}
    (hrun : (g.reader n).run bs = .ok (set, rest)) : s.Filled n (g.name :: names) (set r) := by
  have hset := hs.forall_mem Field.Made.sets g hg n bs set rest hrun r h.leaves
  refine ⟨hset.1, fun f hf hrequired => ?_⟩
  by_cases hname : f.name = g.name
  · obtain rfl := List.inj_on_of_nodup_map hs.names hf hg hname
    exact hset.2
  · -- Another member is as it was, and its name was there before.
    have hne : g ≠ f := fun heq => hname (heq ▸ rfl)
    rw [Field.Within, hs.spares hg hf hne n bs set rest hrun r]
    exact h.within f hf fun hf => (List.mem_cons.mp (hrequired hf)).resolve_left hname

/-- Each member of the object form is put in. -/
theorem filled_of_member (hs : s.Lawful fun _ _ c => c.Holds) {st st' : R × List String}
    {k : String} {bs rest : Bytes} (hrun : (s.member n).run st k bs = .ok (st', rest))
    (h : s.Filled n st.2 st.1) : s.Filled n st'.2 st'.1 := by
  simp only [member] at hrun
  split at hrun
  · -- A member that the table does not name is passed over.
    obtain ⟨_, -, hrun⟩ := bind_eq_ok_iff.mp hrun
    obtain ⟨_, -, hrun⟩ := bind_eq_ok_iff.mp hrun
    cases hrun
    exact h
  · rename_i f hf
    have hmem : f ∈ s.fields := List.mem_of_find?_eq_some hf
    have hname : f.name = k := by simpa using List.find?_some hf
    split at hrun
    · contradiction
    · obtain ⟨_, -, hrun⟩ := bind_eq_ok_iff.mp hrun
      obtain ⟨⟨set, _⟩, hset, hrun⟩ := bind_eq_ok_iff.mp hrun
      cases hrun
      subst hname
      exact h.set hs hmem hset

/-- A record that is read from the object form is held. -/
theorem held_of_readObject (hs : s.Lawful fun _ _ c => c.Holds) {bs rest : Bytes}
    (hrun : s.readObject n bs = .ok (r, rest)) : s.codec.Held (n + 1) r := by
  obtain ⟨⟨st, _⟩, hmembers, hrun⟩ := bind_eq_ok_iff.mp hrun
  have hfilled : s.Filled n st.2 st.1 :=
    Reader.members_induction (I := fun st => s.Filled n st.2 st.1)
      (fun _ _ _ _ _ h => filled_of_member hs h) hmembers (filled_initial hs n)
  cases hmissing : s.missing? st.2 with
  | some f =>
    simp only [hmissing] at hrun
    contradiction
  | none =>
    simp only [hmissing] at hrun
    cases hrun
    refine hfilled.held fun f hf hrequired => ?_
    simpa [hrequired] using List.find?_eq_none.mp hmissing f hf

/-- The elements of the array form are put in one after the other, and no required one is left
out. -/
theorem exists_filled_of_readElements (hs : s.Lawful fun _ _ c => c.Holds) {fs : List (Field R)}
    {i : Nat} {x : R} {bs rest : Bytes} (hfs : ∀ f ∈ fs, f ∈ s.fields) (h : s.Filled n names x)
    (hrun : s.readElements n fs i x bs = .ok (r, rest)) :
    ∃ names', s.Filled n names' r ∧ names ⊆ names' ∧
      ∀ f ∈ fs, f.required = true → f.name ∈ names' := by
  fun_induction readElements s n fs i x bs generalizing names with
  | case1 i x bs =>
    cases hrun
    exact ⟨names, h, List.Subset.refl _, by simp⟩
  | case2 => contradiction
  | case3 => contradiction
  | case4 i x bs f fs r' hnext hrequired ih =>
    rw [List.forall_mem_cons] at hfs
    obtain ⟨names', hfilled, hsubset, hnames⟩ := ih hfs.2 h hrun
    refine ⟨names', hfilled, hsubset, List.forall_mem_cons.mpr ⟨fun h => ?_, hnames⟩⟩
    contradiction
  | case5 => contradiction
  | case6 i x bs f fs r' hnext set s' hset ih =>
    rw [List.forall_mem_cons] at hfs
    obtain ⟨names', hfilled, hsubset, hnames⟩ := ih hfs.2 (h.set hs hfs.1 hset) hrun
    rw [List.cons_subset] at hsubset
    exact ⟨names', hfilled, hsubset.2, List.forall_mem_cons.mpr ⟨fun _ => hsubset.1, hnames⟩⟩

/-- A record that is read from the array form is held. -/
theorem held_of_readArray (hs : s.Lawful fun _ _ c => c.Holds) {bs rest : Bytes}
    (hrun : s.readArray n bs = .ok (r, rest)) : s.codec.Held (n + 1) r := by
  obtain ⟨⟨x, _⟩, helements, hrun⟩ := bind_eq_ok_iff.mp hrun
  obtain ⟨_, -, hrun⟩ := bind_eq_ok_iff.mp hrun
  cases hrun
  obtain ⟨names, hfilled, -, hrequired⟩ :=
    exists_filled_of_readElements hs (fun _ h => h) (filled_initial hs n) helements
  exact hfilled.held hrequired

/-- The records of a lawful type are held, in whichever form they are read. -/
theorem Lawful.holds (hs : s.Lawful fun _ _ c => c.Holds) : s.codec.Holds := by
  intro n bs r rest hrun
  simp only [codec, reader] at hrun
  split at hrun
  · contradiction
  · split at hrun
    · contradiction
    · exact held_of_readObject hs hrun
  · split at hrun
    · contradiction
    · exact held_of_readArray hs hrun
  · contradiction

end Json.Schema

end GltfAsset
