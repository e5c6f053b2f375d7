import GltfAsset.Proofs.Json.Values

/-!
# Records are read back

What is read of the text of a record is the record that comes out when each of its members that are
written is read and put in, in order, starting from the record without members (`Schema.refill`).
So it can be told from the members alone whether a record is read back.
-/

namespace GltfAsset.Json

variable {α β R : Type}

/-! ## Values that may be absent -/

/-- A value that is there is read if its text is not `null`. -/
theorem Rereads.optional {rd : Nat → Reader α} {j : Json} {res : Except Error α}
    (h : Rereads rd j res) (hstarts : Starts j) (hj : j ≠ .null) :
    Rereads (fun n => (rd n).optional) j (res.map some) := by
  refine ⟨fun {l m n bs rest} hn hrest hbs => ?_⟩
  obtain ⟨b, s, hs, -, hnull⟩ := hstarts l m rest
  have hb : b ≠ 0x6E := fun hb => hj (hnull hb)
  simp only [Reader.optional, Reader.runOptional, hbs, hs, if_neg hb, h.run hn hrest hbs]
  cases res <;> rfl

/-- Where `null` stands, the value is absent. -/
theorem rereads_optional_null (rd : Nat → Reader α) :
    Rereads (fun n => (rd n).optional) .null (.ok none) := by
  refine ⟨fun {l m n bs rest} _ _ hbs => ?_⟩
  have hs : skipSpace (write l m .null ++ rest) = 0x6E :: (restOfNull ++ rest) := rfl
  rw [hs] at hbs
  simp only [Reader.optional, Reader.runOptional, hbs]
  rfl

namespace Codec

/-- What is read of the text of a value. -/
def reread (c : Codec α) (x : α) : Except Error α := Json.reread c.reader (c.toJson x)

/-- What is read of the text of a value that may be absent. -/
def rereadOption (c : Codec α) : Option α → Except Error (Option α)
  | none => .ok none
  | some x => Json.reread (fun n => (c.reader n).optional) (c.toJson x)

/-- The text of the value is read in the same way wherever it stands. -/
def Steady (c : Codec α) (x : α) : Prop := Json.Steady c.reader (c.toJson x)

variable {c : Codec α}

/-- A list is read of what is read of its elements. -/
theorem rereads_list {xs : List α} (h : ∀ x ∈ xs, c.Steady x) :
    Rereads c.list.reader (c.list.toJson xs) ((xs.map c.toJson).mapM (Json.reread c.reader)) := by
  have hsteady : ∀ j ∈ xs.map c.toJson, Json.Steady c.reader j := List.forall_mem_map.mpr h
  -- The list is what is made of its elements.
  have hok : (xs.map c.toJson).mapM (Json.reread c.reader) >>= .ok =
      (xs.map c.toJson).mapM (Json.reread c.reader) := by
    cases (xs.map c.toJson).mapM (Json.reread c.reader) <;> rfl
  rw [← hok]
  exact rereads_sequence hsteady (by simp)

/-- A list is read element by element. -/
theorem list_reread_eq_ok_map_iff {g : α → α} {xs : List α} (h : ∀ x ∈ xs, c.Steady x) :
    c.list.reread xs = .ok (xs.map g) ↔ ∀ x ∈ xs, c.reread x = .ok (g x) := by
  rw [reread, (rereads_list h).reread_eq, mapM_map_eq_ok_map_iff]
  rfl

/-- A list is read back if its elements are. -/
theorem list_reread_eq_ok_iff {xs : List α} (h : ∀ x ∈ xs, c.Steady x) :
    c.list.reread xs = .ok xs ↔ ∀ x ∈ xs, c.reread x = .ok x := by
  rw [← list_reread_eq_ok_map_iff h, List.map_id']

/-- An empty list is read back. -/
theorem list_reread_nil : c.list.reread [] = .ok [] := by
  rw [list_reread_eq_ok_iff (by simp)]
  simp

/-- What is read of the text of a list whose elements are named by their places. -/
def rereadArray (c : Codec α) (xs : Array α) : Except Error (Array α) :=
  (c.list.reread xs.toList).map List.toArray

/-- A collection is read back if the list of its elements is. -/
theorem rereadArray_eq_ok_iff_list {xs : Array α} :
    c.rereadArray xs = .ok xs ↔ c.list.reread xs.toList = .ok xs.toList := by
  rw [rereadArray, map_eq_ok_iff]
  constructor
  · rintro ⟨ys, hys, rfl⟩
    exact hys
  · intro h
    exact ⟨xs.toList, h, xs.toArray_toList⟩

/-- A list is read in the same way wherever it stands if its elements are. -/
theorem steady_list {xs : List α} (h : ∀ x ∈ xs, c.Steady x) : c.list.Steady xs :=
  (rereads_list h).steady (starts_array _)

/-- An array of fixed length is made of the list of its elements. -/
theorem exists_rereads_vector {k : Nat} {v : Vector α k} (h : ∀ x ∈ v.toList, c.Steady x) :
    ∃ make : List α → Except Error (Vector α k), (∀ xs, make xs = .ok v ↔ xs = v.toList) ∧
      Rereads (c.vector k).reader ((c.vector k).toJson v)
        ((v.toList.map c.toJson).mapM (Json.reread c.reader) >>= make) := by
  have hsteady : ∀ j ∈ v.toList.map c.toJson, Json.Steady c.reader j := List.forall_mem_map.mpr h
  refine ⟨_, fun xs => ?_, rereads_sequence hsteady (by simp)⟩
  split
  · rw [Except.ok.injEq]
    constructor
    · rintro rfl
      rfl
    · rintro rfl
      rfl
  · -- A list of another length makes no such array, and is not that of the elements.
    rename_i hlen
    constructor
    · intro hv
      contradiction
    · rintro rfl
      exact absurd v.length_toList hlen

/-- An array of fixed length is read back if its elements are. -/
theorem vector_reread_eq_ok_iff {k : Nat} {v : Vector α k} (h : ∀ x ∈ v.toList, c.Steady x) :
    (c.vector k).reread v = .ok v ↔ ∀ x ∈ v.toList, c.reread x = .ok x := by
  obtain ⟨make, hmake, hrereads⟩ := exists_rereads_vector h
  rw [reread, hrereads.reread_eq, bind_eq_ok_iff]
  simp only [hmake, exists_eq_right, mapM_map_eq_ok_iff]
  rfl

/-- An array of fixed length is read in the same way wherever it stands if its elements are. -/
theorem steady_vector {k : Nat} {v : Vector α k} (h : ∀ x ∈ v.toList, c.Steady x) :
    (c.vector k).Steady v := by
  obtain ⟨make, -, hrereads⟩ := exists_rereads_vector h
  exact hrereads.steady (starts_array _)

/-- An object with any keys is read of what is read of its values. -/
theorem rereads_map {collect : List (String × α) → List (String × α)} {ms : List (String × α)}
    (h : ∀ m ∈ ms, c.Steady m.2) :
    Rereads (c.map collect).reader ((c.map collect).toJson ms)
      (((ms.map fun m => (m.1, c.toJson m.2)).mapM fun km =>
        (Json.reread c.reader km.2).map (km.1, ·)).map collect) :=
  (rereads_pairs (List.forall_mem_map.mpr h)).map collect

/-- If the values of the members of an object are read back, what is kept of the members is read. -/
theorem map_reread_eq {collect : List (String × α) → List (String × α)} {ms : List (String × α)}
    (h : ∀ m ∈ ms, c.Steady m.2) (hms : ∀ m ∈ ms, c.reread m.2 = .ok m.2) :
    (c.map collect).reread ms = .ok (collect ms) := by
  have hmap : (ms.map fun m => (m.1, c.toJson m.2)).mapM
      (fun km => (Json.reread c.reader km.2).map (km.1, ·)) = .ok ms := by
    refine mapM_map_eq_ok_iff.mpr fun m hm => ?_
    have hm := hms m hm
    rw [reread] at hm
    rw [hm]
    rfl
  rw [reread, (rereads_map h).reread_eq, hmap, map_ok]

/-- An object with any keys is read in the same way wherever it stands if its values are. -/
theorem steady_map {collect : List (String × α) → List (String × α)} {ms : List (String × α)}
    (h : ∀ m ∈ ms, c.Steady m.2) : (c.map collect).Steady ms :=
  (rereads_map h).steady (starts_object _)

/-- A value that may be absent is read back if it is, unless it is written as `null`. -/
theorem rereadOption_some {x : α} (h : c.Steady x) (hnull : c.toJson x ≠ .null) :
    c.rereadOption (some x) = (c.reread x).map some :=
  (h.rereads.optional h.starts hnull).reread_eq

/-- A value that is written as `null` is read as an absent one. -/
theorem rereadOption_null {x : α} (hnull : c.toJson x = .null) :
    c.rereadOption (some x) = .ok none := by
  rw [rereadOption, hnull]
  exact (rereads_optional_null c.reader).reread_eq

end Codec

/-! ## Members -/

namespace Field

/-- The record after the member of the record `r` was read, if it is written. -/
def refill (f : Field R) (r x : R) : Except Error R :=
  match f.toJson r with
  | none => .ok x
  | some j => (reread f.reader j).map (· x)

/-- The member of the record is read in the same way wherever it stands, and it is there if it has
to be. -/
structure Steady (f : Field R) (r : R) : Prop where
  /-- Required members are written. -/
  written : f.required = true → (f.toJson r).isSome
  /-- The text of the member. -/
  steady : ∀ j ∈ f.toJson r, Json.Steady f.reader j

/-- A change of what is read does not depend on where it stands. -/
theorem steady_map {rd : Nat → Reader α} {j : Json} (h : Json.Steady rd j) (f : α → β) :
    Json.Steady (fun n => (rd n).map f) j :=
  (h.rereads.map f).steady h.starts

section

variable {name : String} {c : Codec α} {r x : R}

/-- What is read of a required member is put in. -/
theorem refill_always {get : R → α} {set : α → R → R} :
    (always name c get set).refill r x = (c.reread (get r)).map (set · x) := by
  simp only [refill, always, reread_map, Codec.reread]
  cases reread c.reader (c.toJson (get r)) <;> rfl

/-- A required member is read in the same way wherever it stands if its value is. -/
theorem steady_always {get : R → α} {set : α → R → R} (h : c.Steady (get r)) :
    (always name c get set).Steady r where
  written _ := rfl
  steady j hj := by
    obtain rfl := Option.some.inj hj
    exact steady_map h set

/-- If a member is not written, it has to be absent in the record so far. -/
theorem refill_optional {get : R → Option α} {set : Option α → R → R} (hx : set none x = x) :
    (optional name c get set).refill r x = (c.rereadOption (get r)).map (set · x) := by
  simp only [refill, optional]
  cases get r with
  | none =>
    -- Nothing is put in, which is the same as to put in nothing.
    rw [Codec.rereadOption, map_ok, hx, Option.map_none]
  | some y =>
    rw [Option.map_some, Codec.rereadOption]
    simp only [reread_map]
    cases reread (fun n => (c.reader n).optional) (c.toJson y) <;> rfl

/-- A member that may be absent is read in the same way wherever it stands if its value is. -/
theorem steady_optional {get : R → Option α} {set : Option α → R → R}
    (h : ∀ y ∈ get r, c.Steady y) : (optional name c get set).Steady r where
  written h := by contradiction
  steady j hj := by
    obtain ⟨y, hy, rfl⟩ := Option.map_eq_some_iff.mp hj
    refine steady_map ?_ set
    by_cases hnull : c.toJson y = .null
    · -- A value that is written as `null` is read as an absent one, which is steady as well.
      rw [hnull]
      exact (rereads_optional_null c.reader).steady starts_null
    · exact ((h y hy).rereads.optional (h y hy).starts hnull).steady (h y hy).starts

/-- If a list is not written, it has to be empty in the record so far. -/
theorem refill_many {get : R → List α} {set : List α → R → R} (hx : set [] x = x) :
    (many name c get set).refill r x = (c.list.reread (get r)).map (set · x) := by
  simp only [refill, many]
  cases get r with
  | nil => rw [Codec.list_reread_nil, map_ok, hx, List.isEmpty_nil, if_pos rfl]
  | cons y ys =>
    simp only [List.isEmpty_cons, Bool.false_eq_true, if_false, reread_map, Codec.reread]
    cases reread c.list.reader (c.list.toJson (y :: ys)) <;> rfl

/-- A list of a record is read in the same way wherever it stands if its elements are. -/
theorem steady_many {get : R → List α} {set : List α → R → R} (h : ∀ y ∈ get r, c.Steady y) :
    (many name c get set).Steady r where
  written h := by contradiction
  steady j hj := by
    simp only [many] at hj
    split at hj
    · contradiction
    · obtain rfl := Option.some.inj hj
      exact steady_map (Codec.steady_list h) set

/-- If a collection is not written, it has to be empty in the record so far. -/
theorem refill_collection {get : R → Array α} {set : Array α → R → R} (hx : set #[] x = x) :
    (collection name c get set).refill r x = (c.rereadArray (get r)).map (set · x) := by
  rw [collection, refill_many hx, Codec.rereadArray]
  cases c.list.reread (get r).toList <;> rfl

end

end Field

/-! ## Records -/

namespace Schema

variable {s : Schema R} {r : R}

/-- The record after the given members of the record `r` were read in order. -/
def refill (r : R) : List (Field R) → R → Except Error R
  | [], x => .ok x
  | f :: fs, x => f.refill r x >>= refill r fs

section

variable {name : String} {c : Codec α} {fs : List (Field R)} {x z : R}

/-- Without members nothing is put in. -/
@[simp] theorem refill_nil : refill r [] x = .ok z ↔ x = z := by rw [refill, Except.ok.injEq]

/-- What comes out if what is read of the first member is put in. -/
theorem refill_cons {f : Field R} {res : Except Error α} {set : α → R → R}
    (h : f.refill r x = res.map (set · x)) :
    refill r (f :: fs) x = .ok z ↔ ∃ y, res = .ok y ∧ refill r fs (set y x) = .ok z := by
  rw [refill, h]
  cases res with
  | error e => simp [Except.map, bind, Except.bind]
  | ok y => simp [map_ok, ok_bind]

/-- What comes out if the first member is a required one. -/
@[simp] theorem refill_always {get : R → α} {set : α → R → R} :
    refill r (.always name c get set :: fs) x = .ok z ↔
      ∃ y, c.reread (get r) = .ok y ∧ refill r fs (set y x) = .ok z :=
  refill_cons Field.refill_always

/-- What comes out if the first member may be absent. -/
@[simp] theorem refill_optional {get : R → Option α} {set : Option α → R → R}
    (hx : set none x = x) :
    refill r (.optional name c get set :: fs) x = .ok z ↔
      ∃ y, c.rereadOption (get r) = .ok y ∧ refill r fs (set y x) = .ok z :=
  refill_cons (Field.refill_optional hx)

/-- What comes out if the first member is a list. -/
@[simp] theorem refill_many {get : R → List α} {set : List α → R → R} (hx : set [] x = x) :
    refill r (.many name c get set :: fs) x = .ok z ↔
      ∃ y, c.list.reread (get r) = .ok y ∧ refill r fs (set y x) = .ok z :=
  refill_cons (Field.refill_many hx)

/-- What comes out if the first member is a collection. -/
@[simp] theorem refill_collection {get : R → Array α} {set : Array α → R → R}
    (hx : set #[] x = x) :
    refill r (.collection name c get set :: fs) x = .ok z ↔
      ∃ y, c.rereadArray (get r) = .ok y ∧ refill r fs (set y x) = .ok z :=
  refill_cons (Field.refill_collection hx)

end

/-- If a record comes out of the text of one, then so does each member. -/
theorem exists_refill {fs : List (Field R)} {x z : R} (h : refill r fs x = .ok z) :
    ∀ f ∈ fs, ∃ x z, f.refill r x = .ok z := by
  induction fs generalizing x with
  | nil => simp
  | cons f fs ih =>
    obtain ⟨y, hy, h⟩ := bind_eq_ok_iff.mp h
    exact List.forall_mem_cons.mpr ⟨⟨x, y, hy⟩, ih h⟩

/-- What is done at a member that is written. -/
def step (s : Schema R) (st : R × List String) (km : String × Json) :
    Except Error (R × List String) :=
  match s.field? km.1 with
  | none => .ok st
  | some f =>
    if km.1 ∈ st.2 then .error (.duplicateField km.1)
    else (reread f.reader km.2).map fun set => (set st.1, km.1 :: st.2)

/-- A name in the table finds the member that has it. -/
theorem find?_name {fs : List (Field R)} (hnames : (fs.map (·.name)).Nodup) {f : Field R}
    (hf : f ∈ fs) : fs.find? (·.name = f.name) = some f := by
  induction fs with
  | nil => contradiction
  | cons g fs ih =>
    rw [List.map_cons, List.nodup_cons] at hnames
    rw [List.find?_cons]
    rcases List.mem_cons.mp hf with rfl | hf
    · simp
    · have hne : g.name ≠ f.name := fun h => hnames.1 (h ▸ List.mem_map_of_mem hf)
      simp only [hne, decide_false]
      exact ih hnames.2 hf

/-- The written members are those of the table. -/
theorem mem_members_iff {km : String × Json} :
    km ∈ s.members r ↔ ∃ f ∈ s.fields, f.toJson r = some km.2 ∧ f.name = km.1 := by
  simp only [members, List.mem_filterMap, Option.map_eq_some_iff]
  constructor
  · rintro ⟨f, hf, j, hj, rfl⟩
    exact ⟨f, hf, hj, rfl⟩
  · rintro ⟨f, hf, hj, hk⟩
    exact ⟨f, hf, km.2, hj, by rw [hk]⟩

/-- Each written member is read where it stands, whatever was read before it. -/
theorem steps_member (hnames : (s.fields.map (·.name)).Nodup) (h : ∀ f ∈ s.fields, f.Steady r)
    {n : Nat} (hn : nestingMembers (s.members r) ≤ n) (l : Layout) (m : Nat) :
    Steps (s.member n) s.step l m (s.members r) := by
  intro km hkm st tail htail
  have hle := nesting_le_nestingMembers hkm
  -- The names in the table are distinct, so the key finds the member that it was written for.
  obtain ⟨f, hf, hj, hk⟩ := mem_members_iff.mp hkm
  have hfield : s.field? km.1 = some f := by
    rw [← hk]
    exact find?_name hnames hf
  obtain ⟨t, hcolon, ht⟩ := exists_colon_write l (write l m km.2 ++ tail)
  have hrun := ((h f hf).steady km.2 hj).rereads.run (n := n) (by omega) htail ht
  simp only [member, step, hfield]
  split
  · rfl
  · rw [hcolon, ok_bind, hrun]
    cases reread f.reader km.2 <;> rfl

/-- The names of the given members that are written. -/
def written (r : R) (fs : List (Field R)) : List String :=
  fs.filterMap fun f => (f.toJson r).map fun _ => f.name

/-- To go through the written members is to put them in, and to take down their names. -/
theorem foldlM_step {fs : List (Field R)} (hfs : ∀ f ∈ fs, s.field? f.name = some f)
    (hnames : (fs.map (·.name)).Nodup) {x : R} {names : List String}
    (hnew : ∀ f ∈ fs, f.name ∉ names) :
    (fs.filterMap fun f => (f.toJson r).map (f.name, ·)).foldlM s.step (x, names) =
      (refill r fs x).map (·, (written r fs).reverse ++ names) := by
  induction fs generalizing x names with
  | nil => rfl
  | cons f fs ih =>
    rw [List.forall_mem_cons] at hfs hnew
    rw [List.map_cons, List.nodup_cons] at hnames
    rw [refill, Field.refill, List.filterMap_cons, written, List.filterMap_cons]
    cases hj : f.toJson r with
    | none => exact ih hfs.2 hnames.2 hnew.2
    | some j =>
      simp only [Option.map_some, List.foldlM_cons, step, hfs.1, if_neg hnew.1]
      cases reread f.reader j with
      | error e => rfl
      | ok set =>
        -- The names that are still to come are new after this one too, as they are distinct.
        have hnew' : ∀ g ∈ fs, g.name ∉ f.name :: names := by
          intro g hg
          rw [List.mem_cons, not_or]
          exact ⟨fun h => hnames.1 (h ▸ List.mem_map_of_mem hg), hnew.2 g hg⟩
        rw [map_ok, ok_bind, map_ok, ok_bind, ih hfs.2 hnames.2 hnew', List.reverse_cons,
          List.append_assoc]
        rfl

/-- No required member is missing among those that are written. -/
theorem missing?_written (h : ∀ f ∈ s.fields, f.Steady r) :
    s.missing? (written r s.fields).reverse = none := by
  rw [missing?, List.find?_eq_none]
  intro f hf
  rw [Bool.and_eq_true, not_and]
  intro hrequired
  obtain ⟨j, hj⟩ := Option.isSome_iff_exists.mp ((h f hf).written hrequired)
  have hmem : f.name ∈ written r s.fields :=
    List.mem_filterMap.mpr ⟨f, hf, by rw [hj, Option.map_some]⟩
  simp [hmem]

/-- A record is read by putting in its members. -/
theorem rereads_codec (hnames : (s.fields.map (·.name)).Nodup)
    (h : ∀ f ∈ s.fields, f.Steady r) :
    Rereads s.codec.reader (s.codec.toJson r) (refill r s.fields s.initial) := by
  refine ⟨fun {l m n bs rest} hn _ hbs => ?_⟩
  simp only [codec, nesting] at hn hbs
  cases n with
  | zero => omega
  | succ n =>
    have hsteps := steps_member hnames h (Nat.le_of_succ_le_succ hn) l (m + 1)
    -- What the members leave is the record that they were put in, with the names of all of them.
    have hfold : (s.members r).foldlM s.step (s.initial, []) =
        (refill r s.fields s.initial).map (·, (written r s.fields).reverse) := by
      have hfold := foldlM_step (r := r) (fun f hf => find?_name hnames hf) hnames
        (x := s.initial) (fun _ _ => List.not_mem_nil)
      rwa [List.append_nil] at hfold
    simp only [codec, reader, found_object hbs, readObject, members_objectRest hsteps]
    rw [hfold]
    cases refill r s.fields s.initial with
    | error e => rfl
    | ok x =>
      simp only [map_ok, ok_bind, missing?_written h]

end Schema

end GltfAsset.Json
