import GltfAsset.Proofs.Json.Written

/-!
# Free values are read back

The text of a free JSON value is read as this value, if its numbers are: integers are, and of the
floats in it this is taken as given (`Double.ReadsBack`). The value has to be one that can be held
at all (`Value.WellFormed`).
-/

namespace GltfAsset

open Json

/-- The text of the number is read as this number. -/
def Single.ReadsBack (x : Single) : Prop :=
  Reader.single.run (Bytes.ofString (singleStyle.text x)) = .ok (x, [])

instance (x : Single) : Decidable x.ReadsBack := inferInstanceAs (Decidable (_ = _))

/-- The text of the number is read as this number. -/
def Double.ReadsBack (x : Double) : Prop :=
  Number.read (Bytes.ofString (doubleStyle.text x)) = .ok (.float x, [])

instance (x : Double) : Decidable x.ReadsBack := inferInstanceAs (Decidable (_ = _))

namespace Value

mutual

/-- A value as it can be held: integers have 64 bits, with or without sign, other numbers are
finite, and the members of an object stand in the order of their keys, each key once. -/
def WellFormed : Value → Prop
  | .integer n => Int64.minValue.toInt ≤ n ∧ n < Number.limit
  | .float x => x.IsFinite
  | .array vs => WellFormedItems vs
  | .object ms => (ms.map Prod.fst).Pairwise (· < ·) ∧ WellFormedMembers ms
  | _ => True

/-- All elements are well formed. -/
def WellFormedItems : List Value → Prop
  | [] => True
  | v :: vs => v.WellFormed ∧ WellFormedItems vs

/-- The values of all members are well formed. -/
def WellFormedMembers : List (String × Value) → Prop
  | [] => True
  | (_, v) :: ms => v.WellFormed ∧ WellFormedMembers ms

end

mutual

/-- The floats in a value. -/
def floats : Value → List Double
  | .float x => [x]
  | .array vs => floatsItems vs
  | .object ms => floatsMembers ms
  | _ => []

/-- The floats in the elements. -/
def floatsItems : List Value → List Double
  | [] => []
  | v :: vs => v.floats ++ floatsItems vs

/-- The floats in the values of the members. -/
def floatsMembers : List (String × Value) → List Double
  | [] => []
  | (_, v) :: ms => v.floats ++ floatsMembers ms

end

/-- The elements of an array are written one by one. -/
theorem toJsonItems_eq (vs : List Value) : toJsonItems vs = vs.map toJson := by
  induction vs with
  | nil => rfl
  | cons v vs ih => rw [toJsonItems, ih, List.map_cons]

/-- The members of an object are written one by one. -/
theorem toJsonMembers_eq (ms : List (String × Value)) :
    toJsonMembers ms = ms.map fun m => (m.1, m.2.toJson) := by
  induction ms with
  | nil => rfl
  | cons m ms ih => rw [toJsonMembers, ih, List.map_cons]

/-- Only `null` is written as `null`. -/
theorem toJson_eq_null_iff {v : Value} (h : v.WellFormed) : v.toJson = .null ↔ v = .null := by
  cases v with
  | float x =>
    rw [WellFormed] at h
    simp [toJson, ofFloat, if_pos h]
  | boolean b => simp [toJson]
  | integer n => simp [toJson, ofInt]
  | _ => simp [toJson]

/-! ### Objects in the order of their keys -/

/-- A member whose key comes after all others is put at the end. -/
theorem insertMember_of_lt {k : String} {v : Value} {ms : List (String × Value)}
    (h : ∀ m ∈ ms, m.1 < k) : insertMember k v ms = ms ++ [(k, v)] := by
  induction ms with
  | nil => rfl
  | cons m ms ih =>
    obtain ⟨hm, hms⟩ := List.forall_mem_cons.mp h
    have hlt : ¬ k < m.1 := String.lt_asymm hm
    have hne : k ≠ m.1 := by
      rintro rfl
      exact String.lt_irrefl _ hm
    rw [insertMember, if_neg hlt, if_neg hne, ih hms, List.cons_append]

/-- Members in the order of their keys stay as they are. -/
theorem ofMembers_of_pairwise {ms : List (String × Value)}
    (h : (ms.map Prod.fst).Pairwise (· < ·)) : ofMembers ms = .object ms := by
  have hfold : ms.foldl (fun acc m => insertMember m.1 m.2 acc) [] = [] ++ ms :=
    foldl_eq_append (fun acc m hm => insertMember_of_lt hm) (List.pairwise_map.mp h)
  rw [ofMembers, hfold, List.nil_append]

/-! ### Reading -/

/-- The reader of values, from that of their parts. -/
theorem reader_eq (n : Nat) : reader n = readerOf (Reader.below reader n) := by
  cases n <;> rfl

/-- The text of the value is read as this value, wherever it stands. -/
structure Returns (v : Value) : Prop where
  /-- The start of the text. -/
  starts : Starts v.toJson
  /-- The value. -/
  rereads : Rereads reader v.toJson (.ok v)

/-- A value that is read back is read in the same way wherever it stands. -/
theorem Returns.steady {v : Value} (h : v.Returns) : Steady reader v.toJson :=
  h.rereads.steady h.starts

/-- A value that is read back is what is read of its text. -/
theorem Returns.reread_eq {v : Value} (h : v.Returns) : reread reader v.toJson = .ok v :=
  h.rereads.reread_eq

/-- A free value without parts is read back if it is made of what is found in its place. -/
theorem returns_of_found {v : Value} {x : Found} (hstarts : Starts v.toJson)
    (h : ∀ l m rest, Ends rest → Reader.found (v.toJson.write l m ++ rest) = .ok ⟨x, rest⟩)
    (hv : ∀ inner bs rest, Reader.found bs = .ok ⟨x, rest⟩ →
      (readerOf inner).run bs = .ok (v, rest)) : v.Returns := by
  refine ⟨hstarts, ⟨fun {l m n bs rest} _ hrest hbs => ?_⟩⟩
  rw [reader_eq, hv _ _ rest (by rw [found_congr hbs, h l m rest hrest])]
  rfl

/-- A number is read back if it is where its text stands alone. -/
theorem returns_numeral {v : Value} {x : Found} {t : Bytes} (hj : v.toJson = .numeral t)
    (h : Reader.found t = .ok ⟨x, []⟩)
    (hx : (∃ n, x = .integer n ∧ v = .integer n) ∨ ∃ y, x = .float y ∧ v = .float y) :
    v.Returns := by
  have hstarts : Starts v.toJson := by
    rw [hj]
    exact starts_numeral h (hx.imp (fun ⟨n, hn, _⟩ => ⟨n, hn⟩) fun ⟨y, hy, _⟩ => ⟨y, hy⟩)
  refine returns_of_found hstarts (fun l m rest hrest => hj ▸ found_numeral h l m hrest) ?_
  intro inner bs rest hfound
  rcases hx with ⟨n, rfl, rfl⟩ | ⟨y, rfl, rfl⟩
  · simp only [readerOf, hfound]
  · simp only [readerOf, hfound]

/-- A free value that is an array is read element by element. -/
theorem rereads_array {vs : List Value} (h : ∀ v ∈ vs, Steady reader v.toJson) :
    Rereads reader (array vs).toJson
      ((vs.map toJson).mapM (reread reader) >>= fun vs => .ok (array vs)) := by
  have hj : (array vs).toJson = .array (vs.map toJson) := by rw [toJson, toJsonItems_eq]
  have hrereads : Rereads (fun n => Reader.sequence .sequence (Reader.below reader n) none
      fun vs => .ok (array vs)) (.array (vs.map toJson))
      ((vs.map toJson).mapM (reread reader) >>= fun vs => .ok (array vs)) :=
    rereads_sequence (List.forall_mem_map.mpr h) (by simp)
  refine ⟨fun {l m n bs rest} hn hrest hbs => ?_⟩
  rw [hj] at hn hbs
  -- Once the bracket is found, a free value goes on as an array does.
  have hrun := hrereads.run hn hrest hbs
  cases n with
  | zero => contradiction
  | succ n =>
    simp only [Reader.sequence, found_array hbs, Reader.below] at hrun
    simp only [reader, readerOf, found_array hbs]
    exact hrun

/-- An array is read back if its elements are. -/
theorem returns_array {vs : List Value} (h : ∀ v ∈ vs, v.Returns) : (array vs).Returns where
  starts := by
    rw [toJson]
    exact starts_array _
  rereads := by
    have hmap : (vs.map toJson).mapM (reread reader) = .ok vs :=
      mapM_map_eq_ok_iff.mpr fun v hv => (h v hv).reread_eq
    have hrereads := rereads_array fun v hv => (h v hv).steady
    rwa [hmap, ok_bind] at hrereads

/-- An object is read member by member, and its members are put in order. -/
theorem rereads_object {ms : List (String × Value)} (h : ∀ m ∈ ms, Steady reader m.2.toJson) :
    Rereads reader (object ms).toJson (((ms.map fun m => (m.1, m.2.toJson)).mapM fun km =>
      (reread reader km.2).map (km.1, ·)).map ofMembers) := by
  have hj : (object ms).toJson = .object (ms.map fun m => (m.1, m.2.toJson)) := by
    rw [toJson, toJsonMembers_eq]
  have hsteady : ∀ km ∈ ms.map fun m => (m.1, m.2.toJson), Steady reader km.2 :=
    List.forall_mem_map.mpr h
  have hrereads := rereads_pairs hsteady
  refine ⟨fun {l m n bs rest} hn hrest hbs => ?_⟩
  rw [hj] at hn hbs
  -- A free value goes on as an object with any keys does, and then puts the members in order.
  have hrun := hrereads.run hn hrest hbs
  cases n with
  | zero => contradiction
  | succ n =>
    simp only [Reader.pairs, found_object hbs, Reader.below] at hrun
    simp only [reader, readerOf, found_object hbs, hrun]
    cases (ms.map fun m => (m.1, m.2.toJson)).mapM fun km => (reread reader km.2).map (km.1, ·) <;>
      rfl

/-- An object is read back if its values are. -/
theorem returns_object {ms : List (String × Value)} (hkeys : (ms.map Prod.fst).Pairwise (· < ·))
    (h : ∀ m ∈ ms, m.2.Returns) : (object ms).Returns where
  starts := by
    rw [toJson]
    exact starts_object _
  rereads := by
    have hmap : (ms.map fun m => (m.1, m.2.toJson)).mapM
        (fun km => (reread reader km.2).map (km.1, ·)) = .ok ms := by
      refine mapM_map_eq_ok_iff.mpr fun m hm => ?_
      rw [(h m hm).reread_eq]
      rfl
    have hrereads := rereads_object fun m hm => (h m hm).steady
    rwa [hmap, map_ok, ofMembers_of_pairwise hkeys] at hrereads

mutual

/-- Every value that can be held is read back if its floats are. -/
theorem returns : ∀ {v : Value}, v.WellFormed → (∀ x ∈ v.floats, x.ReadsBack) → v.Returns
  | .null, _, _ => returns_of_found starts_null (fun l m rest _ => found_null l m rest)
      fun inner bs rest h => by simp only [readerOf, h]
  | .boolean b, _, _ => returns_of_found (starts_boolean b)
      (fun l m rest _ => found_boolean b l m rest) fun inner bs rest h => by
        simp only [readerOf, h]
  | .integer n, h, _ => by
    rw [WellFormed] at h
    exact returns_numeral rfl (found_of_read (Number.read_ofInt h.1 h.2)) (.inl ⟨n, rfl, rfl⟩)
  | .float x, h, hfloats => by
    rw [WellFormed] at h
    have hread : x.ReadsBack := hfloats x (by simp [floats])
    exact returns_numeral (by rw [toJson, ofFloat, if_pos h]) (found_of_read hread)
      (.inr ⟨x, rfl, rfl⟩)
  | .string s, _, _ => returns_of_found (starts_string s)
      (fun l m rest _ => found_string s l m rest) fun inner bs rest h => by
        simp only [readerOf, h]
  | .array vs, h, hfloats => by
    rw [WellFormed] at h
    rw [floats] at hfloats
    exact returns_array (returns_items h hfloats)
  | .object ms, h, hfloats => by
    rw [WellFormed] at h
    rw [floats] at hfloats
    exact returns_object h.1 (returns_members h.2 hfloats)

/-- The elements of a value that can be held are read back if their floats are. -/
theorem returns_items : ∀ {vs : List Value}, WellFormedItems vs →
    (∀ x ∈ floatsItems vs, x.ReadsBack) → ∀ v ∈ vs, v.Returns
  | [], _, _ => by simp
  | v :: vs, h, hfloats => by
    rw [WellFormedItems] at h
    rw [floatsItems, List.forall_mem_append] at hfloats
    exact List.forall_mem_cons.mpr ⟨returns h.1 hfloats.1, returns_items h.2 hfloats.2⟩

/-- The members of a value that can be held are read back if their floats are. -/
theorem returns_members : ∀ {ms : List (String × Value)}, WellFormedMembers ms →
    (∀ x ∈ floatsMembers ms, x.ReadsBack) → ∀ m ∈ ms, m.2.Returns
  | [], _, _ => by simp
  | (k, v) :: ms, h, hfloats => by
    rw [WellFormedMembers] at h
    rw [floatsMembers, List.forall_mem_append] at hfloats
    exact List.forall_mem_cons.mpr ⟨returns h.1 hfloats.1, returns_members h.2 hfloats.2⟩

end

end Value

end GltfAsset
