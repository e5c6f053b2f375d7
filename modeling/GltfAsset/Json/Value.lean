import GltfAsset.Json.Reader

/-!
# Free JSON values

`Value` is a JSON value whose shape nobody prescribes, as it stands in the open-ended members of a
document. The members of an object are kept in the order of their keys, and of members with one key
the last one counts. `Value.reader` reads such a value and `Value.toJson` writes it.
-/

namespace GltfAsset

/-- A JSON value of any shape. -/
inductive Value where
  /-- The literal `null`. -/
  | null
  /-- A boolean. -/
  | boolean (b : Bool)
  /-- An integer of 64 bits, with or without sign. -/
  | integer (n : Int)
  /-- Any other number. -/
  | float (x : Double)
  /-- A string. -/
  | string (s : String)
  /-- An array. -/
  | array (items : List Value)
  /-- An object, by its keys and their values. -/
  | object (members : List (String × Value))

namespace Value

/-! ### Equality -/

mutual

/-- Whether two values are equal. -/
def same : Value → Value → Bool
  | .null, .null => true
  | .boolean a, .boolean b => a == b
  | .integer m, .integer n => m == n
  | .float x, .float y => decide (x = y)
  | .string s, .string t => s == t
  | .array vs, .array ws => sameItems vs ws
  | .object ms, .object ns => sameMembers ms ns
  | _, _ => false

/-- Whether two lists of values are equal. -/
def sameItems : List Value → List Value → Bool
  | [], [] => true
  | v :: vs, w :: ws => same v w && sameItems vs ws
  | _, _ => false

/-- Whether two lists of keys and values are equal. -/
def sameMembers : List (String × Value) → List (String × Value) → Bool
  | [], [] => true
  | (k, v) :: ms, (l, w) :: ns => k == l && same v w && sameMembers ms ns
  | _, _ => false

end

mutual

/-- A value is the same as itself. -/
theorem same_self : ∀ v : Value, same v v = true
  | .null | .boolean _ | .integer _ | .float _ | .string _ => by simp [same]
  | .array vs => by simp [same, sameItems_self vs]
  | .object ms => by simp [same, sameMembers_self ms]

/-- A list of values is the same as itself. -/
theorem sameItems_self : ∀ vs : List Value, sameItems vs vs = true
  | [] => rfl
  | v :: vs => by simp [sameItems, same_self v, sameItems_self vs]

/-- A list of members is the same as itself. -/
theorem sameMembers_self : ∀ ms : List (String × Value), sameMembers ms ms = true
  | [] => rfl
  | (_, v) :: ms => by simp [sameMembers, same_self v, sameMembers_self ms]

end

mutual

/-- Values that are the same are equal. -/
theorem eq_of_same : ∀ {v w : Value}, same v w = true → v = w
  | .null, w, h => by cases w <;> simp_all [same]
  | .boolean _, w, h => by cases w <;> simp_all [same]
  | .integer _, w, h => by cases w <;> simp_all [same]
  | .float _, w, h => by cases w <;> simp_all [same]
  | .string _, w, h => by cases w <;> simp_all [same]
  | .array vs, w, h => by
    cases w <;> simp only [same, Bool.false_eq_true] at h
    rw [eq_of_sameItems h]
  | .object ms, w, h => by
    cases w <;> simp only [same, Bool.false_eq_true] at h
    rw [eq_of_sameMembers h]

/-- Lists of values that are the same are equal. -/
theorem eq_of_sameItems : ∀ {vs ws : List Value}, sameItems vs ws = true → vs = ws
  | [], ws, h => by cases ws <;> simp_all [sameItems]
  | v :: vs, ws, h => by
    cases ws <;> simp only [sameItems, Bool.and_eq_true, Bool.false_eq_true] at h
    rw [eq_of_same h.1, eq_of_sameItems h.2]

/-- Lists of members that are the same are equal. -/
theorem eq_of_sameMembers :
    ∀ {ms ns : List (String × Value)}, sameMembers ms ns = true → ms = ns
  | [], ns, h => by cases ns <;> simp_all [sameMembers]
  | (k, v) :: ms, ns, h => by
    cases ns <;> simp only [sameMembers, Bool.and_eq_true, Bool.false_eq_true, beq_iff_eq] at h
    rw [h.1.1, eq_of_same h.1.2, eq_of_sameMembers h.2]

end

instance : DecidableEq Value := fun v w =>
  decidable_of_iff (same v w = true) ⟨eq_of_same, fun h => h ▸ same_self v⟩

/-! ### Writing -/

mutual

/-- The tree of a value. -/
def toJson : Value → Json
  | .null => .null
  | .boolean b => .boolean b
  | .integer n => .ofInt n
  | .float x => .ofFloat Json.doubleStyle x
  | .string s => .string s
  | .array vs => .array (toJsonItems vs)
  | .object ms => .object (toJsonMembers ms)

/-- The trees of values. -/
def toJsonItems : List Value → List Json
  | [] => []
  | v :: vs => v.toJson :: toJsonItems vs

/-- The trees of values, with their keys. -/
def toJsonMembers : List (String × Value) → List (String × Json)
  | [] => []
  | (k, v) :: ms => (k, v.toJson) :: toJsonMembers ms

end

/-! ### Reading -/

/-- Puts a member in its place by its key; a member of the same key is replaced. -/
def insertMember (k : String) (v : Value) : List (String × Value) → List (String × Value)
  | [] => [(k, v)]
  | (l, w) :: ms =>
    if k < l then (k, v) :: (l, w) :: ms
    else if k = l then (k, v) :: ms
    else (l, w) :: insertMember k v ms

/-- The object with the given members: in the order of their keys, the last one of each key. -/
def ofMembers (ms : List (String × Value)) : Value :=
  .object (ms.foldl (fun acc m => insertMember m.1 m.2 acc) [])

open Json in
/-- Reads a value whose parts, if it has any, `inner` reads; absent if no further level may be
entered. -/
def readerOf (inner : Option (Reader Value)) : Reader Value where
  run bs :=
    match Reader.found bs with
    | .error e => .error e
    | .ok ⟨.null, r⟩ => .ok (.null, r)
    | .ok ⟨.boolean b, r⟩ => .ok (.boolean b, r)
    | .ok ⟨.integer n, r⟩ => .ok (.integer n, r)
    | .ok ⟨.float x, r⟩ => .ok (.float x, r)
    | .ok ⟨.string s, r⟩ => .ok (.string s, r)
    | .ok ⟨.sequence, r⟩ =>
      match inner with
      | none => .error .tooDeep
      | some rd => Reader.items rd none (fun vs => .ok (.array vs)) r
    | .ok ⟨.map, r⟩ =>
      match inner with
      | none => .error .tooDeep
      | some rd => (Reader.entries rd r).map fun p => (ofMembers p.1, p.2)
  length_lt h := by
    unfold Except.map at h
    repeat' split at h
    all_goals
      grind [→ Reader.length_lt_of_found, → Reader.length_lt_of_items,
        → Reader.length_lt_of_entries]

/-- Reads a value of any shape that is nested at most as deeply as given. -/
def reader : Nat → Json.Reader Value
  | 0 => readerOf none
  | n + 1 => readerOf (some (reader n))

end Value

end GltfAsset
