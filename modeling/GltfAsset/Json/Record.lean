import GltfAsset.Json.Value

/-!
# Records with named members

A `Codec` says how a type is written and read. The codec of a record is made from one table, its
`Schema`: the members in order, each with its name, the way it is written and the way it is read.
A record is written as an object with the members in that order. It is read from an object with the
members in any order, where members that the table does not name are passed over, or from an array
of the members in order.
-/

namespace GltfAsset.Json

/-- How values of a type are written and read. -/
structure Codec (α : Type) where
  /-- The tree that is written. -/
  toJson : α → Json
  /-- The reader, for each number of levels that may still be entered. -/
  reader : Nat → Reader α

namespace Codec

variable {α : Type}

/-- Strings. -/
def string : Codec String := ⟨.string, fun _ => .string⟩

/-- Booleans. -/
def boolean : Codec Bool := ⟨.boolean, fun _ => .boolean⟩

/-- Signed 64-bit integers. -/
def integer : Codec Int64 := ⟨fun n => .ofInt n.toInt, fun _ => .integer⟩

/-- 32-bit floats; one that is not finite is written as `null`. -/
def single : Codec Single := ⟨.ofFloat singleStyle, fun _ => .single⟩

/-- Values of any shape. -/
def value : Codec Value := ⟨Value.toJson, Value.reader⟩

/-- Arrays of any length. -/
def list (c : Codec α) : Codec (List α) :=
  ⟨fun xs => .array (xs.map c.toJson), fun n => .list (Reader.below c.reader n)⟩

/-- Arrays of a fixed length. -/
def vector (k : Nat) (c : Codec α) : Codec (Vector α k) :=
  ⟨fun xs => .array (xs.toList.map c.toJson), fun n => .vector k (Reader.below c.reader n)⟩

/-- Objects with any keys, as the list of keys and values that `collect` makes of the members. -/
def map (collect : List (String × α) → List (String × α)) (c : Codec α) :
    Codec (List (String × α)) :=
  ⟨fun ms => .object (ms.map fun m => (m.1, c.toJson m.2)),
    fun n => (Reader.pairs (Reader.below c.reader n)).map collect⟩

end Codec

/-- A member of the records of type `R`. -/
structure Field (R : Type) where
  /-- The name. -/
  name : String
  /-- Whether a text without it is refused. -/
  required : Bool
  /-- What is written of a record, if anything. -/
  toJson : R → Option Json
  /-- The reader, which gives the change of the record that the value makes. -/
  reader : Nat → Reader (R → R)

namespace Field

variable {R α : Type}

/-- A member that is always there. -/
def always (name : String) (c : Codec α) (get : R → α) (set : α → R → R) : Field R where
  name := name
  required := true
  toJson r := some (c.toJson (get r))
  reader n := (c.reader n).map set

/-- A member that may be absent, or `null` instead. -/
def optional (name : String) (c : Codec α) (get : R → Option α) (set : Option α → R → R) :
    Field R where
  name := name
  required := false
  toJson r := (get r).map c.toJson
  reader n := (c.reader n).optional.map set

/-- A list that is absent when it is empty. -/
def many (name : String) (c : Codec α) (get : R → List α) (set : List α → R → R) : Field R where
  name := name
  required := false
  toJson r := if (get r).isEmpty then none else some (c.list.toJson (get r))
  reader n := (c.list.reader n).map set

/-- A list that is absent when it is empty, and whose elements are named by their places. -/
def collection (name : String) (c : Codec α) (get : R → Array α) (set : Array α → R → R) :
    Field R :=
  many name c (fun r => (get r).toList) fun xs => set xs.toArray

end Field

/-- The table of a record type. -/
structure Schema (R : Type) where
  /-- The name of the type, for messages. -/
  name : String
  /-- The record before any member is read. -/
  initial : R
  /-- The members, in the order in which they are written. -/
  fields : List (Field R)

namespace Schema

variable {R : Type}

/-- The member of the given name. -/
def field? (s : Schema R) (k : String) : Option (Field R) := s.fields.find? (·.name = k)

/-- The members that are written of a record. -/
def members (s : Schema R) (r : R) : List (String × Json) :=
  s.fields.filterMap fun f => (f.toJson r).map (f.name, ·)

/-- Reads a member of the object form. The state is the record so far and the names that were
read. -/
def member (s : Schema R) (n : Nat) : Member (R × List String) where
  run st k bs :=
    match s.field? k with
    | none => do
      let bs ← colon bs
      let bs ← skipValue bs
      .ok (st, bs)
    | some f =>
      if k ∈ st.2 then .error (.duplicateField k)
      else do
        let bs ← colon bs
        let (set, bs) ← (f.reader n).run bs
        .ok ((set st.1, k :: st.2), bs)
  length_le h := by
    simp only [bind, Except.bind] at h
    repeat' split at h
    all_goals
      grind [→ length_lt_of_colon, → length_lt_of_skipValue, → Reader.length_lt]

/-- The first required member that is not among the names that were read. -/
def missing? (s : Schema R) (names : List String) : Option (Field R) :=
  s.fields.find? fun f => f.required && f.name ∉ names

/-- Reads the object form, from after the opening brace. -/
def readObject (s : Schema R) (n : Nat) (bs : Bytes) : Except Error (R × Bytes) := do
  let (st, r) ← Reader.members (s.member n) true (s.initial, []) bs
  match s.missing? st.2 with
  | some f => .error (.missingField f.name)
  | none => .ok (st.1, r)

/-- Reads the given members in order from an array, of which `i` elements were read. Optional
members at the end may be missing. -/
def readElements (s : Schema R) (n : Nat) :
    List (Field R) → Nat → R → Bytes → Except Error (R × Bytes)
  | [], _, x, bs => .ok (x, bs)
  | f :: fs, i, x, bs =>
    match nextElement (i == 0) bs with
    | .error e => .error e
    | .ok (false, r) =>
      if f.required then .error (.invalidLength i (.members s.name s.fields.length))
      else readElements s n fs (i + 1) x r
    | .ok (true, r) =>
      match (f.reader n).run r with
      | .error e => .error e
      | .ok (set, r) => readElements s n fs (i + 1) (set x) r

/-- Reads the array form, from after the opening bracket. -/
def readArray (s : Schema R) (n : Nat) (bs : Bytes) : Except Error (R × Bytes) := do
  let (x, r) ← s.readElements n s.fields 0 s.initial bs
  let r ← closeArray r
  .ok (x, r)

/-- A record written as an object takes at least a byte. -/
theorem length_lt_of_readObject {s : Schema R} {n : Nat} {bs r : Bytes} {x : R}
    (h : s.readObject n bs = .ok (x, r)) : r.length < bs.length := by
  simp only [readObject, bind, Except.bind] at h
  repeat' split at h
  all_goals grind [→ Reader.length_lt_of_members]

/-- The elements of a record written as an array leave no more than there was. -/
theorem length_le_of_readElements {s : Schema R} {n i : Nat} {fs : List (Field R)} {x y : R}
    {bs r : Bytes} (h : s.readElements n fs i x bs = .ok (y, r)) : r.length ≤ bs.length := by
  fun_induction readElements s n fs i x bs <;>
    grind [→ length_le_of_nextElement, → Reader.length_lt]

/-- A record written as an array takes at least a byte. -/
theorem length_lt_of_readArray {s : Schema R} {n : Nat} {bs r : Bytes} {x : R}
    (h : s.readArray n bs = .ok (x, r)) : r.length < bs.length := by
  simp only [readArray, bind, Except.bind] at h
  repeat' split at h
  all_goals grind [→ length_le_of_readElements, → length_lt_of_closeArray]

/-- Reads a record in either form. -/
def reader (s : Schema R) (n : Nat) : Reader R where
  run bs :=
    match Reader.found bs with
    | .error e => .error e
    | .ok ⟨.map, r⟩ =>
      match n with
      | 0 => .error .tooDeep
      | n + 1 => s.readObject n r
    | .ok ⟨.sequence, r⟩ =>
      match n with
      | 0 => .error .tooDeep
      | n + 1 => s.readArray n r
    | .ok v => .error (.invalidType v.found (.record s.name))
  length_lt h := by
    repeat' split at h
    all_goals
      grind [→ Reader.length_lt_of_found, → length_lt_of_readObject, → length_lt_of_readArray]

/-- The codec of the records. -/
def codec (s : Schema R) : Codec R := ⟨fun r => .object (s.members r), s.reader⟩

end Schema

end GltfAsset.Json
