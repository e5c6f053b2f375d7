import GltfAsset.Json.Basic
import GltfAsset.Json.Skip

/-!
# Readers of values

A `Reader` reads one value from the start of a text, white space in front of it included, and takes
at least one byte. This file holds the readers of values without parts and the loops over the
elements of an array and the members of an object. Nesting is bounded: a reader of values with
parts is given the number of arrays and objects that may still be entered.
-/

namespace GltfAsset.Json

/-- A reader of one value. -/
structure Reader (α : Type) where
  /-- The value at the start of a text, and the text after it. -/
  run : Bytes → Except Error (α × Bytes)
  /-- Something is taken from the text. -/
  length_lt : ∀ {bs r : Bytes} {x : α}, run bs = .ok (x, r) → r.length < bs.length

/-- The greatest number of arrays and objects around a value that is read. -/
def maxNesting : Nat := 127

namespace Reader

variable {α β : Type}

/-- The value that is read, changed by a function. -/
def map (f : α → β) (rd : Reader α) : Reader β where
  run bs := (rd.run bs).map fun p => (f p.1, p.2)
  length_lt h := by
    unfold Except.map at h
    split at h
    · contradiction
    · simp only [Except.ok.injEq, Prod.mk.injEq] at h
      rename_i p hp
      exact h.2 ▸ rd.length_lt hp

/-- A value without parts: from its first byte and the text after it, the value that is read. -/
structure Scalar where
  /-- The value. -/
  found : Found
  /-- The text after it. -/
  rest : Bytes

/-- Reads a value without parts; of an array or object the opening mark is looked at only. -/
def found (bs : Bytes) : Except Error Scalar :=
  match skipSpace bs with
  | [] => .error (.endOfInput .value)
  | b :: r =>
    if b = 0x6E then (literal restOfNull r).map (⟨.null, ·⟩)
    else if b = 0x74 then (literal restOfTrue r).map (⟨.boolean true, ·⟩)
    else if b = 0x66 then (literal restOfFalse r).map (⟨.boolean false, ·⟩)
    else if b = Mark.minus ∨ isDigit b then
      (Number.read (b :: r)).map fun
        | (.integer n, s) => ⟨.integer n, s⟩
        | (.float x, s) => ⟨.float x, s⟩
    else if b = Mark.quote then (Text.read r).map fun (s, r) => ⟨.string s, r⟩
    else if b = Mark.openBracket then .ok ⟨.sequence, r⟩
    else if b = Mark.openBrace then .ok ⟨.map, r⟩
    else .error .expectedValue

/-- What was found took at least a byte. -/
theorem length_lt_of_found {bs : Bytes} {s : Scalar} (h : found bs = .ok s) :
    s.rest.length < bs.length := by
  have := length_skipSpace_le bs
  unfold found Except.map at h
  repeat' split at h
  all_goals
    grind [→ length_le_of_literal, → Number.length_lt_of_read, → Text.length_lt_of_read]

/-- Reads a value without parts, of a kind that `pick` accepts; a value of another kind is not the
one that is wanted. -/
def scalar (expected : Expected) (pick : Found → Option (Except Error α)) : Reader α where
  run bs :=
    match found bs with
    | .error e => .error e
    | .ok s =>
      match pick s.found with
      | some (.ok x) => .ok (x, s.rest)
      | some (.error e) => .error e
      | none => .error (.invalidType s.found expected)
  length_lt h := by
    repeat' split at h
    all_goals first
      | contradiction
      | simp only [Except.ok.injEq, Prod.mk.injEq] at h
        rename_i hs _ _ _
        exact h.2 ▸ length_lt_of_found hs

/-- A string. -/
def string : Reader String :=
  scalar .string fun
    | .string s => some (.ok s)
    | _ => none

/-- A boolean. -/
def boolean : Reader Bool :=
  scalar .boolean fun
    | .boolean b => some (.ok b)
    | _ => none

/-- A signed 64-bit integer. -/
def integer : Reader Int64 :=
  scalar .integer fun
    | .integer n =>
      some (if n ≤ Int64.maxValue.toInt then .ok (Int64.ofInt n) else .error (.integerOutOfRange n))
    | _ => none

/-- A 32-bit float: the one nearest to the number that is read. -/
def single : Reader Single :=
  scalar .single fun
    | .integer n => some (.ok (Binary.ofInt n))
    | .float x => some (.ok (x.convert .single))
    | _ => none

/-- Reads `null` or what the reader reads. -/
def runOptional (rd : Reader α) (bs : Bytes) : Except Error (Option α × Bytes) :=
  match skipSpace bs with
  | [] => (rd.run bs).map fun p => (some p.1, p.2)
  | b :: r =>
    if b = 0x6E then (literal restOfNull r).map (none, ·)
    else (rd.run bs).map fun p => (some p.1, p.2)

/-- A value that may be absent takes at least a byte. -/
theorem length_lt_of_runOptional {rd : Reader α} {bs r : Bytes} {x : Option α}
    (h : runOptional rd bs = .ok (x, r)) : r.length < bs.length := by
  have := length_skipSpace_le bs
  unfold runOptional Except.map at h
  repeat' split at h
  all_goals grind [→ length_le_of_literal, → rd.length_lt]

/-- A value that may be `null`. -/
def optional (rd : Reader α) : Reader (Option α) := ⟨runOptional rd, length_lt_of_runOptional⟩

/-! ### Arrays -/

/-- Reads elements until none follows or `limit` of them are read, given those read before in
reverse. Without a limit, or if fewer elements stand there, the rest is the closing bracket and what
follows it. -/
def elements (rd : Reader α) (limit : Option Nat) (acc : List α) (bs : Bytes) :
    Except Error (List α × Bytes) :=
  if limit = some 0 then .ok (acc.reverse, bs)
  else
    match _h : nextElement acc.isEmpty bs with
    | .error e => .error e
    | .ok (false, r) => .ok (acc.reverse, r)
    | .ok (true, r) =>
      match _h : rd.run r with
      | .error e => .error e
      | .ok (x, s) => elements rd (limit.map (· - 1)) (x :: acc) s
termination_by bs.length
decreasing_by
  have := length_le_of_nextElement ‹_›
  have := rd.length_lt _h
  omega

/-- The elements of an array leave no more than there was. -/
theorem length_le_of_elements {rd : Reader α} {limit : Option Nat} {acc xs : List α}
    {bs r : Bytes} (h : elements rd limit acc bs = .ok (xs, r)) : r.length ≤ bs.length := by
  fun_induction elements rd limit acc bs <;>
    grind [→ length_le_of_nextElement, → rd.length_lt]

/-- Reads the elements of an array and its closing bracket, and makes a value of them if they are as
many as are wanted. -/
def items (rd : Reader α) (limit : Option Nat) (make : List α → Except Error β) (bs : Bytes) :
    Except Error (β × Bytes) := do
  let (xs, r) ← elements rd limit [] bs
  let y ← make xs
  let r ← closeArray r
  .ok (y, r)

/-- An array takes at least a byte. -/
theorem length_lt_of_items {rd : Reader α} {limit : Option Nat} {make : List α → Except Error β}
    {bs r : Bytes} {y : β} (h : items rd limit make bs = .ok (y, r)) : r.length < bs.length := by
  simp only [items, bind, Except.bind] at h
  repeat' split at h
  all_goals grind [→ length_le_of_elements, → length_lt_of_closeArray]

/-- An array, of which `inner` reads the elements; absent if no further level may be entered. -/
def sequence (expected : Expected) (inner : Option (Reader α)) (limit : Option Nat)
    (make : List α → Except Error β) : Reader β where
  run bs :=
    match found bs with
    | .error e => .error e
    | .ok ⟨.sequence, r⟩ =>
      match inner with
      | none => .error .tooDeep
      | some rd => items rd limit make r
    | .ok s => .error (.invalidType s.found expected)
  length_lt h := by
    repeat' split at h
    all_goals grind [→ length_lt_of_found, → length_lt_of_items]

/-- An array of any length. -/
def list (inner : Option (Reader α)) : Reader (List α) := sequence .sequence inner none .ok

/-- An array of a fixed length. -/
def vector (n : Nat) (inner : Option (Reader α)) : Reader (Vector α n) :=
  sequence (.array n) inner (some n) fun xs =>
    if h : xs.length = n then .ok ⟨xs.toArray, by simpa using h⟩
    else .error (.invalidLength xs.length (.array n))

/-! ### Objects -/

end Reader

/-- What is done at each member of an object: from a state, a key and the text after the key, the
next state and the text after the member's value. -/
structure Member (σ : Type) where
  /-- The next state and the text after the value. -/
  run : σ → String → Bytes → Except Error (σ × Bytes)
  /-- Nothing is put back. -/
  length_le : ∀ {s t : σ} {k : String} {bs r : Bytes},
    run s k bs = .ok (t, r) → r.length ≤ bs.length

namespace Reader

variable {α β σ : Type}

/-- Goes through the members of an object, up to and including the closing brace. -/
def members (m : Member σ) (first : Bool) (s : σ) (bs : Bytes) : Except Error (σ × Bytes) :=
  match _h : nextKey first bs with
  | .error e => .error e
  | .ok (false, r) => .ok (s, r)
  | .ok (true, r) =>
    match _h : Text.read r with
    | .error e => .error e
    | .ok (k, r) =>
      match _h : m.run s k r with
      | .error e => .error e
      | .ok (t, r) => members m false t r
termination_by bs.length
decreasing_by
  have := length_lt_of_nextKey ‹_›
  have := Text.length_lt_of_read ‹_›
  have := m.length_le _h
  omega

/-- The members of an object take at least the closing brace. -/
theorem length_lt_of_members {m : Member σ} {first : Bool} {s t : σ} {bs r : Bytes}
    (h : members m first s bs = .ok (t, r)) : r.length < bs.length := by
  fun_induction members m first s bs <;>
    grind [→ length_lt_of_nextKey, → Text.length_lt_of_read, → m.length_le]

/-- Collects keys and values in reverse. -/
def entry (rd : Reader α) : Member (List (String × α)) where
  run acc k bs := do
    let r ← colon bs
    let (x, r) ← rd.run r
    .ok ((k, x) :: acc, r)
  length_le h := by
    simp only [bind, Except.bind] at h
    repeat' split at h
    all_goals grind [→ length_lt_of_colon, → rd.length_lt]

/-- The keys and values of an object in order, from after its opening brace. -/
def entries (rd : Reader α) (bs : Bytes) : Except Error (List (String × α) × Bytes) :=
  (members (entry rd) true [] bs).map fun p => (p.1.reverse, p.2)

/-- An object with any keys takes at least a byte. -/
theorem length_lt_of_entries {rd : Reader α} {bs r : Bytes} {xs : List (String × α)}
    (h : entries rd bs = .ok (xs, r)) : r.length < bs.length := by
  unfold entries Except.map at h
  split at h
  all_goals grind [→ length_lt_of_members]

/-- An object with any keys, of which `inner` reads the values; absent if no further level may be
entered. -/
def pairs (inner : Option (Reader α)) : Reader (List (String × α)) where
  run bs :=
    match found bs with
    | .error e => .error e
    | .ok ⟨.map, r⟩ =>
      match inner with
      | none => .error .tooDeep
      | some rd => entries rd r
    | .ok s => .error (.invalidType s.found .map)
  length_lt h := by
    repeat' split at h
    all_goals grind [→ length_lt_of_found, → length_lt_of_entries]

/-- What is made with one level less; absent if there is none. -/
def below (f : Nat → α) : Nat → Option α
  | 0 => none
  | n + 1 => some (f n)

/-! ### Whole texts -/

/-- Reads a text that holds one value and nothing else but white space. -/
def all (rd : Reader α) (bs : Bytes) : Except Error α := do
  let (x, r) ← rd.run bs
  if skipSpace r = [] then .ok x else .error .trailingCharacters

end Reader

end GltfAsset.Json
