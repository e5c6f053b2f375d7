import GltfAsset.Proofs.Json.Floats
import GltfAsset.Proofs.Json.Records

/-!
# Values are read in the same way everywhere

Strings, booleans and integers are read back wherever their text stands. Whatever is read of the
text of a float or of a free value, be it the value, another one, or that a number in it is too
large, is read of it wherever the text stands (`Codec.steady_single`, `Value.steady`).
-/

namespace GltfAsset

open Json

namespace Json

namespace Codec

/-- A string is read back. -/
theorem rereads_string (s : String) : Rereads string.reader (string.toJson s) (.ok s) := by
  simp only [string, Reader.string]
  exact rereads_scalar (fun l m rest _ => found_string s l m rest) rfl

/-- A string is read in the same way wherever it stands. -/
theorem steady_string (s : String) : string.Steady s := (rereads_string s).steady (starts_string s)

/-- A boolean is read back. -/
theorem rereads_boolean (b : Bool) : Rereads boolean.reader (boolean.toJson b) (.ok b) := by
  simp only [boolean, Reader.boolean]
  exact rereads_scalar (fun l m rest _ => found_boolean b l m rest) rfl

/-- A boolean is read in the same way wherever it stands. -/
theorem steady_boolean (b : Bool) : boolean.Steady b :=
  (rereads_boolean b).steady (starts_boolean b)

/-- Every integer is found where it is written. -/
theorem found_integer (n : Int64) :
    Reader.found (Number.ofInt n.toInt) = .ok ⟨.integer n.toInt, []⟩ := by
  have hmin : Int64.minValue.toInt ≤ n.toInt := by
    simpa using n.le_toInt
  have hmax : n.toInt < Number.limit := by
    have := n.toInt_lt
    have : Number.limit = 18446744073709551616 := by decide
    omega
  exact found_of_read (Number.read_ofInt hmin hmax)

/-- An integer is read back. -/
theorem rereads_integer (n : Int64) : Rereads integer.reader (integer.toJson n) (.ok n) := by
  have hmax : n.toInt ≤ Int64.maxValue.toInt := by
    have := n.toInt_lt
    have : Int64.maxValue.toInt = 9223372036854775807 := by decide
    omega
  simp only [integer, Reader.integer]
  refine rereads_scalar (fun l m rest hrest => found_numeral (found_integer n) l m hrest) ?_
  simp only [Option.getD_some, if_pos hmax, Int64.ofInt_toInt]

/-- An integer is read in the same way wherever it stands. -/
theorem steady_integer (n : Int64) : integer.Steady n :=
  (rereads_integer n).steady (starts_numeral (found_integer n) (.inl ⟨_, rfl⟩))

end Codec

/-- What is found where a number is written is its value. -/
theorem found_text (n : Numeral) {rest : Bytes} (hrest : Ends rest) :
    Reader.found (n.text ++ rest) = n.value.map fun x => ⟨foundNumber x, rest⟩ := by
  have hread := Number.read_numeral n hrest
  obtain ⟨b, t, ht, hb⟩ := Number.exists_numeral_text n
  rw [ht, List.cons_append] at hread ⊢
  rw [found_of_sign_or_digit hb, hread]
  cases n.value <;> rfl

/-- A written number starts with no space, no closing bracket and no null. -/
theorem starts_text (n : Numeral) : Starts (.numeral n.text) := by
  intro l m rest
  obtain ⟨b, t, ht, hb⟩ := Number.exists_numeral_text n
  obtain ⟨hspace, hnull, -, -, hbracket⟩ := ne_of_sign_or_digit hb
  rw [write, ht]
  exact ⟨b, t ++ rest, skipSpace_of_not_space hspace, hbracket, fun h => absurd h hnull⟩

/-- Where a number is written, a value without parts is made of it or refused. -/
theorem rereads_scalar_text {α : Type} (expected : Expected)
    (pick : Found → Option (Except Error α)) (n : Numeral) :
    Rereads (fun _ => Reader.scalar expected pick) (.numeral n.text) (n.value >>= fun x =>
      (pick (foundNumber x)).getD (.error (.invalidType (foundNumber x) expected))) := by
  refine ⟨fun {l m k bs rest} _ hrest hbs => ?_⟩
  rw [write] at hbs
  simp only [Reader.scalar, found_congr hbs, found_text n hrest]
  cases n.value with
  | error e => rfl
  | ok x =>
    simp only [map_ok, ok_bind]
    cases pick (foundNumber x) with
    | none => rfl
    | some y => cases y <;> rfl

/-- A float is read in the same way wherever it stands. -/
theorem Codec.steady_single (x : Single) : Codec.single.Steady x := by
  by_cases hx : x.IsFinite
  · obtain ⟨n, hn, -⟩ := FloatStyle.exists_numeral singleStyle rfl (by decide) hx
    have hj : Codec.single.toJson x = .numeral n.text := by
      rw [← hn]
      exact if_pos hx
    rw [Codec.Steady, hj]
    simp only [Codec.single, Reader.single]
    exact (rereads_scalar_text _ _ n).steady (starts_text n)
  · have hj : Codec.single.toJson x = .null := if_neg hx
    rw [Codec.Steady, hj]
    simp only [Codec.single, Reader.single]
    exact (rereads_scalar (fun l m rest _ => found_null l m rest) rfl).steady starts_null

end Json

namespace Value

/-- The value of a number. -/
def ofNumber : Number → Value
  | .integer n => .integer n
  | .float x => .float x

/-- A written number is read as its value. -/
theorem rereads_text (n : Numeral) :
    Rereads reader (.numeral n.text) (n.value.map ofNumber) := by
  refine ⟨fun {l m k bs rest} _ hrest hbs => ?_⟩
  rw [write] at hbs
  rw [reader_eq]
  simp only [readerOf, found_congr hbs, found_text n hrest]
  cases n.value with
  | error e => rfl
  | ok x => cases x <;> rfl

mutual

/-- A value that can be held is read in the same way wherever it stands. -/
theorem steady : ∀ {v : Value}, v.WellFormed → Steady reader v.toJson
  | .null, h | .boolean _, h | .integer _, h | .string _, h =>
    (returns h (by simp [floats])).steady
  | .float x, h => by
    rw [WellFormed] at h
    obtain ⟨n, hn, -⟩ := FloatStyle.exists_numeral doubleStyle rfl (by decide) h
    rw [toJson, ofFloat, if_pos h, hn]
    exact (rereads_text n).steady (starts_text n)
  | .array vs, h => by
    rw [WellFormed] at h
    have hstarts : Starts (array vs).toJson := by
      rw [toJson]
      exact starts_array _
    exact (rereads_array (steady_items h)).steady hstarts
  | .object ms, h => by
    rw [WellFormed] at h
    have hstarts : Starts (object ms).toJson := by
      rw [toJson]
      exact starts_object _
    exact (rereads_object (steady_members h.2)).steady hstarts

/-- The items of an array are read in the same way wherever they stand. -/
theorem steady_items : ∀ {vs : List Value}, WellFormedItems vs →
    ∀ v ∈ vs, Steady reader v.toJson
  | [], _ => by simp
  | v :: vs, h => by
    rw [WellFormedItems] at h
    exact List.forall_mem_cons.mpr ⟨steady h.1, steady_items h.2⟩

/-- The values of an object are read in the same way wherever they stand. -/
theorem steady_members : ∀ {ms : List (String × Value)}, WellFormedMembers ms →
    ∀ m ∈ ms, Steady reader m.2.toJson
  | [], _ => by simp
  | (k, v) :: ms, h => by
    rw [WellFormedMembers] at h
    exact List.forall_mem_cons.mpr ⟨steady h.1, steady_members h.2⟩

end

end Value

end GltfAsset
