import GltfAsset.Check.Repetition
import GltfAsset.Check.Violation

/-!
# Rules

A rule is a proposition about one field of an entity that can be decided, with what is said if it
does not hold. What an entity has to satisfy is a list of rules; its fault is the first of them
that does not hold, so there is none exactly if all rules hold.
-/

namespace GltfAsset.Check

/-- A rule for one field. -/
structure Rule where
  /-- What has to hold. -/
  holds : Prop
  /-- How it is decided. -/
  decidable : Decidable holds
  /-- What is said if it does not hold. -/
  fault : Fault

instance (r : Rule) : Decidable r.holds := r.decidable

namespace Rule

/-- The fault of what is ruled. -/
def fault? (r : Rule) : Option Fault := if r.holds then none else some r.fault

/-- The first fault under a list of rules. -/
def firstFault? (rs : List Rule) : Option Fault := rs.findSome? fault?

/-- A rule finds no fault if it holds. -/
theorem fault?_eq_none_iff {r : Rule} : r.fault? = none ↔ r.holds := by
  unfold fault?
  split <;> simp_all

/-- There is no first fault if all rules hold. -/
theorem firstFault?_eq_none_iff {rs : List Rule} :
    firstFault? rs = none ↔ ∀ r ∈ rs, r.holds := by
  simp [firstFault?, fault?_eq_none_iff]

/-- The rule that a proposition holds. -/
def need (p : Prop) [d : Decidable p] (field : Field) (reason : Reason) : Rule :=
  ⟨p, d, field, reason⟩

/-- The same rule for an entity that is reached by the given way. -/
def within (way : Field) (r : Rule) : Rule :=
  { r with fault := { r.fault with field := way ++ r.fault.field } }

end Rule

/-- Whether an index names one of `n` entities. -/
def InRange (i : Int64) (n : Nat) : Prop := 0 ≤ i.toInt ∧ i.toInt < n

instance (i : Int64) (n : Nat) : Decidable (InRange i n) :=
  inferInstanceAs (Decidable (_ ∧ _))

/-- The element that an index names, if there is one. -/
def lookup? {α : Type} (xs : Array α) (i : Int64) : Option α :=
  if InRange i xs.size then xs[i.toInt.toNat]? else none

namespace Rule

/-- An index names one of `n` entities. -/
def index (field : Field) (i : Int64) (n : Nat) : Rule :=
  need (InRange i n) field (.indexOutOfRange i n)

/-- The indices in a list name distinct ones of `n` entities. -/
def indices (field : Field) (is : List Int64) (n : Nat) : List Rule :=
  (markRepeated is).zipIdx.flatMap fun ((i, again), k) =>
    [index (field ++ [.element k]) i n,
      need (again = false) (field ++ [.element k]) (.repeatedIndex i)]

/-- An integer is in a range. -/
def integer (p : Int → Prop) [DecidablePred p] (field : Field) (n : Int64) : Rule :=
  need (p n.toInt) field (.integerOutOfRange n)

/-- An integer is not negative. -/
def nonNegative (field : Field) (n : Int64) : Rule := integer (0 ≤ ·) field n

/-- An integer is positive. -/
def atLeastOne (field : Field) (n : Int64) : Rule := integer (1 ≤ ·) field n

/-- A float is in a range. -/
def float (p : Single → Prop) [DecidablePred p] (field : Field) (x : Single) : Rule :=
  need (p x) field (.floatOutOfRange x)

/-- A float is from zero to one. -/
def unitInterval (field : Field) (x : Single) : Rule := float (fun x => 0 ≤ x ∧ x ≤ 1) field x

/-- A float is greater than zero. -/
def positive (field : Field) (x : Single) : Rule := float (0 < ·) field x

/-- A number is a code of the given enumeration. -/
def coded (α : Type) [Coded α] (field : Field) (n : Int64) : Rule :=
  need (Coded.ofCode? α n).isSome field (.invalidCode n)

/-- A number is zero, which leaves the choice open, or a code of the given enumeration. -/
def codedOrZero (α : Type) [Coded α] (field : Field) (n : Int64) : Rule :=
  need (n = 0 ∨ (Coded.ofCode? α n).isSome) field (.invalidCode n)

/-- A word is a name of the given enumeration. -/
def named (α : Type) [Named α] (field : Field) (s : String) : Rule :=
  need (Named.ofName? α s).isSome field (.invalidText s)

/-- A list has elements. -/
def nonempty {α : Type} (field : Field) (xs : List α) : Rule :=
  need (xs.isEmpty = false) field .empty

/-- The rules for a member that may be absent; there are none if it is. -/
def ifGiven {α : Type} (x : Option α) (rules : α → List Rule) : List Rule := x.elim [] rules

/-- The rules for the elements of a list, one element after the other. -/
def each {α : Type} (field : Field) (xs : List α) (rules : α → List Rule) : List Rule :=
  xs.zipIdx.flatMap fun (x, k) => (rules x).map (within (field ++ [.element k]))

end Rule

end GltfAsset.Check
