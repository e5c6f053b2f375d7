import Mathlib.Data.List.Pairwise
import GltfAsset.Proofs.Document.Leaves
import GltfAsset.Proofs.Json.Image

/-!
# Induction over codecs

The codec of documents is put together of those of strings, booleans, numbers, free values and
attributes, by arrays and by records. A property of codecs that the first ones have and that passes
to arrays and records is one of the codec of documents (`Document.lifted`), so it is proved by an
induction whose cases are the fields of `Lifts`.

Of a record type, `Schema.Lawful` says what such a proof may rely on: the members are parts of the
records that do not overlap (`Part`), and a record is what comes out when all its parts are put into
the record without members (`Members`). Each of the record types is shown to be lawful once.
-/

namespace GltfAsset

open Json

/-- The leaf is one that a record may have before any member is read. -/
def Leaf.isInitial : Leaf → Bool
  | single x => x = 0
  | free _ => false
  | attributes as => as.isEmpty

namespace Json

/-- A property of codecs. -/
abbrev CodecProperty : Type 1 := (α : Type) → [Leaves α] → Codec α → Prop

variable {P Q : CodecProperty} {R α β : Type} {name : String} {c : Codec α} {look : R → β}

/-! ## Members -/

namespace Field

/-- Whatever is read as the member, to put it in leaves the records as they are where `look`
looks. -/
def Spares (f : Field R) (look : R → β) : Prop :=
  ∀ n, (f.reader n).Yields fun set => ∀ r, look (set r) = look r

/-- A required member changes what it puts in. -/
@[simp ↓] theorem spares_always {get : R → α} {set : α → R → R}
    (h : ∀ x r, look (set x r) = look r) : (always name c get set).Spares look :=
  fun _ => Reader.Yields.map fun _ x _ _ => h x

/-- A member that may be absent changes what it puts in. -/
@[simp ↓] theorem spares_optional {get : R → Option α} {set : Option α → R → R}
    (h : ∀ x r, look (set x r) = look r) : (optional name c get set).Spares look :=
  fun _ => Reader.Yields.map fun _ x _ _ => h x

/-- A list changes what it puts in. -/
@[simp ↓] theorem spares_many {get : R → List α} {set : List α → R → R}
    (h : ∀ x r, look (set x r) = look r) : (many name c get set).Spares look :=
  fun _ => Reader.Yields.map fun _ x _ _ => h x

/-- A collection changes what it puts in. -/
@[simp ↓] theorem spares_collection {get : R → Array α} {set : Array α → R → R}
    (h : ∀ x r, look (set x r) = look r) : (collection name c get set).Spares look :=
  spares_many fun x r => h x.toArray r

/-- To put in one of the members leaves the other one as it is written. -/
structure Apart (f g : Field R) : Prop where
  /-- The first one spares the second one. -/
  left : f.Spares g.toJson
  /-- The second one spares the first one. -/
  right : g.Spares f.toJson

instance : Std.Symm (Apart (R := R)) := ⟨fun _ _ h => ⟨h.right, h.left⟩⟩

variable {r : R}

/-- What is written of a required member. -/
@[simp ↓] theorem toJson_always {get : R → α} {set : α → R → R} :
    (always name c get set).toJson r = some (c.toJson (get r)) := rfl

/-- What is written of a member that may be absent. -/
@[simp ↓] theorem toJson_optional {get : R → Option α} {set : Option α → R → R} :
    (optional name c get set).toJson r = (get r).map c.toJson := rfl

/-- What is written of a list. -/
@[simp ↓] theorem toJson_many {get : R → List α} {set : List α → R → R} :
    (many name c get set).toJson r =
      if (get r).isEmpty then none else some (c.list.toJson (get r)) := rfl

/-- What is written of a collection. -/
@[simp ↓] theorem toJson_collection {get : R → Array α} {set : Array α → R → R} :
    (collection name c get set).toJson r =
      if (get r).toList.isEmpty then none else some (c.list.toJson (get r).toList) := rfl

end Field

/-! ## Records -/

/-- A part of the records, and how it is put in. The members `fs` have nothing to do with it. -/
@[mk_iff]
structure Part [Leaves R] [Leaves β] (get : R → β) (set : β → R → R) (fs : List (Field R)) :
    Prop where
  /-- What was put in is there. -/
  get_set : ∀ x r, get (set x r) = x
  /-- To put in what is there changes nothing. -/
  set_get : ∀ r, set (get r) r = r
  /-- The leaves of the part are leaves of the record. -/
  leaves_get : ∀ p r, AllLeaves p r → AllLeaves p (get r)
  /-- The leaves after something is put in are its leaves and those of before. -/
  leaves_set : ∀ p x r, AllLeaves p x → AllLeaves p r → AllLeaves p (set x r)
  /-- The part is left as it is by the members. -/
  spared : ∀ f ∈ fs, f.Spares get
  /-- The members are written as before. -/
  toJson_set : ∀ f ∈ fs, ∀ x r, f.toJson (set x r) = f.toJson r

attribute [simp] part_iff

/-- A member of a record whose codec has the property, or that is a free value. It is copied from
one record into another one by `copy`, and the members `fs` have nothing to do with it. -/
inductive Field.Made (P : CodecProperty) [Leaves R] (fs : List (Field R)) :
    Field R → (R → R → R) → Prop
  /-- A member that is always there. -/
  | always {α : Type} [Leaves α] {name : String} {c : Codec α} {get : R → α} {set : α → R → R}
      (codec : P α c) (part : Part get set fs) :
      Made P fs (.always name c get set) fun r => set (get r)
  /-- A member that may be absent. -/
  | optional {α : Type} [Leaves α] {name : String} {c : Codec α} {get : R → Option α}
      {set : Option α → R → R} (codec : P α c) (part : Part get set fs) :
      Made P fs (.optional name c get set) fun r => set (get r)
  /-- A free value that may be absent. -/
  | free {name : String} {get : R → Option Value} {set : Option Value → R → R}
      (part : Part get set fs) :
      Made P fs (.optional name .value get set) fun r => set (get r)
  /-- A list that is absent when it is empty. -/
  | many {α : Type} [Leaves α] {name : String} {c : Codec α} {get : R → List α}
      {set : List α → R → R} (codec : P α c) (part : Part get set fs) :
      Made P fs (.many name c get set) fun r => set (get r)

/-- The leaves after something is put in can only be others in its own. -/
theorem Part.allLeaves_set_iff [Leaves R] [Leaves β] {get : R → β} {set : β → R → R}
    {fs : List (Field R)} (part : Part get set fs) {p : Leaf → Prop} {x : β} {r : R}
    (hr : AllLeaves p r) : AllLeaves p (set x r) ↔ AllLeaves p x := by
  constructor
  · intro h
    have hget := part.leaves_get p _ h
    rwa [part.get_set] at hget
  · exact fun hx => part.leaves_set p x r hx hr

section

variable [Leaves R] {f g : Field R} {fs : List (Field R)} {copy : R → R → R} {r x : R}

/-- A member is written of a part of the records, and this part is copied. -/
theorem Field.Made.exists_part (h : f.Made P fs copy) :
    ∃ (β : Type) (_ : Leaves β) (get : R → β) (set : β → R → R), Part get set fs ∧
      (copy = fun r => set (get r)) ∧ ∀ r x, get r = get x → f.toJson r = f.toJson x := by
  cases h with
  | always _ part =>
    exact ⟨_, _, _, _, part, rfl, fun r x h => by simp only [toJson_always, h]⟩
  | optional _ part =>
    exact ⟨_, _, _, _, part, rfl, fun r x h => by simp only [toJson_optional, h]⟩
  | free part => exact ⟨_, _, _, _, part, rfl, fun r x h => by simp only [toJson_optional, h]⟩
  | many _ part => exact ⟨_, _, _, _, part, rfl, fun r x h => by simp only [toJson_many, h]⟩

/-- The leaves after a member was copied are leaves of one of the records. -/
theorem Field.Made.leaves_copy {p : Leaf → Prop} (h : f.Made P fs copy) (hr : AllLeaves p r)
    (hx : AllLeaves p x) : AllLeaves p (copy r x) := by
  obtain ⟨_, _, _, _, part, rfl, -⟩ := h.exists_part
  exact part.leaves_set p _ x (part.leaves_get p r hr) hx

/-- The members after the one that was copied are written as before. -/
theorem Field.Made.toJson_copy (h : f.Made P fs copy) (hg : g ∈ fs) (r x : R) :
    g.toJson (copy r x) = g.toJson x := by
  obtain ⟨_, _, _, _, part, rfl, -⟩ := h.exists_part
  exact part.toJson_set g hg _ x

/-- What is read as the member leaves those after it as they are written. -/
theorem Field.Made.spares (h : f.Made P fs copy) (hg : g ∈ fs) : f.Spares g.toJson := by
  cases h with
  | always _ part => exact Field.spares_always (part.toJson_set g hg)
  | optional _ part => exact Field.spares_optional (part.toJson_set g hg)
  | free part => exact Field.spares_optional (part.toJson_set g hg)
  | many _ part => exact Field.spares_many (part.toJson_set g hg)

/-- A member whose codec has a property has a codec with any weaker one. -/
theorem Field.Made.imp (h : f.Made P fs copy)
    (hPQ : ∀ {α : Type} [Leaves α] {c : Codec α}, P α c → Q α c) : f.Made Q fs copy := by
  cases h with
  | always codec part => exact .always (hPQ codec) part
  | optional codec part => exact .optional (hPQ codec) part
  | free part => exact .free part
  | many codec part => exact .many (hPQ codec) part

end

/-- Copying the given members of `r` into a record, one after the other, makes it `r`. -/
inductive Members (P : CodecProperty) [Leaves R] (r : R) : List (Field R) → R → Prop
  /-- Nothing is left to be copied. -/
  | nil : Members P r [] r
  /-- The first member is copied, and then the others. -/
  | cons {f : Field R} {fs : List (Field R)} {copy : R → R → R} {x : R} (made : f.Made P fs copy)
      (members : Members P r fs (copy r x)) : Members P r (f :: fs) x

section

variable [Leaves R] {f g : Field R} {fs : List (Field R)} {r x : R}

/-- What holds of all members that are made like this holds of each. -/
theorem Members.forall_mem {p : Field R → Prop} (h : Members P r fs x)
    (hp : ∀ {f fs copy}, f.Made P fs copy → p f) : ∀ f ∈ fs, p f := by
  induction h with
  | nil => exact fun _ hf => absurd hf List.not_mem_nil
  | cons made _ ih => exact List.forall_mem_cons.mpr ⟨hp made, ih⟩

/-- Each member leaves the others as they are written. -/
theorem Members.pairwise_apart (h : Members P r fs x) : fs.Pairwise Field.Apart := by
  induction h with
  | nil => exact .nil
  | cons made _ ih =>
    refine List.pairwise_cons.mpr ⟨fun g hg => ⟨made.spares hg, fun n => ?_⟩, ih⟩
    -- The first member is written of a part that the others leave as it is.
    obtain ⟨_, _, _, _, part, -, htoJson⟩ := made.exists_part
    exact (part.spared g hg n).imp fun set hset r => htoJson _ r (hset r)

/-- Members whose codecs have a property have codecs with any weaker one. -/
theorem Members.imp (h : Members P r fs x)
    (hPQ : ∀ {α : Type} [Leaves α] {c : Codec α}, P α c → Q α c) : Members Q r fs x := by
  induction h with
  | nil => exact .nil
  | cons made _ ih => exact .cons (made.imp hPQ) ih

end

/-- A record type whose members have codecs with the property. -/
structure Schema.Lawful (P : CodecProperty) [Leaves R] (s : Schema R) : Prop where
  /-- The names are distinct. -/
  names : (s.fields.map (·.name)).Nodup
  /-- The leaves before anything is read. -/
  initial : (leaves s.initial).all Leaf.isInitial
  /-- Before anything is read, only required members are written. -/
  absent : s.fields.all fun f => f.required || (f.toJson s.initial).isNone
  /-- A record has no parts but its members. -/
  members : ∀ r, Members P r s.fields s.initial

namespace Schema.Lawful

variable [Leaves R] {s : Schema R} {f g : Field R}

/-- What holds of all members that are made like this holds of each of the record type. -/
theorem forall_mem {p : Field R → Prop} (hs : s.Lawful P)
    (hp : ∀ {f fs copy}, f.Made P fs copy → p f) : ∀ f ∈ s.fields, p f :=
  (hs.members s.initial).forall_mem hp

/-- What is read as a member leaves the others as they are written. -/
theorem spares (hs : s.Lawful P) (hf : f ∈ s.fields) (hg : g ∈ s.fields) (hne : f ≠ g) :
    f.Spares g.toJson :=
  ((hs.members s.initial).pairwise_apart.forall hf hg hne).left

/-- Before anything is read, a member that is not required is not written. -/
theorem toJson_initial (hs : s.Lawful P) (hf : f ∈ s.fields) :
    f.required = true ∨ f.toJson s.initial = none := by
  have habsent := List.all_eq_true.mp hs.absent f hf
  rwa [Bool.or_eq_true, Option.isNone_iff_eq_none] at habsent

/-- What holds of the initial leaves holds of all leaves before anything is read. -/
theorem allLeaves_initial {p : Leaf → Prop} (hs : s.Lawful P) (hsingle : p (.single 0))
    (hattributes : p (.attributes [])) : AllLeaves p s.initial := by
  intro leaf hleaf
  have hinitial := List.all_eq_true.mp hs.initial leaf hleaf
  cases leaf with
  | single x => exact of_decide_eq_true hinitial ▸ hsingle
  | free v => contradiction
  | attributes as => exact List.isEmpty_iff.mp hinitial ▸ hattributes

/-- A type that is lawful for a property is lawful for any weaker one. -/
theorem imp (hs : s.Lawful P) (hPQ : ∀ {α : Type} [Leaves α] {c : Codec α}, P α c → Q α c) :
    s.Lawful Q where
  names := hs.names
  initial := hs.initial
  absent := hs.absent
  members r := (hs.members r).imp hPQ

end Schema.Lawful

/-! ## Properties that are passed on -/

/-- A property of codecs that is passed on from the parts to the whole. -/
structure Lifts (P : CodecProperty) : Prop where
  /-- Strings. -/
  string : P _ Codec.string
  /-- Booleans. -/
  boolean : P _ Codec.boolean
  /-- Integers. -/
  integer : P _ Codec.integer
  /-- 32-bit floats. -/
  single : P _ Codec.single
  /-- Vertex attributes. -/
  attributes : P _ Attributes.codec
  /-- Arrays of any length. -/
  list : ∀ {α : Type} [Leaves α] {c : Codec α}, P α c → P (List α) c.list
  /-- Arrays of a fixed length. -/
  vector : ∀ {α : Type} [Leaves α] {c : Codec α} {k : Nat}, P α c → P (Vector α k) (c.vector k)
  /-- Records. -/
  record : ∀ {R : Type} [Leaves R] {s : Schema R}, s.Lawful P → P R s.codec

end Json

/-! ## Documents -/

variable {P : CodecProperty}

/-- A property that is passed on is one of buffers. -/
theorem Buffer.lifted (h : Lifts P) : P _ codec := h.record <| by
  refine ⟨by decide, rfl, rfl, fun _ =>
    .cons (.optional h.string ?_) <| .cons (.always h.integer ?_) <|
    .cons (.optional h.string ?_) <| .cons (.free ?_) <| .cons (.free ?_) .nil⟩
  all_goals simp +contextual [↓List.forall_mem_cons]

/-- A property that is passed on is one of buffer views. -/
theorem BufferView.lifted (h : Lifts P) : P _ codec := h.record <| by
  refine ⟨by decide, rfl, rfl, fun _ =>
    .cons (.always h.integer ?_) <| .cons (.optional h.integer ?_) <|
    .cons (.always h.integer ?_) <| .cons (.optional h.integer ?_) <|
    .cons (.optional h.integer ?_) <| .cons (.optional h.string ?_) <| .cons (.free ?_) <|
    .cons (.free ?_) .nil⟩
  all_goals simp +contextual [↓List.forall_mem_cons]

/-- A property that is passed on is one of the indices of sparse overlays. -/
theorem SparseIndices.lifted (h : Lifts P) : P _ codec := h.record <| by
  refine ⟨by decide, rfl, rfl, fun _ =>
    .cons (.always h.integer ?_) <| .cons (.optional h.integer ?_) <|
    .cons (.always h.integer ?_) <| .cons (.free ?_) <| .cons (.free ?_) .nil⟩
  all_goals simp +contextual [↓List.forall_mem_cons]

/-- A property that is passed on is one of the values of sparse overlays. -/
theorem SparseValues.lifted (h : Lifts P) : P _ codec := h.record <| by
  refine ⟨by decide, rfl, rfl, fun _ =>
    .cons (.always h.integer ?_) <| .cons (.optional h.integer ?_) <| .cons (.free ?_) <|
    .cons (.free ?_) .nil⟩
  all_goals simp +contextual [↓List.forall_mem_cons]

/-- A property that is passed on is one of sparse overlays. -/
theorem Sparse.lifted (h : Lifts P) : P _ codec := h.record <| by
  refine ⟨by decide, rfl, rfl, fun _ =>
    .cons (.always h.integer ?_) <| .cons (.always (SparseIndices.lifted h) ?_) <|
    .cons (.always (SparseValues.lifted h) ?_) <| .cons (.free ?_) <| .cons (.free ?_) .nil⟩
  all_goals simp +contextual [↓List.forall_mem_cons]

/-- A property that is passed on is one of accessors. -/
theorem Accessor.lifted (h : Lifts P) : P _ codec := h.record <| by
  refine ⟨by decide, rfl, rfl, fun _ =>
    .cons (.optional h.integer ?_) <| .cons (.optional h.integer ?_) <|
    .cons (.always h.integer ?_) <| .cons (.optional h.boolean ?_) <|
    .cons (.always h.integer ?_) <| .cons (.always h.string ?_) <|
    .cons (.optional (h.list h.single) ?_) <| .cons (.optional (h.list h.single) ?_) <|
    .cons (.optional (Sparse.lifted h) ?_) <| .cons (.optional h.string ?_) <| .cons (.free ?_) <|
    .cons (.free ?_) .nil⟩
  all_goals simp +contextual [↓List.forall_mem_cons]

/-- A property that is passed on is one of the targets of channels. -/
theorem Target.lifted (h : Lifts P) : P _ codec := h.record <| by
  refine ⟨by decide, rfl, rfl, fun _ =>
    .cons (.optional h.integer ?_) <| .cons (.always h.string ?_) <| .cons (.free ?_) <|
    .cons (.free ?_) .nil⟩
  all_goals simp +contextual [↓List.forall_mem_cons]

/-- A property that is passed on is one of channels. -/
theorem Channel.lifted (h : Lifts P) : P _ codec := h.record <| by
  refine ⟨by decide, rfl, rfl, fun _ =>
    .cons (.always h.integer ?_) <| .cons (.always (Target.lifted h) ?_) <| .cons (.free ?_) <|
    .cons (.free ?_) .nil⟩
  all_goals simp +contextual [↓List.forall_mem_cons]

/-- A property that is passed on is one of the samplers of animations. -/
theorem AnimationSampler.lifted (h : Lifts P) : P _ codec := h.record <| by
  refine ⟨by decide, rfl, rfl, fun _ =>
    .cons (.always h.integer ?_) <| .cons (.optional h.string ?_) <| .cons (.always h.integer ?_) <|
    .cons (.free ?_) <| .cons (.free ?_) .nil⟩
  all_goals simp +contextual [↓List.forall_mem_cons]

/-- A property that is passed on is one of animations. -/
theorem Animation.lifted (h : Lifts P) : P _ codec := h.record <| by
  refine ⟨by decide, rfl, rfl, fun _ =>
    .cons (.always (h.list (Channel.lifted h)) ?_) <|
    .cons (.always (h.list (AnimationSampler.lifted h)) ?_) <| .cons (.optional h.string ?_) <|
    .cons (.free ?_) <| .cons (.free ?_) .nil⟩
  all_goals simp +contextual [↓List.forall_mem_cons]

/-- A property that is passed on is one of skins. -/
theorem Skin.lifted (h : Lifts P) : P _ codec := h.record <| by
  refine ⟨by decide, rfl, rfl, fun _ =>
    .cons (.optional h.integer ?_) <| .cons (.optional h.integer ?_) <|
    .cons (.always (h.list h.integer) ?_) <| .cons (.optional h.string ?_) <| .cons (.free ?_) <|
    .cons (.free ?_) .nil⟩
  all_goals simp +contextual [↓List.forall_mem_cons]

/-- A property that is passed on is one of orthographic projections. -/
theorem Orthographic.lifted (h : Lifts P) : P _ codec := h.record <| by
  refine ⟨by decide, rfl, rfl, fun _ =>
    .cons (.always h.single ?_) <| .cons (.always h.single ?_) <| .cons (.always h.single ?_) <|
    .cons (.always h.single ?_) <| .cons (.free ?_) <| .cons (.free ?_) .nil⟩
  all_goals simp +contextual [↓List.forall_mem_cons]

/-- A property that is passed on is one of perspective projections. -/
theorem Perspective.lifted (h : Lifts P) : P _ codec := h.record <| by
  refine ⟨by decide, rfl, rfl, fun _ =>
    .cons (.optional h.single ?_) <| .cons (.always h.single ?_) <| .cons (.optional h.single ?_) <|
    .cons (.always h.single ?_) <| .cons (.free ?_) <| .cons (.free ?_) .nil⟩
  all_goals simp +contextual [↓List.forall_mem_cons]

/-- A property that is passed on is one of cameras. -/
theorem Camera.lifted (h : Lifts P) : P _ codec := h.record <| by
  refine ⟨by decide, rfl, rfl, fun _ =>
    .cons (.optional (Orthographic.lifted h) ?_) <| .cons (.optional (Perspective.lifted h) ?_) <|
    .cons (.always h.string ?_) <| .cons (.optional h.string ?_) <| .cons (.free ?_) <|
    .cons (.free ?_) .nil⟩
  all_goals simp +contextual [↓List.forall_mem_cons]

/-- A property that is passed on is one of nodes. -/
theorem Node.lifted (h : Lifts P) : P _ codec := h.record <| by
  refine ⟨by decide, rfl, rfl, fun _ =>
    .cons (.optional h.integer ?_) <| .cons (.many h.integer ?_) <|
    .cons (.optional h.integer ?_) <| .cons (.optional (h.vector h.single) ?_) <|
    .cons (.optional h.integer ?_) <| .cons (.optional (h.vector h.single) ?_) <|
    .cons (.optional (h.vector h.single) ?_) <| .cons (.optional (h.vector h.single) ?_) <|
    .cons (.optional (h.list h.single) ?_) <| .cons (.optional h.string ?_) <| .cons (.free ?_) <|
    .cons (.free ?_) .nil⟩
  all_goals simp +contextual [↓List.forall_mem_cons]

/-- A property that is passed on is one of scenes. -/
theorem Scene.lifted (h : Lifts P) : P _ codec := h.record <| by
  refine ⟨by decide, rfl, rfl, fun _ =>
    .cons (.many h.integer ?_) <| .cons (.optional h.string ?_) <| .cons (.free ?_) <|
    .cons (.free ?_) .nil⟩
  all_goals simp +contextual [↓List.forall_mem_cons]

/-- The record type of primitives is lawful. -/
theorem Primitive.lawful (h : Lifts P) : schema.Lawful P := by
  refine ⟨by decide, rfl, rfl, fun _ =>
    .cons (.always h.attributes ?_) <| .cons (.optional h.integer ?_) <|
    .cons (.optional h.integer ?_) <| .cons (.optional h.integer ?_) <|
    .cons (.many h.attributes ?_) <| .cons (.free ?_) <| .cons (.free ?_) .nil⟩
  all_goals simp +contextual [↓List.forall_mem_cons]

/-- A property that is passed on is one of primitives. -/
theorem Primitive.lifted (h : Lifts P) : P _ codec := h.record (lawful h)

/-- The record type of meshes is lawful. -/
theorem Mesh.lawful (h : Lifts P) : schema.Lawful P := by
  refine ⟨by decide, rfl, rfl, fun _ =>
    .cons (.always (h.list (Primitive.lifted h)) ?_) <| .cons (.optional (h.list h.single) ?_) <|
    .cons (.optional h.string ?_) <| .cons (.free ?_) <| .cons (.free ?_) .nil⟩
  all_goals simp +contextual [↓List.forall_mem_cons]

/-- A property that is passed on is one of meshes. -/
theorem Mesh.lifted (h : Lifts P) : P _ codec := h.record (lawful h)

/-- A property that is passed on is one of images. -/
theorem Image.lifted (h : Lifts P) : P _ codec := h.record <| by
  refine ⟨by decide, rfl, rfl, fun _ =>
    .cons (.optional h.string ?_) <| .cons (.optional h.string ?_) <|
    .cons (.optional h.integer ?_) <| .cons (.optional h.string ?_) <| .cons (.free ?_) <|
    .cons (.free ?_) .nil⟩
  all_goals simp +contextual [↓List.forall_mem_cons]

/-- A property that is passed on is one of samplers. -/
theorem Sampler.lifted (h : Lifts P) : P _ codec := h.record <| by
  refine ⟨by decide, rfl, rfl, fun _ =>
    .cons (.optional h.integer ?_) <| .cons (.optional h.integer ?_) <|
    .cons (.optional h.integer ?_) <| .cons (.optional h.integer ?_) <|
    .cons (.optional h.string ?_) <| .cons (.free ?_) <| .cons (.free ?_) .nil⟩
  all_goals simp +contextual [↓List.forall_mem_cons]

/-- A property that is passed on is one of textures. -/
theorem Texture.lifted (h : Lifts P) : P _ codec := h.record <| by
  refine ⟨by decide, rfl, rfl, fun _ =>
    .cons (.optional h.integer ?_) <| .cons (.optional h.integer ?_) <|
    .cons (.optional h.string ?_) <| .cons (.free ?_) <| .cons (.free ?_) .nil⟩
  all_goals simp +contextual [↓List.forall_mem_cons]

/-- A property that is passed on is one of references to textures. -/
theorem TextureInfo.lifted (h : Lifts P) : P _ codec := h.record <| by
  refine ⟨by decide, rfl, rfl, fun _ =>
    .cons (.always h.integer ?_) <| .cons (.optional h.integer ?_) <| .cons (.free ?_) <|
    .cons (.free ?_) .nil⟩
  all_goals simp +contextual [↓List.forall_mem_cons]

/-- A property that is passed on is one of references to normal textures. -/
theorem NormalTextureInfo.lifted (h : Lifts P) : P _ codec := h.record <| by
  refine ⟨by decide, rfl, rfl, fun _ =>
    .cons (.always h.integer ?_) <| .cons (.optional h.integer ?_) <|
    .cons (.optional h.single ?_) <| .cons (.free ?_) <| .cons (.free ?_) .nil⟩
  all_goals simp +contextual [↓List.forall_mem_cons]

/-- A property that is passed on is one of references to occlusion textures. -/
theorem OcclusionTextureInfo.lifted (h : Lifts P) : P _ codec := h.record <| by
  refine ⟨by decide, rfl, rfl, fun _ =>
    .cons (.always h.integer ?_) <| .cons (.optional h.integer ?_) <|
    .cons (.optional h.single ?_) <| .cons (.free ?_) <| .cons (.free ?_) .nil⟩
  all_goals simp +contextual [↓List.forall_mem_cons]

/-- A property that is passed on is one of the metallic-roughness models of materials. -/
theorem MetallicRoughness.lifted (h : Lifts P) : P _ codec := h.record <| by
  refine ⟨by decide, rfl, rfl, fun _ =>
    .cons (.optional (h.vector h.single) ?_) <| .cons (.optional (TextureInfo.lifted h) ?_) <|
    .cons (.optional h.single ?_) <| .cons (.optional h.single ?_) <|
    .cons (.optional (TextureInfo.lifted h) ?_) <| .cons (.free ?_) <| .cons (.free ?_) .nil⟩
  all_goals simp +contextual [↓List.forall_mem_cons]

/-- A property that is passed on is one of materials. -/
theorem Material.lifted (h : Lifts P) : P _ codec := h.record <| by
  refine ⟨by decide, rfl, rfl, fun _ =>
    .cons (.optional (MetallicRoughness.lifted h) ?_) <|
    .cons (.optional (NormalTextureInfo.lifted h) ?_) <|
    .cons (.optional (OcclusionTextureInfo.lifted h) ?_) <|
    .cons (.optional (TextureInfo.lifted h) ?_) <| .cons (.optional (h.vector h.single) ?_) <|
    .cons (.optional h.string ?_) <| .cons (.optional h.single ?_) <|
    .cons (.optional h.boolean ?_) <| .cons (.optional h.string ?_) <| .cons (.free ?_) <|
    .cons (.free ?_) .nil⟩
  all_goals simp +contextual [↓List.forall_mem_cons]

/-- A property that is passed on is one of asset data. -/
theorem Asset.lifted (h : Lifts P) : P _ codec := h.record <| by
  refine ⟨by decide, rfl, rfl, fun _ =>
    .cons (.optional h.string ?_) <| .cons (.optional h.string ?_) <| .cons (.always h.string ?_) <|
    .cons (.optional h.string ?_) <| .cons (.free ?_) <| .cons (.free ?_) .nil⟩
  all_goals simp +contextual [↓List.forall_mem_cons]

/-- The record type of documents is lawful. -/
theorem Document.lawful (h : Lifts P) : schema.Lawful P := by
  refine ⟨by decide, rfl, rfl, fun _ =>
    .cons (.many h.string ?_) <| .cons (.many h.string ?_) <|
    .cons (.many (Accessor.lifted h) ?_) <| .cons (.many (Animation.lifted h) ?_) <|
    .cons (.always (Asset.lifted h) ?_) <| .cons (.many (Buffer.lifted h) ?_) <|
    .cons (.many (BufferView.lifted h) ?_) <| .cons (.many (Camera.lifted h) ?_) <|
    .cons (.many (Image.lifted h) ?_) <| .cons (.many (Material.lifted h) ?_) <|
    .cons (.many (Mesh.lifted h) ?_) <| .cons (.many (Node.lifted h) ?_) <|
    .cons (.many (Sampler.lifted h) ?_) <| .cons (.optional h.integer ?_) <|
    .cons (.many (Scene.lifted h) ?_) <| .cons (.many (Skin.lifted h) ?_) <|
    .cons (.many (Texture.lifted h) ?_) <| .cons (.free ?_) <| .cons (.free ?_) .nil⟩
  all_goals simp +contextual [↓List.forall_mem_cons]

/-- A property that is passed on is one of documents. -/
theorem Document.lifted (h : Lifts P) : P _ codec := h.record (lawful h)

end GltfAsset
