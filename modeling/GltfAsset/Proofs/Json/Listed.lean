import GltfAsset.Proofs.Json.Entries

/-!
# Arrays and objects, spelled in any way

The texts of arrays and of objects with any keys, with white space wherever it is allowed and keys
spelled in any way. A reader gives the elements in order (`Reads.list`), and what is made of the
keys and values in order (`Reads.map`), whatever comes after the text.
-/

namespace GltfAsset.Json

open Reader

variable {α : Type} {c : Codec α} {k : Nat}

/-- The text is read as the value, whatever comes after it, if `k` levels may be entered. -/
def Reads (rd : Nat → Reader α) (k : Nat) (t : Bytes) (x : α) : Prop :=
  ∀ (n : Nat) (v : Space) (rest : Bytes), k ≤ n →
    (rd n).run (v.bytes ++ (t ++ rest)) = .ok (x, rest)

/-- A change of what is read. -/
theorem Reads.change {β : Type} {rd : Nat → Reader α} {t : Bytes} {x : α} (h : Reads rd k t x)
    (f : α → β) : Reads (fun n => (rd n).map f) k t (f x) := by
  intro n v rest hn
  simp only [Reader.map, h n v rest hn, map_ok]

/-- The member of a required field is read. -/
theorem Reads.always {R : Type} {name : String} {get : R → α} {set : α → R → R} {t : Bytes} {x : α}
    (h : Reads c.reader k t x) : Reads (Field.always name c get set).reader k t (set x) :=
  h.change set

/-- The member of a field with a list is read. -/
theorem Reads.many {R : Type} {name : String} {get : R → List α} {set : List α → R → R} {t : Bytes}
    {xs : List α} (h : Reads c.list.reader k t xs) :
    Reads (Field.many name c get set).reader k t (set xs) :=
  h.change set

/-- A member of a record is read and put in. -/
theorem Schema.run_member {R : Type} {s : Schema R} {f : Field R} {name : String} {t : Bytes}
    {set : R → R} {names : List String} (hfield : s.field? name = some f)
    (hread : Reads f.reader k t set) (hnames : name ∉ names) {n : Nat} (hn : k ≤ n) (r : R)
    (v w : Space) (rest : Bytes) :
    (s.member n).run (r, names) name (v.bytes ++ Mark.colon :: (w.bytes ++ (t ++ rest))) =
      .ok ((set r, name :: names), rest) := by
  simp only [member, hfield, if_neg hnames, colon_space, ok_bind, hread n w rest hn]

/-! ## Objects with any keys -/

/-- The members of an object with these keys and values, in order. -/
def Shows (c : Codec α) (ms : List (String × α)) (es : List Entry) : Prop :=
  es.map Entry.member? = ms.map fun m => some (m.1, c.toJson m.2)

/-- What is done at a member of an object with any keys. -/
def Codec.entryStep (c : Codec α) (acc : List (String × α)) (e : Entry) :
    Except Error (List (String × α)) :=
  match e.member? with
  | some km => (Json.reread c.reader km.2).map fun x => (km.1, x) :: acc
  | none => .ok acc

section

variable {m : String × α} {ms : List (String × α)} {e : Entry} {es : List Entry}

/-- At a member with a value, it is added to those before. -/
theorem Codec.entryStep_of_member? (h : e.member? = some (m.1, c.toJson m.2))
    (hread : Rereads c.reader (c.toJson m.2) (.ok m.2)) (acc : List (String × α)) :
    c.entryStep acc e = .ok (m :: acc) := by
  simp only [entryStep, h, hread.reread_eq, map_ok]

/-- A member with a value is read by adding it to those before. -/
theorem run_entry_of_member? (h : e.member? = some (m.1, c.toJson m.2))
    (hread : Rereads c.reader (c.toJson m.2) (.ok m.2)) {n : Nat}
    (hn : (c.toJson m.2).nesting ≤ n) (acc : List (String × α)) {tail : Bytes}
    (htail : Ends tail) :
    (entry (c.reader n)).run acc e.name (e.valueText ++ tail) = .ok (m :: acc, tail) := by
  have hcolon := colon_valueText e tail
  unfold Entry.member? at h
  cases hcontent : e.content with
  | any h' =>
    rw [hcontent] at h
    contradiction
  | tree j l i =>
    simp only [hcontent, Option.some.injEq, Prod.mk.injEq] at h hcolon
    obtain ⟨hname, rfl⟩ := h
    have hrun := hread.run (n := n) hn htail (skipSpace_space e.lead (Json.write l i _ ++ tail))
    simp only [entry, hcolon, ok_bind, Content.text, hrun, map_ok, hname]

/-- The members are collected in reverse. -/
theorem Codec.foldlM_entryStep (h : Shows c ms es)
    (hread : ∀ m ∈ ms, Rereads c.reader (c.toJson m.2) (.ok m.2)) (acc : List (String × α)) :
    es.foldlM c.entryStep acc = .ok (ms.reverse ++ acc) := by
  induction ms generalizing es acc with
  | nil =>
    obtain rfl := List.map_eq_nil_iff.mp h
    rfl
  | cons m ms ih =>
    obtain ⟨e, es, rfl, he, hes⟩ := List.map_eq_cons_iff.mp h
    rw [List.forall_mem_cons] at hread
    rw [List.foldlM_cons, entryStep_of_member? he hread.1, ok_bind, ih hes hread.2,
      List.reverse_cons, List.append_assoc, List.singleton_append]

/-- What is made of the keys and values in order is read. -/
theorem Reads.map (h : Shows c ms es)
    (hread : ∀ m ∈ ms, Rereads c.reader (c.toJson m.2) (.ok m.2))
    (hk : ∀ m ∈ ms, (c.toJson m.2).nesting ≤ k)
    (collect : List (String × α) → List (String × α)) (w : Space) :
    Reads (c.map collect).reader (k + 1) (objectText w es) (collect ms) := by
  intro n v rest hn
  obtain ⟨n, rfl⟩ := Nat.exists_eq_add_one_of_ne_zero (Nat.ne_zero_of_lt hn)
  have hsteps : EntrySteps (entry (c.reader n)) c.entryStep es := by
    intro e he acc tail htail
    have hmember : e.member? ∈ ms.map fun m => some (m.1, c.toJson m.2) :=
      h ▸ List.mem_map_of_mem he
    obtain ⟨m, hm, hmember⟩ := List.mem_map.mp hmember
    have hle := Nat.le_trans (hk m hm) (Nat.le_of_succ_le_succ hn)
    rw [Codec.entryStep_of_member? hmember.symm (hread m hm),
      run_entry_of_member? hmember.symm (hread m hm) hle acc htail]
    rfl
  obtain ⟨bs, hbs, hrun⟩ := members_objectText w rest hsteps []
  simp only [hbs, Codec.map, Reader.map, pairs, found_openBrace, below, entries, hrun,
    Codec.foldlM_entryStep h hread, map_ok, List.append_nil, List.reverse_reverse]

end

/-- What is written of an object shows its members. -/
theorem exists_write_map_eq (c : Codec α) (collect : List (String × α) → List (String × α))
    (ms : List (String × α)) (l : Layout) (m : Nat) :
    ∃ w es, Shows c ms es ∧ ((c.map collect).toJson ms).write l m = objectText w es := by
  obtain ⟨w, hw⟩ := exists_write_object_eq l m (ms.map fun m => (m.1, c.toJson m.2))
  refine ⟨w, _, ?_, hw⟩
  rw [Shows, List.map_map, List.map_map]
  rfl

/-! ## Arrays -/

/-- An element of an array as it stands in a text. -/
structure Item where
  /-- White space before the element. -/
  before : Space
  /-- The text of the element. -/
  content : Bytes
  /-- It does not start with white space, nor with the mark that closes the array. -/
  starts : ∃ b bs, content = b :: bs ∧ isSpace b = false ∧ b ≠ Mark.closeBracket
  /-- White space after the element. -/
  after : Space

/-- The text of the element and of the white space around it. -/
def Item.text (i : Item) : Bytes := i.before.bytes ++ (i.content ++ i.after.bytes)

/-- The text of the elements after the first one and of the closing bracket, with white space before
it. -/
def itemsText (w : Space) (is : List Item) : Bytes :=
  is.flatMap (fun i => Mark.comma :: i.text) ++ (w.bytes ++ [Mark.closeBracket])

/-- The text of an array, with white space before its closing bracket. -/
def arrayText (w : Space) : List Item → Bytes
  | [] => Mark.openBracket :: (w.bytes ++ [Mark.closeBracket])
  | i :: is => Mark.openBracket :: (i.text ++ itemsText w is)

/-- An element comes next. -/
theorem nextElement_item (v : Space) (i : Item) (tail : Bytes) :
    nextElement false (v.bytes ++ Mark.comma :: (i.text ++ tail)) =
      .ok (true, i.content ++ (i.after.bytes ++ tail)) := by
  obtain ⟨b, bs, hcontent, hspace, hb⟩ := i.starts
  simp only [nextElement, Item.text, List.append_assoc, skipSpace_space,
    skipSpace_of_not_space (b := Mark.comma) rfl, hcontent, List.cons_append,
    skipSpace_of_not_space hspace, if_neg hb]
  rfl

/-- The first element comes next, with no comma before it. -/
theorem nextElement_item_first (i : Item) (tail : Bytes) :
    nextElement true (i.text ++ tail) = .ok (true, i.content ++ (i.after.bytes ++ tail)) := by
  obtain ⟨b, bs, hcontent, hspace, hb⟩ := i.starts
  simp only [nextElement, Item.text, List.append_assoc, skipSpace_space, hcontent,
    List.cons_append, skipSpace_of_not_space hspace, if_neg hb, if_true]

/-- The closing bracket comes after the last element. -/
theorem nextElement_space (first : Bool) (v : Space) (rest : Bytes) :
    nextElement first (v.bytes ++ Mark.closeBracket :: rest) =
      .ok (false, Mark.closeBracket :: rest) := by
  rw [nextElement, skipSpace_space, skipSpace_of_not_space rfl]
  rfl

section

variable {rd : Nat → Reader α} {n : Nat} {xs : List α} {is : List Item}

/-- The elements after the first ones are read up to the closing bracket. -/
theorem elements_itemsText (hn : k ≤ n)
    (h : List.Forall₂ (fun x i => Reads rd k i.content x) xs is) (w : Space) (rest : Bytes)
    {acc : List α} (hacc : acc.isEmpty = false) (v : Space) :
    elements (rd n) none acc (v.bytes ++ (itemsText w is ++ rest)) =
      .ok (acc.reverse ++ xs, Mark.closeBracket :: rest) := by
  induction h generalizing acc v with
  | nil =>
    have hclosing : nextElement acc.isEmpty (v.bytes ++ (itemsText w [] ++ rest)) =
        .ok (false, Mark.closeBracket :: rest) := by
      rw [itemsText, List.flatMap_nil, List.nil_append, List.append_assoc, nextElement,
        skipSpace_space]
      exact nextElement_space _ w rest
    rw [elements_of_end (by simp) hclosing, List.append_nil]
  | @cons x i xs is hx _ ih =>
    have htext : itemsText w (i :: is) ++ rest =
        Mark.comma :: (i.text ++ (itemsText w is ++ rest)) := by
      simp only [itemsText, List.flatMap_cons, List.cons_append, List.append_assoc]
    have hnext := nextElement_item v i (itemsText w is ++ rest)
    have hrun := hx n .none (i.after.bytes ++ (itemsText w is ++ rest)) hn
    rw [htext, elements_of_next (by simp) (hacc ▸ hnext)]
    rw [Space.none, List.nil_append] at hrun
    rw [hrun, ok_bind]
    have hcons : (x :: acc).isEmpty = false := rfl
    rw [Option.map_none, ih hcons i.after, List.reverse_cons, List.append_assoc,
      List.singleton_append]

/-- The elements are read in order. -/
theorem Reads.list (h : List.Forall₂ (fun x i => Reads c.reader k i.content x) xs is)
    (w : Space) : Reads c.list.reader (k + 1) (arrayText w is) xs := by
  intro n v rest hn
  obtain ⟨n, rfl⟩ := Nat.exists_eq_add_one_of_ne_zero (Nat.ne_zero_of_lt hn)
  have hn := Nat.le_of_succ_le_succ hn
  obtain ⟨bs, hbs, hrun⟩ : ∃ bs, arrayText w is ++ rest = Mark.openBracket :: bs ∧
      elements (c.reader n) none [] bs = .ok (xs, Mark.closeBracket :: rest) := by
    cases h with
    | nil =>
      refine ⟨w.bytes ++ Mark.closeBracket :: rest, by simp [arrayText], ?_⟩
      exact elements_of_end (by simp) (nextElement_space true w rest)
    | @cons x i xs is hx h =>
      refine ⟨i.text ++ (itemsText w is ++ rest), by simp [arrayText], ?_⟩
      have hrun := hx n .none (i.after.bytes ++ (itemsText w is ++ rest)) hn
      have hnext : nextElement ([] : List α).isEmpty (i.text ++ (itemsText w is ++ rest)) = _ :=
        nextElement_item_first i _
      rw [Space.none, List.nil_append] at hrun
      rw [elements_of_next (by simp) hnext, hrun, ok_bind]
      exact elements_itemsText hn h w rest rfl i.after
  simp only [hbs, Codec.list, Reader.list, Reader.sequence, found_openBracket, below, items, hrun,
    ok_bind]
  rfl

end

end GltfAsset.Json
