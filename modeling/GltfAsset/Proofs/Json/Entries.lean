import Mathlib.Data.List.Pairwise
import GltfAsset.Proofs.Json.Grammar
import GltfAsset.Proofs.Json.Image
import GltfAsset.Proofs.Json.Records

/-!
# Objects with members in any order

The text of an object, with its members in any order, each key spelled in any way, and white space
wherever it is allowed (`objectText`). What is written of an object is such a text
(`exists_write_object_eq`). A reader goes through the members one by one
(`members_objectText`). A record whose members are put in independently of each other is read from
them in any order, with members between them that its table does not name
(`Schema.foldlM_of_perm`), and a member that is there twice is refused
(`Schema.foldlM_of_perm_cons`).
-/

namespace GltfAsset.Json

open Reader

variable {σ R : Type}

/-- What stands as the value of a member. -/
inductive Content where
  /-- A tree, written at some level. -/
  | tree (j : Json) (l : Layout) (m : Nat)
  /-- Any value. -/
  | any {v : Bytes} (h : Derives .value v)

/-- The text of the value. -/
def Content.text : Content → Bytes
  | tree j l m => j.write l m
  | @any v _ => v

/-- A member of an object as it stands in a text. -/
structure Entry where
  /-- White space before the key. -/
  before : Space
  /-- The key between its quotes. -/
  key : List Piece
  /-- The name. -/
  name : String
  /-- The key means the name. -/
  spells : Spells key name
  /-- White space before the colon. -/
  middle : Space
  /-- White space after the colon. -/
  lead : Space
  /-- The value. -/
  content : Content
  /-- White space after the value. -/
  after : Space

namespace Entry

/-- The colon and the value. -/
def valueText (e : Entry) : Bytes :=
  e.middle.bytes ++ Mark.colon :: (e.lead.bytes ++ e.content.text)

/-- The text of the member. -/
def text (e : Entry) : Bytes :=
  e.before.bytes ++ (stringText e.key ++ (e.valueText ++ e.after.bytes))

/-- The name and the tree, if the value is one. -/
def member? (e : Entry) : Option (String × Json) :=
  match e.content with
  | .tree j _ _ => some (e.name, j)
  | .any _ => none

end Entry

/-- No white space. -/
def Space.none : Space := ⟨[], by simp⟩

/-- What starts a line at the given level. -/
def Layout.newlineSpace (l : Layout) (m : Nat) : Space where
  bytes := l.newline m
  isSpace := List.dropWhile_eq_nil_iff.mp (skipSpace_newline_nil l m)

/-- What stands between a colon and its value. -/
def Layout.colonSpace : Layout → Space
  | compact => .none
  | indented => ⟨[0x20], by simp [isSpace]⟩

/-- A member as it is written at the given level. -/
def Entry.written (l : Layout) (m : Nat) (km : String × Json) : Entry where
  before := l.newlineSpace m
  key := Text.pieces km.1
  name := km.1
  spells := Text.spells_pieces km.1
  middle := .none
  lead := l.colonSpace
  content := .tree km.2 l m
  after := .none

/-- The text of a written member: a new line, the quoted key, the colon and the value. -/
theorem Entry.text_written (l : Layout) (m : Nat) (km : String × Json) :
    (written l m km).text = l.newline m ++ (Text.quote km.1 ++ (l.colon ++ km.2.write l m)) := by
  have hcolon : Mark.colon :: l.colonSpace.bytes = l.colon := by cases l <;> rfl
  simp only [written, text, valueText, Text.stringText_pieces, Content.text, Space.none,
    Layout.newlineSpace, List.nil_append, List.append_nil, ← hcolon, List.cons_append]

/-- The members of the written entries are those that were written. -/
theorem filterMap_written (l : Layout) (m : Nat) (ms : List (String × Json)) :
    (ms.map (Entry.written l m)).filterMap Entry.member? = ms := by
  rw [List.filterMap_map]
  exact List.filterMap_some

/-- The text of the members after the first one and of the closing brace, with white space before
it. -/
def entriesText (w : Space) (es : List Entry) : Bytes :=
  es.flatMap (fun e => Mark.comma :: e.text) ++ (w.bytes ++ [Mark.closeBrace])

/-- The text of an object, with white space before its closing brace. -/
def objectText (w : Space) : List Entry → Bytes
  | [] => Mark.openBrace :: (w.bytes ++ [Mark.closeBrace])
  | e :: es => Mark.openBrace :: (e.text ++ entriesText w es)

/-- The text that is written of an object is one with its members in order. -/
theorem exists_write_object_eq (l : Layout) (m : Nat) (ms : List (String × Json)) :
    ∃ w, write l m (.object ms) = objectText w (ms.map (Entry.written l (m + 1))) := by
  cases ms with
  | nil => exact ⟨.none, rfl⟩
  | cons km ms =>
    have htail : ∀ ms, writeMembers l m ms ++ [Mark.closeBrace] =
        entriesText (l.newlineSpace m) (ms.map (Entry.written l (m + 1))) := by
      intro ms
      induction ms with
      | nil => rfl
      | cons km ms ih =>
        rw [writeMembers, List.map_cons, entriesText, List.flatMap_cons, Entry.text_written]
        simp only [List.cons_append, List.append_assoc, ih]
        rfl
    refine ⟨l.newlineSpace m, ?_⟩
    rw [write_object, objectRest, List.map_cons, objectText, Entry.text_written, ← htail]
    simp only [List.append_assoc]

/-! ## Going through the members -/

section

variable {a : Member σ} {e : Entry} {es : List Entry} {w : Space} {rest : Bytes}
  {step : σ → Entry → Except Error σ}

/-- The colon of a member is taken with the white space before it. -/
theorem colon_valueText (e : Entry) (rest : Bytes) :
    colon (e.valueText ++ rest) = .ok (e.lead.bytes ++ (e.content.text ++ rest)) := by
  rw [Entry.valueText, List.append_assoc, List.cons_append, List.append_assoc, colon_space]

/-- The key of a member comes next. -/
theorem nextKey_entry (v : Space) (e : Entry) (tail : Bytes) :
    nextKey false (v.bytes ++ Mark.comma :: (e.text ++ tail)) = .ok (true,
      e.key.flatMap Piece.text ++ Mark.quote :: (e.valueText ++ (e.after.bytes ++ tail))) := by
  simp only [Entry.text, stringText, List.append_assoc, List.cons_append, nextKey,
    skipSpace_space, skipSpace_of_not_space (b := Mark.quote) rfl,
    skipSpace_of_not_space (b := Mark.comma) rfl]
  rfl

/-- The key of the first member comes next, with no comma before it. -/
theorem nextKey_entry_first (e : Entry) (tail : Bytes) : nextKey true (e.text ++ tail) = .ok (true,
    e.key.flatMap Piece.text ++ Mark.quote :: (e.valueText ++ (e.after.bytes ++ tail))) := by
  simp only [Entry.text, stringText, List.append_assoc, List.cons_append, nextKey,
    skipSpace_space, skipSpace_of_not_space (b := Mark.quote) rfl]
  rfl

/-- White space and what comes after a member end every number. -/
theorem ends_entriesText (v w : Space) (es : List Entry) (rest : Bytes) :
    Ends (v.bytes ++ (entriesText w es ++ rest)) := by
  refine ends_space v ?_
  cases es with
  | nil =>
    rw [entriesText, List.flatMap_nil, List.nil_append, List.append_assoc]
    exact ends_space w (ends_cons.mpr (by decide))
  | cons e es => exact ends_cons.mpr (by decide)

/-- What is done at each member is `step`, wherever the rest of the object stands. -/
def EntrySteps (a : Member σ) (step : σ → Entry → Except Error σ) (es : List Entry) : Prop :=
  ∀ e ∈ es, ∀ (s : σ) (tail : Bytes), Ends tail →
    a.run s e.name (e.valueText ++ tail) = (step s e).map (·, tail)

/-- The members after the first one are gone through to the closing brace. -/
theorem members_entriesText (h : EntrySteps a step es) (s : σ) (v : Space) :
    members a false s (v.bytes ++ (entriesText w es ++ rest)) =
      (es.foldlM step s).map (·, rest) := by
  induction es generalizing s v with
  | nil =>
    have hclosing : nextKey false (v.bytes ++ (entriesText w [] ++ rest)) = .ok (false, rest) := by
      rw [entriesText, List.flatMap_nil, List.nil_append, List.append_assoc, nextKey,
        skipSpace_space, skipSpace_space]
      rfl
    exact members_of_end hclosing
  | cons e es ih =>
    obtain ⟨he, hes⟩ := List.forall_mem_cons.mp h
    have htext : entriesText w (e :: es) ++ rest =
        Mark.comma :: (e.text ++ (entriesText w es ++ rest)) := by
      simp only [entriesText, List.flatMap_cons, List.cons_append, List.append_assoc]
    rw [htext, members_of_next (nextKey_entry v e _) (Text.read_of_spells e.spells _),
      he s _ (ends_entriesText e.after w es rest), List.foldlM_cons]
    cases step s e with
    | error e => rfl
    | ok t => exact ih hes t e.after

/-- The members of any object are gone through to the closing brace, whatever white space stands
between them. -/
theorem members_objectText (w : Space) (rest : Bytes) (h : EntrySteps a step es) (s : σ) :
    ∃ bs, objectText w es ++ rest = Mark.openBrace :: bs ∧
      members a true s bs = (es.foldlM step s).map (·, rest) := by
  cases es with
  | nil =>
    refine ⟨w.bytes ++ Mark.closeBrace :: rest, by simp [objectText], members_of_end ?_⟩
    rw [nextKey, skipSpace_space]
    rfl
  | cons e es =>
    obtain ⟨he, hes⟩ := List.forall_mem_cons.mp h
    refine ⟨e.text ++ (entriesText w es ++ rest), by simp [objectText], ?_⟩
    rw [members_of_next (nextKey_entry_first e _) (Text.read_of_spells e.spells _),
      he s _ (ends_entriesText e.after w es rest), List.foldlM_cons]
    cases step s e with
    | error e => rfl
    | ok t => exact members_entriesText hes t e.after

end

/-! ## Records -/

namespace Schema

variable {s : Schema R} {r : R} {es : List Entry} {n : Nat}

/-- What is done at a member: a tree is read if the table names it, and any other value is passed
over. -/
def entryStep (s : Schema R) (st : R × List String) (e : Entry) :
    Except Error (R × List String) :=
  match e.member? with
  | some km => s.step st km
  | none => .ok st

/-- The entries that are no members change nothing, so the members alone decide what is read. -/
theorem foldlM_entryStep (es : List Entry) (st : R × List String) :
    es.foldlM s.entryStep st = (es.filterMap Entry.member?).foldlM s.step st := by
  induction es generalizing st with
  | nil => rfl
  | cons e es ih =>
    rw [List.foldlM_cons, List.filterMap_cons, entryStep]
    cases e.member? with
    | none => exact ih st
    | some km =>
      simp only [List.foldlM_cons]
      cases s.step st km with
      | error e => rfl
      | ok st => exact ih st

/-- The trees are written members of the record, and the other values have names that the table
does not have. -/
def Fits (s : Schema R) (r : R) (es : List Entry) : Prop :=
  ∀ e ∈ es, match e.member? with
    | some km => km ∈ s.members r
    | none => e.name ∉ s.fields.map (·.name)

/-- The table has a field for each member that is written of a record, and it writes this member. -/
theorem field?_of_mem_members (hnames : (s.fields.map (·.name)).Nodup) {km : String × Json}
    (h : km ∈ s.members r) : ∃ f ∈ s.fields, s.field? km.1 = some f ∧ f.toJson r = some km.2 := by
  obtain ⟨f, hf, hj, hk⟩ := mem_members_iff.mp h
  exact ⟨f, hf, hk ▸ find?_name hnames hf, hj⟩

/-- At each member is done what `entryStep` says. -/
theorem entrySteps_member (hnames : (s.fields.map (·.name)).Nodup)
    (h : ∀ f ∈ s.fields, f.Steady r) (hn : nestingMembers (s.members r) ≤ n)
    (hes : s.Fits r es) : EntrySteps (s.member n) s.entryStep es := by
  intro e he st tail htail
  have hfits := hes e he
  have hcolon := colon_valueText e tail
  rw [entryStep]
  unfold Entry.member? at hfits ⊢
  cases hcontent : e.content with
  | tree j l m =>
    simp only [hcontent] at hfits hcolon ⊢
    obtain ⟨f, hf, hfield, hj⟩ := field?_of_mem_members hnames hfits
    have hle : j.nesting ≤ n := Nat.le_trans (nesting_le_nestingMembers hfits) hn
    have hrun := ((h f hf).steady j hj).rereads.run (n := n) hle htail
      (skipSpace_space e.lead (j.write l m ++ tail))
    simp only [member, step, hfield]
    split
    · rfl
    · rw [hcolon, ok_bind, Content.text, hrun]
      cases reread f.reader j <;> rfl
  | any hv =>
    simp only [hcontent] at hfits hcolon ⊢
    have hfield : s.field? e.name = none := by
      refine List.find?_eq_none.mpr fun f hf => ?_
      rw [decide_eq_true_eq]
      rintro hname
      exact hfits (hname ▸ List.mem_map_of_mem hf)
    simp only [member, hfield, hcolon, ok_bind, Content.text, skipValue_of_derives hv e.lead htail]
    rfl

/-- If what is read of each member is known and no name is there twice, all of it is put in. -/
theorem foldlM_step_of_nodup {ms : List (String × Json)} {put : String × Json → R → R}
    (hput : ∀ km ∈ ms, ∃ f, s.field? km.1 = some f ∧ reread f.reader km.2 = .ok (put km))
    (hms : (ms.map Prod.fst).Nodup) {x : R} {names : List String}
    (hnew : ∀ km ∈ ms, km.1 ∉ names) :
    ms.foldlM s.step (x, names) =
      .ok (ms.foldl (fun x km => put km x) x, (ms.map Prod.fst).reverse ++ names) := by
  induction ms generalizing x names with
  | nil => rfl
  | cons km ms ih =>
    rw [List.forall_mem_cons] at hput hnew
    rw [List.map_cons, List.nodup_cons] at hms
    obtain ⟨f, hfield, hreread⟩ := hput.1
    have hnew' : ∀ lm ∈ ms, lm.1 ∉ km.1 :: names := by
      intro lm hlm
      rw [List.mem_cons, not_or]
      exact ⟨fun h => hms.1 (h ▸ List.mem_map_of_mem hlm), hnew.2 lm hlm⟩
    simp only [List.foldlM_cons, step, hfield, if_neg hnew.1, hreread, map_ok, ok_bind]
    rw [ih hput.2 hms.2 hnew', List.foldl_cons, List.map_cons, List.reverse_cons,
      List.append_assoc, List.singleton_append]

/-- A name that was read before is refused. -/
theorem foldlM_step_of_mem {as bs : List (String × Json)} {km : String × Json}
    {put : String × Json → R → R}
    (hput : ∀ km ∈ as, ∃ f, s.field? km.1 = some f ∧ reread f.reader km.2 = .ok (put km))
    (has : (as.map Prod.fst).Nodup) (hfield : (s.field? km.1).isSome)
    (hmem : km.1 ∈ as.map Prod.fst) {x : R} :
    (as ++ km :: bs).foldlM s.step (x, []) = .error (.duplicateField km.1) := by
  obtain ⟨f, hf⟩ := Option.isSome_iff_exists.mp hfield
  have hnames : km.1 ∈ (as.map Prod.fst).reverse ++ [] := by simpa using hmem
  rw [List.foldlM_append, foldlM_step_of_nodup hput has (by simp), ok_bind, List.foldlM_cons]
  simp only [step, hf, if_pos hnames]
  rfl

end Schema

/-- What is put in for the two members is the same in either order. -/
def Field.Commutes (f g : Field R) : Prop :=
  ∀ n m, (f.reader n).Yields fun set => (g.reader m).Yields fun set' =>
    ∀ x, set (set' x) = set' (set x)

instance : Std.Symm (Field.Commutes : Field R → Field R → Prop) where
  symm _ _ h n m bs set r hset bs' set' r' hset' x :=
    (h m n bs' set' r' hset' bs set r hset x).symm

/-- Members that are put into different parts of a record commute. -/
theorem Field.commutes_map {α β : Type} {name name' : String} {required required' : Bool}
    {toJson toJson' : R → Option Json} {rd : Nat → Reader α} {rd' : Nat → Reader β}
    {set : α → R → R} {set' : β → R → R} (h : ∀ a b x, set a (set' b x) = set' b (set a x)) :
    Commutes ⟨name, required, toJson, fun n => (rd n).map set⟩
      ⟨name', required', toJson', fun n => (rd' n).map set'⟩ := by
  intro n m bs g r hg bs' g' r' hg' x
  obtain ⟨⟨a, _⟩, -, ha⟩ := map_eq_ok_iff.mp hg
  obtain ⟨⟨b, _⟩, -, hb⟩ := map_eq_ok_iff.mp hg'
  obtain ⟨rfl, -⟩ := Prod.mk.inj ha
  obtain ⟨rfl, -⟩ := Prod.mk.inj hb
  exact h a b x

/-- What a reader makes of a written tree, it makes of some text. -/
theorem exists_run_of_reread {α : Type} {rd : Nat → Reader α} {j : Json} {x : α}
    (h : reread rd j = .ok x) : ∃ n bs r, (rd n).run bs = .ok (x, r) := by
  obtain ⟨⟨y, r⟩, hy, rfl⟩ := map_eq_ok_iff.mp h
  exact ⟨_, _, r, hy⟩

namespace Schema

variable {s : Schema R} {r z : R} {es : List Entry} {ms : List (String × Json)} {n : Nat}

/-- No key is written twice. -/
theorem nodup_members (hnames : (s.fields.map (·.name)).Nodup) :
    ((s.members r).map Prod.fst).Nodup := by
  have hsublist : ∀ fs : List (Field R), ((fs.filterMap fun f =>
      (f.toJson r).map (f.name, ·)).map Prod.fst).Sublist (fs.map (·.name)) := by
    intro fs
    induction fs with
    | nil => exact List.nil_sublist _
    | cons f fs ih =>
      rw [List.filterMap_cons, List.map_cons]
      cases f.toJson r with
      | none => exact ih.cons _
      | some j => exact ih.cons_cons f.name
  exact hnames.sublist (hsublist s.fields)

/-- A record whose written members are put in independently of each other. -/
structure Independent (s : Schema R) (r z : R) (put : String × Json → R → R) : Prop where
  /-- What is read of each member. -/
  read : ∀ km ∈ s.members r, ∃ f, s.field? km.1 = some f ∧ reread f.reader km.2 = .ok (put km)
  /-- Two of them are put in in either order. -/
  comm : ∀ km ∈ s.members r, ∀ lm ∈ s.members r, ∀ x, put lm (put km x) = put km (put lm x)
  /-- The record that comes out. -/
  fold : (s.members r).foldl (fun x km => put km x) s.initial = z

/-- Where no two fields get in each other's way, the order the members stand in does not matter. -/
theorem exists_independent (hnames : (s.fields.map (·.name)).Nodup)
    (hcommutes : s.fields.Pairwise Field.Commutes)
    (hrefill : refill r s.fields s.initial = .ok z) : ∃ put, s.Independent r z put := by
  have hread : ∀ km, ∃ set, km ∈ s.members r → ∃ f ∈ s.fields, s.field? km.1 = some f ∧
      f.toJson r = some km.2 ∧ reread f.reader km.2 = .ok set := by
    intro km
    by_cases hkm : km ∈ s.members r
    · obtain ⟨f, hf, hfield, hj⟩ := field?_of_mem_members hnames hkm
      obtain ⟨x, y, hy⟩ := exists_refill hrefill f hf
      rw [Field.refill, hj] at hy
      obtain ⟨set, hset, -⟩ := map_eq_ok_iff.mp hy
      exact ⟨set, fun _ => ⟨f, hf, hfield, hj, hset⟩⟩
    · exact ⟨id, fun h => absurd h hkm⟩
  choose put hput using hread
  have hread : ∀ km ∈ s.members r, ∃ f, s.field? km.1 = some f ∧
      reread f.reader km.2 = .ok (put km) := by
    intro km hkm
    obtain ⟨f, -, hfield, -, hset⟩ := hput km hkm
    exact ⟨f, hfield, hset⟩
  refine ⟨put, hread, fun km hkm lm hlm x => ?_, ?_⟩
  · obtain ⟨f, hf, hfield, hj, hset⟩ := hput km hkm
    obtain ⟨g, hg, hfield', hj', hset'⟩ := hput lm hlm
    rcases eq_or_ne f g with rfl | hne
    · -- One member is written once, so the two are the same.
      have hname : km.1 = lm.1 := by
        have h : f.name = km.1 := by simpa using List.find?_some hfield
        have h' : f.name = lm.1 := by simpa using List.find?_some hfield'
        rw [← h, h']
      have htree : km.2 = lm.2 := Option.some.inj (hj.symm.trans hj')
      rw [Prod.ext hname htree]
    · obtain ⟨n, bs, t, hrun⟩ := exists_run_of_reread hset
      obtain ⟨m, bs', t', hrun'⟩ := exists_run_of_reread hset'
      have hfg : f.Commutes g := hcommutes.forall hf hg hne
      exact (hfg n m bs _ t hrun bs' _ t' hrun' x).symm
  · -- In the order of the table the record comes out that is known to.
    have hfold := foldlM_step_of_nodup hread (nodup_members hnames) (x := s.initial)
      (fun _ _ => List.not_mem_nil)
    rw [members, foldlM_step (fun f hf => find?_name hnames hf) hnames
      (fun _ _ => List.not_mem_nil), hrefill, map_ok] at hfold
    exact (Prod.mk.inj (Except.ok.inj hfold)).1.symm

variable {put : String × Json → R → R}

/-- The members may stand in any order. -/
theorem foldlM_of_perm (hnames : (s.fields.map (·.name)).Nodup) (h : s.Independent r z put)
    (hms : ms.Perm (s.members r)) :
    ms.foldlM s.step (s.initial, []) = .ok (z, (ms.map Prod.fst).reverse) := by
  have hread : ∀ km ∈ ms, ∃ f, s.field? km.1 = some f ∧ reread f.reader km.2 = .ok (put km) :=
    fun km hkm => h.read km (hms.subset hkm)
  have hnodup : (ms.map Prod.fst).Nodup := (hms.map Prod.fst).nodup_iff.mpr (nodup_members hnames)
  have hfold : ms.foldl (fun x km => put km x) s.initial = z := by
    rw [← h.fold]
    exact hms.foldl_eq' (fun km hkm lm hlm x =>
      (h.comm km (hms.subset hkm) lm (hms.subset hlm) x)) s.initial
  rw [foldlM_step_of_nodup hread hnodup (fun _ _ => List.not_mem_nil), hfold, List.append_nil]

/-- A member that is there twice is refused the second time. -/
theorem foldlM_of_perm_cons (hnames : (s.fields.map (·.name)).Nodup) (h : s.Independent r z put)
    {km : String × Json} (hkm : km ∈ s.members r) (hms : ms.Perm (km :: s.members r)) :
    ms.foldlM s.step (s.initial, []) = .error (.duplicateField km.1) := by
  have hmem : km ∈ ms := hms.symm.subset List.mem_cons_self
  obtain ⟨as, bs, rfl, has⟩ := List.eq_append_cons_of_mem hmem
  have hperm : (as ++ bs).Perm (s.members r) := (List.perm_middle.symm.trans hms).cons_inv
  -- The second occurrence is among those that come after the first one.
  have hbs : km ∈ bs := (List.mem_append.mp (hperm.symm.subset hkm)).resolve_left has
  obtain ⟨bs, cs, rfl⟩ := List.append_of_mem hbs
  have hread : ∀ lm ∈ as ++ km :: bs, ∃ f, s.field? lm.1 = some f ∧
      reread f.reader lm.2 = .ok (put lm) := by
    intro lm hlm
    refine h.read lm (hperm.subset ?_)
    simp only [List.mem_append, List.mem_cons] at hlm ⊢
    tauto
  have hnodup : ((as ++ km :: bs).map Prod.fst).Nodup := by
    have hsublist : (as ++ (bs ++ [km])).Sublist (as ++ (bs ++ km :: cs)) :=
      ((List.nil_sublist cs).cons_cons km |>.append_left bs).append_left as
    have hlast : (as ++ km :: bs).Perm (as ++ (bs ++ [km])) :=
      (List.perm_append_singleton km bs).symm.append_left as
    have hmembers := (hperm.map Prod.fst).nodup_iff.mpr (nodup_members hnames)
    exact (hlast.map Prod.fst).nodup_iff.mpr (hmembers.sublist (hsublist.map Prod.fst))
  obtain ⟨f, -, hfield, -⟩ := field?_of_mem_members hnames hkm
  have hassoc : as ++ km :: (bs ++ km :: cs) = (as ++ km :: bs) ++ km :: cs := by simp
  rw [hassoc]
  refine foldlM_step_of_mem hread hnodup (by rw [hfield]; rfl) ?_
  exact List.mem_map_of_mem (List.mem_append_right as List.mem_cons_self)

/-- No required member is missing if all written ones are there. -/
theorem missing?_of_perm (h : ∀ f ∈ s.fields, f.Steady r) (hms : ms.Perm (s.members r)) :
    s.missing? (ms.map Prod.fst).reverse = none := by
  rw [missing?, List.find?_eq_none]
  intro f hf
  rw [Bool.and_eq_true, not_and]
  intro hrequired
  obtain ⟨j, hj⟩ := Option.isSome_iff_exists.mp ((h f hf).written hrequired)
  have hmem : (f.name, j) ∈ ms := hms.symm.subset (mem_members_iff.mpr ⟨f, hf, hj, rfl⟩)
  have hname : f.name ∈ ms.map Prod.fst := List.mem_map_of_mem hmem
  simpa using hname

/-- What is read of the text of an object is what its members make when they are put in one after
the other. -/
theorem run_objectText (hnames : (s.fields.map (·.name)).Nodup) (h : ∀ f ∈ s.fields, f.Steady r)
    (hn : nestingMembers (s.members r) ≤ n) (hes : s.Fits r es) (v w : Space) (rest : Bytes) :
    (s.codec.reader (n + 1)).run (v.bytes ++ (objectText w es ++ rest)) =
      ((es.filterMap Entry.member?).foldlM s.step (s.initial, [])) >>= fun st =>
        match s.missing? st.2 with
        | some f => .error (.missingField f.name)
        | none => .ok (st.1, rest) := by
  obtain ⟨bs, hbs, hrun⟩ :=
    members_objectText w rest (entrySteps_member hnames h hn hes) (s.initial, [])
  simp only [hbs, codec, reader, found_openBrace, readObject, hrun, foldlM_entryStep]
  cases (es.filterMap Entry.member?).foldlM s.step (s.initial, []) with
  | error e => rfl
  | ok st => rfl

end Schema

end GltfAsset.Json
