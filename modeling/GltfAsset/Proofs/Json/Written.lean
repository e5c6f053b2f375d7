import Mathlib.Data.List.DropRight
import GltfAsset.Proofs.Extension.Readers
import GltfAsset.Proofs.Json.Scalars

/-!
# The text of a tree is read

What a reader makes of the text of a tree (`reread`) does not depend on where the text stands: not
on the layout and the level, nor on the white space before it and the text after it. `Rereads` says
that the text of a tree is read with a given result wherever it stands. This file shows it of arrays
and objects from what is known of their parts: of arrays by `rereads_sequence`, of objects by
`members_first`, which goes through the members with whatever is done at each of them.
-/

namespace GltfAsset.Json

open Reader

variable {α β σ : Type}

/-! ## White space -/

/-- A text that does not start with white space stays as it is. -/
theorem skipSpace_of_not_space {b : UInt8} {bs : Bytes} (h : isSpace b = false) :
    skipSpace (b :: bs) = b :: bs := by
  rw [skipSpace, List.dropWhile_cons_of_neg (by simp [h])]

/-- After white space there is none. -/
theorem skipSpace_skipSpace (bs : Bytes) : skipSpace (skipSpace bs) = skipSpace bs :=
  List.dropWhile_idempotent isSpace bs

/-- Nothing but white space stands at the start of a line. -/
theorem skipSpace_newline (l : Layout) (m : Nat) (bs : Bytes) :
    skipSpace (l.newline m ++ bs) = skipSpace bs := by
  cases l with
  | compact => rfl
  | indented =>
    refine List.dropWhile_append_of_pos fun b hb => ?_
    rcases List.mem_cons.mp hb with rfl | hb
    · rfl
    · rw [List.eq_of_mem_replicate hb]
      rfl

/-- The start of a line is white space. -/
theorem skipSpace_newline_nil (l : Layout) (m : Nat) : skipSpace (l.newline m) = [] := by
  have h := skipSpace_newline l m []
  rwa [List.append_nil] at h

/-- A new line and a closing mark end every number. -/
theorem ends_newline {l : Layout} {m : Nat} {b : UInt8} {rest : Bytes} (h : Ends (b :: rest)) :
    Ends (l.newline m ++ b :: rest) := by
  cases l with
  | compact => exact h
  | indented => exact ends_cons.mpr (by decide)

/-- What is found does not depend on the white space before it. -/
theorem found_congr {bs cs : Bytes} (h : skipSpace bs = skipSpace cs) : found bs = found cs := by
  simp only [found, h]

/-- After the colon comes the value, with white space before it. -/
theorem exists_colon_write (l : Layout) (bs : Bytes) :
    ∃ r, colon (l.colon ++ bs) = .ok r ∧ skipSpace r = skipSpace bs := by
  cases l with
  | compact => exact ⟨bs, rfl, rfl⟩
  | indented => exact ⟨0x20 :: bs, rfl, rfl⟩

/-! ## What is read of a tree -/

/-- What a reader makes of the text of a tree. -/
def reread (rd : Nat → Reader α) (j : Json) : Except Error α :=
  ((rd j.nesting).run (j.render .compact)).map Prod.fst

/-- The text of the tree is read with this result wherever it stands. -/
structure Rereads (rd : Nat → Reader α) (j : Json) (res : Except Error α) : Prop where
  /-- The result does not depend on the layout and the level, nor on what stands around. -/
  run : ∀ {l : Layout} {m n : Nat} {bs rest : Bytes}, j.nesting ≤ n → Ends rest →
    skipSpace bs = skipSpace (j.write l m ++ rest) → (rd n).run bs = res.map (·, rest)

/-- A tree whose text is read with a result has this result. -/
theorem Rereads.reread_eq {rd : Nat → Reader α} {j : Json} {res : Except Error α}
    (h : Rereads rd j res) : reread rd j = res := by
  have hrun : (rd j.nesting).run (j.render .compact) = res.map (·, []) :=
    h.run (l := .compact) (m := 0) (Nat.le_refl _) ends_nil (by rw [List.append_nil]; rfl)
  rw [reread, hrun]
  cases res <;> rfl

/-- What is read wherever the tree stands may be changed. -/
theorem Rereads.map {rd : Nat → Reader α} {j : Json} {res : Except Error α}
    (h : Rereads rd j res) (f : α → β) : Rereads (fun n => (rd n).map f) j (res.map f) := by
  refine ⟨fun hn hrest hbs => ?_⟩
  simp only [Reader.map, h.run hn hrest hbs]
  cases res <;> rfl

/-- What is read of the text of the tree alone may be changed. -/
theorem reread_map (rd : Nat → Reader α) (f : α → β) (j : Json) :
    reread (fun n => (rd n).map f) j = (reread rd j).map f := by
  simp only [reread, Reader.map]
  cases (rd j.nesting).run (j.render .compact) <;> rfl

/-- How the text of the tree starts: with a byte that closes no array, and that is the first one of
`null` only if the tree is. -/
def Starts (j : Json) : Prop :=
  ∀ (l : Layout) (m : Nat) (rest : Bytes), ∃ b s, skipSpace (j.write l m ++ rest) = b :: s ∧
    b ≠ Mark.closeBracket ∧ (b = 0x6E → j = .null)

/-- The text of the tree is read in the same way wherever it stands. -/
structure Steady (rd : Nat → Reader α) (j : Json) : Prop where
  /-- The start of the text. -/
  starts : Starts j
  /-- The result does not change. -/
  rereads : Rereads rd j (reread rd j)

/-- What is read wherever it stands does not depend on where it does. -/
theorem Rereads.steady {rd : Nat → Reader α} {j : Json} {res : Except Error α}
    (h : Rereads rd j res) (hstarts : Starts j) : Steady rd j :=
  ⟨hstarts, by rw [h.reread_eq]; exact h⟩

/-- The text of `null` starts with its first letter. -/
theorem starts_null : Starts .null := fun _ _ rest =>
  ⟨0x6E, restOfNull ++ rest, rfl, by decide, fun _ => rfl⟩

/-- The text of a boolean starts with its first letter. -/
theorem starts_boolean (b : Bool) : Starts (.boolean b) := by
  intro l m rest
  cases b with
  | true => exact ⟨0x74, restOfTrue ++ rest, rfl, by decide, fun h => absurd h (by decide)⟩
  | false => exact ⟨0x66, restOfFalse ++ rest, rfl, by decide, fun h => absurd h (by decide)⟩

/-- The text of a string starts with a quote. -/
theorem starts_string (s : String) : Starts (.string s) := fun _ _ rest =>
  ⟨Mark.quote, Text.quoted s ++ rest, rfl, by decide, fun h => absurd h (by decide)⟩

/-- A text of which a number is read starts like one. -/
theorem starts_numeral {t r : Bytes} {x : Found} (h : found t = .ok ⟨x, r⟩)
    (hx : (∃ n, x = .integer n) ∨ ∃ y, x = .float y) : Starts (.numeral t) := by
  intro l m rest
  unfold found at h
  split at h
  · contradiction
  · rename_i b s hs
    refine ⟨b, s ++ rest, skipSpace_append hs, ?_, ?_⟩
    · rintro rfl
      contradiction
    · rintro rfl
      -- After this letter nothing but `null` is found.
      obtain ⟨u, -, heq⟩ := map_eq_ok_iff.mp h
      have hnull : .null = x := congrArg Scalar.found heq
      rcases hx with ⟨n, rfl⟩ | ⟨y, rfl⟩ <;> contradiction

/-- What is made of a list element by element. -/
theorem mapM_map_eq_ok_map_iff {γ ε : Type} {g : γ → β} {f : β → Except ε α} {h : γ → α}
    {xs : List γ} : (xs.map g).mapM f = .ok (xs.map h) ↔ ∀ x ∈ xs, f (g x) = .ok (h x) := by
  induction xs with
  | nil => simp [pure, Except.pure]
  | cons x xs ih =>
    rw [List.map_cons, List.map_cons, List.mapM_cons, List.forall_mem_cons, ← ih, bind_eq_ok_iff]
    constructor
    · rintro ⟨y, hy, h⟩
      obtain ⟨ys, hys, h⟩ := bind_eq_ok_iff.mp h
      obtain ⟨rfl, rfl⟩ := List.cons.inj (Except.ok.inj h)
      exact ⟨hy, hys⟩
    · rintro ⟨hx, hxs⟩
      exact ⟨h x, hx, bind_eq_ok_iff.mpr ⟨xs.map h, hxs, rfl⟩⟩

/-- A list is made of its own elements if each of them is made of itself. -/
theorem mapM_map_eq_ok_iff {ε : Type} {g : α → β} {f : β → Except ε α} {xs : List α} :
    (xs.map g).mapM f = .ok xs ↔ ∀ x ∈ xs, f (g x) = .ok x := by
  rw [← mapM_map_eq_ok_map_iff, List.map_id']

/-- A list is put together again element by element if each of them goes to the end of those that
it comes after. -/
theorem foldl_eq_append {R : α → α → Prop} {op : List α → α → List α}
    (hop : ∀ acc x, (∀ y ∈ acc, R y x) → op acc x = acc ++ [x]) {xs acc : List α}
    (h : (acc ++ xs).Pairwise R) : xs.foldl op acc = acc ++ xs := by
  induction xs generalizing acc with
  | nil => rw [List.foldl_nil, List.append_nil]
  | cons x xs ih =>
    have hx : ∀ y ∈ acc, R y x := by
      intro y hy
      exact (List.pairwise_append.mp h).2.2 y hy x List.mem_cons_self
    have hassoc : acc ++ [x] ++ xs = acc ++ x :: xs := by
      rw [List.append_assoc, List.singleton_append]
    rw [List.foldl_cons, hop acc x hx, ih (by rwa [hassoc]), hassoc]

/-! ### Values without parts -/

/-- A value without parts is read from what is found in its place. -/
theorem rereads_scalar {expected : Expected} {pick : Found → Option (Except Error α)} {j : Json}
    {x : Found} {res : Except Error α}
    (h : ∀ l m rest, Ends rest → found (j.write l m ++ rest) = .ok ⟨x, rest⟩)
    (hpick : (pick x).getD (.error (.invalidType x expected)) = res) :
    Rereads (fun _ => scalar expected pick) j res := by
  refine ⟨fun {l m n bs rest} _ hrest hbs => ?_⟩
  subst hpick
  simp only [scalar, found_congr hbs, h l m rest hrest]
  cases pick x with
  | none => rfl
  | some y => cases y <;> rfl

/-- The literal `null` is found where it is written. -/
theorem found_null (l : Layout) (m : Nat) (rest : Bytes) :
    found (Json.write l m .null ++ rest) = .ok ⟨.null, rest⟩ := rfl

/-- A boolean is found where it is written. -/
theorem found_boolean (b : Bool) (l : Layout) (m : Nat) (rest : Bytes) :
    found (Json.write l m (.boolean b) ++ rest) = .ok ⟨.boolean b, rest⟩ := by
  cases b <;> rfl

/-- A string is found where it is written. -/
theorem found_string (s : String) (l : Layout) (m : Nat) (rest : Bytes) :
    found (Json.write l m (.string s) ++ rest) = .ok ⟨.string s, rest⟩ := by
  have hquote : skipSpace (Mark.quote :: (Text.quoted s ++ rest)) =
      Mark.quote :: (Text.quoted s ++ rest) := skipSpace_of_not_space rfl
  rw [Json.write, Text.quote_eq, List.cons_append, found, hquote]
  simp only [Text.read_quoted, map_ok]
  rfl

/-- A number is found where its text stands. -/
theorem found_numeral {t : Bytes} {x : Found} (h : found t = .ok ⟨x, []⟩) (l : Layout) (m : Nat)
    {rest : Bytes} (hrest : Ends rest) :
    found (Json.write l m (.numeral t) ++ rest) = .ok ⟨x, rest⟩ := by
  rw [Json.write]
  exact found_append (fun _ => hrest) h

/-- What is found where a number stands. -/
def foundNumber : Number → Found
  | .integer n => .integer n
  | .float x => .float x

/-- The first byte of a number starts nothing else. -/
theorem ne_of_sign_or_digit {b : UInt8} (hb : b = Mark.minus ∨ isDigit b = true) :
    isSpace b = false ∧ b ≠ 0x6E ∧ b ≠ 0x74 ∧ b ≠ 0x66 ∧ b ≠ Mark.closeBracket := by
  rcases hb with rfl | hb
  · decide
  · refine ⟨?_, ?_, ?_, ?_, ?_⟩
    · by_contra hspace
      simp only [isSpace, Bool.not_eq_false, Bool.or_eq_true, decide_eq_true_eq] at hspace
      rcases hspace with ((rfl | rfl) | rfl) | rfl <;> contradiction
    all_goals
      rintro rfl
      contradiction

/-- A text that starts with a minus sign or a digit is looked at as a number. -/
theorem found_of_sign_or_digit {b : UInt8} (hb : b = Mark.minus ∨ isDigit b = true) (t : Bytes) :
    found (b :: t) = (Number.read (b :: t)).map fun p => ⟨foundNumber p.1, p.2⟩ := by
  obtain ⟨hspace, hnull, htrue, hfalse, -⟩ := ne_of_sign_or_digit hb
  rw [found, skipSpace_of_not_space hspace]
  simp only [if_neg hnull, if_neg htrue, if_neg hfalse, if_pos hb]
  cases Number.read (b :: t) with
  | error e => rfl
  | ok p =>
    obtain ⟨x, r⟩ := p
    cases x <;> rfl

/-- Where a number is read, it is found. -/
theorem found_of_read {t r : Bytes} {x : Number} (h : Number.read t = .ok (x, r)) :
    found t = .ok ⟨foundNumber x, r⟩ := by
  cases t with
  | nil => contradiction
  | cons b t =>
    have hb : b = Mark.minus ∨ isDigit b = true := by
      rw [Number.read] at h
      split at h
      · exact .inl ‹_›
      · rw [Number.readUnsigned] at h
        split at h
        · contradiction
        · exact .inr (Decidable.not_not.mp ‹_›)
    rw [found_of_sign_or_digit hb, h]
    rfl

/-! ### Arrays -/

/-- The text of an array after its opening bracket. -/
def arrayRest (l : Layout) (m : Nat) : List Json → Bytes
  | [] => [Mark.closeBracket]
  | j :: js => l.newline (m + 1) ++ write l (m + 1) j ++ writeItems l m js ++ [Mark.closeBracket]

/-- An array is written as its opening bracket and what comes after this. -/
theorem write_array (l : Layout) (m : Nat) (js : List Json) :
    write l m (.array js) = Mark.openBracket :: arrayRest l m js := by
  cases js <;> rw [write, arrayRest]

/-- The text of an array starts with a bracket. -/
theorem starts_array (js : List Json) : Starts (.array js) := by
  intro l m rest
  rw [write_array]
  exact ⟨Mark.openBracket, arrayRest l m js ++ rest, rfl, by decide, fun h => absurd h (by decide)⟩

/-- The elements after the first one end every number. -/
theorem ends_writeItems (l : Layout) (m : Nat) (js : List Json) (rest : Bytes) :
    Ends (writeItems l m js ++ Mark.closeBracket :: rest) := by
  cases js with
  | nil =>
    rw [writeItems]
    exact ends_newline (ends_cons.mpr (by decide))
  | cons j js =>
    rw [writeItems, List.cons_append]
    exact ends_cons.mpr (by decide)

/-- What is left when the elements of an array are read: if there is no limit to their number, the
closing bracket was looked for. -/
def closing (l : Layout) (m : Nat) (rest : Bytes) : Option Nat → Bytes
  | none => Mark.closeBracket :: rest
  | some _ => l.newline m ++ Mark.closeBracket :: rest

/-- The closing bracket is found where it is left. -/
theorem closeArray_closing (l : Layout) (m : Nat) (rest : Bytes) (limit : Option Nat) :
    closeArray (closing l m rest limit) = .ok rest := by
  cases limit with
  | none => rfl
  | some k =>
    rw [closing, closeArray, skipSpace_newline]
    rfl

/-- The closing bracket comes next. -/
theorem nextElement_closing (first : Bool) (l : Layout) (m : Nat) (rest : Bytes) :
    nextElement first (l.newline m ++ Mark.closeBracket :: rest) =
      .ok (false, Mark.closeBracket :: rest) := by
  rw [nextElement, skipSpace_newline]
  rfl

/-- The first element comes next. -/
theorem nextElement_first {j : Json} (hj : Starts j) (l : Layout) (m k : Nat) (rest : Bytes) :
    nextElement true (l.newline k ++ (write l m j ++ rest)) =
      .ok (true, skipSpace (write l m j ++ rest)) := by
  obtain ⟨b, s, hs, hb, -⟩ := hj l m rest
  rw [nextElement, skipSpace_newline, hs]
  simp only [if_neg hb, if_true]

/-- The next element comes after a comma. -/
theorem nextElement_comma {j : Json} (hj : Starts j) (l : Layout) (m k : Nat) (rest : Bytes) :
    nextElement false (Mark.comma :: (l.newline k ++ (write l m j ++ rest))) =
      .ok (true, skipSpace (write l m j ++ rest)) := by
  obtain ⟨b, s, hs, hb, -⟩ := hj l m rest
  rw [nextElement, skipSpace_of_not_space rfl]
  simp only [skipSpace_newline, hs, if_neg hb, if_true]
  rfl

section

variable {rd : Nat → Reader α} {l : Layout} {m n : Nat} {rest : Bytes} {limit : Option Nat}
  {acc : List α}

/-- An element is read where its text comes next, and then those after it. -/
theorem elements_write_next {j : Json} {bs tail : Bytes} (hj : Steady rd j) (hn : j.nesting ≤ n)
    (htail : Ends tail) (hlimit : limit ≠ some 0)
    (h : nextElement acc.isEmpty bs = .ok (true, skipSpace (write l m j ++ tail))) :
    elements (rd n) limit acc bs =
      reread rd j >>= fun x => elements (rd n) (limit.map (· - 1)) (x :: acc) tail := by
  have hrun := hj.rereads.run (l := l) (m := m) hn htail (skipSpace_skipSpace _)
  rw [elements_of_next hlimit h, hrun]
  cases reread rd j <;> rfl

/-- An element and those after it are read to the closing bracket. -/
theorem elements_write_cons {j : Json} {js : List Json} {bs : Bytes} (hj : Steady rd j)
    (hn : j.nesting ≤ n) (hlimit : ∀ k ∈ limit, k = js.length + 1)
    (h : nextElement acc.isEmpty bs = .ok (true, skipSpace (write l (m + 1) j ++
      (writeItems l m js ++ Mark.closeBracket :: rest))))
    (ih : ∀ x, (∀ k ∈ limit.map (· - 1), k = js.length) →
      elements (rd n) (limit.map (· - 1)) (x :: acc)
        (writeItems l m js ++ Mark.closeBracket :: rest) =
      (js.mapM (reread rd)).map fun xs =>
        ((x :: acc).reverse ++ xs, closing l m rest (limit.map (· - 1)))) :
    elements (rd n) limit acc bs =
      ((j :: js).mapM (reread rd)).map fun xs => (acc.reverse ++ xs, closing l m rest limit) := by
  -- The limit, if there is one, counts the elements that are left.
  have hne : limit ≠ some 0 := by
    rintro rfl
    have := hlimit 0 rfl
    contradiction
  have hlimit' : ∀ k ∈ limit.map (· - 1), k = js.length := by
    intro k hk
    obtain ⟨i, hi, rfl⟩ := Option.map_eq_some_iff.mp hk
    rw [hlimit i hi, Nat.add_sub_cancel]
  have hclosing : closing l m rest (limit.map (· - 1)) = closing l m rest limit := by
    cases limit <;> rfl
  rw [elements_write_next hj hn (ends_writeItems l m js rest) hne h, List.mapM_cons]
  cases reread rd j with
  | error e => rfl
  | ok x =>
    rw [ok_bind, ih x hlimit', hclosing]
    cases js.mapM (reread rd) with
    | error e => rfl
    | ok xs => simp [pure, Except.pure, map_ok, ok_bind]

/-- The elements after the first one are read to the closing bracket. -/
theorem elements_writeItems {js : List Json} (h : ∀ j ∈ js, Steady rd j)
    (hn : nestingItems js ≤ n) (hacc : acc.isEmpty = false) (hlimit : ∀ k ∈ limit, k = js.length) :
    elements (rd n) limit acc (writeItems l m js ++ Mark.closeBracket :: rest) =
      (js.mapM (reread rd)).map fun xs => (acc.reverse ++ xs, closing l m rest limit) := by
  induction js generalizing acc limit with
  | nil =>
    rw [writeItems, List.mapM_nil]
    cases limit with
    | none =>
      -- The closing bracket is seen by looking for one element more.
      rw [elements_of_end (by simp) (nextElement_closing _ l m rest)]
      simp [pure, Except.pure, map_ok, closing]
    | some k =>
      -- The elements are counted, and the bracket was not looked for yet.
      obtain rfl := hlimit k rfl
      rw [List.length_nil, elements_of_limit]
      simp [pure, Except.pure, map_ok, closing]
  | cons j js ih =>
    rw [List.forall_mem_cons] at h
    rw [nestingItems] at hn
    refine elements_write_cons h.1 (by omega) hlimit ?_ fun x hlimit' =>
      ih h.2 (by omega) rfl hlimit'
    rw [hacc, writeItems, List.cons_append, List.append_assoc, List.append_assoc]
    exact nextElement_comma h.1.starts l (m + 1) (m + 1) _

/-- The elements of an array are read to the closing bracket. -/
theorem elements_arrayRest {js : List Json} (h : ∀ j ∈ js, Steady rd j)
    (hn : nestingItems js ≤ n) (hlimit : ∀ k ∈ limit, k = js.length) :
    ∃ r, closeArray r = .ok rest ∧
      elements (rd n) limit [] (arrayRest l m js ++ rest) =
        (js.mapM (reread rd)).map (·, r) := by
  cases js with
  | nil =>
    refine ⟨Mark.closeBracket :: rest, rfl, ?_⟩
    cases limit with
    | none => exact elements_of_end (by simp) (nextElement_closing true .compact 0 rest)
    | some k =>
      obtain rfl := hlimit k rfl
      exact elements_of_limit
  | cons j js =>
    refine ⟨closing l m rest limit, closeArray_closing l m rest limit, ?_⟩
    rw [List.forall_mem_cons] at h
    rw [nestingItems] at hn
    refine elements_write_cons h.1 (by omega) hlimit ?_ fun x hlimit' =>
      elements_writeItems h.2 (by omega) rfl hlimit'
    rw [arrayRest, List.append_assoc, List.append_assoc, List.append_assoc]
    exact nextElement_first h.1.starts l (m + 1) (m + 1) _

end

/-- Where an array stands, its opening bracket is found. -/
theorem found_array {l : Layout} {m : Nat} {js : List Json} {bs rest : Bytes}
    (h : skipSpace bs = skipSpace (write l m (.array js) ++ rest)) :
    found bs = .ok ⟨.sequence, arrayRest l m js ++ rest⟩ := by
  rw [found_congr h, write_array]
  rfl

/-- An array is read element by element. -/
theorem rereads_sequence {rd : Nat → Reader α} {expected : Expected} {limit : Option Nat}
    {make : List α → Except Error β} {js : List Json} (h : ∀ j ∈ js, Steady rd j)
    (hlimit : ∀ k ∈ limit, k = js.length) :
    Rereads (fun n => Reader.sequence expected (below rd n) limit make) (.array js)
      (js.mapM (reread rd) >>= make) := by
  refine ⟨fun {l m n bs rest} hn _ hbs => ?_⟩
  -- One level is left for the array itself, and those of its elements are one less.
  rw [nesting] at hn
  cases n with
  | zero => omega
  | succ n =>
    have hn : nestingItems js ≤ n := Nat.le_of_succ_le_succ hn
    obtain ⟨r, hclose, helements⟩ : ∃ r, closeArray r = .ok rest ∧
        elements (rd n) limit [] (arrayRest l m js ++ rest) = (js.mapM (reread rd)).map (·, r) :=
      elements_arrayRest h hn hlimit
    simp only [Reader.sequence, found_array hbs, below, items, helements]
    cases js.mapM (reread rd) with
    | error e => rfl
    | ok xs =>
      simp only [map_ok, ok_bind]
      cases make xs with
      | error e => rfl
      | ok y => simp only [ok_bind, hclose, map_ok]

/-! ### Objects -/

/-- The text of an object after its opening brace. -/
def objectRest (l : Layout) (m : Nat) : List (String × Json) → Bytes
  | [] => [Mark.closeBrace]
  | (k, j) :: ms =>
    l.newline (m + 1) ++ Text.quote k ++ l.colon ++ write l (m + 1) j ++ writeMembers l m ms ++
      [Mark.closeBrace]

/-- An object is written as its opening brace and what comes after this. -/
theorem write_object (l : Layout) (m : Nat) (ms : List (String × Json)) :
    write l m (.object ms) = Mark.openBrace :: objectRest l m ms := by
  cases ms <;> rw [write, objectRest]

/-- The text of an object starts with a brace. -/
theorem starts_object (ms : List (String × Json)) : Starts (.object ms) := by
  intro l m rest
  rw [write_object]
  exact ⟨Mark.openBrace, objectRest l m ms ++ rest, rfl, by decide, fun h => absurd h (by decide)⟩

/-- A member is nested no deeper than the deepest of them. -/
theorem nesting_le_nestingMembers {km : String × Json} {ms : List (String × Json)}
    (h : km ∈ ms) : km.2.nesting ≤ nestingMembers ms := by
  induction ms with
  | nil => contradiction
  | cons ln ms ih =>
    rw [nestingMembers]
    rcases List.mem_cons.mp h with rfl | h
    · exact Nat.le_max_left _ _
    · exact Nat.le_trans (ih h) (Nat.le_max_right _ _)

/-- The members after the first one end every number. -/
theorem ends_writeMembers (l : Layout) (m : Nat) (ms : List (String × Json)) (rest : Bytes) :
    Ends (writeMembers l m ms ++ Mark.closeBrace :: rest) := by
  cases ms with
  | nil =>
    rw [writeMembers]
    exact ends_newline (ends_cons.mpr (by decide))
  | cons km ms =>
    rw [writeMembers, List.cons_append]
    exact ends_cons.mpr (by decide)

/-- The closing brace comes next. -/
theorem nextKey_closing (first : Bool) (l : Layout) (m : Nat) (rest : Bytes) :
    nextKey first (l.newline m ++ Mark.closeBrace :: rest) = .ok (false, rest) := by
  rw [nextKey, skipSpace_newline]
  rfl

/-- The key of the first member comes next. -/
theorem nextKey_first (k : String) (l : Layout) (m : Nat) (rest : Bytes) :
    nextKey true (l.newline m ++ (Text.quote k ++ rest)) = .ok (true, Text.quoted k ++ rest) := by
  rw [nextKey, skipSpace_newline]
  rfl

/-- The key of the next member comes after a comma. -/
theorem nextKey_comma (k : String) (l : Layout) (m : Nat) (rest : Bytes) :
    nextKey false (Mark.comma :: (l.newline m ++ (Text.quote k ++ rest))) =
      .ok (true, Text.quoted k ++ rest) := by
  have hquote : skipSpace (Text.quote k ++ rest) = Mark.quote :: (Text.quoted k ++ rest) :=
    skipSpace_of_not_space rfl
  rw [nextKey, skipSpace_of_not_space rfl]
  simp only [skipSpace_newline, hquote]
  rfl

section

variable {a : Member σ} {step : σ → String × Json → Except Error σ} {l : Layout} {m : Nat}
  {rest : Bytes}

/-- What is done at a member is `step`, wherever the rest of the object stands. -/
def Steps (a : Member σ) (step : σ → String × Json → Except Error σ) (l : Layout) (m : Nat)
    (ms : List (String × Json)) : Prop :=
  ∀ km ∈ ms, ∀ (s : σ) (tail : Bytes), Ends tail →
    a.run s km.1 (l.colon ++ (write l m km.2 ++ tail)) = (step s km).map (·, tail)

/-- The members after the first one are gone through to the closing brace. -/
theorem members_writeMembers {ms : List (String × Json)} (h : Steps a step l (m + 1) ms) (s : σ) :
    members a false s (writeMembers l m ms ++ Mark.closeBrace :: rest) =
      (ms.foldlM step s).map (·, rest) := by
  induction ms generalizing s with
  | nil =>
    rw [writeMembers, members_of_end (nextKey_closing _ l m rest)]
    rfl
  | cons km ms ih =>
    obtain ⟨hkm, hms⟩ := List.forall_mem_cons.mp h
    have hnext := nextKey_comma km.1 l (m + 1) (l.colon ++ (write l (m + 1) km.2 ++
      (writeMembers l m ms ++ Mark.closeBrace :: rest)))
    rw [writeMembers]
    simp only [List.cons_append, List.append_assoc]
    rw [members_of_next hnext (Text.read_quoted _ _), hkm s _ (ends_writeMembers l m ms rest),
      List.foldlM_cons]
    cases step s km with
    | error e => rfl
    | ok t => exact ih hms t

/-- The members of an object are gone through to the closing brace. -/
theorem members_objectRest {ms : List (String × Json)} (h : Steps a step l (m + 1) ms) (s : σ) :
    members a true s (objectRest l m ms ++ rest) = (ms.foldlM step s).map (·, rest) := by
  cases ms with
  | nil => exact members_of_end (nextKey_closing true .compact 0 rest)
  | cons km ms =>
    obtain ⟨hkm, hms⟩ := List.forall_mem_cons.mp h
    have hnext := nextKey_first km.1 l (m + 1) (l.colon ++ (write l (m + 1) km.2 ++
      (writeMembers l m ms ++ Mark.closeBrace :: rest)))
    rw [objectRest]
    simp only [List.append_assoc, List.singleton_append]
    rw [members_of_next hnext (Text.read_quoted _ _), hkm s _ (ends_writeMembers l m ms rest),
      List.foldlM_cons]
    cases step s km with
    | error e => rfl
    | ok t => exact members_writeMembers hms t

end

/-- The keys and values of an object are collected in order. -/
theorem foldlM_entry (f : Json → Except Error α) (ms : List (String × Json))
    (acc : List (String × α)) :
    ms.foldlM (fun acc km => (f km.2).map fun x => (km.1, x) :: acc) acc =
      (ms.mapM fun km => (f km.2).map (km.1, ·)).map fun xs => xs.reverse ++ acc := by
  induction ms generalizing acc with
  | nil => rfl
  | cons km ms ih =>
    rw [List.foldlM_cons, List.mapM_cons]
    cases f km.2 with
    | error e => rfl
    | ok x =>
      simp only [map_ok, ok_bind, ih]
      cases ms.mapM fun km => (f km.2).map (km.1, ·) with
      | error e => rfl
      | ok xs => simp [pure, Except.pure, map_ok, ok_bind]

/-- Where an object stands, its opening brace is found. -/
theorem found_object {l : Layout} {m : Nat} {ms : List (String × Json)} {bs rest : Bytes}
    (h : skipSpace bs = skipSpace (write l m (.object ms) ++ rest)) :
    found bs = .ok ⟨.map, objectRest l m ms ++ rest⟩ := by
  rw [found_congr h, write_object]
  rfl

/-- An object with any keys is read member by member. -/
theorem rereads_pairs {rd : Nat → Reader α} {ms : List (String × Json)}
    (h : ∀ km ∈ ms, Steady rd km.2) :
    Rereads (fun n => pairs (below rd n)) (.object ms)
      (ms.mapM fun km => (reread rd km.2).map (km.1, ·)) := by
  refine ⟨fun {l m n bs rest} hn _ hbs => ?_⟩
  rw [nesting] at hn
  cases n with
  | zero => omega
  | succ n =>
    -- At each member the key is kept with what is read of the value.
    have hsteps : Steps (entry (rd n))
        (fun acc km => (reread rd km.2).map fun x => (km.1, x) :: acc) l (m + 1) ms := by
      intro km hkm acc tail htail
      have hle := nesting_le_nestingMembers hkm
      obtain ⟨r, hcolon, hr⟩ := exists_colon_write l (write l (m + 1) km.2 ++ tail)
      simp only [entry, hcolon, ok_bind, (h km hkm).rereads.run (n := n) (by omega) htail hr]
      cases reread rd km.2 <;> rfl
    simp only [pairs, found_object hbs, below, entries, members_objectRest hsteps, foldlM_entry]
    cases ms.mapM fun km => (reread rd km.2).map (km.1, ·) with
    | error e => rfl
    | ok xs => simp [map_ok]

end GltfAsset.Json
