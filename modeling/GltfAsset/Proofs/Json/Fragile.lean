import GltfAsset.Proofs.Json.Cut
import GltfAsset.Proofs.Json.Records
import GltfAsset.Proofs.Json.Steady

/-!
# The text of a tree that is cut short

A tree is fragile for a reader if its text is read, and if of a beginning of its text it is said
that the text ends too early, or something is read that takes all of it (`Fragile`). The latter
happens to a number alone; inside an array or object the text then ends too early for what comes
after it. So the text of an array or object whose parts are fragile ends too early wherever it is
cut (`endsEarly_items`, `endsEarly_members`).
-/

namespace GltfAsset.Json

open Reader

variable {α β σ R : Type}

/-- The text of the tree is read, and its beginnings are cut short or read to their end. -/
structure Fragile (rd : Nat → Reader α) (j : Json) : Prop where
  /-- The start of the text. -/
  starts : Starts j
  /-- The text is read wherever it stands. -/
  reads : ∃ x, Rereads rd j (.ok x)
  /-- Nothing else is said of a beginning of the text. -/
  cut : ∀ {l : Layout} {m n : Nat} {p bs : Bytes}, j.nesting ≤ n → p <+: j.write l m →
    skipSpace bs = skipSpace p → Cut ((rd n).run bs)

/-- It is enough to look at beginnings that are not the whole text. -/
theorem fragile_of_endsEarly {rd : Nat → Reader α} {j : Json} (hstarts : Starts j) {x : α}
    (hreads : Rereads rd j (.ok x))
    (h : ∀ {l : Layout} {m n : Nat} {p bs : Bytes}, j.nesting ≤ n → p <+: j.write l m →
      p ≠ j.write l m → skipSpace bs = skipSpace p → EndsEarly ((rd n).run bs)) :
    Fragile rd j where
  starts := hstarts
  reads := ⟨x, hreads⟩
  cut {l m n p bs} hn hp hbs := by
    rcases eq_or_ne p (j.write l m) with rfl | hne
    · have hbs : skipSpace bs = skipSpace (j.write l m ++ []) := by rw [List.append_nil, hbs]
      exact .inr ⟨x, hreads.run hn ends_nil hbs⟩
    · exact .inl (h hn hp hne hbs)

/-- A text that is cut ends too early also when what is read is changed. -/
theorem Fragile.map {rd : Nat → Reader α} {j : Json} (h : Fragile rd j) (f : α → β) :
    Fragile (fun n => (rd n).map f) j where
  starts := h.starts
  reads := by
    obtain ⟨x, hx⟩ := h.reads
    exact ⟨f x, hx.map f⟩
  cut hn hp hbs := (h.cut hn hp hbs).map f

/-! ## Values that may be absent -/

/-- Of white space nothing is read. -/
def Blank (rd : Nat → Reader α) : Prop :=
  ∀ (n : Nat) (bs : Bytes), skipSpace bs = [] → EndsEarly ((rd n).run bs)

/-- Of white space nothing is read, whatever would be made of it. -/
theorem Blank.map {rd : Nat → Reader α} (h : Blank rd) (f : α → β) :
    Blank fun n => (rd n).map f := fun n bs hbs => (h n bs hbs).map _

/-- White space is not taken for an absent value. -/
theorem Blank.optional {rd : Nat → Reader α} (h : Blank rd) : Blank fun n => (rd n).optional := by
  intro n bs hbs
  simp only [Reader.optional, runOptional, hbs]
  exact (h n bs hbs).map _

/-- A fragile value other than `null` is so where it may be absent. -/
theorem Fragile.optional {rd : Nat → Reader α} {j : Json} (h : Fragile rd j) (hj : j ≠ .null) :
    Fragile (fun n => (rd n).optional) j where
  starts := h.starts
  reads := by
    obtain ⟨x, hx⟩ := h.reads
    exact ⟨some x, hx.optional h.starts hj⟩
  cut {l m n p bs} hn hp hbs := by
    have hcut := (h.cut hn hp hbs).map some
    simp only [Reader.optional, runOptional]
    split
    · exact hcut
    · rename_i b s hs
      -- The first letter is that of the text, so it is not that of `null`.
      obtain ⟨c, t, ht, -, hnull⟩ := h.starts l m []
      rw [List.append_nil] at ht
      have hb : b ≠ 0x6E := by
        rcases skipSpace_of_isPrefix hp with hblank | ⟨d, u, v, hd, hv, -⟩
        · rw [hbs, hblank] at hs
          contradiction
        · rw [hbs, hv] at hs
          rw [hd] at ht
          obtain ⟨rfl, -⟩ := List.cons.inj hs
          obtain ⟨rfl, -⟩ := List.cons.inj ht
          exact fun hb => hj (hnull hb)
      rw [if_neg hb]
      exact hcut

/-- The beginnings of `null` where a value may be absent. -/
theorem fragile_optional_null {rd : Nat → Reader α} (h : Blank rd) :
    Fragile (fun n => (rd n).optional) .null where
  starts := starts_null
  reads := ⟨none, rereads_optional_null rd⟩
  cut {l m n p bs} _ hp hbs := by
    rcases List.prefix_cons_iff.mp hp with rfl | ⟨t, rfl, ht⟩
    · exact .inl (h.optional n bs hbs)
    · rw [skipSpace_of_not_space rfl] at hbs
      simp only [Reader.optional, runOptional, hbs]
      rcases literal_of_isPrefix ht with hearly | hok
      · exact .inl (hearly.map _)
      · exact .inr ⟨none, by simp only [if_true, hok, map_ok]⟩

/-! ## Values without parts -/

/-- No value without parts is read of white space. -/
theorem blank_scalar (expected : Expected) (pick : Found → Option (Except Error α)) :
    Blank fun _ => scalar expected pick := by
  intro n bs hbs
  obtain ⟨u, hu⟩ := endsEarly_found hbs
  simp only [scalar, hu]
  exact endsEarly_error u

/-- A beginning of the text of a value without parts is cut short, or a value of the same kind. -/
theorem fragile_scalar {expected : Expected} {pick : Found → Option (Except Error α)} {j : Json}
    (hsteady : Steady (fun _ => scalar expected pick) j)
    (hread : ∃ x, reread (fun _ => scalar expected pick) j = .ok x)
    (h : ∀ {l : Layout} {m : Nat} {p : Bytes}, p <+: j.write l m →
      EndsEarly (found p) ∨ ∃ y z, found p = .ok ⟨y, []⟩ ∧ pick y = some (.ok z)) :
    Fragile (fun _ => scalar expected pick) j where
  starts := hsteady.starts
  reads := by
    obtain ⟨x, hx⟩ := hread
    exact ⟨x, hx ▸ hsteady.rereads⟩
  cut {l m n p bs} _ hp hbs := by
    simp only [scalar, found_congr hbs]
    rcases h hp with ⟨u, hu⟩ | ⟨y, z, hy, hz⟩
    · rw [hu]
      exact .inl (endsEarly_error u)
    · rw [hy]
      exact .inr ⟨z, by simp only [hz]⟩

/-- A string that is cut short is not found, and a whole one is. -/
theorem found_of_isPrefix_string {s : String} {p : Bytes} (hp : p <+: Text.quote s) :
    EndsEarly (found p) ∨ found p = .ok ⟨.string s, []⟩ := by
  rcases List.prefix_cons_iff.mp hp with rfl | ⟨t, rfl, ht⟩
  · exact .inl (endsEarly_found rfl)
  · have hfound : found (Mark.quote :: t) = (Text.read t).map fun q => ⟨.string q.1, q.2⟩ := rfl
    rw [hfound]
    rcases eq_or_ne t (Text.quoted s) with rfl | hne
    · have hread := Text.read_quoted s []
      rw [List.append_nil] at hread
      exact .inr (by rw [hread, map_ok])
    · exact .inl ((Text.endsEarly_read_of_isPrefix ht hne).map _)

/-- The literal `null` is not found if it is cut short. -/
theorem found_of_isPrefix_null {p : Bytes} (hp : p <+: 0x6E :: restOfNull) :
    EndsEarly (found p) ∨ found p = .ok ⟨.null, []⟩ := by
  rcases List.prefix_cons_iff.mp hp with rfl | ⟨t, rfl, ht⟩
  · exact .inl (endsEarly_found rfl)
  · have hfound : found (0x6E :: t) = (literal restOfNull t).map (⟨.null, ·⟩) := rfl
    rw [hfound]
    exact (literal_of_isPrefix ht).imp (·.map _) fun h => by rw [h, map_ok]

/-- A boolean that is cut short is not found. -/
theorem found_of_isPrefix_boolean {b : Bool} {l : Layout} {m : Nat} {p : Bytes}
    (hp : p <+: (Json.boolean b).write l m) :
    EndsEarly (found p) ∨ found p = .ok ⟨.boolean b, []⟩ := by
  cases b with
  | true =>
    rcases List.prefix_cons_iff.mp hp with rfl | ⟨t, rfl, ht⟩
    · exact .inl (endsEarly_found rfl)
    · have hfound : found (0x74 :: t) = (literal restOfTrue t).map (⟨.boolean true, ·⟩) := rfl
      rw [hfound]
      exact (literal_of_isPrefix ht).imp (·.map _) fun h => by rw [h, map_ok]
  | false =>
    rcases List.prefix_cons_iff.mp hp with rfl | ⟨t, rfl, ht⟩
    · exact .inl (endsEarly_found rfl)
    · have hfound : found (0x66 :: t) = (literal restOfFalse t).map (⟨.boolean false, ·⟩) := rfl
      rw [hfound]
      exact (literal_of_isPrefix ht).imp (·.map _) fun h => by rw [h, map_ok]

/-- A beginning of an integer is an integer of the same sign that is no greater. -/
theorem found_of_isPrefix_integer {n : Int} (hmin : Int64.minValue.toInt ≤ n)
    (hmax : n < Number.limit) {p : Bytes} (hp : p <+: Number.ofInt n) :
    EndsEarly (found p) ∨ ∃ k, found p = .ok ⟨.integer k, []⟩ ∧ k ≤ max n 0 := by
  obtain rfl | rfl | ⟨k, rfl, hk₁, hk₂⟩ := Number.exists_ofInt_of_isPrefix hp
  · exact .inl (endsEarly_found rfl)
  · exact .inl (endsEarly_error _)
  · have hzero : Int64.minValue.toInt ≤ 0 := by decide
    have hlimit : (0 : Int) < Number.limit := by decide
    exact .inr ⟨k, found_of_read (Number.read_ofInt (by omega) (by omega)), hk₂⟩

/-- A beginning of a number that is not too large is a number. -/
theorem found_of_isPrefix_text {n : Numeral} (hlength : n.whole.length ≤ 20) {x : Number}
    (h : n.value = .ok x) {p : Bytes} (hp : p <+: n.text) :
    EndsEarly (found p) ∨ ∃ y, found p = .ok ⟨foundNumber y, []⟩ := by
  have hcut := Number.cut_read hlength h hp
  obtain ⟨b, t, ht, hb⟩ := Number.exists_numeral_text n
  rw [ht] at hp
  rcases List.prefix_cons_iff.mp hp with rfl | ⟨q, rfl, -⟩
  · exact .inl (endsEarly_found rfl)
  · rw [found_of_sign_or_digit hb]
    rcases hcut with hearly | ⟨y, hy⟩
    · exact .inl (hearly.map _)
    · exact .inr ⟨y, by rw [hy, map_ok]⟩

/-! ## Arrays -/

/-- The text ends too early, or as many elements as are wanted were read and the text is over. -/
def Unclosed (count : Nat) (res : Except Error (List α × Bytes)) : Prop :=
  EndsEarly res ∨ ∃ xs r, res = .ok (xs, r) ∧ xs.length = count ∧ skipSpace r = []

/-- The elements end too early if the text does before the next one. -/
theorem elements_of_error {rd : Reader α} {limit : Option Nat} {acc : List α} {bs : Bytes}
    (hlimit : limit ≠ some 0) (h : EndsEarly (nextElement acc.isEmpty bs)) :
    EndsEarly (elements rd limit acc bs) := by
  obtain ⟨u, hu⟩ := h
  rw [elements, if_neg hlimit]
  split
  · rename_i e he
    rw [hu] at he
    exact ⟨u, congrArg _ (Except.error.inj he).symm⟩
  · simp_all
  · simp_all

section

variable {rd : Nat → Reader α} {l : Layout} {m n : Nat} {limit : Option Nat} {acc : List α}
  {j : Json} {js : List Json} {p q bs : Bytes}

/-- The text is cut in an element, or in what comes after it. -/
theorem unclosed_elements_cons (hj : Fragile rd j) (hn : j.nesting ≤ n) (hlimit : limit ≠ some 0)
    {tail : Bytes} (htail : Ends tail) (hq : q <+: write l m j ++ tail)
    (hne : q ≠ write l m j ++ tail) (htail' : tail ≠ [])
    (hblank : skipSpace q = [] → EndsEarly (nextElement acc.isEmpty bs))
    (hnext : ∀ b s, skipSpace q = b :: s → b ≠ Mark.closeBracket →
      nextElement acc.isEmpty bs = .ok (true, b :: s)) {count : Nat}
    (ih : ∀ x p, p <+: tail → p ≠ tail →
      Unclosed count (elements (rd n) (limit.map (· - 1)) (x :: acc) p)) :
    Unclosed count (elements (rd n) limit acc bs) := by
  rcases prefix_append_cases hq with hq | ⟨r, rfl, hr⟩
  · rcases skipSpace_of_isPrefix hq with hs | ⟨b, s, t, hs, ht, -⟩
    · exact .inl (elements_of_error hlimit (hblank hs))
    · obtain ⟨c, u, hu, hc, -⟩ := hj.starts l m []
      rw [List.append_nil, hs] at hu
      obtain ⟨rfl, rfl⟩ := List.cons.inj hu
      have hcut : Cut ((rd n).run (b :: t)) :=
        hj.cut hn hq (by rw [← ht, skipSpace_skipSpace])
      rw [elements_of_next hlimit (hnext b t ht hc)]
      rcases hcut with hearly | ⟨x, hx⟩
      · exact .inl (hearly.bind _)
      · -- A number that is cut short is taken for an element, and nothing comes after it.
        rw [hx]
        exact ih x [] List.nil_prefix htail'.symm
  · obtain ⟨x, hx⟩ := hj.reads
    obtain ⟨b, s, hs, hb, -⟩ := hj.starts l m r
    have hrun : (rd n).run (b :: s) = .ok (x, r) :=
      hx.run hn (ends_of_isPrefix hr htail) (by rw [← hs, skipSpace_skipSpace])
    rw [elements_of_next hlimit (hnext b s hs hb), hrun]
    exact ih x r hr fun h => hne (by rw [h])

/-- There is room for a first element. -/
theorem limit_ne_zero (hlimit : ∀ k ∈ limit, k = (j :: js).length) : limit ≠ some 0 := by
  rintro rfl
  have := hlimit 0 rfl
  contradiction

/-- There is room for the other elements after the first one. -/
theorem limit_pred (hlimit : ∀ k ∈ limit, k = (j :: js).length) :
    ∀ k ∈ limit.map (· - 1), k = js.length := by
  intro k hk
  obtain ⟨i, hi, rfl⟩ := Option.map_eq_some_iff.mp hk
  rw [hlimit i hi, List.length_cons, Nat.add_sub_cancel]

/-- Where no element is left, the closing bracket is missed, or the limit is reached first. -/
theorem unclosed_nil (hlimit : ∀ k ∈ limit, k = ([] : List Json).length)
    (hblank : skipSpace p = []) :
    Unclosed (acc.length + ([] : List Json).length) (elements (rd n) limit acc p) := by
  cases limit with
  | none => exact .inl (elements_of_error (by simp) (endsEarly_nextElement hblank _))
  | some k =>
    obtain rfl := hlimit k rfl
    exact .inr ⟨_, p, elements_of_limit, by simp, hblank⟩

/-- The elements after the first one are cut short unless the closing bracket is there. -/
theorem unclosed_elements (h : ∀ j ∈ js, Fragile rd j) (hn : nestingItems js ≤ n)
    (hacc : acc.isEmpty = false) (hlimit : ∀ k ∈ limit, k = js.length)
    (hp : p <+: writeItems l m js ++ [Mark.closeBracket])
    (hne : p ≠ writeItems l m js ++ [Mark.closeBracket]) :
    Unclosed (acc.length + js.length) (elements (rd n) limit acc p) := by
  induction js generalizing acc limit p with
  | nil =>
    rw [writeItems] at hp hne
    exact unclosed_nil hlimit (skipSpace_of_isPrefix_closed (skipSpace_newline_nil l m) hp hne)
  | cons j js ih =>
    rw [List.forall_mem_cons] at h
    rw [nestingItems] at hn
    have hzero := limit_ne_zero hlimit
    have hassoc : writeItems l m (j :: js) ++ [Mark.closeBracket] =
        Mark.comma :: (l.newline (m + 1) ++ (write l (m + 1) j ++
          (writeItems l m js ++ [Mark.closeBracket]))) := by
      rw [writeItems, List.cons_append, List.append_assoc, List.append_assoc]
    rw [hassoc] at hp hne
    have hcount : acc.length + (j :: js).length = acc.length + 1 + js.length := by
      rw [List.length_cons]
      omega
    rcases List.prefix_cons_iff.mp hp with rfl | ⟨t, rfl, ht⟩
    · -- The cut is before the comma.
      exact .inl (elements_of_error hzero (endsEarly_nextElement rfl _))
    · rcases prefix_append_cases ht with ht | ⟨q, rfl, hq⟩
      · -- In the white space after it.
        have hblank := skipSpace_of_isPrefix_blank ht (skipSpace_newline_nil l (m + 1))
        exact .inl (elements_of_error hzero (hacc ▸ endsEarly_nextElement_comma hblank))
      · -- In the element or behind it.
        have hskip := skipSpace_newline l (m + 1) q
        rw [hcount]
        refine unclosed_elements_cons h.1 (by omega) hzero (ends_writeItems l m js []) hq
          (fun h => hne (by rw [h])) (by simp) (fun hs => ?_) (fun b s hs hb => ?_)
          fun x p hp hne => ih h.2 (by omega) rfl (limit_pred hlimit) hp hne
        · exact hacc ▸ endsEarly_nextElement_comma (hskip.trans hs)
        · rw [hacc, nextElement, skipSpace_of_not_space rfl]
          simp only [hskip.trans hs, if_neg hb]
          rfl

/-- The text of an array ends too early unless its closing bracket is there. -/
theorem endsEarly_items {make : List α → Except Error β} (h : ∀ j ∈ js, Fragile rd j)
    (hn : nestingItems js ≤ n) (hlimit : ∀ k ∈ limit, k = js.length)
    (hmake : ∀ xs, xs.length = js.length → ∃ y, make xs = .ok y)
    (hp : p <+: arrayRest l m js) (hne : p ≠ arrayRest l m js) :
    EndsEarly (items (rd n) limit make p) := by
  -- The first element comes without a comma, so the lemma on the others does not apply to it.
  have hunclosed : Unclosed js.length (elements (rd n) limit [] p) := by
    cases js with
    | nil =>
      exact unclosed_nil hlimit (skipSpace_of_isPrefix_closed (w := []) rfl hp hne)
    | cons j js =>
      rw [List.forall_mem_cons] at h
      rw [nestingItems] at hn
      have hzero := limit_ne_zero hlimit
      have hassoc : arrayRest l m (j :: js) = l.newline (m + 1) ++ (write l (m + 1) j ++
          (writeItems l m js ++ [Mark.closeBracket])) := by
        rw [arrayRest, List.append_assoc, List.append_assoc]
      rw [hassoc] at hp hne
      rcases prefix_append_cases hp with hp | ⟨q, rfl, hq⟩
      · have hblank := skipSpace_of_isPrefix_blank hp (skipSpace_newline_nil l (m + 1))
        exact .inl (elements_of_error hzero (endsEarly_nextElement hblank _))
      · have hskip := skipSpace_newline l (m + 1) q
        refine unclosed_elements_cons h.1 (by omega) hzero (ends_writeItems l m js []) hq
          (fun h => hne (by rw [h])) (by simp) (fun hs => ?_) (fun b s hs hb => ?_)
          fun x p hp hne => ?_
        · exact endsEarly_nextElement (hskip.trans hs) _
        · rw [List.isEmpty_nil, nextElement, hskip.trans hs]
          simp only [if_neg hb, if_true]
        · have hcount : (j :: js).length = [x].length + js.length := by
            rw [List.length_cons, List.length_singleton, Nat.add_comm]
          rw [hcount]
          exact unclosed_elements h.2 (by omega) rfl (limit_pred hlimit) hp hne
  -- If all elements were read, it is the bracket that is missed.
  rw [items]
  rcases hunclosed with hearly | ⟨xs, r, hxs, hlength, hr⟩
  · exact hearly.bind _
  · obtain ⟨y, hy⟩ := hmake xs hlength
    rw [hxs, ok_bind]
    simp only [hy, ok_bind]
    exact (endsEarly_closeArray hr).bind _

end

/-- A list is gone through without an error if there is none at any of its elements. -/
theorem exists_mapM_iff {ε : Type} {f : α → Except ε β} {xs : List α} :
    (∃ ys, xs.mapM f = .ok ys) ↔ ∀ x ∈ xs, ∃ y, f x = .ok y := by
  induction xs with
  | nil => simp [pure, Except.pure]
  | cons x xs ih =>
    rw [List.mapM_cons, List.forall_mem_cons, ← ih]
    cases f x with
    | error e => simp [bind, Except.bind]
    | ok y => cases xs.mapM f <;> simp [pure, Except.pure, bind, Except.bind]

/-- As many results are made as there are elements. -/
theorem length_of_mapM {ε : Type} {f : α → Except ε β} {xs : List α} {ys : List β}
    (h : xs.mapM f = .ok ys) : ys.length = xs.length := by
  induction xs generalizing ys with
  | nil =>
    obtain rfl := Except.ok.inj h
    rfl
  | cons x xs ih =>
    rw [List.mapM_cons] at h
    obtain ⟨y, -, h⟩ := bind_eq_ok_iff.mp h
    obtain ⟨zs, hzs, h⟩ := bind_eq_ok_iff.mp h
    obtain rfl := Except.ok.inj h
    rw [List.length_cons, ih hzs, List.length_cons]

/-- What is fragile is read in the same way wherever it stands. -/
theorem Fragile.steady {rd : Nat → Reader α} {j : Json} (h : Fragile rd j) : Steady rd j := by
  obtain ⟨x, hx⟩ := h.reads
  exact hx.steady h.starts

/-- What is fragile is read. -/
theorem Fragile.exists_reread {rd : Nat → Reader α} {j : Json} (h : Fragile rd j) :
    ∃ x, reread rd j = .ok x := by
  obtain ⟨x, hx⟩ := h.reads
  exact ⟨x, hx.reread_eq⟩

/-- Where a beginning of an array stands, its opening bracket is found and a beginning of what
comes after it. -/
theorem found_of_isPrefix_array {l : Layout} {m : Nat} {js : List Json} {p bs : Bytes}
    (hp : p <+: write l m (.array js)) (hne : p ≠ write l m (.array js))
    (hbs : skipSpace bs = skipSpace p) :
    EndsEarly (found bs) ∨ ∃ q, found bs = .ok ⟨.sequence, q⟩ ∧ q <+: arrayRest l m js ∧
      q ≠ arrayRest l m js := by
  rw [write_array] at hp hne
  rw [found_congr hbs]
  rcases List.prefix_cons_iff.mp hp with rfl | ⟨q, rfl, hq⟩
  · exact .inl (endsEarly_found rfl)
  · exact .inr ⟨q, rfl, hq, fun h => hne (by rw [h])⟩

/-- An array is fragile if its elements are. -/
theorem fragile_sequence {rd : Nat → Reader α} {expected : Expected} {limit : Option Nat}
    {make : List α → Except Error β} {js : List Json} (h : ∀ j ∈ js, Fragile rd j)
    (hlimit : ∀ k ∈ limit, k = js.length)
    (hmake : ∀ xs, xs.length = js.length → ∃ y, make xs = .ok y) :
    Fragile (fun n => Reader.sequence expected (below rd n) limit make) (.array js) := by
  have hrereads : Rereads (fun n => Reader.sequence expected (below rd n) limit make) (.array js)
      (js.mapM (reread rd) >>= make) := rereads_sequence (fun j hj => (h j hj).steady) hlimit
  obtain ⟨xs, hxs⟩ := exists_mapM_iff.mpr fun j hj => (h j hj).exists_reread
  obtain ⟨y, hy⟩ := hmake xs (length_of_mapM hxs)
  rw [hxs, ok_bind, hy] at hrereads
  refine fragile_of_endsEarly (starts_array js) hrereads fun {l m n p bs} hn hp hne hbs => ?_
  rw [nesting] at hn
  obtain ⟨n, rfl⟩ := Nat.exists_eq_add_one.mpr (Nat.zero_lt_of_lt hn)
  simp only [Reader.sequence, below]
  rcases found_of_isPrefix_array hp hne hbs with ⟨u, hu⟩ | ⟨q, hq, hprefix, hne⟩
  · simp only [hu]
    exact endsEarly_error u
  · simp only [hq]
    exact endsEarly_items h (Nat.le_of_succ_le_succ hn) hlimit hmake hprefix hne

/-! ## Objects -/

section

variable {a : Member σ} {l : Layout} {m n : Nat} {ms : List (String × Json)} {s : σ}

/-- The members are gone through one after the other, and at each of them a text that is cut short
is found to be so. -/
def FragileMembers (a : Member σ) (l : Layout) (m : Nat) : List (String × Json) → σ → Prop
  | [], _ => True
  | (k, j) :: ms, s =>
    (∀ q, q <+: l.colon ++ write l m j → Cut (a.run s k q)) ∧
    ∃ t, (∀ tail, Ends tail → a.run s k (l.colon ++ (write l m j ++ tail)) = .ok (t, tail)) ∧
      FragileMembers a l m ms t

/-- The members end too early if the text does before the next key. -/
theorem members_of_error {first : Bool} {bs : Bytes} (h : EndsEarly (nextKey first bs)) :
    EndsEarly (members a first s bs) := by
  obtain ⟨u, hu⟩ := h
  rw [members]
  split
  · rename_i e he
    rw [hu] at he
    exact ⟨u, congrArg _ (Except.error.inj he).symm⟩
  · simp_all
  · simp_all

/-- The members end too early if the text does in a key. -/
theorem members_of_key_error {first : Bool} {bs r : Bytes} (h : nextKey first bs = .ok (true, r))
    (hk : EndsEarly (Text.read r)) : EndsEarly (members a first s bs) := by
  obtain ⟨u, hu⟩ := hk
  rw [members]
  split
  · simp_all
  · simp_all
  · rename_i t ht
    obtain rfl : r = t := by simpa [h] using ht
    split
    · rename_i e he
      rw [hu] at he
      exact ⟨u, congrArg _ (Except.error.inj he).symm⟩
    · simp_all

/-- The text is cut in a member, or in what comes after it. -/
theorem endsEarly_members_cons {k : String} {j : Json} (h : FragileMembers a l m ((k, j) :: ms) s)
    {first : Bool} {tail q bs : Bytes} (htail : Ends tail) (htail' : tail ≠ [])
    (hq : q <+: Text.quote k ++ (l.colon ++ (write l m j ++ tail)))
    (hne : q ≠ Text.quote k ++ (l.colon ++ (write l m j ++ tail)))
    (hblank : skipSpace q = [] → EndsEarly (nextKey first bs))
    (hnext : ∀ t, q = Mark.quote :: t → nextKey first bs = .ok (true, t))
    (ih : ∀ t p, FragileMembers a l m ms t → p <+: tail → p ≠ tail →
      EndsEarly (members a false t p)) :
    EndsEarly (members a first s bs) := by
  obtain ⟨hcut, t, hrun, ht⟩ := h
  rw [Text.quote_eq, List.cons_append] at hq hne
  rcases List.prefix_cons_iff.mp hq with rfl | ⟨u, rfl, hu⟩
  · exact members_of_error (hblank rfl)
  · have hnext := hnext u rfl
    rcases prefix_append_cases hu with hu | ⟨r, rfl, hr⟩
    · rcases eq_or_ne u (Text.quoted k) with rfl | hkey
      · -- The key is all there, and nothing comes after it.
        have hread : Text.read (Text.quoted k) = .ok (k, []) := by
          have hread := Text.read_quoted k []
          rwa [List.append_nil] at hread
        rw [members_of_next hnext hread]
        rcases hcut [] List.nil_prefix with hearly | ⟨t, ht⟩
        · exact hearly.bind _
        · rw [ht]
          exact members_of_error (endsEarly_nextKey rfl _)
      · exact members_of_key_error hnext (Text.endsEarly_read_of_isPrefix hu hkey)
    · rw [members_of_next hnext (Text.read_quoted k r)]
      rw [← List.append_assoc] at hr
      rcases prefix_append_cases hr with hr | ⟨p, rfl, hp⟩
      · rcases hcut r hr with hearly | ⟨t, ht⟩
        · exact hearly.bind _
        · -- A number that is cut short is taken for the value, and nothing comes after it.
          rw [ht]
          exact members_of_error (endsEarly_nextKey rfl _)
      · rw [List.append_assoc, hrun p (ends_of_isPrefix hp htail)]
        refine ih t p ht hp ?_
        rintro rfl
        rw [List.append_assoc] at hne
        exact hne rfl

/-- The members after the first one are cut short unless the closing brace is there. -/
theorem endsEarly_writeMembers (h : FragileMembers a l (m + 1) ms s) {p : Bytes}
    (hp : p <+: writeMembers l m ms ++ [Mark.closeBrace])
    (hne : p ≠ writeMembers l m ms ++ [Mark.closeBrace]) : EndsEarly (members a false s p) := by
  induction ms generalizing s p with
  | nil =>
    rw [writeMembers] at hp hne
    have hblank := skipSpace_of_isPrefix_closed (skipSpace_newline_nil l m) hp hne
    exact members_of_error (endsEarly_nextKey hblank _)
  | cons km ms ih =>
    obtain ⟨k, j⟩ := km
    have hassoc : writeMembers l m ((k, j) :: ms) ++ [Mark.closeBrace] =
        Mark.comma :: (l.newline (m + 1) ++ (Text.quote k ++ (l.colon ++ (write l (m + 1) j ++
          (writeMembers l m ms ++ [Mark.closeBrace]))))) := by
      rw [writeMembers]
      simp only [List.cons_append, List.append_assoc]
    rw [hassoc] at hp hne
    rcases List.prefix_cons_iff.mp hp with rfl | ⟨t, rfl, ht⟩
    · exact members_of_error (endsEarly_nextKey rfl _)
    · rcases prefix_append_cases ht with ht | ⟨q, rfl, hq⟩
      · have hblank := skipSpace_of_isPrefix_blank ht (skipSpace_newline_nil l (m + 1))
        exact members_of_error (endsEarly_nextKey_comma hblank)
      · have hskip := skipSpace_newline l (m + 1) q
        refine endsEarly_members_cons h (ends_writeMembers l m ms []) (by simp) hq
          (fun h => hne (by rw [h])) (fun hs => ?_) (fun t ht => ?_) fun t p ht hp hne =>
            ih ht hp hne
        · exact endsEarly_nextKey_comma (hskip.trans hs)
        · subst ht
          rw [skipSpace_of_not_space rfl] at hskip
          rw [nextKey, skipSpace_of_not_space rfl]
          simp only [hskip, if_true]
          rfl

/-- The text of an object ends too early unless its closing brace is there. -/
theorem endsEarly_members (h : FragileMembers a l (m + 1) ms s) {p : Bytes}
    (hp : p <+: objectRest l m ms) (hne : p ≠ objectRest l m ms) :
    EndsEarly (members a true s p) := by
  cases ms with
  | nil =>
    have hblank := skipSpace_of_isPrefix_closed (w := []) rfl hp hne
    exact members_of_error (endsEarly_nextKey hblank _)
  | cons km ms =>
    obtain ⟨k, j⟩ := km
    have hassoc : objectRest l m ((k, j) :: ms) =
        l.newline (m + 1) ++ (Text.quote k ++ (l.colon ++ (write l (m + 1) j ++
          (writeMembers l m ms ++ [Mark.closeBrace])))) := by
      rw [objectRest]
      simp only [List.append_assoc]
    rw [hassoc] at hp hne
    rcases prefix_append_cases hp with hp | ⟨q, rfl, hq⟩
    · have hblank := skipSpace_of_isPrefix_blank hp (skipSpace_newline_nil l (m + 1))
      exact members_of_error (endsEarly_nextKey hblank _)
    · have hskip := skipSpace_newline l (m + 1) q
      refine endsEarly_members_cons h (ends_writeMembers l m ms []) (by simp) hq
        (fun h => hne (by rw [h])) (fun hs => ?_) (fun t ht => ?_) fun t p ht hp hne =>
          endsEarly_writeMembers ht hp hne
      · exact endsEarly_nextKey (hskip.trans hs) _
      · subst ht
        rw [skipSpace_of_not_space rfl] at hskip
        rw [nextKey, hskip]
        rfl

/-- A colon and a value are cut short, or a value is read that takes all that is there. -/
theorem cut_colon {rd : Nat → Reader α} {j : Json} (h : Fragile rd j) (hn : j.nesting ≤ n)
    {q : Bytes} (hq : q <+: l.colon ++ write l m j) : Cut (colon q >>= (rd n).run) := by
  cases l with
  | compact =>
    rcases List.prefix_cons_iff.mp hq with rfl | ⟨t, rfl, ht⟩
    · exact .inl ((endsEarly_colon rfl).bind _)
    · exact h.cut hn ht rfl
  | indented =>
    rcases List.prefix_cons_iff.mp hq with rfl | ⟨t, rfl, ht⟩
    · exact .inl ((endsEarly_colon rfl).bind _)
    · rcases List.prefix_cons_iff.mp ht with rfl | ⟨u, rfl, hu⟩
      · have hnil : [] <+: write .indented m j := List.nil_prefix
        exact h.cut hn hnil rfl
      · exact h.cut hn hu rfl

/-- A colon and a value are read where they stand. -/
theorem colon_bind_of_rereads {rd : Nat → Reader α} {j : Json} {x : α}
    (h : Rereads rd j (.ok x)) (hn : j.nesting ≤ n) {tail : Bytes} (htail : Ends tail) :
    colon (l.colon ++ (write l m j ++ tail)) >>= (rd n).run = .ok (x, tail) := by
  obtain ⟨r, hcolon, hr⟩ := exists_colon_write l (write l m j ++ tail)
  rw [hcolon, ok_bind]
  exact h.run hn htail hr

/-! ### Objects with any keys -/

/-- An entry is read behind its colon. -/
theorem entry_run (rd : Reader α) (acc : List (String × α)) (k : String) (bs : Bytes) :
    (entry rd).run acc k bs = (colon bs >>= rd.run).map fun p => ((k, p.1) :: acc, p.2) := by
  simp only [entry]
  cases colon bs with
  | error e => rfl
  | ok r =>
    simp only [ok_bind]
    cases rd.run r <;> rfl

/-- Entries with fragile values are gone through one after the other. -/
theorem fragileMembers_entry {rd : Nat → Reader α} (h : ∀ km ∈ ms, Fragile rd km.2)
    (hn : nestingMembers ms ≤ n) (acc : List (String × α)) :
    FragileMembers (entry (rd n)) l m ms acc := by
  induction ms generalizing acc with
  | nil => trivial
  | cons km ms ih =>
    rw [List.forall_mem_cons] at h
    rw [nestingMembers] at hn
    obtain ⟨x, hx⟩ := h.1.reads
    refine ⟨fun q hq => ?_, (km.1, x) :: acc, fun tail htail => ?_, ih h.2 (by omega) _⟩
    · rw [entry_run]
      exact (cut_colon h.1 (by omega) hq).map fun x => (km.1, x) :: acc
    · rw [entry_run, colon_bind_of_rereads hx (by omega) htail, map_ok]

/-- The entries of an object end too early unless its closing brace is there. -/
theorem endsEarly_entries {rd : Nat → Reader α} (h : ∀ km ∈ ms, Fragile rd km.2)
    (hn : nestingMembers ms ≤ n) {p : Bytes} (hp : p <+: objectRest l m ms)
    (hne : p ≠ objectRest l m ms) : EndsEarly (entries (rd n) p) :=
  (endsEarly_members (fragileMembers_entry h hn []) hp hne).map _

/-- Where a beginning of an object stands, its opening brace is found and a beginning of what
comes after it. -/
theorem found_of_isPrefix_object {p bs : Bytes} (hp : p <+: write l m (.object ms))
    (hne : p ≠ write l m (.object ms)) (hbs : skipSpace bs = skipSpace p) :
    EndsEarly (found bs) ∨ ∃ q, found bs = .ok ⟨.map, q⟩ ∧ q <+: objectRest l m ms ∧
      q ≠ objectRest l m ms := by
  rw [write_object] at hp hne
  rw [found_congr hbs]
  rcases List.prefix_cons_iff.mp hp with rfl | ⟨q, rfl, hq⟩
  · exact .inl (endsEarly_found rfl)
  · exact .inr ⟨q, rfl, hq, fun h => hne (by rw [h])⟩

/-- An object with any keys is fragile if its values are. -/
theorem fragile_pairs {rd : Nat → Reader α} (h : ∀ km ∈ ms, Fragile rd km.2) :
    Fragile (fun n => pairs (below rd n)) (.object ms) := by
  have hrereads := rereads_pairs fun km hkm => (h km hkm).steady
  obtain ⟨xs, hxs⟩ : ∃ xs, (ms.mapM fun km => (reread rd km.2).map (km.1, ·)) = .ok xs := by
    refine exists_mapM_iff.mpr fun km hkm => ?_
    obtain ⟨x, hx⟩ := (h km hkm).exists_reread
    exact ⟨(km.1, x), by rw [hx, map_ok]⟩
  rw [hxs] at hrereads
  refine fragile_of_endsEarly (starts_object ms) hrereads fun {l m n p bs} hn hp hne hbs => ?_
  rw [nesting] at hn
  obtain ⟨n, rfl⟩ := Nat.exists_eq_add_one.mpr (Nat.zero_lt_of_lt hn)
  simp only [pairs, below]
  rcases found_of_isPrefix_object hp hne hbs with ⟨u, hu⟩ | ⟨q, hq, hprefix, hne⟩
  · simp only [hu]
    exact endsEarly_error u
  · simp only [hq]
    exact endsEarly_entries h (Nat.le_of_succ_le_succ hn) hprefix hne

end

/-! ### Records -/

namespace Schema

variable {s : Schema R} {r : R} {l : Layout} {m n : Nat}

/-- A member of a record is read behind its colon. -/
theorem member_run {k : String} {f : Field R} (hf : s.field? k = some f) {st : R × List String}
    (hk : k ∉ st.2) (bs : Bytes) : (s.member n).run st k bs =
      (colon bs >>= (f.reader n).run).map fun p => ((p.1 st.1, k :: st.2), p.2) := by
  simp only [member, hf, if_neg hk]
  cases colon bs with
  | error e => rfl
  | ok t =>
    simp only [ok_bind]
    cases (f.reader n).run t <;> rfl

/-- The members that are written are fragile, each with the names of those before it taken down. -/
theorem fragileMembers_member {fs : List (Field R)} (hfs : ∀ f ∈ fs, s.field? f.name = some f)
    (hnames : (fs.map (·.name)).Nodup) {st : R × List String} (hnew : ∀ f ∈ fs, f.name ∉ st.2)
    (h : ∀ f ∈ fs, ∀ j ∈ f.toJson r, Fragile f.reader j ∧ j.nesting ≤ n) :
    FragileMembers (s.member n) l m
      (fs.filterMap fun f => (f.toJson r).map (f.name, ·)) st := by
  induction fs generalizing st with
  | nil => trivial
  | cons f fs ih =>
    rw [List.forall_mem_cons] at hfs hnew h
    rw [List.map_cons, List.nodup_cons] at hnames
    rw [List.filterMap_cons]
    cases hj : f.toJson r with
    | none => exact ih hfs.2 hnames.2 hnew.2 h.2
    | some j =>
      obtain ⟨hfragile, hn⟩ := h.1 j hj
      obtain ⟨set, hset⟩ := hfragile.reads
      refine ⟨fun q hq => ?_, (set st.1, f.name :: st.2), fun tail htail => ?_,
        ih hfs.2 hnames.2 (fun g hg => ?_) h.2⟩
      · rw [member_run hfs.1 hnew.1]
        exact (cut_colon hfragile hn hq).map fun set => (set st.1, f.name :: st.2)
      · rw [member_run hfs.1 hnew.1, colon_bind_of_rereads hset hn htail, map_ok]
      · rw [List.mem_cons, not_or]
        exact ⟨fun h => hnames.1 (h ▸ List.mem_map_of_mem hg), hnew.2 g hg⟩

/-- A record is fragile if its members are. -/
theorem fragile_codec (hnames : (s.fields.map (·.name)).Nodup)
    (hsteady : ∀ f ∈ s.fields, f.Steady r) (hrefill : ∃ x, refill r s.fields s.initial = .ok x)
    (h : ∀ f ∈ s.fields, ∀ j ∈ f.toJson r, Fragile f.reader j) :
    Fragile s.codec.reader (s.codec.toJson r) := by
  obtain ⟨x, hx⟩ := hrefill
  have hrereads := rereads_codec hnames hsteady
  rw [hx] at hrereads
  refine fragile_of_endsEarly (starts_object _) hrereads fun {l m n p bs} hn hp hne hbs => ?_
  simp only [codec, nesting] at hn hp hne
  obtain ⟨n, rfl⟩ := Nat.exists_eq_add_one.mpr (Nat.zero_lt_of_lt hn)
  have hmembers : FragileMembers (s.member n) l (m + 1) (s.members r) (s.initial, []) := by
    refine fragileMembers_member (fun f hf => find?_name hnames hf) hnames
      (fun _ _ => List.not_mem_nil) fun f hf j hj => ⟨h f hf j hj, ?_⟩
    have hmem : (f.name, j) ∈ s.members r := mem_members_iff.mpr ⟨f, hf, hj, rfl⟩
    exact Nat.le_trans (nesting_le_nestingMembers hmem) (Nat.le_of_succ_le_succ hn)
  simp only [codec, reader]
  rcases found_of_isPrefix_object hp hne hbs with ⟨u, hu⟩ | ⟨q, hq, hprefix, hne⟩
  · simp only [hu]
    exact endsEarly_error u
  · simp only [hq]
    exact (endsEarly_members hmembers hprefix hne).bind _

end Schema

end GltfAsset.Json
