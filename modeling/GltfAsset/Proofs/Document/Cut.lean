import Mathlib.Data.List.DropRight
import GltfAsset.Proofs.Document.Image
import GltfAsset.Proofs.Document.Steady
import GltfAsset.Proofs.Extension.Documents
import GltfAsset.Proofs.Json.Fragile

/-!
# The text of a document that is cut short

A text of a document that is cut short is refused, wherever it is cut, unless nothing but white
space is cut off. For the text as the document itself is written the reason is that the text ends
too early, and no other complaint comes first (`Document.decode_of_isPrefix`). This goes by
induction over the codec of documents: the text of all its parts is fragile.
-/

namespace GltfAsset

open Json

namespace Value

variable {inner : Option (Reader Value)} {bs : Bytes}

/-- A value that has no parts is read from what is found, and the array or object that is found is
what has parts. -/
theorem cut_readerOf (h : EndsEarly (Reader.found bs) ∨
    ∃ y, Reader.found bs = .ok ⟨y, []⟩ ∧ y ≠ .sequence ∧ y ≠ .map) :
    Cut ((readerOf inner).run bs) := by
  rcases h with ⟨u, hu⟩ | ⟨y, hy, hsequence, hmap⟩
  · simp only [readerOf, hu]
    exact .inl (endsEarly_error u)
  · simp only [readerOf, hy]
    cases y with
    | sequence => contradiction
    | map => contradiction
    | _ => exact .inr ⟨_, rfl⟩

/-- A value without parts is fragile if its beginnings are values without parts. -/
theorem fragile_of_found {j : Json} (hsteady : Steady reader j)
    (hread : ∃ v, reread reader j = .ok v)
    (h : ∀ {l : Layout} {m : Nat} {p : Bytes}, p <+: j.write l m → EndsEarly (Reader.found p) ∨
      ∃ y, Reader.found p = .ok ⟨y, []⟩ ∧ y ≠ .sequence ∧ y ≠ .map) : Fragile reader j where
  starts := hsteady.starts
  reads := by
    obtain ⟨v, hv⟩ := hread
    exact ⟨v, hv ▸ hsteady.rereads⟩
  cut {l m n p bs} _ hp hbs := by
    rw [reader_eq]
    refine cut_readerOf ?_
    rw [found_congr hbs]
    exact h hp

/-- The text of a number is fragile if it is read. -/
theorem fragile_text {n : Numeral} (hlength : n.whole.length ≤ 20)
    (h : ∃ v, reread reader (.numeral n.text) = .ok v) : Fragile reader (.numeral n.text) := by
  obtain ⟨x, hx⟩ : ∃ x, n.value = .ok x := by
    obtain ⟨v, hv⟩ := h
    rw [(rereads_text n).reread_eq] at hv
    obtain ⟨x, hx, -⟩ := map_eq_ok_iff.mp hv
    exact ⟨x, hx⟩
  refine fragile_of_found ((rereads_text n).steady (starts_text n)) h fun {l m p} hp => ?_
  refine (found_of_isPrefix_text hlength hx hp).imp_right fun ⟨y, hy⟩ => ⟨_, hy, ?_⟩
  cases y <;> simp [foundNumber]

/-- The text of an array is fragile if its elements are. -/
theorem fragile_array {vs : List Value} (h : ∀ v ∈ vs, Fragile reader v.toJson) :
    Fragile reader (array vs).toJson := by
  have hj : (array vs).toJson = .array (vs.map toJson) := by rw [toJson, toJsonItems_eq]
  have hfragile : ∀ j ∈ vs.map toJson, Fragile reader j := List.forall_mem_map.mpr h
  obtain ⟨ws, hws⟩ := exists_mapM_iff.mpr fun j hj => (hfragile j hj).exists_reread
  have hrereads := rereads_array fun v hv => (h v hv).steady
  rw [hws, ok_bind, hj] at hrereads
  rw [hj]
  refine fragile_of_endsEarly (starts_array _) hrereads fun {l m n p bs} hn hp hne hbs => ?_
  rw [nesting] at hn
  cases n with
  | zero => omega
  | succ n =>
    simp only [reader, readerOf]
    rcases found_of_isPrefix_array hp hne hbs with ⟨u, hu⟩ | ⟨q, hq, hprefix, hne⟩
    · simp only [hu]
      exact endsEarly_error u
    · simp only [hq]
      exact endsEarly_items hfragile (Nat.le_of_succ_le_succ hn) (by simp)
        (fun xs _ => ⟨array xs, rfl⟩) hprefix hne

/-- The text of an object is fragile if its values are. -/
theorem fragile_object {ms : List (String × Value)} (h : ∀ m ∈ ms, Fragile reader m.2.toJson) :
    Fragile reader (object ms).toJson := by
  have hj : (object ms).toJson = .object (ms.map fun m => (m.1, m.2.toJson)) := by
    rw [toJson, toJsonMembers_eq]
  have hfragile : ∀ km ∈ ms.map fun m => (m.1, m.2.toJson), Fragile reader km.2 :=
    List.forall_mem_map.mpr h
  obtain ⟨xs, hxs⟩ : ∃ xs, ((ms.map fun m => (m.1, m.2.toJson)).mapM fun km =>
      (reread reader km.2).map (km.1, ·)) = .ok xs := by
    refine exists_mapM_iff.mpr fun km hkm => ?_
    obtain ⟨x, hx⟩ := (hfragile km hkm).exists_reread
    exact ⟨(km.1, x), by rw [hx, map_ok]⟩
  have hrereads := rereads_object fun m hm => (h m hm).steady
  rw [hxs, map_ok, hj] at hrereads
  rw [hj]
  refine fragile_of_endsEarly (starts_object _) hrereads fun {l m n p bs} hn hp hne hbs => ?_
  rw [nesting] at hn
  cases n with
  | zero => omega
  | succ n =>
    simp only [reader, readerOf]
    rcases found_of_isPrefix_object hp hne hbs with ⟨u, hu⟩ | ⟨q, hq, hprefix, hne⟩
    · simp only [hu]
      exact endsEarly_error u
    · simp only [hq]
      exact (endsEarly_entries hfragile (Nat.le_of_succ_le_succ hn) hprefix hne).map _

/-- If an array is read, its elements are. -/
theorem exists_reread_items {vs : List Value} (h : WellFormedItems vs)
    (hread : ∃ v, reread reader (array vs).toJson = .ok v) :
    ∀ v ∈ vs, ∃ w, reread reader v.toJson = .ok w := by
  rw [(rereads_array (steady_items h)).reread_eq] at hread
  obtain ⟨v, hv⟩ := hread
  obtain ⟨ws, hws, -⟩ := bind_eq_ok_iff.mp hv
  intro v hv
  exact exists_mapM_iff.mp ⟨ws, hws⟩ v.toJson (List.mem_map_of_mem hv)

/-- If an object is read, its values are. -/
theorem exists_reread_members {ms : List (String × Value)} (h : WellFormedMembers ms)
    (hread : ∃ v, reread reader (object ms).toJson = .ok v) :
    ∀ m ∈ ms, ∃ w, reread reader m.2.toJson = .ok w := by
  rw [(rereads_object (steady_members h)).reread_eq] at hread
  obtain ⟨v, hv⟩ := hread
  obtain ⟨ws, hws, -⟩ := map_eq_ok_iff.mp hv
  intro m hm
  obtain ⟨x, hx⟩ := exists_mapM_iff.mp ⟨ws, hws⟩ (m.1, m.2.toJson) (List.mem_map_of_mem hm)
  obtain ⟨w, hw, -⟩ := map_eq_ok_iff.mp hx
  exact ⟨w, hw⟩

mutual

/-- The text of a free value is fragile if it is read. -/
theorem fragile : ∀ {v : Value}, v.WellFormed → (∃ w, reread reader v.toJson = .ok w) →
    Fragile reader v.toJson
  | .null, h, hread => fragile_of_found (steady h) hread fun hp =>
      (found_of_isPrefix_null hp).imp_right fun hy => ⟨_, hy, by simp, by simp⟩
  | .boolean b, h, hread => fragile_of_found (steady h) hread fun hp =>
      (found_of_isPrefix_boolean hp).imp_right fun hy => ⟨_, hy, by simp, by simp⟩
  | .string s, h, hread => fragile_of_found (steady h) hread fun hp =>
      (found_of_isPrefix_string hp).imp_right fun hy => ⟨_, hy, by simp, by simp⟩
  | .integer n, h, hread => by
    refine fragile_of_found (steady h) hread fun hp => ?_
    rw [WellFormed] at h
    exact (found_of_isPrefix_integer h.1 h.2 hp).imp_right fun ⟨k, hk, _⟩ =>
      ⟨_, hk, by simp, by simp⟩
  | .float x, h, hread => by
    rw [WellFormed] at h
    obtain ⟨n, hn, hlength⟩ :=
      FloatStyle.exists_numeral doubleStyle rfl (by decide) h
    rw [toJson, ofFloat, if_pos h, hn] at hread ⊢
    exact fragile_text hlength hread
  | .array vs, h, hread => by
    rw [WellFormed] at h
    exact fragile_array (fragile_items h (exists_reread_items h hread))
  | .object ms, h, hread => by
    rw [WellFormed] at h
    exact fragile_object (fragile_members h.2 (exists_reread_members h.2 hread))

/-- The elements of a value that can be held are fragile if they are read. -/
theorem fragile_items : ∀ {vs : List Value}, WellFormedItems vs →
    (∀ v ∈ vs, ∃ w, reread reader v.toJson = .ok w) → ∀ v ∈ vs, Fragile reader v.toJson
  | [], _, _ => by simp
  | v :: vs, h, hread => by
    rw [WellFormedItems] at h
    rw [List.forall_mem_cons] at hread
    exact List.forall_mem_cons.mpr ⟨fragile h.1 hread.1, fragile_items h.2 hread.2⟩

/-- The members of a value that can be held are fragile if they are read. -/
theorem fragile_members : ∀ {ms : List (String × Value)}, WellFormedMembers ms →
    (∀ m ∈ ms, ∃ w, reread reader m.2.toJson = .ok w) → ∀ m ∈ ms, Fragile reader m.2.toJson
  | [], _, _ => by simp
  | (k, v) :: ms, h, hread => by
    rw [WellFormedMembers] at h
    rw [List.forall_mem_cons] at hread
    exact List.forall_mem_cons.mpr ⟨fragile h.1 hread.1, fragile_members h.2 hread.2⟩

end

/-- No free value is read of white space. -/
theorem blank_reader : Json.Blank reader := by
  intro n bs hbs
  rw [reader_eq]
  obtain ⟨u, hu⟩ := endsEarly_found hbs
  simp only [readerOf, hu]
  exact endsEarly_error u

end Value

namespace Json

variable {α β R : Type}

/-! ## Nothing is read of white space -/

/-- No array is read of white space. -/
theorem blank_sequence {expected : Expected} {inner : Nat → Option (Reader α)}
    {limit : Option Nat} {make : List α → Except Error β} :
    Blank fun n => Reader.sequence expected (inner n) limit make := by
  intro n bs hbs
  obtain ⟨u, hu⟩ := endsEarly_found hbs
  simp only [Reader.sequence, hu]
  exact endsEarly_error u

/-- No object is read of white space. -/
theorem blank_pairs {inner : Nat → Option (Reader α)} : Blank fun n => Reader.pairs (inner n) := by
  intro n bs hbs
  obtain ⟨u, hu⟩ := endsEarly_found hbs
  simp only [Reader.pairs, hu]
  exact endsEarly_error u

/-- No record is read of white space. -/
theorem Schema.blank_reader (s : Schema R) : Blank s.reader := by
  intro n bs hbs
  obtain ⟨u, hu⟩ := endsEarly_found hbs
  simp only [reader, hu]
  exact endsEarly_error u

/-! ## The codec of documents -/

/-- The text of a value that can be held is fragile if it is read. -/
structure FragileCodec (α : Type) [Leaves α] (c : Codec α) : Prop where
  /-- Nothing is read of white space. -/
  blank : Blank c.reader
  /-- The text is read in the same way wherever it stands. -/
  steady : ∀ x : α, AllLeaves Leaf.WellFormed x → c.Steady x
  /-- The text is cut short, or a number is. -/
  fragile : ∀ x : α, AllLeaves Leaf.WellFormed x → (∃ y, c.reread x = .ok y) →
    Fragile c.reader (c.toJson x)

/-- For values without parts it is enough to look at what is found where a beginning stands. -/
theorem fragileCodec_of_scalar [Leaves α] {c : Codec α} {expected : Expected}
    {pick : Found → Option (Except Error α)} (hc : ∀ n, c.reader n = Reader.scalar expected pick)
    (hsteady : ∀ x, c.Steady x)
    (h : ∀ x, (∃ y, c.reread x = .ok y) → ∀ l m p, p <+: (c.toJson x).write l m →
      EndsEarly (Reader.found p) ∨
        ∃ y z, Reader.found p = .ok ⟨y, []⟩ ∧ pick y = some (.ok z)) : FragileCodec α c where
  blank n bs hbs := by
    rw [hc]
    exact blank_scalar expected pick n bs hbs
  steady x _ := hsteady x
  fragile x _ hread := by
    have hreader : c.reader = fun _ => Reader.scalar expected pick := funext hc
    have hread' := hread
    have hsteady := hsteady x
    rw [Codec.reread, hreader] at hread'
    rw [Codec.Steady, hreader] at hsteady
    rw [hreader]
    exact fragile_scalar hsteady hread' fun hp => h x hread _ _ _ hp

/-- Strings are fragile. -/
theorem fragileCodec_string : FragileCodec String Codec.string := by
  have hreader : ∀ n, Codec.string.reader n = Reader.string := fun _ => rfl
  refine fragileCodec_of_scalar hreader Codec.steady_string
    fun s _ l m p hp => ?_
  exact (found_of_isPrefix_string hp).imp_right fun hy => ⟨_, _, hy, rfl⟩

/-- Booleans are fragile. -/
theorem fragileCodec_boolean : FragileCodec Bool Codec.boolean := by
  have hreader : ∀ n, Codec.boolean.reader n = Reader.boolean := fun _ => rfl
  refine fragileCodec_of_scalar hreader Codec.steady_boolean
    fun b _ l m p hp => ?_
  exact (found_of_isPrefix_boolean hp).imp_right fun hy => ⟨_, _, hy, rfl⟩

/-- Integers are fragile: one that is cut short is in range as well. -/
theorem fragileCodec_integer : FragileCodec Int64 Codec.integer := by
  have hreader : ∀ n, Codec.integer.reader n = Reader.integer := fun _ => rfl
  refine fragileCodec_of_scalar hreader Codec.steady_integer
    fun n _ l m p hp => ?_
  have hmax : Int64.maxValue.toInt = 9223372036854775807 := by decide
  have hlt := n.toInt_lt
  refine (found_of_isPrefix_integer n.le_toInt (Int.lt_trans hlt (by decide)) hp).imp_right
    fun ⟨k, hk, hle⟩ => ⟨_, Int64.ofInt k, hk, ?_⟩
  -- An integer that is no greater than one of 64 bits is in range as well.
  have hk : k ≤ Int64.maxValue.toInt := by omega
  simp only [if_pos hk]

/-- Floats are fragile: one that is cut short is a number that is not too large. -/
theorem fragileCodec_single : FragileCodec Single Codec.single := by
  have hreader : ∀ n, Codec.single.reader n = Reader.single := fun _ => rfl
  refine fragileCodec_of_scalar hreader Codec.steady_single fun x hread l m p hp => ?_
  by_cases hx : x.IsFinite
  · obtain ⟨n, hn, hlength⟩ :=
      FloatStyle.exists_numeral singleStyle rfl (by decide) hx
    have hj : Codec.single.toJson x = .numeral n.text := by
      rw [← hn]
      exact if_pos hx
    rw [Codec.reread, hj] at hread
    rw [hj] at hp
    obtain ⟨y, hy⟩ : ∃ y, n.value = .ok y := by
      obtain ⟨z, hz⟩ := hread
      simp only [Codec.single, Reader.single, (rereads_scalar_text _ _ n).reread_eq] at hz
      obtain ⟨y, hy, -⟩ := bind_eq_ok_iff.mp hz
      exact ⟨y, hy⟩
    rcases found_of_isPrefix_text hlength hy hp with hearly | ⟨z, hz⟩
    · exact .inl hearly
    · cases z with
      | integer k => exact .inr ⟨_, _, hz, rfl⟩
      | float w => exact .inr ⟨_, _, hz, rfl⟩
  · -- What is not finite is written as `null`, and that is no number.
    have hj : Codec.single.toJson x = .null := if_neg hx
    obtain ⟨y, hy⟩ := hread
    rw [Codec.reread, hj] at hy
    contradiction

/-- A value that may be absent is fragile if it is, and `null` in its place is so as well. -/
theorem fragile_optional {c : Codec α} {x : α} (hblank : Blank c.reader) (hsteady : c.Steady x)
    (hfragile : (∃ y, c.reread x = .ok y) → Fragile c.reader (c.toJson x))
    (hread : ∃ o, c.rereadOption (some x) = .ok o) :
    Fragile (fun n => (c.reader n).optional) (c.toJson x) := by
  by_cases hnull : c.toJson x = .null
  · rw [hnull]
    exact fragile_optional_null hblank
  · obtain ⟨o, ho⟩ := hread
    rw [Codec.rereadOption_some hsteady hnull] at ho
    obtain ⟨y, hy, -⟩ := map_eq_ok_iff.mp ho
    exact (hfragile ⟨y, hy⟩).optional hnull

/-- A list is fragile if its elements are. -/
theorem FragileCodec.list [Leaves α] {c : Codec α} (h : FragileCodec α c) :
    FragileCodec (List α) c.list where
  blank := blank_sequence
  steady _ hx := Codec.steady_list fun y hy => h.steady y (allLeaves_list.mp hx y hy)
  fragile xs hx hread := by
    have hx := allLeaves_list.mp hx
    obtain ⟨ys, hys⟩ := hread
    rw [Codec.reread, (Codec.rereads_list fun x hm => h.steady x (hx x hm)).reread_eq] at hys
    refine fragile_sequence (List.forall_mem_map.mpr fun x hm => ?_) (by simp) fun xs _ => ⟨xs, rfl⟩
    exact h.fragile x (hx x hm)
      (exists_mapM_iff.mp ⟨ys, hys⟩ (c.toJson x) (List.mem_map_of_mem hm))

/-- An array of fixed length is fragile if its elements are. -/
theorem FragileCodec.vector [Leaves α] {c : Codec α} {k : Nat} (h : FragileCodec α c) :
    FragileCodec (Vector α k) (c.vector k) where
  blank := blank_sequence
  steady _ hx := Codec.steady_vector fun y hy => h.steady y (allLeaves_vector.mp hx y hy)
  fragile v hv hread := by
    have hv := allLeaves_vector.mp hv
    obtain ⟨make, -, hrereads⟩ := Codec.exists_rereads_vector fun x hm => h.steady x (hv x hm)
    obtain ⟨w, hw⟩ := hread
    rw [Codec.reread, hrereads.reread_eq] at hw
    obtain ⟨ys, hys, -⟩ := bind_eq_ok_iff.mp hw
    have hlength : (v.toList.map c.toJson).length = k := by simp
    refine fragile_sequence (List.forall_mem_map.mpr fun x hm => ?_) (by simp) fun xs hxs => ?_
    · exact h.fragile x (hv x hm)
        (exists_mapM_iff.mp ⟨ys, hys⟩ (c.toJson x) (List.mem_map_of_mem hm))
    · rw [dif_pos (hxs.trans hlength)]
      exact ⟨_, rfl⟩

/-- A member is fragile if it is read. -/
theorem Field.Made.fragile [Leaves R] {f : Field R} {fs : List (Field R)} {copy : R → R → R}
    {r : R} (h : f.Made FragileCodec fs copy) (hr : AllLeaves Leaf.WellFormed r)
    (hread : ∃ x z, f.refill r x = .ok z) : ∀ j ∈ f.toJson r, Fragile f.reader j := by
  intro j hj
  -- The member is read where the record is filled again from what was written of it.
  obtain ⟨set, hset⟩ : ∃ set, reread f.reader j = .ok set := by
    obtain ⟨x, z, hz⟩ := hread
    rw [refill, hj] at hz
    obtain ⟨set, hset, -⟩ := map_eq_ok_iff.mp hz
    exact ⟨set, hset⟩
  cases h with
  | always hc part =>
    obtain rfl := Option.some.inj hj
    simp only [Field.always, reread_map] at hset
    obtain ⟨y, hy, -⟩ := map_eq_ok_iff.mp hset
    exact (hc.fragile _ (part.leaves_get _ r hr) ⟨y, hy⟩).map _
  | optional hc part =>
    obtain ⟨y, hy, rfl⟩ := Option.map_eq_some_iff.mp hj
    have hy := allLeaves_option.mp (part.leaves_get _ r hr) y hy
    simp only [Field.optional, reread_map] at hset
    obtain ⟨o, ho, -⟩ := map_eq_ok_iff.mp hset
    exact (fragile_optional hc.blank (hc.steady y hy) (hc.fragile y hy) ⟨o, ho⟩).map _
  | free part =>
    obtain ⟨v, hv, rfl⟩ := Option.map_eq_some_iff.mp hj
    have hv : v.WellFormed := allLeaves_value.mp (allLeaves_option.mp (part.leaves_get _ r hr) v hv)
    simp only [Field.optional, reread_map] at hset
    obtain ⟨o, ho, -⟩ := map_eq_ok_iff.mp hset
    have hfragile : Fragile (fun n => (Codec.value.reader n).optional) (Codec.value.toJson v) :=
      fragile_optional Value.blank_reader (Value.steady hv) (Value.fragile hv) ⟨o, ho⟩
    exact hfragile.map _
  | many hc part =>
    simp only [Field.many] at hj
    split at hj
    · contradiction
    · obtain rfl := Option.some.inj hj
      simp only [Field.many, reread_map] at hset
      obtain ⟨ys, hys, -⟩ := map_eq_ok_iff.mp hset
      exact (hc.list.fragile _ (part.leaves_get _ r hr) ⟨ys, hys⟩).map _

/-- Attributes are fragile. -/
theorem fragileCodec_attributes : FragileCodec Attributes Attributes.codec where
  blank := blank_pairs.map _
  steady := lifts_steady.attributes
  fragile as _ _ := by
    refine (fragile_pairs (List.forall_mem_map.mpr fun e _ => ?_)).map _
    exact fragileCodec_integer.fragile e.2 (by simp)
      ⟨e.2, (Codec.rereads_integer e.2).reread_eq⟩

/-- The text of a record is fragile if its members are. -/
theorem FragileCodec.record [Leaves R] {s : Schema R} (hs : s.Lawful FragileCodec) :
    FragileCodec R s.codec where
  blank := s.blank_reader
  steady := lifts_steady.record (hs.imp fun h => h.steady)
  fragile r hr hread := by
    have hlawful : s.Lawful SteadyCodec := hs.imp fun h => h.steady
    have hsteady : ∀ f ∈ s.fields, f.Steady r := hlawful.forall_mem fun hf => hf.steady hr
    rw [Codec.reread, (hlawful.rereads hr).reread_eq] at hread
    obtain ⟨z, hz⟩ := hread
    refine Schema.fragile_codec hs.names hsteady ⟨z, hz⟩ fun f hf => ?_
    exact hs.forall_mem (p := fun f => (∃ x z, f.refill r x = .ok z) →
      ∀ j ∈ f.toJson r, Fragile f.reader j) (fun h => h.fragile hr) f hf
        (Schema.exists_refill hz f hf)

/-- That the texts of values are fragile is passed on. -/
theorem lifts_fragile : Lifts FragileCodec where
  string := fragileCodec_string
  boolean := fragileCodec_boolean
  integer := fragileCodec_integer
  single := fragileCodec_single
  attributes := fragileCodec_attributes
  list := .list
  vector := .vector
  record := .record

end Json

namespace Document

/-- If a beginning of a text is accepted, what comes after it is white space. -/
theorem length_rdropWhile_le_of_isPrefix {t p : Bytes} {d e : Document} (ht : decode t = .ok d)
    (hp : decode p = .ok e) (h : p <+: t) : (t.rdropWhile isSpace).length ≤ p.length := by
  obtain ⟨q, rfl⟩ := h
  obtain ⟨⟨x, r⟩, hx, -⟩ := bind_eq_ok_iff.mp hp
  -- The document ends where it ends in the beginning, and the text is over after it.
  have hrun := run_append hx q
  have hspace : skipSpace (r ++ q) = [] := by
    rw [decode, Reader.all, hrun, ok_bind] at ht
    simp only at ht
    split at ht
    · assumption
    · contradiction
  rw [skipSpace, List.dropWhile_eq_nil_iff] at hspace
  have hq : ∀ b ∈ q.reverse, isSpace b = true := fun b hb =>
    hspace b (List.mem_append_right r (List.mem_reverse.mp hb))
  calc ((p ++ q).rdropWhile isSpace).length
      = (p.rdropWhile isSpace).length := by
        rw [List.rdropWhile, List.reverse_append, List.dropWhile_append_of_pos hq,
          ← List.rdropWhile]
    _ ≤ p.length := (List.rdropWhile_prefix isSpace p).length_le

/-- The text of a document that was decoded is fragile. -/
theorem fragile_of_decode {t : Bytes} {d : Document} {l : Layout} (h : decode t = .ok d)
    (ht : t = d.encode l) : Fragile codec.reader (codec.toJson d) := by
  obtain ⟨hleaves, hnesting⟩ := held_of_decode h
  have hleaves : AllLeaves Leaf.WellFormed d :=
    AllLeaves.imp hleaves fun _ => Leaf.Decoded.wellFormed
  rw [ht, decode_encode_eq_reread l (Nat.lt_succ_of_le hnesting) hleaves] at h
  exact (lifted lifts_fragile).fragile d hleaves ⟨d, h⟩

/-- A text that is accepted is refused when it is cut short, unless nothing but white space is cut
off. If it is the text of the document in either layout, it is refused because it ends too early. -/
theorem decode_of_isPrefix {t p : Bytes} {d : Document} (h : decode t = .ok d) (hp : p <+: t)
    (hlength : p.length < (t.rdropWhile isSpace).length) :
    ∃ e, decode p = .error e ∧ ∀ l, t = d.encode l → e.category = .endOfInput := by
  have hrefused : ∀ x, decode p ≠ .ok x := fun x hx =>
    absurd (length_rdropWhile_le_of_isPrefix h hx hp) (Nat.not_le_of_lt hlength)
  cases he : decode p with
  | ok x => exact absurd he (hrefused x)
  | error e =>
    refine ⟨e, rfl, fun l ht => ?_⟩
    have hnesting := (held_of_decode h).nesting_le
    rw [ht, encode, render] at hp
    -- What is read of a beginning that is not said to end too early takes all of it.
    rcases (fragile_of_decode h ht).cut hnesting hp rfl with ⟨u, hu⟩ | ⟨x, hx⟩
    · rw [decode, Reader.all, hu] at he
      obtain rfl := Except.error.inj he
      rfl
    · have hok : decode p = .ok x := by
        rw [decode, Reader.all, hx]
        rfl
      exact absurd hok (hrefused x)

/-- The text is cut after the first digit of the last number in an array of fixed length. -/
theorem decode_of_isPrefix_small : decode (small.encode .indented) = .ok small ∧
    ∃ e, decode ((small.encode .indented).take 327) = .error e ∧
      ∀ l, small.encode .indented = small.encode l → e.category = .endOfInput :=
  have h : decode (small.encode .indented) = .ok small := by decide +kernel
  ⟨h, decode_of_isPrefix h (List.take_prefix 327 _) (by decide +kernel)⟩

end Document

end GltfAsset
