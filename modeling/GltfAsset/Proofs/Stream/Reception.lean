import GltfAsset.Stream.Receiver

/-!
# Receivers with a limit

`Receiver.Limited s l` says that a receiver takes a given number of bytes and then fails, or that it
takes all: in pieces of its own choosing, and with writes that are interrupted. What is written to
such a receiver does not depend on the pieces (`Limited.exists_writeAll_eq`). `Writes` says the same
of a whole program: it writes given bytes, and if the limit of its receiver is below them, the
receiver has what is within the limit and the program ends with the failure. Programs that are put
one after the other write the bytes of both (`Writes.append`).
-/

namespace GltfAsset

/-! ## Limits -/

namespace Limit

/-- How it ends to write so many bytes. -/
def answer (n : Nat) (l : Limit) : Except Failure Unit :=
  match l with
  | some (k, e) => if n ≤ k then .ok () else .error e
  | none => .ok ()

variable {l : Limit} {m n : Nat}

/-- Limits are lowered one after the other as they are at once. -/
theorem less_less (l : Limit) (m n : Nat) : (l.less m).less n = l.less (m + n) := by
  cases l with
  | none => rfl
  | some p =>
    show some (p.1 - m - n, p.2) = some (p.1 - (m + n), p.2)
    rw [Nat.sub_sub]

/-- Of more bytes, no fewer are taken. -/
theorem most_mono (l : Limit) (h : m ≤ n) : l.most m ≤ l.most n := by
  cases l with
  | none => exact h
  | some p =>
    show min m p.1 ≤ min n p.1
    omega

/-- After bytes that were taken, the limit is as much lower for the bytes that are left. -/
theorem most_less (h : n ≤ l.most m) : n + (l.less n).most (m - n) = l.most m := by
  cases l with
  | none => exact Nat.add_sub_cancel' h
  | some p =>
    have h : n ≤ min m p.1 := h
    show n + min (m - n) (p.1 - n) = min m p.1
    omega

/-- It ends in the same way after bytes that were taken. -/
theorem answer_less (h : n ≤ l.most m) : (l.less n).answer (m - n) = l.answer m := by
  cases l with
  | none => rfl
  | some p =>
    have h : n ≤ min m p.1 := h
    have hiff : m - n ≤ p.1 - n ↔ m ≤ p.1 := by omega
    show (if m - n ≤ p.1 - n then Except.ok () else .error p.2) =
      if m ≤ p.1 then .ok () else .error p.2
    simp only [hiff]

/-- At a limit that is used up, nothing more is taken. -/
theorem answer_zero (hn : 0 < n) (e : Failure) : answer n (some (0, e)) = .error e :=
  if_neg (Nat.not_le_of_lt hn)

/-- At a limit that is used up, no bytes are taken. -/
theorem most_zero (n : Nat) (e : Failure) : most n (some (0, e)) = 0 :=
  Nat.min_eq_right (Nat.zero_le n)

/-- Either all bytes are taken, or those within the limit are and then it fails. -/
theorem answer_cases (n : Nat) (l : Limit) :
    l.answer n = .ok () ∧ l.most n = n ∨
      ∃ k e, l = some (k, e) ∧ k < n ∧ l.answer n = .error e ∧ l.most n = k := by
  cases l with
  | none => exact .inl ⟨rfl, rfl⟩
  | some p =>
    obtain ⟨k, e⟩ := p
    by_cases hle : n ≤ k
    · exact .inl ⟨if_pos hle, Nat.min_eq_left hle⟩
    · have hlt : k < n := Nat.lt_of_not_le hle
      exact .inr ⟨k, e, rfl, hlt, if_neg hle, Nat.min_eq_right (Nat.le_of_lt hlt)⟩

end Limit

namespace Receiver

variable {σ : Type}

/-! ## One write -/

/-- What a write of the bytes `b` may do at a limit, so that the receiver after it is related by `R`
to the limit that is left then. Nothing is asked of a receiver that has failed. -/
inductive Accepts (R : σ → Limit → Prop) (b : Bytes) : Limit → WriteResult × σ → Prop
  /-- Some of the bytes are taken, and not more than the limit. -/
  | taken {l : Limit} {n : Nat} {t : σ} (hpos : 0 < n) (hle : n ≤ l.most b.length)
      (ht : R t (l.less n)) : Accepts R b l (.taken n, t)
  /-- None is taken yet. -/
  | interrupted {l : Limit} {t : σ} (ht : R t l) : Accepts R b l (.interrupted, t)
  /-- The failure, if the limit is used up. -/
  | failed {e : Failure} {t : σ} : Accepts R b (some (0, e)) (.failed e, t)
  /-- None is taken any more, which is a failure of its own. -/
  | exhausted {t : σ} : Accepts R b (some (0, .nothingTaken)) (.taken 0, t)

variable [Receiver σ]

/-- A relation between receivers and their limits, which every write keeps. -/
def Reception (R : σ → Limit → Prop) : Prop :=
  ∀ {s : σ} {l : Limit} {b : Bytes}, R s l → b ≠ [] → Accepts R b l (write b s)

/-- What a write has done is what it may do. -/
theorem Reception.accepts {R : σ → Limit → Prop} (hR : Reception R) {s : σ} {l : Limit} {b : Bytes}
    {x : WriteResult × σ} (h : R s l) (hb : b ≠ []) (hwrite : write b s = x) : Accepts R b l x :=
  hwrite ▸ hR h hb

/-- A receiver takes as many bytes as the limit says, and then fails as it says. -/
def Limited (s : σ) (l : Limit) : Prop := ∃ R : σ → Limit → Prop, Reception R ∧ R s l

/-! ## Writes that are repeated -/

/-- Of all bytes that are written, those within the limit are taken. -/
theorem Reception.exists_writeAll_eq {R : σ → Limit → Prop} (hR : Reception R) {s : σ} {l : Limit}
    (h : R s l) (b : Bytes) :
    ∃ t, writeAll b s = (l.answer b.length, t) ∧
      written t = written s ++ b.take (l.most b.length) ∧
      (l.answer b.length = .ok () → R t (l.less b.length)) := by
  -- Along the writes that `writeAll` makes: what one of them takes is the front of the bytes, and
  -- the limit goes down by it, so that what holds of the rest carries over.
  fun_induction writeAll b s generalizing l with
  | case1 s =>
    -- Nothing is left to be written.
    have hanswer : l.answer 0 = .ok () := by
      rcases l.answer_cases 0 with ⟨hanswer, -⟩ | ⟨k, e, -, hk, -⟩
      · exact hanswer
      · exact absurd hk (Nat.not_lt_zero k)
    have hless : l.less 0 = l := by
      cases l with
      | none => rfl
      | some p => rfl
    rw [List.length_nil, hanswer, hless, List.take_nil, List.append_nil]
    exact ⟨s, rfl, rfl, fun _ => h⟩
  | case2 b s hb t hwrite =>
    have hpos : 0 < b.length := List.length_pos_iff.mpr hb
    cases hR.accepts h hb hwrite with
    | taken hzero => exact absurd hzero (Nat.lt_irrefl 0)
    | exhausted =>
      rw [Limit.answer_zero hpos, Limit.most_zero]
      exact ⟨t, rfl, (written_of_taken hwrite).2, nofun⟩
  | case3 b s hb n t hwrite hn ih =>
    cases hR.accepts h hb hwrite with
    | exhausted => exact absurd rfl hn
    | taken hpos hle ht =>
      obtain ⟨u, hu, hwritten, hless⟩ := ih ht
      have hnb : n ≤ b.length := Nat.le_trans hle (l.most_le b.length)
      rw [List.length_drop] at hu hwritten hless
      rw [Limit.answer_less hle] at hu hless
      rw [Limit.less_less, Nat.add_sub_cancel' hnb] at hless
      refine ⟨u, hu, ?_, hless⟩
      rw [hwritten, (written_of_taken hwrite).2, List.append_assoc, ← List.take_add,
        Limit.most_less hle]
  | case4 b s hb t hwrite ih =>
    cases hR.accepts h hb hwrite with
    | interrupted ht =>
      obtain ⟨u, hu, hwritten, hless⟩ := ih ht
      rw [written_of_interrupted hwrite] at hwritten
      exact ⟨u, hu, hwritten, hless⟩
  | case5 b s hb e t hwrite =>
    have hpos : 0 < b.length := List.length_pos_iff.mpr hb
    cases hR.accepts h hb hwrite with
    | failed =>
      rw [Limit.answer_zero hpos, Limit.most_zero, List.take_zero, List.append_nil]
      exact ⟨t, rfl, written_of_failed hwrite, nofun⟩

/-- A receiver with a limit takes all bytes or those within the limit, ends as the limit says, and
has the lower limit if it took all. -/
theorem Limited.exists_writeAll_eq {s : σ} {l : Limit} (h : Limited s l) (b : Bytes) :
    ∃ t, writeAll b s = (l.answer b.length, t) ∧
      written t = written s ++ b.take (l.most b.length) ∧
      (l.answer b.length = .ok () → Limited t (l.less b.length)) := by
  obtain ⟨R, hR, hs⟩ := h
  obtain ⟨t, ht, hwritten, hless⟩ := hR.exists_writeAll_eq hs b
  exact ⟨t, ht, hwritten, fun hanswer => ⟨R, hR, hless hanswer⟩⟩

end Receiver

open Receiver

/-- A write that does not meet the limit takes something. -/
theorem Sink.step_pos (s : Sink) {n : Nat} (hn : 0 < n) : 0 < s.step n := by
  unfold step
  split <;> omega

/-- A sink takes something unless it fails. -/
theorem Sink.portion_pos {s : Sink} (hl : ∀ e, s.limit ≠ some (0, e)) {n : Nat} (hn : 0 < n) :
    0 < s.portion n := by
  have hstep := s.step_pos hn
  unfold portion Limit.most
  split
  · rename_i k e hlimit
    have hk : k ≠ 0 := by
      rintro rfl
      exact hl e hlimit
    omega
  · exact hstep

/-- A sink is limited as it is said of it. -/
theorem Sink.reception : Reception fun (s : Sink) l => s.limit = l := by
  rintro s l b rfl hb
  have hpos : 0 < b.length := List.length_pos_iff.mpr hb
  show Accepts _ b s.limit (s.write b)
  obtain ⟨hr, -, ht⟩ | ⟨e, hr, hl, ht⟩ | ⟨hr, hl, ht⟩ := cases_of_write (Prod.eta (s.write b)).symm
  · rw [← Prod.eta (s.write b), hr, ht]
    exact .interrupted rfl
  · rw [← Prod.eta (s.write b), hr, ht, hl]
    exact .failed
  · rw [← Prod.eta (s.write b), hr, ht]
    have hle : s.portion b.length ≤ s.limit.most b.length := s.limit.most_mono (s.step_le b.length)
    exact .taken (portion_pos hl hpos) hle rfl

/-- A sink has the limit it says. -/
theorem Sink.limited (s : Sink) : Limited s s.limit := ⟨_, reception, rfl⟩

/-! ## Programs -/

section Programs

variable {σ α β : Type} {ε : Type}

/-- After a step that succeeded, the next one goes on from its state. -/
theorem run_bind_of_ok {x : ExceptT ε (StateM σ) α} {f : α → ExceptT ε (StateM σ) β} {s t : σ}
    {a : α} (h : x.run.run s = (.ok a, t)) : (x >>= f).run.run s = (f a).run.run t := by
  rw [ExceptT.run_bind, StateT.run_bind, h]
  rfl

/-- After a step that failed, nothing is done. -/
theorem run_bind_of_error {x : ExceptT ε (StateM σ) α} {f : α → ExceptT ε (StateM σ) β} {s t : σ}
    {e : ε} (h : x.run.run s = (.error e, t)) : (x >>= f).run.run s = (.error e, t) := by
  rw [ExceptT.run_bind, StateT.run_bind, h]
  rfl

variable [Receiver σ] {report : Failure → ε} {x y : ExceptT ε (StateM σ) Unit} {a b : Bytes}

/-- The program writes the given bytes. -/
structure Writes (report : Failure → ε) (x : ExceptT ε (StateM σ) Unit) (b : Bytes) : Prop where
  /-- If the bytes are within the limit of the receiver then it succeeds, and otherwise it ends with
  the failure and has written those that are within. -/
  exists_run_eq : ∀ {s : σ} {l : Limit}, Limited s l →
    ∃ t, x.run.run s = ((l.answer b.length).mapError report, t) ∧
      written t = written s ++ b.take (l.most b.length) ∧
      (l.answer b.length = .ok () → Limited t (l.less b.length))

/-- To write bytes writes them. -/
theorem writes_send (b : Bytes) : Writes id (send b : Writing σ Unit) b := by
  refine ⟨fun {s l} h => ?_⟩
  obtain ⟨t, ht, hwritten, hless⟩ := h.exists_writeAll_eq b
  refine ⟨t, ?_, hwritten, hless⟩
  show writeAll b s = ((l.answer b.length).mapError id, t)
  rw [ht]
  cases l.answer b.length with
  | ok => rfl
  | error e => rfl

/-- To do nothing writes nothing. -/
theorem writes_pure : Writes report (pure () : ExceptT ε (StateM σ) Unit) [] := by
  refine ⟨fun {s l} h => ?_⟩
  obtain ⟨t, ht, hwritten, hless⟩ := h.exists_writeAll_eq []
  have hnil : writeAll [] s = (.ok (), s) := by
    rw [writeAll, dif_pos rfl]
  obtain ⟨hanswer, rfl⟩ := Prod.mk.inj (hnil.symm.trans ht)
  refine ⟨s, ?_, hwritten, hless⟩
  rw [← hanswer]
  rfl

/-- Two programs one after the other write the bytes of both. After a failure of the first one,
nothing is written by the second. -/
theorem Writes.append (hx : Writes report x a) (hy : Writes report y b) :
    Writes report (do x; y) (a ++ b) := by
  refine ⟨fun {s l} h => ?_⟩
  obtain ⟨t, ht, hwritten, hless⟩ := hx.exists_run_eq h
  have hlength : (a ++ b).length = a.length + b.length := List.length_append
  rcases l.answer_cases a.length with ⟨hanswer, hmost⟩ | ⟨k, e, rfl, hk, hanswer, hmost⟩
  · -- All bytes of the first one were taken, and the second one has the limit that is left.
    rw [hanswer] at ht
    have hle : a.length ≤ l.most (a ++ b).length := by
      have := l.most_mono (show a.length ≤ (a ++ b).length by omega)
      omega
    have hsub : b.length = (a ++ b).length - a.length := by omega
    obtain ⟨u, hu, hwritten', hless'⟩ := hy.exists_run_eq (hless hanswer)
    have hafter := Limit.answer_less hle
    rw [← hsub] at hafter
    rw [hafter] at hu hless'
    rw [Limit.less_less, ← hlength] at hless'
    refine ⟨u, ?_, ?_, hless'⟩
    · rw [run_bind_of_ok ht, hu]
    · rw [hwritten', hwritten, hmost, List.take_length, ← Limit.most_less hle, ← hsub,
        List.take_length_add_append, List.append_assoc]
  · -- The limit lies within the bytes of the first one.
    rw [hanswer] at ht
    have hanswer' : Limit.answer (a ++ b).length (some (k, e)) = .error e := if_neg (by omega)
    have hmost' : Limit.most (a ++ b).length (some (k, e)) = k := Nat.min_eq_right (by omega)
    rw [hanswer', hmost']
    rw [hmost] at hwritten
    refine ⟨t, ?_, ?_, nofun⟩
    · rw [run_bind_of_error ht]
      rfl
    · rw [hwritten, List.take_append_of_le_length (by omega)]

/-- What a program that writes a text leaves at a receiver that takes `k` bytes and then fails with
`e`. -/
structure WrittenUpTo (k : Nat) (e : ε) (text : Bytes) (s : σ) (result : Except ε Unit × σ) :
    Prop where
  /-- A text that is within the limit is written whole. -/
  whole : text.length ≤ k → result.1 = .ok () ∧ written result.2 = written s ++ text
  /-- Of a longer one the first `k` bytes are written, and the failure is reported. -/
  cut : k < text.length → result.1 = .error e ∧ written result.2 = written s ++ text.take k

/-- What is left by a result that is told by the limit. -/
theorem writtenUpTo_of_eq {k : Nat} {e : Failure} {s t : σ} {text : Bytes}
    {result : Except ε Unit × σ}
    (hresult : result = ((Limit.answer text.length (some (k, e))).mapError report, t))
    (hwritten : written t = written s ++ text.take (Limit.most text.length (some (k, e)))) :
    WrittenUpTo k (report e) text s result := by
  subst hresult
  constructor
  · intro hle
    have hanswer : Limit.answer text.length (some (k, e)) = .ok () := if_pos hle
    have hmost : Limit.most text.length (some (k, e)) = text.length := Nat.min_eq_left hle
    rw [hmost, List.take_length] at hwritten
    rw [hanswer]
    exact ⟨rfl, hwritten⟩
  · intro hlt
    have hanswer : Limit.answer text.length (some (k, e)) = .error e :=
      if_neg (Nat.not_le_of_lt hlt)
    have hmost : Limit.most text.length (some (k, e)) = k := Nat.min_eq_right (Nat.le_of_lt hlt)
    rw [hmost] at hwritten
    rw [hanswer]
    exact ⟨rfl, hwritten⟩

end Programs

end GltfAsset
