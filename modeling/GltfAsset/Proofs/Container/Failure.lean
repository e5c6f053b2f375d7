import GltfAsset.Proofs.Container.Grammar
import GltfAsset.Proofs.Stream.Failure

/-!
# Containers on transports that fail

A transport that fails is never taken for one that ends. Beside the same walk through the same bytes
on a transport that does not fail, either the walk is over before the failure, and gives the same,
or it reports the failure (`Reports`). Walks are compared step by step: as long as the two streams
stand beside each other the steps give the same, and a step that the failure breaks off is one for
which the other stream had to go on past it or met its end.
-/

namespace GltfAsset.Container

open Source

/-! ## Walks beside each other -/

section Walk

variable {σ τ α β : Type} [Stream σ] [Source τ] {I : τ → Prop} {J : σ → Prop} {f : Nat}
  {e : Failure}

/-- What a walk may give before the failure: a value of which `Q` holds, or an error, but never that
the stream ended too early. -/
def Expected (Q : α → Prop) : Except Error α → Prop
  | .ok a => Q a
  | .error e => e ≠ .truncated

/-- From streams that stand beside each other, two walks give the same or the second one the
failure. -/
abbrev Follows (I : τ → Prop) (J : σ → Prop) (f : Nat) (e : Failure) (Q : α → Prop)
    (x : Walk (Watched τ) α) (y : Walk σ α) : Prop :=
  ∀ w s, Beside I J w s →
    GivenBeside I J f (Expected Q) (.error (.transport e)) (x.run.run w) (y.run.run s)

/-- A walk does not lead back from beyond the failure. -/
abbrev StaysPast (I : τ → Prop) (f : Nat) (x : Walk (Watched τ) α) : Prop :=
  Agrees (fun w w' => w = w' ∧ Past I f w) x x

/-- A value is given on both sides. -/
theorem Follows.pure {Q : α → Prop} {a : α} (h : Q a) : Follows I J f e Q (pure a) (pure a) :=
  fun _ _ hbeside => .same h hbeside

/-- A result is given on both sides. -/
theorem Follows.liftM {Q : α → Prop} {x : Except Error α} (h : Expected Q x) :
    Follows I J f e Q (liftM x) (liftM x) := by
  intro w s hbeside
  rw [run_liftM, run_liftM]
  exact .same h hbeside

/-- A walk that starts beyond the failure ends beyond it. -/
theorem StaysPast.past {x : Walk (Watched τ) α} (hx : StaysPast I f x) {w : Watched τ}
    (hw : Past I f w) : Past I f (x.run.run w).2 := by
  obtain ⟨r, t, t', ht, -, rfl, hpast⟩ := hx w w ⟨rfl, hw⟩
  have ht : x.run.run w = (r, t) := ht
  rw [ht]
  exact hpast

/-- What follows on values of which `Q` holds follows after what gives only these. -/
theorem Follows.bind {Q : α → Prop} {Q' : β → Prop} {x : Walk (Watched τ) α} {y : Walk σ α}
    {g : α → Walk (Watched τ) β} {h : α → Walk σ β} (hx : Follows I J f e Q x y)
    (hg : ∀ a, Q a → Follows I J f e Q' (g a) (h a)) (hpast : ∀ a, StaysPast I f (g a)) :
    Follows I J f e Q' (x >>= g) (y >>= h) := by
  intro w s hbeside
  have hstep := hx w s hbeside
  cases hw : x.run.run w with
  | mk r w' =>
  cases hs : y.run.run s with
  | mk r' s' =>
  rw [hw, hs] at hstep
  cases hstep with
  | same hr hbeside =>
    cases r with
    | ok a =>
      rw [run_bind_of_ok hw, run_bind_of_ok hs]
      exact hg a hr w' s' hbeside
    | error e' =>
      rw [run_bind_of_error hw, run_bind_of_error hs]
      exact .same hr hbeside
  | failed hw' hs' =>
    rw [run_bind_of_error hs]
    cases r with
    | ok a =>
      rw [run_bind_of_ok hw]
      exact .failed ((hpast a).past hw') hs'
    | error e' =>
      rw [run_bind_of_error hw]
      exact .failed hw' hs'

end Walk

/-! ## The walks through a container -/

/-- An error that is not of the end is expected. -/
theorem expected_of_error {α : Type} {r : Except Error α}
    (h : ∀ e, r = .error e → e ≠ .truncated) : Expected (fun _ => True) r := by
  cases r with
  | ok a => trivial
  | error e => exact h e rfl

/-- That the number of bytes is refused is expected. -/
theorem expected_reconcile (policy : LengthPolicy) (d : Document) (payload : Bytes) :
    Expected (fun _ => True) (reconcile policy d payload) := by
  refine expected_of_error fun e he => ?_
  obtain ⟨declared, rfl⟩ := eq_bufferLength_of_reconcile he
  exact nofun

/-- That a text is refused is expected. -/
theorem expected_document (text : Bytes) : Expected (fun _ => True) (document text) := by
  refine expected_of_error fun e he => ?_
  obtain ⟨t, rfl⟩ := eq_transcoding_of_document he
  exact nofun

/-- The words of a chunk that is there never say that the stream ended. -/
theorem expected_textLength {h? : Option ChunkHeader} (hh : h? ≠ none) :
    Expected (fun _ => True) (textLength h?) := by
  refine expected_of_error fun e he => ?_
  rcases eq_of_textLength he with ⟨hnone, -⟩ | ⟨found, rfl⟩ | rfl
  · exact absurd hnone hh
  · exact nofun
  · exact nofun

/-- That a chunk is of another kind is expected. -/
theorem expected_bytesLength? {h? : Option ChunkHeader} (hh : h? ≠ none) :
    Expected (fun n? => n? ≠ none) (bytesLength? h?) := by
  obtain ⟨h, rfl⟩ := Option.ne_none_iff_exists'.mp hh
  unfold bytesLength?
  dsimp only
  split
  · exact Option.some_ne_none _
  · exact nofun

section Container

variable {σ τ : Type} [Stream σ] [Stream τ] {c : Bytes} {I : τ → Prop} {J : σ → Prop} {f : Nat}
  {e : Failure} (hI : Source.Tracks c I) (hJ : Source.Breaks c f e J) (hf : f ≤ c.length)

include hI hJ hf

/-- Up to a number of bytes are taken on both sides, or the failure is met. -/
theorem follows_takeUpTo (n : Nat) :
    Follows I J f e (fun b => b.length = n) (takeUpTo n) (takeUpTo n) := by
  intro w s hbeside
  have htake := hbeside.ends_take hI hJ hf n
  unfold takeUpTo
  dsimp only [ExceptT.run, StateT.run, ExceptT.mk]
  generalize take n w = x, take n s = y at htake
  cases htake with
  | same hr hbeside =>
    obtain ⟨b, rfl, hb⟩ := hr
    exact .same hb hbeside
  | @failed r w' s' hw hs =>
    cases r with
    | ok b => exact .failed hw hs
    | error e' => exact .failed hw hs

/-- A number of bytes is taken on both sides, or the failure is met. -/
theorem follows_takeWhole? (n : Nat) :
    Follows I J f e (fun b? => b? ≠ none) (takeWhole? n) (takeWhole? n) := by
  rw [takeWhole?_eq, takeWhole?_eq]
  refine (follows_takeUpTo hI hJ hf n).bind (fun b hb => .liftM ?_) fun b => .liftM (whole? n b)
  rw [whole?, if_pos hb]
  exact Option.some_ne_none b

/-- A payload is taken on both sides, or the failure is met. -/
theorem follows_takePayload (n : Nat) :
    Follows I J f e (fun _ => True) (takePayload n) (takePayload n) := by
  rw [takePayload_eq, takePayload_eq]
  refine (follows_takeUpTo hI hJ hf n).bind (fun b hb => .liftM ?_)
    fun b => .liftM (wholePayload n b)
  rw [wholePayload, if_neg (by omega)]
  trivial

/-- The header is taken on both sides, or the failure is met. -/
theorem follows_takeHeader : Follows I J f e (fun _ => True) takeHeader takeHeader := by
  rw [takeHeader_eq, takeHeader_eq]
  refine (follows_takeWhole? hI hJ hf headerLength).bind (fun b? hb => ?_) fun b? => ?_
  · obtain ⟨b, rfl⟩ := Option.ne_none_iff_exists'.mp hb
    refine .liftM ?_
    unfold checkWords
    split
    · exact nofun
    · split
      · exact nofun
      · trivial
  · cases b? with
    | none => exact .throw _
    | some b => exact .liftM _

/-- The header of a chunk is taken on both sides, or the failure is met. -/
theorem follows_takeChunkHeader? :
    Follows I J f e (fun h? => h? ≠ none) takeChunkHeader? takeChunkHeader? := by
  refine (follows_takeWhole? hI hJ hf chunkHeaderLength).bind (fun b? hb => ?_) fun _ => .pure _
  obtain ⟨b, rfl⟩ := Option.ne_none_iff_exists'.mp hb
  exact .pure (Option.some_ne_none _)

/-- The text is found on both sides, or the failure is met. -/
theorem follows_locateJson (origin : Origin) :
    Follows I J f e (fun _ => True) (locateJson origin) (locateJson origin) := by
  have hcurrent : Follows I J f e (fun _ => True) (locateJson .current) (locateJson .current) := by
    rw [locateJson_current, locateJson_current]
    exact (follows_takeChunkHeader? hI hJ hf).bind
      (fun h? hh => .liftM (expected_textLength hh)) fun h? => .liftM (textLength h?)
  cases origin with
  | start =>
    rw [locateJson_start, locateJson_start]
    refine (follows_takeHeader hI hJ hf).bind (fun _ _ => hcurrent) fun _ => ?_
    exact agrees_locateJson (agree_take_past hI) .current
  | current => exact hcurrent

/-- From the end of the text, the bytes are found on both sides, or the failure is met. -/
theorem follows_locateBinary_current :
    Follows I J f e (fun n? => n? ≠ none) (locateBinary .current) (locateBinary .current) := by
  rw [locateBinary_current, locateBinary_current]
  exact (follows_takeChunkHeader? hI hJ hf).bind
    (fun h? hh => .liftM (expected_bytesLength? hh)) fun h? => .liftM (bytesLength? h?)

/-- The failure of the transport is not that the stream ended. -/
theorem follows_skipPayload (he : e.kind ≠ .unexpectedEnd)
    (hσ : InSequence σ) (n : Nat) :
    Follows I J f e (fun _ => True) (skipPayload n) (skipPayload n) := by
  intro w s hbeside
  have hstep := hbeside.ends_skip hI hJ hf hσ n
  unfold skipPayload
  dsimp only [ExceptT.run, StateT.run, ExceptT.mk]
  generalize Stream.skip n w = x, Stream.skip n s = y at hstep
  cases hstep with
  | same hr hbeside =>
    obtain rfl := hr
    exact .same trivial hbeside
  | @failed r w' s' hw hs =>
    dsimp only
    rw [if_neg he]
    cases r with
    | ok u => exact .failed hw hs
    | error e' => exact .failed hw hs

/-- The bytes are found on both sides, or the failure is met. -/
theorem follows_locateBinary (he : e.kind ≠ .unexpectedEnd)
    (hσ : InSequence σ) (origin : Origin) :
    Follows I J f e (fun n? => n? ≠ none) (locateBinary origin) (locateBinary origin) := by
  have hcurrent := follows_locateBinary_current hI hJ hf
  cases origin with
  | start =>
    rw [locateBinary_start, locateBinary_start]
    refine (follows_locateJson hI hJ hf .start).bind (fun n _ => ?_) fun n => ?_
    · refine (follows_skipPayload hI hJ hf he hσ n).bind (fun _ _ => hcurrent) fun _ => ?_
      exact agrees_locateBinary (agree_take_past hI) .current nofun
    · have hpast := agree_take_past (f := f) hI n
      have hskip := (Watched.inSequence τ).agree (Watched.inSequence τ) hpast
      exact (agrees_skipPayload hskip).bind fun _ =>
        agrees_locateBinary (agree_take_past hI) .current nofun
  | current => exact hcurrent

/-- The bytes are taken on both sides, or the failure is met. -/
theorem follows_takeBinary (policy : LengthPolicy) (d : Document) :
    Follows I J f e (fun _ => True) (takeBinary policy d) (takeBinary policy d) := by
  refine (follows_locateBinary_current hI hJ hf).bind (fun n? hn => ?_) fun n? => ?_
  · obtain ⟨n, rfl⟩ := Option.ne_none_iff_exists'.mp hn
    refine (follows_takePayload hI hJ hf n).bind (fun payload _ => ?_) fun payload => ?_
    · exact .liftM (expected_reconcile policy d payload)
    · exact .liftM (reconcile policy d payload)
  · cases n? with
    | none => exact .pure _
    | some n =>
      exact (agrees_takePayload (agree_take_past hI) n).bind fun payload =>
        .liftM (reconcile policy d payload)

/-- A container is opened on both sides, or the failure is met. -/
theorem follows_unpackFrom (policy : LengthPolicy) :
    Follows I J f e (fun _ => True) (unpackFrom policy) (unpackFrom policy) := by
  have htake := agree_take_past (f := f) hI
  rw [unpackFrom_eq, unpackFrom_eq]
  refine (follows_locateJson hI hJ hf .start).bind (fun n _ => ?_) fun n => ?_
  · refine (follows_takePayload hI hJ hf n).bind (fun text _ => ?_) fun text => ?_
    · refine (Follows.liftM (expected_document text)).bind (fun d _ => ?_) fun d => ?_
      · exact follows_takeBinary hI hJ hf policy d
      · exact agrees_takeBinary htake policy d
    · exact (Agrees.liftM (document text)).bind fun d => agrees_takeBinary htake policy d
  · exact (agrees_takePayload htake n).bind fun text =>
      (Agrees.liftM (document text)).bind fun d => agrees_takeBinary htake policy d

end Container

/-! ## What is reported -/

/-- A walk through any stream. -/
abbrev AnyWalk (α : Type) := ∀ (σ : Type) [Stream σ], Walk σ α

section Reports

variable {σ τ α : Type} [Stream σ] [Stream τ]

/-- A walk meets the end of a stream if it does so while the stream is watched. -/
def MeetsEnd (x : AnyWalk α) (t : τ) : Prop :=
  ((x (Watched τ)).run.run ⟨t, false⟩).2.met = true

/-- What a walk does on a stream `s` that fails after `f` bytes, given what it does on a stream `t`
of the same bytes that does not fail. -/
structure Reports (x : AnyWalk α) (f : Nat) (e : Failure) (Q : α → Prop) (t : τ) (s : σ) :
    Prop where
  /-- If it is over before the failure and does not meet the end, it gives the same, and leads to
  the same place. -/
  same : ¬ MeetsEnd x t → position ((x τ).run.run t).2 ≤ f →
    ((x σ).run.run s).1 = ((x τ).run.run t).1 ∧
      position ((x σ).run.run s).2 = position ((x τ).run.run t).2
  /-- Otherwise it gives the failure, at its place. -/
  failed : MeetsEnd x t ∨ f < position ((x τ).run.run t).2 →
    ((x σ).run.run s).1 = .error (.transport e) ∧ position ((x σ).run.run s).2 = f
  /-- It never says that the stream ended too early. -/
  not_truncated : ((x σ).run.run s).1 ≠ .error .truncated
  /-- If it gives a value, this is one that `Q` holds of. -/
  value : ∀ a, ((x σ).run.run s).1 = .ok a → Q a

/-- A walk reports failures if it follows the same walk on a watched stream. -/
theorem reports_of_follows {x : AnyWalk α} {f : Nat} {e : Failure} {Q : α → Prop} {I : τ → Prop}
    {J : σ → Prop} {t : τ} {s : σ} (hJ : ∀ {s : σ}, J s → position s ≤ f)
    (hwatched : Agrees (fun (w : Watched τ) t => w.stream = t) (x (Watched τ)) (x τ))
    (hfollows : Follows I J f e Q (x (Watched τ)) (x σ)) (hbeside : Beside I J ⟨t, false⟩ s) :
    Reports x f e Q t s := by
  obtain ⟨r, w, t', hw, ht, rfl⟩ := hwatched ⟨t, false⟩ t rfl
  have hw : (x (Watched τ)).run.run ⟨t, false⟩ = (r, w) := hw
  have ht : (x τ).run.run t = (r, w.stream) := ht
  have hstep := hfollows ⟨t, false⟩ s hbeside
  have hmeets : MeetsEnd x t ↔ w.met = true := by rw [MeetsEnd, hw]
  cases hs : (x σ).run.run s with
  | mk r' s' =>
  rw [hw, hs] at hstep
  cases hstep with
  | same hr hbeside =>
    have hplace : position w.stream = position s' := hbeside.place
    have hle := hJ hbeside.fails
    have hmet := hbeside.met
    refine ⟨fun _ _ => ?_, ?_, ?_, ?_⟩
    · rw [hs, ht]
      exact ⟨rfl, hplace.symm⟩
    · -- The place is before the failure, and the end was not met.
      rw [hmeets, ht, hmet]
      rintro (hend | hpast)
      · contradiction
      · have hpast : f < position w.stream := hpast
        omega
    · rw [hs]
      rintro rfl
      exact hr rfl
    · rw [hs]
      rintro a rfl
      exact hr
  | failed hpast hplace =>
    refine ⟨?_, fun _ => ?_, ?_, ?_⟩
    · rw [hmeets, ht]
      intro hmet hle
      rcases hpast.past with hend | hbeyond
      · exact absurd hend hmet
      · exact absurd hle (Nat.not_le.mpr hbeyond)
    · rw [hs]
      exact ⟨rfl, hplace⟩
    · rw [hs]
      exact nofun
    · rw [hs]
      exact nofun

/-- That a container has the contents that come of the whole payload of its chunk with bytes. -/
def HasWhole (policy : LengthPolicy) (b : Bytes) (c : Contents) : Prop :=
  ∃ total text d payload tail,
    b = header total ++ (framed .json text ++ (framed .binary payload ++ tail)) ∧
      Document.decode text = .ok d ∧ reconcile policy d payload = .ok c

/-- Where no chunk is left, looking for one meets the end. -/
theorem met_takeBinary_nil (policy : LengthPolicy) (d : Document) {w : Watched τ}
    (h : Gives w []) : ((takeBinary policy d : Walk (Watched τ) _).run.run w).2.met = true := by
  obtain ⟨R, hR, hw⟩ := h
  have hmet : (take chunkHeaderLength w).2.met = true := by
    rw [take, Watched.met_gather hR hw]
    exact Bool.or_true _
  obtain ⟨t, ht, -⟩ := hR.exists_gather_eq hw chunkHeaderLength []
  have ht : take chunkHeaderLength w = (.ok [], t) := ht
  rw [ht] at hmet
  have htakeUpTo : (takeUpTo chunkHeaderLength : Walk (Watched τ) _).run.run w = (.ok [], t) := by
    unfold takeUpTo
    dsimp only [ExceptT.run, StateT.run, ExceptT.mk]
    rw [ht]
  have hchunk : (takeChunkHeader? : Walk (Watched τ) _).run.run w = (.ok none, t) := by
    rw [takeChunkHeader?, takeWhole?, bind_assoc, run_bind_of_ok htakeUpTo]
    rfl
  have hbinary : (locateBinary .current : Walk (Watched τ) _).run.run w = (.ok none, t) := by
    rw [locateBinary_current, run_bind_of_ok hchunk]
    rfl
  rw [takeBinary, run_bind_of_ok hbinary]
  exact hmet

/-- Contents that are read without meeting the end come of a whole payload. -/
theorem hasWhole_of_run {policy : LengthPolicy} {b : Bytes} {c : Contents} {w w' : Watched τ}
    (h : Gives w b) (hrun : (unpackFrom policy : Walk (Watched τ) _).run.run w = (.ok c, w'))
    (hmet : w'.met = false) : HasWhole policy b c := by
  obtain ⟨total, -, text, r, d, -, -, hd, rfl, u, hu, hbinary⟩ := of_run_unpackFrom h hrun
  rcases of_run_takeBinary hu hbinary with ⟨rfl, -⟩ | ⟨payload, tail, -, rfl, hkept⟩
  · have hend := met_takeBinary_nil policy d hu
    rw [hbinary, hmet] at hend
    contradiction
  · exact ⟨total, text, d, payload, tail, rfl, hd, hkept⟩

/-- Contents that are given beside a failure come of a whole payload. -/
theorem Reports.hasWhole {policy : LengthPolicy} {b : Bytes} {f : Nat} {e : Failure}
    {Q : Contents → Prop} {t : τ} {s : σ} (h : Reports (fun _ _ => unpackFrom policy) f e Q t s)
    (hgives : Gives (⟨t, false⟩ : Watched τ) b) :
    Reports (fun _ _ => unpackFrom policy) f e (HasWhole policy b) t s := by
  refine { h with value := fun c hc => ?_ }
  have hwatched := (agrees_unpackFrom Watched.agree_take policy).fst_eq
    (s := ⟨t, false⟩) (t := t) rfl
  -- A value is not the failure, so the other stream gives it too, without meeting its end.
  by_cases hover : MeetsEnd (fun _ _ => unpackFrom policy) t ∨
      f < position ((unpackFrom policy : Walk τ _).run.run t).2
  · rw [(h.failed hover).1] at hc
    contradiction
  · rw [not_or, Nat.not_lt] at hover
    rw [(h.same hover.1 hover.2).1] at hc
    rw [hc] at hwatched
    exact hasWhole_of_run hgives (Prod.ext hwatched rfl) (Bool.eq_false_iff.mpr hover.1)

/-- A transport that fails is never taken for one that ends. Let one stream of some bytes fail after
`f` of them, in whatever pieces they come and whatever interruptions there are, and let another one
not fail, both passing over bytes by taking them. A walk that is over before the failure and does
not meet the end gives the same on both. Otherwise it gives the failure, at its place: never that
the stream ended too early, nor that there is no chunk with bytes, nor contents without the whole of
them. The header is not known if the failure comes inside of it. -/
theorem reports_of_breaksAt {b : Bytes} {f : Nat} (hf : f ≤ b.length) {e : Failure}
    (he : e.kind ≠ .unexpectedEnd) (hσ : InSequence σ) (hτ : InSequence τ) {t : τ} {s : σ}
    (ht : Stream.Begins b t) (hs : BreaksAt b f e s) :
    (∀ origin, Reports (fun _ _ => locateJson origin) f e (fun _ => True) t s) ∧
    (∀ origin, Reports (fun _ _ => locateBinary origin) f e (fun n? => n? ≠ none) t s) ∧
    (∀ policy, Reports (fun _ _ => unpackFrom policy) f e (HasWhole policy b) t s) ∧
    (f < headerLength → (recognize s).1 = false ∧ position (recognize s).2 = f) := by
  obtain ⟨I, hI, ht, htstart⟩ := ht
  obtain ⟨J, hJ, hs, hsstart⟩ := hs
  have hplace : ∀ {s : σ}, J s → position s ≤ f := hJ.position_le
  have hbeside : Beside I J ⟨t, false⟩ s := ⟨ht, hs, htstart.trans hsstart.symm, rfl⟩
  have htake : ∀ n, Agree (fun (w : Watched τ) t => w.stream = t) (take n) (take n) :=
    Watched.agree_take
  have hskip := fun n => (Watched.inSequence τ).agree hτ (htake n)
  refine ⟨fun origin => ?_, fun origin => ?_, fun policy => ?_, fun hshort => ?_⟩
  · exact reports_of_follows hplace (agrees_locateJson htake origin)
      (follows_locateJson hI.toTracks hJ hf origin) hbeside
  · exact reports_of_follows hplace (agrees_locateBinary htake origin fun _ => hskip)
      (follows_locateBinary hI.toTracks hJ hf he hσ origin) hbeside
  · have hgives : Gives (⟨t, false⟩ : Watched τ) (b.drop (position t)) :=
      (Watched.tracks hI.toTracks).gives (s := ⟨t, false⟩) ht
    rw [htstart, List.drop_zero] at hgives
    have hreports := reports_of_follows (x := fun _ _ => unpackFrom policy) hplace
      (agrees_unpackFrom htake policy) (follows_unpackFrom hI.toTracks hJ hf policy) hbeside
    exact hreports.hasWhole hgives
  · obtain ⟨u, hu, -, hend⟩ := hJ.exists_take_eq hf hs headerLength
    rw [if_neg (by omega)] at hu
    have hend : position u = f := by omega
    rw [recognize, hu]
    exact ⟨rfl, hend⟩

end Reports

/-- A container with five bytes, read in single bytes and in pieces of four, where the transport
fails after the text or inside of the bytes. -/
theorem reports_of_breaksAt_five :
    let d : Document := { asset := { version := "2.0" } }
    let b := header 0 ++ (framed .json (d.encode .compact) ++ framed .binary [1, 2, 3, 4, 5])
    let e : Failure := ⟨.other, none⟩
    let t : Sequential := { rest := b, pace := fun _ => 3 }
    let s (f : Nat) : Sequential :=
      { rest := b, failure := some (f, e), pace := fun _ => 0, interrupts := fun _ => true }
    ((locateBinary .start : Walk Sequential _).run.run (s 47)).1 = .error (.transport e) ∧
      ((unpackFrom .padded : Walk Sequential _).run.run (s 57)).1 = .error (.transport e) ∧
      ((unpackFrom .padded : Walk Sequential _).run.run (s 60)).1 =
        ((unpackFrom .padded : Walk Sequential _).run.run t).1 := by
  intro d b e t s
  have hlength : b.length = 60 := by decide +kernel
  have ht : Stream.Begins b t := Sequential.begins b _ _
  have hs : ∀ f ≤ 60, BreaksAt b f e (s f) := fun f hf => Sequential.breaksAt (hlength ▸ hf) _ _
  have hreports := fun (f : Nat) (hf : f ≤ 60) =>
    reports_of_breaksAt (hlength ▸ hf) (e := e) (by decide) Sequential.inSequence
      Sequential.inSequence ht (hs f hf)
  refine ⟨?_, ?_, ?_⟩
  · obtain ⟨-, hbinary, -, -⟩ := hreports 47 (by decide)
    exact ((hbinary .start).failed (.inr (by decide +kernel))).1
  · obtain ⟨-, -, hcontents, -⟩ := hreports 57 (by decide)
    exact ((hcontents .padded).failed (.inr (by decide +kernel))).1
  · obtain ⟨-, -, hcontents, -⟩ := hreports 60 (by decide)
    have hend : ¬ MeetsEnd (fun _ _ => unpackFrom .padded) t := by
      unfold MeetsEnd
      decide +kernel
    exact ((hcontents .padded).same hend (by decide +kernel)).1

end GltfAsset.Container
