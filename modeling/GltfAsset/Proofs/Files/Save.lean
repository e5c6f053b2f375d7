import Mathlib.Data.List.TakeWhile
import Mathlib.Data.String.Basic
import GltfAsset.Proofs.Container.RoundTrip
import GltfAsset.Proofs.Files.Dispatch
import GltfAsset.Proofs.Files.Load

/-!
# Documents are saved and loaded again

The end of a name settles how a document is saved under it: as a container, as a text if there are
no bytes, or not at all. Whatever the case of its letters is, the name has to end in a point and one
of two words (`FileFormat.ofName_eq_glb_iff`), so that a point in the name of a folder does not
count. What is not saved leaves all files as they are, and what is saved changes the file of its
name only, from which it is loaded again (`load_save`).
-/

namespace GltfAsset

/-! ## Names -/

section Names

variable {name e ending : List Char}

/-- A point is the same in both cases, and no letter becomes one. -/
theorem toLower_eq_point_iff {c : Char} : c.toLower = '.' ↔ c = '.' := by
  constructor
  · intro h
    unfold Char.toLower at h
    split at h
    · next hupper =>
      -- A letter stands behind the point, and its small form behind the letter.
      have hle : 65 ≤ c.val.toNat := UInt32.le_iff_toNat_le.mp hupper.1
      have hge : c.val.toNat ≤ 90 := UInt32.le_iff_toNat_le.mp hupper.2
      have hsmall : c.val.toNat + (32 : UInt32).toNat < 2 ^ 32 :=
        Nat.lt_of_le_of_lt (Nat.add_le_add_right hge 32) (by decide)
      have hval : (c.val + 32).toNat = 46 := congrArg (fun x => x.val.toNat) h
      rw [UInt32.toNat_add, Nat.mod_eq_of_lt hsmall] at hval
      omega
    · exact h
  · rintro rfl
    rfl

/-- What stands behind the last point of a name is its extension. -/
theorem extension?_append (front : List Char) (he : '.' ∉ e) :
    extension? (front ++ '.' :: e) = some e := by
  have hreverse : (front ++ '.' :: e).reverse = e.reverse ++ '.' :: front.reverse := by
    rw [List.reverse_append, List.reverse_cons, List.append_assoc, List.singleton_append]
  have hpass : ∀ c ∈ e.reverse, decide (c ≠ '.') = true := by
    intro c hc
    exact decide_eq_true (ne_of_mem_of_not_mem (List.mem_reverse.mp hc) he)
  rw [extension?, if_pos (List.mem_append_right _ List.mem_cons_self), hreverse,
    List.takeWhile_append_of_pos hpass, List.takeWhile_cons_of_neg (by decide), List.append_nil,
    List.reverse_reverse]

/-- The extension of a name is what comes after its last point. -/
theorem extension?_eq_some_iff : extension? name = some e ↔ '.' ∉ e ∧ '.' :: e <:+ name := by
  constructor
  · intro h
    have hpoint : '.' ∈ name := by
      by_contra hnone
      rw [extension?, if_neg hnone] at h
      contradiction
    -- The last point of the name is the first one of its letters in reverse.
    obtain ⟨back, front, hname, hback⟩ := List.eq_append_cons_of_mem (List.mem_reverse.mpr hpoint)
    have hsplit : name = front.reverse ++ '.' :: back.reverse := by
      rw [← List.reverse_reverse name, hname, List.reverse_append, List.reverse_cons,
        List.append_assoc, List.singleton_append]
    have hback : '.' ∉ back.reverse := fun hmem => hback (List.mem_reverse.mp hmem)
    rw [hsplit, extension?_append _ hback, Option.some.injEq] at h
    rw [hsplit, ← h]
    exact ⟨hback, List.suffix_append _ _⟩
  · rintro ⟨he, front, rfl⟩
    exact extension?_append front he

/-- Without regard to the case of its letters, an extension is a given one if the name ends in a
point and that. -/
theorem exists_extension?_iff (hending : '.' ∉ ending) :
    (∃ e, extension? name = some e ∧ e.map Char.toLower = ending) ↔
      '.' :: ending <:+ name.map Char.toLower := by
  constructor
  · rintro ⟨e, he, rfl⟩
    exact (extension?_eq_some_iff.mp he).2.map Char.toLower
  · rintro ⟨front, hfront⟩
    obtain ⟨front, back, rfl, -, hback⟩ := List.map_eq_append_iff.mp hfront.symm
    obtain ⟨c, e, rfl, hc, rfl⟩ := List.map_eq_cons_iff.mp hback
    rw [toLower_eq_point_iff.mp hc]
    refine ⟨e, extension?_eq_some_iff.mpr ⟨fun he => hending ?_, List.suffix_append _ _⟩, rfl⟩
    exact List.mem_map.mpr ⟨'.', he, rfl⟩

end Names

/-- A name ends in the given text, which is in small letters, in any case of its own letters. -/
def EndsIn (ending name : String) : Prop := ending.toList <:+ name.toList.map Char.toLower

instance (ending name : String) : Decidable (EndsIn ending name) :=
  inferInstanceAs (Decidable (_ <:+ _))

/-- A name ends in a point and a word if its extension is this word. -/
theorem endsIn_point_iff {ending name : String} {w : List Char} (hw : ending.toList = '.' :: w)
    (hpoint : '.' ∉ w) :
    EndsIn ending name ↔ ∃ e, extension? name.toList = some e ∧ e.map Char.toLower = w := by
  rw [EndsIn, hw, exists_extension?_iff hpoint]

/-- A name asks for a container by its end. -/
theorem FileFormat.ofName_eq_glb_iff {name : String} : ofName name = .glb ↔ EndsIn ".glb" name := by
  rw [endsIn_point_iff (w := "glb".toList) rfl (by decide), ofName]
  cases extension? name.toList with
  | none => exact ⟨nofun, nofun⟩
  | some e =>
    simp only [Option.some.injEq, exists_eq_left']
    split
    · next hgltf => rw [hgltf]; decide
    · split
      · next hglb => exact iff_of_true rfl hglb
      · next hglb => exact iff_of_false nofun hglb

/-- A name asks for a text by its end. -/
theorem FileFormat.ofName_eq_gltf_iff {name : String} :
    ofName name = .gltf ↔ EndsIn ".gltf" name := by
  rw [endsIn_point_iff (w := "gltf".toList) rfl (by decide), ofName]
  cases extension? name.toList with
  | none => exact ⟨nofun, nofun⟩
  | some e =>
    simp only [Option.some.injEq, exists_eq_left']
    split
    · next hgltf => exact iff_of_true rfl hgltf
    · next hgltf =>
      refine iff_of_false ?_ hgltf
      split
      · exact nofun
      · exact nofun

/-! ## Files -/

namespace Directory

open Container

variable {dir : Directory} {name other : String} {b : Bytes}

open String in
/-- A text without a slash is not split, from any place on that the split has come to. -/
theorem splitOnAux_of_not_mem (front : List Char) {back : List Char} (h : '/' ∉ back) :
    (ofList (front ++ back)).splitOnAux "/" 0 ⟨utf8Len front⟩ 0 [] = [ofList (front ++ back)] := by
  induction back generalizing front with
  | nil =>
    -- At the end, what was passed is the whole text.
    have hwhole := extract_of_valid [] front []
    simp only [List.nil_append, utf8Len_nil, Nat.zero_add, List.append_nil] at hwhole
    rw [splitOnAux, if_pos ((atEnd_of_valid front []).mpr rfl), List.append_nil]
    exact congrArg (fun s => [s]) hwhole
  | cons c back ih =>
    -- The next letter is no slash, so it is passed too.
    have hc : ¬ (c == Pos.Raw.get "/" 0) = true := by
      have hslash : Pos.Raw.get "/" 0 = '/' := by decide
      rw [hslash, beq_iff_eq]
      rintro rfl
      exact h List.mem_cons_self
    have hrest := ih (front ++ [c]) fun hmem => h (List.mem_cons_of_mem c hmem)
    rw [List.append_assoc, List.singleton_append, utf8Len_append, utf8Len_cons, utf8Len_nil,
      Nat.zero_add] at hrest
    rw [splitOnAux, if_neg (mt (atEnd_of_valid front _).mp (List.cons_ne_nil _ _)), get_of_valid,
      List.headD_cons, if_neg hc]
    rw [← next_of_valid front c back] at hrest
    exact hrest

/-- A name without a slash is that of a file in the folder in which one is. -/
theorem resolve_of_not_mem {name : String} (h : '/' ∉ name.toList) (hdot : name ≠ ".") :
    resolve name = name := by
  have hsplit : name.splitOn "/" = [name] := by
    have hwhole := splitOnAux_of_not_mem [] h
    rw [List.nil_append, String.ofList_toList] at hwhole
    exact hwhole
  rw [resolve, hsplit]
  split
  · next heq => exact absurd (List.cons.inj heq).1 hdot
  · rfl

/-- A file of the given name can be written: nothing ends the name inside it, and it can be used. -/
def Writable (dir : Directory) (name : String) : Prop :=
  terminator ∉ name.toList ∧ dir.Admits (resolve name)

/-- A file that is put into a list is found there, and any other file as before. -/
theorem lookup_putFile (name other : String) (b : Bytes) (files : List (String × Bytes)) :
    (putFile name b files).lookup other =
      if other = name then some b else files.lookup other := by
  induction files with
  | nil =>
    rw [putFile]
    split
    · next h => rw [h, List.lookup_cons_self]
    · next h => rw [List.lookup_cons, beq_false_of_ne h]
  | cons f files ih =>
    obtain ⟨k, c⟩ := f
    rw [putFile]
    by_cases hk : k = name
    · subst hk
      rw [if_pos rfl]
      split
      · next h => rw [h, List.lookup_cons_self]
      · next h => simp only [List.lookup_cons, beq_false_of_ne h]
    · rw [if_neg hk]
      by_cases hother : other = k
      · -- The file is before the place where the new one is put.
        rw [hother, List.lookup_cons_self, List.lookup_cons_self, if_neg hk]
      · simp only [List.lookup_cons, beq_false_of_ne hother, ih]

/-- A file is written where the directory lets it. -/
theorem write_of_writable (h : dir.Writable name) (b : Bytes) :
    dir.write name b = (.ok (), { dir with files := putFile (resolve name) b dir.files }) := by
  rw [write, if_neg h.1, if_pos h.2]

/-- What is written is read again. -/
theorem read_write (h : dir.Writable name) (b : Bytes) :
    (dir.write name b).2.read name = .ok b := by
  rw [write_of_writable h, read, if_neg h.1, lookup_putFile, if_pos rfl]

/-- Writing does not change other files. -/
theorem read_write_of_ne (h : resolve other ≠ resolve name) (b : Bytes) :
    (dir.write name b).2.read other = dir.read other := by
  unfold write
  split
  · rfl
  · split
    · rw [read, read, lookup_putFile, if_neg h]
    · rfl

/-! ## Saving -/

variable {d : Document} {bin : Bytes}

/-- A container is written whole, in the place of the file that is made for it. -/
theorem save_eq_of_glb (hname : EndsIn ".glb" name) (hwritable : dir.Writable name) {g : Bytes}
    (hg : pack d bin = .ok g) : dir.save name d bin = (.ok (), (dir.write name g).2) := by
  simp only [save, FileFormat.ofName_eq_glb_iff.mpr hname, write_of_writable hwritable, hg]
  rfl

/-- A text is written if there are no bytes. -/
theorem save_eq_of_gltf (hname : EndsIn ".gltf" name) (hwritable : dir.Writable name) :
    dir.save name d [] = (.ok (), (dir.write name (d.encode .indented)).2) := by
  simp only [save, FileFormat.ofName_eq_gltf_iff.mpr hname, write_of_writable hwritable]
  rfl

/-- Anything else is refused, and leaves the files as they are. -/
theorem save_refused (hglb : ¬ EndsIn ".glb" name) (hgltf : EndsIn ".gltf" name → bin ≠ []) :
    ∃ text, dir.save name d bin = (.error (.transport ⟨.invalidInput, some text⟩), dir) := by
  rw [← FileFormat.ofName_eq_glb_iff] at hglb
  rw [← FileFormat.ofName_eq_gltf_iff] at hgltf
  rw [save]
  cases hformat : FileFormat.ofName name with
  | unknown => exact ⟨_, rfl⟩
  | gltf =>
    rw [if_pos (hgltf hformat)]
    exact ⟨_, rfl⟩
  | glb => exact absurd hformat hglb

/-- Whether a document is saved or not, other files stay as they are. -/
theorem read_save_of_ne (h : resolve other ≠ resolve name) :
    (dir.save name d bin).2.read other = dir.read other := by
  unfold save
  split
  · rfl
  · split
    · rfl
    · exact read_write_of_ne h _
  · -- The file is made, and then it is written if the document can be packed.
    have hmade : (dir.write name []).2.read other = dir.read other := read_write_of_ne h []
    generalize dir.write name [] = made at hmade
    rcases made with ⟨_ | ⟨⟩, made⟩
    · exact hmade
    · cases pack d bin with
      | error e => exact hmade
      | ok g => exact read_write_of_ne h g

/-! ## Loading -/

/-- A packed container is taken for one. -/
theorem recognized_packed {json : Bytes} (hfits : totalLength json bin < Bytes.wordLimit) :
    Recognized (packed json bin) :=
  recognized_iff.mpr ⟨_, hfits, _, packed_eq⟩

/-- What is saved is loaded again, from the file of its name alone. Under a name that ends in
`.glb`, a document and bytes that fit a container are packed into it, and the file is loaded as the
container is opened: as the document and the bytes if its first buffer declares their number. Under
a name that ends in `.gltf`, a document without bytes is written as a text that is spread over
lines. Anything else is refused as input, and leaves all files as they are. -/
theorem load_save (dir : Directory) (name : String) (d : Document) (bin : Bytes)
    (hcompact : Document.decode (d.encode .compact) = .ok d)
    (hindented : Document.decode (d.encode .indented) = .ok d) :
    (EndsIn ".glb" name → dir.Writable name →
      totalLength (d.encode .compact) bin < Bytes.wordLimit →
      ∃ g after, pack d bin = .ok g ∧ dir.save name d bin = (.ok (), after) ∧
        after.read name = .ok g ∧ after.load name = (unpack g).mapError (·.toError) ∧
        ∀ b, d.buffers[0]? = some b → b.uri = none → b.byteLength.toInt = (bin.length : Int) →
          after.load name = .ok ⟨d, bin, none⟩) ∧
    (EndsIn ".gltf" name → bin = [] → dir.Writable name →
      ∃ after, dir.save name d bin = (.ok (), after) ∧
        after.read name = .ok (d.encode .indented) ∧ after.load name = .ok ⟨d, [], none⟩) ∧
    (¬ EndsIn ".glb" name → ¬ (EndsIn ".gltf" name ∧ bin = []) →
      ∃ text, dir.save name d bin = (.error (.transport ⟨.invalidInput, some text⟩), dir)) ∧
    ∀ other, resolve other ≠ resolve name →
      (dir.save name d bin).2.read other = dir.read other := by
  refine ⟨fun hname hwritable hfits => ?_, ?_, fun hglb hgltf => ?_, fun other h => ?_⟩
  · -- The file is told to be a container by its header, and not by its name.
    have hg : pack d bin = .ok (packed (d.encode .compact) bin) := pack_eq_ok_iff.mpr ⟨hfits, rfl⟩
    have hread := read_write hwritable (packed (d.encode .compact) bin)
    have hload : (dir.write name (packed (d.encode .compact) bin)).2.load name =
        (unpack (packed (d.encode .compact) bin)).mapError (·.toError) := by
      rw [load_eq_of_read hread, load_eq_of_recognized (recognized_packed hfits)]
    refine ⟨_, _, hg, save_eq_of_glb hname hwritable hg, hread, hload, fun b hb huri hlength => ?_⟩
    have hunpacked : Unpacked d bin (padded .binary bin) (unpack (packed _ bin)) :=
      unpacked_unpack (encode_ne_nil .compact d) (document_padded hcompact) hfits
    rw [hload, hunpacked.exact b hb huri hlength]
    rfl
  · -- The text is told from a container because it can be decoded.
    rintro hname rfl hwritable
    have hread := read_write hwritable (d.encode .indented)
    have htext := not_recognized_of_decode hindented
    refine ⟨_, save_eq_of_gltf hname hwritable, hread, ?_⟩
    rw [load_eq_of_read hread, load_eq_ok_iff_of_not_recognized htext]
    exact ⟨d, hindented, rfl⟩
  · exact save_refused hglb fun hname hbin => hgltf ⟨hname, hbin⟩
  · exact read_save_of_ne h

/-- Three bytes and their document are saved in a container, into a directory with another file. -/
theorem load_save_three :
    let d : Document := { asset := { version := "2.0" }, buffers := #[{ byteLength := 3 }] }
    let dir : Directory := { files := [("b.GLTF", [7])] }
    (∃ after, dir.save "a.Glb" d [1, 2, 3] = (.ok (), after) ∧
      after.load "a.Glb" = .ok ⟨d, [1, 2, 3], none⟩ ∧ after.read "b.GLTF" = .ok [7]) ∧
    (∃ after, dir.save "b.GLTF" d [] = (.ok (), after) ∧
      after.load "b.GLTF" = .ok ⟨d, [], none⟩) ∧
    (∃ text, dir.save "b.GLTF" d [1, 2, 3] =
      (.error (.transport ⟨.invalidInput, some text⟩), dir)) := by
  intro d dir
  have hcompact : Document.decode (d.encode .compact) = .ok d := by decide +kernel
  have hindented : Document.decode (d.encode .indented) = .ok d := by decide +kernel
  have ha : resolve "a.Glb" = "a.Glb" := resolve_of_not_mem (by decide) (by decide)
  have hb : resolve "b.GLTF" = "b.GLTF" := resolve_of_not_mem (by decide) (by decide)
  have hwa : dir.Writable "a.Glb" := ⟨by decide, by rw [ha]; decide +kernel⟩
  have hwb : dir.Writable "b.GLTF" := ⟨by decide, by rw [hb]; decide +kernel⟩
  have hother : resolve "b.GLTF" ≠ resolve "a.Glb" := by rw [ha, hb]; decide
  have hread : dir.read "b.GLTF" = .ok [7] := by rw [read, hb]; decide
  obtain ⟨hglb, -, -, hframe⟩ := load_save dir "a.Glb" d [1, 2, 3] hcompact hindented
  obtain ⟨-, hgltf, -, -⟩ := load_save dir "b.GLTF" d [] hcompact hindented
  obtain ⟨-, -, hrefused, -⟩ := load_save dir "b.GLTF" d [1, 2, 3] hcompact hindented
  obtain ⟨g, after, -, hsaved, -, -, hloaded⟩ := hglb (by decide) hwa (by decide +kernel)
  obtain ⟨after', hsaved', -, hloaded'⟩ := hgltf (by decide) rfl hwb
  have hsame := hframe "b.GLTF" hother
  rw [hsaved, hread] at hsame
  exact ⟨⟨after, hsaved, hloaded _ rfl rfl rfl, hsame⟩, ⟨after', hsaved', hloaded'⟩,
    hrefused (by decide) (by decide)⟩

end Directory

end GltfAsset
