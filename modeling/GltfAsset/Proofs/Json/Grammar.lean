import GltfAsset.Proofs.Json.Numeral
import GltfAsset.Proofs.Json.Written

/-!
# JSON texts

The texts of strings and values as RFC 8259 has them, with white space and escapes wherever they are
allowed. A string is a list of pieces (`Piece`); what it means is told by `Means`, and any string is
meant by the text that is written for it (`Text.spells_pieces`). What the grammar derives for a
value (`Derives`) is passed over to its end, however deeply it is nested (`skipValue_of_derives`).
-/

namespace GltfAsset.Json

/-- White space. -/
structure Space where
  /-- The bytes. -/
  bytes : Bytes
  /-- They are all white space. -/
  isSpace : ∀ b ∈ bytes, Json.isSpace b = true

/-! ## Strings -/

/-- A hexadecimal digit. -/
structure HexDigit where
  /-- The digit. -/
  byte : UInt8
  /-- Its value. -/
  value : Nat
  /-- It has this value. -/
  eq : Text.hexValue? byte = some value

/-- Four hexadecimal digits. -/
structure HexWord where
  /-- The first digit. -/
  a : HexDigit
  /-- The second digit. -/
  b : HexDigit
  /-- The third digit. -/
  c : HexDigit
  /-- The last digit. -/
  d : HexDigit

namespace HexWord

/-- The digits. -/
def text (w : HexWord) : Bytes := [w.a.byte, w.b.byte, w.c.byte, w.d.byte]

/-- The number that they write. -/
def value (w : HexWord) : Nat :=
  ((w.a.value * 16 + w.b.value) * 16 + w.c.value) * 16 + w.d.value

end HexWord

/-- A piece of a string between its quotes. -/
inductive Piece where
  /-- A byte that stands for itself. -/
  | plain (b : UInt8) (quote : b ≠ Mark.quote) (backslash : b ≠ Mark.backslash)
    (control : ¬ b < 0x20)
  /-- A backslash and a letter that stand for a byte. -/
  | short (b c : UInt8) (h : Text.shortEscape? b = some c)
  /-- A backslash, the letter `u` and four digits. -/
  | word (w : HexWord)

/-- The text of a piece. -/
def Piece.text : Piece → Bytes
  | plain b .. => [b]
  | short b .. => [Mark.backslash, b]
  | word w => Mark.backslash :: 0x75 :: w.text

/-- The text of a string, with its quotes. -/
def stringText (ps : List Piece) : Bytes := Mark.quote :: (ps.flatMap Piece.text ++ [Mark.quote])

/-- The UTF-8 form of the character with the given code point. -/
def utf8 (n : Nat) : Bytes := Bytes.ofString (Char.ofNat n).toString

/-- The bytes that a string means. Digits that write half of a surrogate pair mean something only
together with the other half. -/
inductive Means : List Piece → Bytes → Prop
  /-- Nothing means nothing. -/
  | nil : Means [] []
  /-- A byte means itself. -/
  | plain {b : UInt8} {ps : List Piece} {bs : Bytes} {quote backslash control} (h : Means ps bs) :
      Means (.plain b quote backslash control :: ps) (b :: bs)
  /-- A letter after a backslash means the byte that it stands for. -/
  | short {b c : UInt8} {ps : List Piece} {bs : Bytes} {hc} (h : Means ps bs) :
      Means (.short b c hc :: ps) (c :: bs)
  /-- Four digits mean a character. -/
  | word {w : HexWord} {ps : List Piece} {bs : Bytes} (low : ¬ Text.IsLowSurrogate w.value)
      (high : ¬ Text.IsHighSurrogate w.value) (h : Means ps bs) :
      Means (.word w :: ps) (utf8 w.value ++ bs)
  /-- Two times four digits mean a character beyond those of four digits. -/
  | pair {v w : HexWord} {ps : List Piece} {bs : Bytes} (high : Text.IsHighSurrogate v.value)
      (low : Text.IsLowSurrogate w.value) (h : Means ps bs) :
      Means (.word v :: .word w :: ps)
        (utf8 (0x10000 + (v.value - 0xD800) * 0x400 + (w.value - 0xDC00)) ++ bs)

/-- The pieces mean the string. -/
def Spells (ps : List Piece) (s : String) : Prop := Means ps (Bytes.ofString s)

namespace Text

/-- Four hexadecimal digits are read at their value. -/
theorem hexWord_text (w : HexWord) (rest : Bytes) :
    hexWord (w.text ++ rest) = .ok (w.value, rest) := by
  simp only [HexWord.text, List.cons_append, List.nil_append, hexWord, w.a.eq, w.b.eq, w.c.eq,
    w.d.eq, HexWord.value]

/-- A code point that is no half of a surrogate pair is read. -/
theorem unescape_word {w : HexWord} (hlow : ¬ IsLowSurrogate w.value)
    (hhigh : ¬ IsHighSurrogate w.value) (rest : Bytes) :
    unescape (0x75 :: (w.text ++ rest)) = .ok (utf8 w.value, rest) := by
  have hshort : shortEscape? 0x75 = none := rfl
  simp only [unescape, next, ok_bind, hshort, if_true, unicode, hexWord_text, if_neg hlow,
    if_neg hhigh, utf8]

/-- A surrogate pair is read as the code point that it stands for. -/
theorem unescape_pair {v w : HexWord} (hhigh : IsHighSurrogate v.value)
    (hlow : IsLowSurrogate w.value) (rest : Bytes) :
    unescape (0x75 :: (v.text ++ (Mark.backslash :: 0x75 :: (w.text ++ rest)))) =
      .ok (utf8 (0x10000 + (v.value - 0xD800) * 0x400 + (w.value - 0xDC00)), rest) := by
  have hshort : shortEscape? 0x75 = none := rfl
  have hnotLow : ¬ IsLowSurrogate v.value := fun h => by
    have := hhigh.2
    have := h.1
    omega
  simp only [unescape, next, ok_bind, hshort, if_true, unicode, hexWord_text, if_neg hnotLow,
    if_pos hhigh, ne_eq, not_true_eq_false, if_false, if_pos hlow, utf8]

/-- A string is read as what it means, up to the closing quote. -/
theorem body_of_means {ps : List Piece} {bs : Bytes} (h : Means ps bs) (acc rest : Bytes) :
    body acc (ps.flatMap Piece.text ++ Mark.quote :: rest) = .ok (acc.reverse ++ bs, rest) := by
  induction h generalizing acc with
  | nil => rw [List.flatMap_nil, List.nil_append, body_quote, List.append_nil]
  | @plain b ps bs hquote hslash hcontrol h ih =>
    rw [List.flatMap_cons, Piece.text, List.append_assoc, List.singleton_append,
      body_plain hquote hslash hcontrol, ih, List.reverse_cons, List.append_assoc,
      List.singleton_append]
  | @short b c ps bs hc h ih =>
    rw [List.flatMap_cons, Piece.text, List.append_assoc, List.cons_append, List.singleton_append,
      body_backslash (unescape_short hc _), ih]
    simp
  | @word w ps bs hlow hhigh h ih =>
    rw [List.flatMap_cons, Piece.text, List.append_assoc, List.cons_append, List.cons_append,
      body_backslash (unescape_word hlow hhigh _), ih]
    simp
  | @pair v w ps bs hhigh hlow h ih =>
    rw [List.flatMap_cons, List.flatMap_cons, Piece.text, Piece.text, List.append_assoc,
      List.append_assoc, List.cons_append, List.cons_append, List.cons_append, List.cons_append,
      body_backslash (unescape_pair hhigh hlow _), ih]
    simp

/-- The string that is spelled is read. -/
theorem read_of_spells {ps : List Piece} {s : String} (h : Spells ps s) (rest : Bytes) :
    read (ps.flatMap Piece.text ++ Mark.quote :: rest) = .ok (s, rest) := by
  rw [read, body_of_means h, ok_bind, List.reverse_nil, List.nil_append]
  simp only [Bytes.toString?_ofString]

/-- A byte that is a control character means the character of its number. -/
theorem utf8_control {b : UInt8} (h : b < 0x20) : utf8 b.toNat = [b] := by
  rw [utf8, ofString_control b.toNat (UInt8.lt_iff_toNat_lt.mp h), Nat.toUInt8, UInt8.ofNat_toNat]

/-- The digit of a number below sixteen. -/
def digitOf (n : Fin 16) : HexDigit := ⟨hexDigit n, n, hexValue?_hexDigit n n.isLt⟩

/-- The four digits of a byte. -/
def wordOf (b : UInt8) : HexWord where
  a := digitOf 0
  b := digitOf 0
  c := digitOf ⟨b.toNat / 16, by have := b.toNat_lt; omega⟩
  d := digitOf ⟨b.toNat % 16, by omega⟩

/-- The digits of a byte have its value. -/
theorem value_wordOf (b : UInt8) : (wordOf b).value = b.toNat := by
  simp only [HexWord.value, wordOf, digitOf]
  omega

/-- The piece that is written for a byte. -/
def piece (b : UInt8) : Piece :=
  if hquote : b = Mark.quote then .short Mark.quote b (by rw [hquote]; rfl)
  else if hslash : b = Mark.backslash then .short Mark.backslash b (by rw [hslash]; rfl)
  else if h : b = 0x08 then .short 0x62 b (h ▸ rfl)
  else if h : b = 0x0C then .short 0x66 b (h ▸ rfl)
  else if h : b = 0x0A then .short 0x6E b (h ▸ rfl)
  else if h : b = 0x0D then .short 0x72 b (h ▸ rfl)
  else if h : b = 0x09 then .short 0x74 b (h ▸ rfl)
  else if hcontrol : b < 0x20 then .word (wordOf b)
  else .plain b hquote hslash hcontrol

/-- A byte of a string is written as its piece. -/
theorem text_piece (b : UInt8) : (piece b).text = escape b := by
  unfold piece escape
  split_ifs <;> rfl

/-- The four digits of a control character mean it. -/
theorem means_wordOf {ps : List Piece} {bs : Bytes} {b : UInt8} (hcontrol : b < 0x20)
    (h : Means ps bs) : Means (.word (wordOf b) :: ps) (b :: bs) := by
  -- No control character is half of a surrogate pair.
  have hlt : b.toNat < 0x20 := UInt8.lt_iff_toNat_lt.mp hcontrol
  have hlow : ¬ IsLowSurrogate (wordOf b).value := fun h => by
    have := h.1
    rw [value_wordOf] at this
    omega
  have hhigh : ¬ IsHighSurrogate (wordOf b).value := fun h => by
    have := h.1
    rw [value_wordOf] at this
    omega
  have hmeans := Means.word hlow hhigh h
  rwa [value_wordOf, utf8_control hcontrol] at hmeans

/-- What is written for a byte means this byte. -/
theorem means_piece {ps : List Piece} {bs : Bytes} (h : Means ps bs) (b : UInt8) :
    Means (piece b :: ps) (b :: bs) := by
  unfold piece
  split_ifs
  all_goals first
    | exact .short h
    | exact .plain h
    | exact means_wordOf ‹_› h

/-- The pieces that are written for a string. -/
def pieces (s : String) : List Piece := (Bytes.ofString s).map piece

/-- A string is written as its pieces. -/
theorem stringText_pieces (s : String) : stringText (pieces s) = quote s := by
  rw [stringText, pieces, quote, List.flatMap_map]
  simp only [text_piece]

/-- Every string is meant by the text that is written for it. -/
theorem spells_pieces (s : String) : Spells (pieces s) s := by
  have hmeans : ∀ bs : Bytes, Means (bs.map piece) bs := by
    intro bs
    induction bs with
    | nil => exact .nil
    | cons b bs ih => exact means_piece ih b
  exact hmeans (Bytes.ofString s)

/-- A string is over at its closing quote. -/
theorem skip_quote (rest : Bytes) : skip (Mark.quote :: rest) = .ok rest := by
  rw [skip, if_pos rfl]

/-- A byte that stands for itself is passed over. -/
theorem skip_plain {b : UInt8} (hquote : b ≠ Mark.quote) (hslash : b ≠ Mark.backslash)
    (hcontrol : ¬ b < 0x20) (r : Bytes) : skip (b :: r) = skip r := by
  conv => lhs; rw [skip]
  rw [if_neg hquote, if_neg hslash, if_neg hcontrol]

/-- An escape is passed over. -/
theorem skip_backslash {r s : Bytes} (h : skipEscape r = .ok s) :
    skip (Mark.backslash :: r) = skip s := by
  conv => lhs; rw [skip]
  rw [if_neg (by decide), if_pos rfl]
  split <;> simp_all

/-- A string is passed over, whatever it means. -/
theorem skip_pieces (ps : List Piece) (rest : Bytes) :
    skip (ps.flatMap Piece.text ++ Mark.quote :: rest) = .ok rest := by
  induction ps with
  | nil => exact skip_quote rest
  | cons p ps ih =>
    rw [List.flatMap_cons, List.append_assoc]
    cases p with
    | plain b hquote hslash hcontrol =>
      rw [Piece.text, List.singleton_append, skip_plain hquote hslash hcontrol, ih]
    | short b c hc =>
      have hescape : skipEscape (b :: (ps.flatMap Piece.text ++ Mark.quote :: rest)) =
          .ok (ps.flatMap Piece.text ++ Mark.quote :: rest) := by
        simp only [skipEscape, next, ok_bind, hc, Option.isSome_some, if_true]
      rw [Piece.text, List.cons_append, List.singleton_append, skip_backslash hescape, ih]
    | word w =>
      have hescape :
          skipEscape (0x75 :: (w.text ++ (ps.flatMap Piece.text ++ Mark.quote :: rest))) =
          .ok (ps.flatMap Piece.text ++ Mark.quote :: rest) := by
        have hshort : shortEscape? 0x75 = none := rfl
        simp only [skipEscape, next, ok_bind, hshort, hexWord_text]
        rfl
      rw [Piece.text, List.cons_append, List.cons_append, skip_backslash hescape, ih]

end Text

/-! ## Values -/

/-- What a grammar of JSON texts derives. -/
inductive Symbol where
  /-- A value. -/
  | value
  /-- The elements of an array, one or more. -/
  | elements
  /-- The members of an object, one or more. -/
  | members

/-- The grammar of JSON texts. -/
inductive Derives : Symbol → Bytes → Prop
  /-- The literal `null`. -/
  | null : Derives .value (0x6E :: restOfNull)
  /-- The literal `true`. -/
  | yes : Derives .value (0x74 :: restOfTrue)
  /-- The literal `false`. -/
  | no : Derives .value (0x66 :: restOfFalse)
  /-- A number. -/
  | number (n : Numeral) : Derives .value n.text
  /-- A string. -/
  | string (ps : List Piece) : Derives .value (stringText ps)
  /-- An array without elements. -/
  | emptyArray (w : Space) : Derives .value (Mark.openBracket :: (w.bytes ++ [Mark.closeBracket]))
  /-- An array. -/
  | array {es : Bytes} (h : Derives .elements es) :
      Derives .value (Mark.openBracket :: (es ++ [Mark.closeBracket]))
  /-- An object without members. -/
  | emptyObject (w : Space) : Derives .value (Mark.openBrace :: (w.bytes ++ [Mark.closeBrace]))
  /-- An object. -/
  | object {ms : Bytes} (h : Derives .members ms) :
      Derives .value (Mark.openBrace :: (ms ++ [Mark.closeBrace]))
  /-- One element, with white space around it. -/
  | element (w₁ w₂ : Space) {v : Bytes} (h : Derives .value v) :
      Derives .elements (w₁.bytes ++ (v ++ w₂.bytes))
  /-- An element and those after it. -/
  | elements (w₁ w₂ : Space) {v es : Bytes} (h : Derives .value v) (hs : Derives .elements es) :
      Derives .elements (w₁.bytes ++ (v ++ (w₂.bytes ++ Mark.comma :: es)))
  /-- One member, with white space around its key and its value. -/
  | member (w₁ : Space) (ps : List Piece) (w₂ w₃ w₄ : Space) {v : Bytes} (h : Derives .value v) :
      Derives .members
        (w₁.bytes ++ (stringText ps ++ (w₂.bytes ++ Mark.colon :: (w₃.bytes ++ (v ++ w₄.bytes)))))
  /-- A member and those after it. -/
  | members (w₁ : Space) (ps : List Piece) (w₂ w₃ w₄ : Space) {v ms : Bytes} (h : Derives .value v)
      (hs : Derives .members ms) :
      Derives .members (w₁.bytes ++ (stringText ps ++ (w₂.bytes ++ Mark.colon :: (w₃.bytes ++
        (v ++ (w₄.bytes ++ Mark.comma :: ms))))))

/-- White space is passed over. -/
theorem skipSpace_space (w : Space) (bs : Bytes) : skipSpace (w.bytes ++ bs) = skipSpace bs :=
  List.dropWhile_append_of_pos w.isSpace

/-- White space may stand before a colon. -/
theorem colon_space (w : Space) (bs : Bytes) : colon (w.bytes ++ Mark.colon :: bs) = .ok bs := by
  rw [colon, skipSpace_space, skipSpace_of_not_space rfl]
  rfl

/-- White space may stand before an object. -/
theorem found_openBrace (w : Space) (bs : Bytes) :
    Reader.found (w.bytes ++ Mark.openBrace :: bs) = .ok ⟨.map, bs⟩ := by
  rw [Reader.found, skipSpace_space, skipSpace_of_not_space rfl]
  rfl

/-- White space may stand before an array. -/
theorem found_openBracket (w : Space) (bs : Bytes) :
    Reader.found (w.bytes ++ Mark.openBracket :: bs) = .ok ⟨.sequence, bs⟩ := by
  rw [Reader.found, skipSpace_space, skipSpace_of_not_space rfl]
  rfl

/-- White space and a mark end every number. -/
theorem ends_space (w : Space) {rest : Bytes} (h : Ends rest) : Ends (w.bytes ++ rest) := by
  obtain ⟨bs, hbs⟩ := w
  cases bs with
  | nil => exact h
  | cons b bs =>
    have hb := hbs b List.mem_cons_self
    simp only [isSpace, Bool.or_eq_true, decide_eq_true_eq] at hb
    refine ends_cons.mpr ?_
    rcases hb with ((rfl | rfl) | rfl) | rfl
    all_goals decide

/-- A value starts with a byte that is neither white space nor a closing mark. -/
theorem exists_eq_cons_of_derives {v : Bytes} (h : Derives .value v) :
    ∃ b t, v = b :: t ∧ isSpace b = false ∧ b ≠ Mark.closeBracket := by
  cases h with
  | number n =>
    obtain ⟨b, t, ht, hb⟩ := Number.exists_numeral_text n
    obtain ⟨hspace, -, -, -, hbracket⟩ := ne_of_sign_or_digit hb
    exact ⟨b, t, ht, hspace, hbracket⟩
  | _ => exact ⟨_, _, rfl, rfl, by decide⟩

namespace Skip

variable {fs : List Frame} {rest : Bytes}

/-- Where a value starts does not depend on the white space before it. -/
theorem start_congr {bs cs : Bytes} (h : skipSpace bs = skipSpace cs) : start bs = start cs := by
  simp only [start, h]

/-- A number starts a value without parts. -/
theorem start_number (n : Numeral) (hrest : Ends rest) :
    start (n.text ++ rest) = .ok (.scalar rest) := by
  have hskip := Number.skipUnsigned_numeral n hrest
  cases hn : n.negative with
  | true =>
    have htext : n.text ++ rest = Mark.minus :: (n.unsigned ++ rest) := by
      rw [Numeral.text, hn]
      rfl
    rw [htext, start, skipSpace_of_not_space rfl]
    simp only [hskip]
    rfl
  | false =>
    obtain ⟨d, ds, hds⟩ := List.exists_cons_of_ne_nil n.whole_ne_nil
    have hd : isDigit d = true := n.isDigit_whole d (hds ▸ List.mem_cons_self)
    have htext : n.text = n.unsigned := by
      rw [Numeral.text, hn]
      rfl
    obtain ⟨hspace, hnull, htrue, hfalse, -⟩ := ne_of_sign_or_digit (.inr hd)
    rw [Numeral.unsigned_append, hds, List.cons_append] at hskip
    rw [htext, Numeral.unsigned_append, hds, List.cons_append, start,
      skipSpace_of_not_space hspace]
    simp only [if_neg hnull, if_neg htrue, if_neg hfalse, if_neg (Number.ne_minus_of_whole n hds),
      if_pos hd, hskip]
    rfl

/-- A string starts a value without parts. -/
theorem start_string (ps : List Piece) (rest : Bytes) :
    start (stringText ps ++ rest) = .ok (.scalar rest) := by
  rw [stringText, List.cons_append, List.append_assoc, List.singleton_append, start,
    skipSpace_of_not_space rfl]
  simp only [Text.skip_pieces]
  rfl

/-- The key of a member and its colon are passed over. -/
theorem key_object (w₁ : Space) (ps : List Piece) (w₂ : Space) (rest : Bytes) :
    Frame.key .object (w₁.bytes ++ (stringText ps ++ (w₂.bytes ++ Mark.colon :: rest))) =
      .ok rest := by
  rw [Frame.key, skipSpace_space, stringText, List.cons_append, List.append_assoc,
    List.singleton_append, skipSpace_of_not_space rfl]
  simp only [if_true, Text.skip_pieces, ok_bind, colon_space]

/-- What is derived is passed over when it comes next, in whatever it stands. -/
def Passes : Symbol → Bytes → Prop
  | .value, v => ∀ (w : Space) (fs : List Frame) (rest : Bytes), Ends rest →
    run .value fs (w.bytes ++ (v ++ rest)) = run .after fs rest
  | .elements, es => ∀ (fs : List Frame) (rest : Bytes),
    run .opened (.array :: fs) (es ++ Mark.closeBracket :: rest) = run .after fs rest ∧
      run .value (.array :: fs) (es ++ Mark.closeBracket :: rest) = run .after fs rest
  | .members, ms => ∀ (fs : List Frame) (rest : Bytes),
    run .opened (.object :: fs) (ms ++ Mark.closeBrace :: rest) = run .after fs rest ∧
      ∃ s, Frame.key .object (ms ++ Mark.closeBrace :: rest) = .ok s ∧
        run .value (.object :: fs) s = run .after fs rest

/-- A value without parts is passed over at once. -/
theorem passes_of_start {v : Bytes}
    (h : ∀ rest, Ends rest → start (v ++ rest) = .ok (.scalar rest)) : Passes .value v := by
  intro w fs rest hrest
  refine run_value_scalar ?_
  rw [start_congr (skipSpace_space w _)]
  exact h rest hrest

/-- A value with parts is passed over as what stands between its marks is. -/
theorem passes_of_opened {f : Frame} {b : UInt8} {t : Bytes}
    (hb : ∀ bs, start (b :: bs) = .ok (.nested f bs))
    (h : ∀ fs rest, run .opened (f :: fs) (t ++ f.closing :: rest) = run .after fs rest) :
    Passes .value (b :: (t ++ [f.closing])) := by
  intro w fs rest _
  rw [List.cons_append, List.append_assoc, List.singleton_append,
    run_value_nested ((start_congr (skipSpace_space w _)).trans (hb _)), h]

/-- Where an element comes next, nothing is closed. -/
theorem run_opened_element (w : Space) {v : Bytes} (h : Derives .value v) (fs : List Frame)
    (bs : Bytes) : run .opened (.array :: fs) (w.bytes ++ (v ++ bs)) =
      run .value (.array :: fs) (w.bytes ++ (v ++ bs)) := by
  obtain ⟨b, t, rfl, hspace, hb⟩ := exists_eq_cons_of_derives h
  have hstart : skipSpace (w.bytes ++ (b :: t ++ bs)) = b :: (t ++ bs) := by
    rw [skipSpace_space, List.cons_append, skipSpace_of_not_space hspace]
  exact run_opened_key (f := .array) hstart hb rfl

/-- Where a member comes next, its key is passed over. -/
theorem run_opened_member (w₁ : Space) (ps : List Piece) (w₂ : Space) (fs : List Frame)
    (bs : Bytes) :
    run .opened (.object :: fs)
        (w₁.bytes ++ (stringText ps ++ (w₂.bytes ++ Mark.colon :: bs))) =
      run .value (.object :: fs) bs := by
  have hstart : skipSpace (w₁.bytes ++ (stringText ps ++ (w₂.bytes ++ Mark.colon :: bs))) =
      stringText ps ++ (w₂.bytes ++ Mark.colon :: bs) := by
    rw [skipSpace_space, stringText, List.cons_append, skipSpace_of_not_space rfl]
  exact run_opened_key hstart (by decide) (key_object w₁ ps w₂ bs)

/-- What is derived is passed over. The induction is on the derivation; what comes after a part is
the rest of what it stands in. -/
theorem passes_of_derives {σ : Symbol} {t : Bytes} (h : Derives σ t) : Passes σ t := by
  induction h with
  -- Values without parts are passed over at once.
  | null => exact passes_of_start fun rest _ => rfl
  | yes => exact passes_of_start fun rest _ => rfl
  | no => exact passes_of_start fun rest _ => rfl
  | number n => exact passes_of_start fun rest hrest => start_number n hrest
  | string ps => exact passes_of_start fun rest _ => start_string ps rest
  -- An array or object is opened, and closed at once or gone through.
  | emptyArray w =>
    refine passes_of_opened (f := .array) (fun _ => rfl) fun fs rest => ?_
    exact run_opened_closing (skipSpace_space w _)
  | array h ih => exact passes_of_opened (f := .array) (fun _ => rfl) fun fs rest => (ih fs rest).1
  | emptyObject w =>
    refine passes_of_opened (f := .object) (fun _ => rfl) fun fs rest => ?_
    exact run_opened_closing (skipSpace_space w _)
  | object h ih =>
    exact passes_of_opened (f := .object) (fun _ => rfl) fun fs rest => (ih fs rest).1
  -- After an element comes the bracket, or a comma and the elements that are left.
  | @element w₁ w₂ v h ih =>
    intro fs rest
    have hrest : Ends (w₂.bytes ++ Mark.closeBracket :: rest) :=
      ends_space w₂ (ends_cons.mpr (by decide))
    have hvalue : run .value (.array :: fs)
        (w₁.bytes ++ (v ++ (w₂.bytes ++ Mark.closeBracket :: rest))) = run .after fs rest := by
      rw [ih w₁ _ _ hrest]
      exact run_after_closing (f := .array) (skipSpace_space w₂ _)
    simp only [List.append_assoc]
    exact ⟨(run_opened_element w₁ h fs _).trans hvalue, hvalue⟩
  | @elements w₁ w₂ v es h hs ih ihs =>
    intro fs rest
    have hrest : Ends (w₂.bytes ++ Mark.comma :: (es ++ Mark.closeBracket :: rest)) :=
      ends_space w₂ (ends_cons.mpr (by decide))
    have hvalue : run .value (.array :: fs) (w₁.bytes ++ (v ++
        (w₂.bytes ++ Mark.comma :: (es ++ Mark.closeBracket :: rest)))) = run .after fs rest := by
      rw [ih w₁ _ _ hrest, run_after_comma (f := .array) (skipSpace_space w₂ _) (by decide) rfl]
      exact (ihs fs rest).2
    simp only [List.append_assoc, List.cons_append]
    exact ⟨(run_opened_element w₁ h fs _).trans hvalue, hvalue⟩
  -- It is the same with members, save that the key is passed over first.
  | @member w₁ ps w₂ w₃ w₄ v h ih =>
    intro fs rest
    have hrest : Ends (w₄.bytes ++ Mark.closeBrace :: rest) :=
      ends_space w₄ (ends_cons.mpr (by decide))
    have hvalue : run .value (.object :: fs)
        (w₃.bytes ++ (v ++ (w₄.bytes ++ Mark.closeBrace :: rest))) = run .after fs rest := by
      rw [ih w₃ _ _ hrest]
      exact run_after_closing (f := .object) (skipSpace_space w₄ _)
    simp only [List.append_assoc, List.cons_append]
    exact ⟨(run_opened_member w₁ ps w₂ fs _).trans hvalue, _, key_object w₁ ps w₂ _, hvalue⟩
  | @members w₁ ps w₂ w₃ w₄ v ms h hs ih ihs =>
    intro fs rest
    have hrest : Ends (w₄.bytes ++ Mark.comma :: (ms ++ Mark.closeBrace :: rest)) :=
      ends_space w₄ (ends_cons.mpr (by decide))
    have hvalue : run .value (.object :: fs) (w₃.bytes ++ (v ++
        (w₄.bytes ++ Mark.comma :: (ms ++ Mark.closeBrace :: rest)))) = run .after fs rest := by
      obtain ⟨-, s, hkey, hnext⟩ := ihs fs rest
      rw [ih w₃ _ _ hrest, run_after_comma (f := .object) (skipSpace_space w₄ _) (by decide) hkey]
      exact hnext
    simp only [List.append_assoc, List.cons_append]
    exact ⟨(run_opened_member w₁ ps w₂ fs _).trans hvalue, _, key_object w₁ ps w₂ _, hvalue⟩

end Skip

/-- A value is passed over to its end, whatever it is and however deeply it is nested. -/
theorem skipValue_of_derives {v : Bytes} (h : Derives .value v) (w : Space) {rest : Bytes}
    (hrest : Ends rest) : skipValue (w.bytes ++ (v ++ rest)) = .ok rest := by
  rw [skipValue, Skip.passes_of_derives h w [] rest hrest, Skip.run]

end GltfAsset.Json
