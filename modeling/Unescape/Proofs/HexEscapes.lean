import Unescape.Proofs.Boundary
import Unescape.Proofs.CutEscape
import Unescape.Proofs.Numerals

set_option autoImplicit false

/-! # Hexadecimal escapes as they are written

A `HexEscape` is an escape with its markers and digits apart, and a `HexForm` is a way to write one. The
reader of a numeric escape finds what was written: with all the digits that it may read in front of it,
it takes the escape and nothing of what follows (`NumericEscape.read_full`); with fewer digits it goes
on into digits that follow (`NumericEscape.read_body_append`). Whatever it accepts was written as an
escape (`NumericEscape.exists_hexEscape_of_read`).

All this needs a grammar in which a backslash and what stands behind it belong to one escape only
(`Readable`). -/

namespace Unescape

/-! ## Forms -/

/-- A way to write a hexadecimal escape. -/
structure HexForm where
  marker : Char
  /-- The number of digits. -/
  digits : Nat
  /-- Whether the marker may stand several times. -/
  repeats : Bool
deriving DecidableEq, Repr

/-- A numeric escape written with a number of digits. -/
def NumericEscape.form (e : NumericEscape) (digits : Nat) : HexForm :=
  ⟨e.marker, digits, e.repeatMarker⟩

/-- A hexadecimal escape as it is written. -/
structure HexEscape where
  /-- The letter behind the backslash. -/
  marker : Char
  /-- How often the letter stands there again. -/
  more : Nat
  digits : Text
  isDigit : ∀ c ∈ digits, IsDigit 16 c

namespace HexEscape

/-- What stands behind the first marker. -/
def body (w : HexEscape) : Text := List.replicate w.more w.marker ++ w.digits

/-- The escape as a piece of a literal. -/
def text (w : HexEscape) : Text := backslash :: w.marker :: w.body

/-- The number that the digits spell. -/
def value (w : HexEscape) : Nat := numeralNat 16 w.digits

/-- The code value of the digits. -/
def code (w : HexEscape) : UInt32 := hexValue w.digits

/-- Whether an escape is written in a given form. -/
structure HasForm (w : HexEscape) (f : HexForm) : Prop where
  marker_eq : w.marker = f.marker
  more_eq : f.repeats = false → w.more = 0
  length_eq : w.digits.length = f.digits

/-- The high half of a surrogate pair. -/
def IsHigh (w : HexEscape) : Prop := 0xD800 ≤ w.value ∧ w.value ≤ 0xDBFF

/-- The low half of a surrogate pair. -/
def IsLow (w : HexEscape) : Prop := 0xDC00 ≤ w.value ∧ w.value ≤ 0xDFFF

theorem toNat_code {w : HexEscape} (h : w.digits.length ≤ NumericEscape.digitLimit) :
    w.code.toNat = w.value :=
  toNat_hexValue w.isDigit h

/-- Escapes of up to three digits stay below the surrogates. -/
theorem value_lt {w : HexEscape} (h : w.digits.length ≤ 3) : w.value < 0x1000 := by
  rw [← toNat_code (Nat.le_trans h (by decide))]
  exact toNat_hexValue_lt h

/-- The escape with its first digits only. -/
def take (w : HexEscape) (n : Nat) : HexEscape :=
  { w with
    digits := w.digits.take n
    isDigit := fun c hc => w.isDigit c (List.mem_of_mem_take hc) }

theorem value_take (w : HexEscape) {n : Nat} (h : w.digits.length ≤ n) :
    (w.take n).value = w.value :=
  congrArg (numeralNat 16) (List.take_of_length_le h)

theorem text_take_append (w : HexEscape) (n : Nat) :
    (w.take n).text ++ w.digits.drop n = w.text := by
  simp [text, body, take]

end HexEscape

/-! ## Grammars whose escapes can be told apart -/

/-- A backslash and what stands behind it belong to one escape only, and digits fit into a code
    value. -/
structure Readable (g : Grammar) : Prop where
  marker : ∀ e ∈ g.numeric, g.simple? e.marker = none ∧ g.numeric? e.marker = some e
  /-- A marker that repeats cannot be taken for a digit. -/
  repeats : ∀ e ∈ g.numeric, e.repeatMarker = true → ¬ IsDigit 16 e.marker
  digits : ∀ e ∈ g.numeric, 0 < e.minDigits ∧ e.minDigits ≤ e.maxDigits ∧
    e.maxDigits ≤ NumericEscape.digitLimit
  octal : ∀ d, IsDigit 8 d → g.simple? d = none ∧ g.numeric? d = none

/-- What is asked of octal digits can be checked for each. -/
theorem forall_isDigit_eight {p : Char → Prop} [DecidablePred p]
    (h : "01234567".toList.all (fun d => decide (p d)) = true) (d : Char) (hd : IsDigit 8 d) : p d :=
  of_decide_eq_true (List.all_eq_true.1 h d (mem_of_isDigit_eight d hd))

theorem readable_java : Readable Grammar.java :=
  ⟨by decide +kernel, by decide +kernel, by decide +kernel,
    forall_isDigit_eight (by decide +kernel)⟩

theorem readable_proto : Readable Grammar.proto :=
  ⟨by decide +kernel, by decide +kernel, by decide +kernel,
    forall_isDigit_eight (by decide +kernel)⟩

/-! ## Reading digits -/

namespace NumericEscape

variable {e : NumericEscape} {w : HexEscape}

/-- Markers end in front of anything else. -/
theorem moreMarkers_replicate_append {more : Nat} {s : Text}
    (hmore : e.repeatMarker = false → more = 0)
    (hstop : e.repeatMarker = true → ∀ c r, s = c :: r → c ≠ e.marker) :
    e.moreMarkers (List.replicate more e.marker ++ s) = List.replicate more e.marker := by
  unfold moreMarkers
  split
  · rename_i hrep
    have hall : ∀ c ∈ List.replicate more e.marker, decide (c = e.marker) = true := by
      intro c hc
      exact decide_eq_true (List.eq_of_mem_replicate hc)
    rw [List.takeWhile_append_of_pos hall]
    cases s with
    | nil => simp
    | cons c r => simp [hstop hrep c r rfl]
  · rename_i hrep
    rw [hmore (by simpa using hrep)]
    rfl

/-- An escape with enough digits is read, together with the digits that stand behind it as far as
    there may be more. -/
theorem read_body_append (hform : w.HasForm (e.form w.digits.length))
    (hpos : 0 < w.digits.length) (hmin : e.minDigits ≤ w.digits.length)
    (hmax : w.digits.length ≤ e.maxDigits)
    (hrep : e.repeatMarker = true → ¬ IsDigit 16 e.marker) {s extra rest : Text}
    (hextra : hexRun (e.maxDigits - w.digits.length) s = (extra, rest)) :
    e.read (w.body ++ s) = ⟨w.body ++ extra, .ok (hexValue (w.digits ++ extra)), rest⟩ := by
  have hmarker : w.marker = e.marker := hform.marker_eq
  have hm : e.moreMarkers (w.body ++ s) = List.replicate w.more e.marker := by
    rw [HexEscape.body, hmarker, List.append_assoc]
    refine moreMarkers_replicate_append hform.more_eq ?_
    rintro hr c r hcr rfl
    -- The first digit stops the markers.
    have hmem : e.marker ∈ w.digits := by
      cases hdigits : w.digits with
      | nil => simp [hdigits] at hpos
      | cons d digits =>
        rw [hdigits, List.cons_append] at hcr
        rw [(List.cons.inj hcr).1]
        exact List.mem_cons_self
    exact hrep hr (w.isDigit _ hmem)
  have hdrop : (w.body ++ s).drop (List.replicate w.more e.marker).length = w.digits ++ s := by
    rw [HexEscape.body, hmarker, List.append_assoc, List.drop_left]
  have hrun := hexRun_append_of_isDigit w.isDigit hmax s
  rw [← hdrop, hextra] at hrun
  rw [read_eq hm hrun, if_neg (by rw [List.length_append]; omega), HexEscape.body, hmarker,
    List.append_assoc]

/-- An escape with all the digits there may be is read as it is written, whatever follows it. -/
theorem read_full (hform : w.HasForm (e.form e.maxDigits)) (hpos : 0 < e.maxDigits)
    (hmin : e.minDigits ≤ e.maxDigits) (hrep : e.repeatMarker = true → ¬ IsDigit 16 e.marker)
    (s : Text) : e.read (w.body ++ s) = ⟨w.body, .ok w.code, s⟩ := by
  have hlen : w.digits.length = e.maxDigits := hform.length_eq
  have hextra : hexRun (e.maxDigits - w.digits.length) s = ([], s) := by
    rw [hlen, Nat.sub_self, hexRun]
  rw [read_body_append (by rwa [hlen]) (by rwa [hlen]) (by rwa [hlen]) (Nat.le_of_eq hlen) hrep hextra,
    List.append_nil, List.append_nil, HexEscape.code]

/-- What is read as an escape was written as one, with as many digits as there may be. -/
theorem exists_hexEscape_of_read {t : Text} {v : UInt32} (h : (e.read t).value = .ok v) :
    ∃ w : HexEscape, w.HasForm (e.form w.digits.length) ∧ e.minDigits ≤ w.digits.length ∧
      w.digits.length ≤ e.maxDigits ∧ (e.read t).lexeme = w.body ∧ v = w.code := by
  have hmarkers : e.moreMarkers t = List.replicate (e.moreMarkers t).length e.marker := by
    refine List.eq_replicate_of_mem ?_
    intro c hc
    unfold moreMarkers at hc
    split at hc
    · simpa using List.all_eq_true.1 List.all_takeWhile c hc
    · simp at hc
  refine ⟨⟨e.marker, (e.moreMarkers t).length,
      (hexRun e.maxDigits (t.drop (e.moreMarkers t).length)).1, fun _ => isDigit_of_mem_hexRun⟩,
    ⟨rfl, ?_, rfl⟩, ?_, length_hexRun_le .., ?_, ?_⟩
  · intro hrep
    have hrep : e.repeatMarker = false := hrep
    simp [moreMarkers, hrep]
  · simp only [read] at h
    split at h
    · simp at h
    · rename_i hfew
      exact Nat.le_of_not_lt hfew
  · rw [HexEscape.body, ← hmarkers]
    rfl
  · simp only [read] at h
    split at h
    · simp at h
    · exact (Except.ok.inj h).symm

end NumericEscape

/-! ## Reading tokens -/

/-- A text begins with a token, and `rest` stands behind it. -/
def Reads (g : Grammar) (t : Text) (tok : Token) (rest : Text) : Prop :=
  ∃ c r, t = c :: r ∧ Token.read g c r = .ok (tok, rest)

namespace Reads

variable {g : Grammar} {t rest : Text} {tok : Token}

theorem plain (g : Grammar) {c : Char} (h : c ≠ backslash) (s : Text) :
    Reads g (c :: s) (.plain c) s :=
  ⟨c, s, rfl, Token.read_of_ne h s⟩

theorem escape (h : Token.readEscape g t = .ok (tok, rest)) : Reads g (backslash :: t) tok rest :=
  ⟨backslash, t, rfl, h⟩

theorem simple {m c : Char} (h : g.simple? m = some c) (s : Text) :
    Reads g (backslash :: m :: s) (.escape [backslash, m] c) s :=
  .escape (by simp [Token.readEscape, h])

theorem scan_eq (h : Reads g t tok rest) : scan g t = (scan g rest).cons tok := by
  obtain ⟨c, r, rfl, hread⟩ := h
  exact scan_of_ok hread

theorem length_lt (h : Reads g t tok rest) : rest.length < t.length := by
  obtain ⟨c, r, rfl, hread⟩ := h
  exact Nat.lt_succ_of_le (Token.length_rest_le_of_read hread)

end Reads

/-! ## Escapes of a grammar -/

/-- The numeric escapes with the most digits. -/
def Grammar.longest (g : Grammar) : List HexForm := g.numeric.map fun e => e.form e.maxDigits

/-- The numeric escapes with the fewest digits. -/
def Grammar.shortest (g : Grammar) : List HexForm := g.numeric.map fun e => e.form e.minDigits

/-- Java writes four digits behind a `u`, or behind several. -/
def javaHexForms : List HexForm := [⟨'u', 4, true⟩]

/-- The text format writes four digits behind a `u`, eight behind a `U`, and one or two behind an
    `x`. -/
def protoHexForms (byteDigits : Nat) : List HexForm :=
  [⟨'x', byteDigits, false⟩, ⟨'u', 4, false⟩, ⟨'U', 8, false⟩]

theorem longest_java : Grammar.java.longest = javaHexForms := by decide +kernel

theorem shortest_java : Grammar.java.shortest = javaHexForms := by decide +kernel

theorem longest_proto : Grammar.proto.longest = protoHexForms 2 := by decide +kernel

theorem shortest_proto : Grammar.proto.shortest = protoHexForms 1 := by decide +kernel

namespace HexEscape

/-- Whether an escape is written in one of several forms. -/
def IsIn (w : HexEscape) (forms : List HexForm) : Prop := ∃ f ∈ forms, w.HasForm f

variable {g : Grammar} {w high low : HexEscape}

theorem toNat_code_of_longest (hg : Readable g) (h : w.IsIn g.longest) :
    w.code.toNat = w.value := by
  obtain ⟨f, hf, hform⟩ := h
  obtain ⟨e, he, rfl⟩ := List.mem_map.1 hf
  refine toNat_code ?_
  rw [hform.length_eq]
  exact (hg.digits e he).2.2

/-- The reader of numeric escapes takes an escape of the most digits as it is written. -/
theorem read_of_longest (hg : Readable g) (h : w.IsIn g.longest) (s : Text) :
    ∃ e, g.simple? w.marker = none ∧ g.numeric? w.marker = some e ∧
      e.read (w.body ++ s) = ⟨w.body, .ok w.code, s⟩ := by
  obtain ⟨f, hf, hform⟩ := h
  obtain ⟨e, he, rfl⟩ := List.mem_map.1 hf
  obtain ⟨hsimple, hnumeric⟩ := hg.marker e he
  obtain ⟨hpos, hmin, -⟩ := hg.digits e he
  have hmarker : w.marker = e.marker := hform.marker_eq
  exact ⟨e, by rw [hmarker, hsimple], by rw [hmarker, hnumeric],
    NumericEscape.read_full hform (Nat.lt_of_lt_of_le hpos hmin) hmin (hg.repeats e he) s⟩

theorem readEscape_of_longest (hg : Readable g) (h : w.IsIn g.longest) (s : Text) :
    Token.readEscape g (w.marker :: (w.body ++ s)) = Token.ofCodeValue g w.text w.code s := by
  obtain ⟨e, hsimple, hnumeric, hread⟩ := read_of_longest hg h s
  simp [Token.readEscape, hsimple, hnumeric, hread, text]

/-- An escape of the most digits stands for the character that it spells. -/
theorem reads_scalar (hg : Readable g) (h : w.IsIn g.longest) {c : Char} (hc : w.value = c.toNat)
    (s : Text) : Reads g (w.text ++ s) (.escape w.text c) s := by
  have hcode : w.code = c.val := by
    rw [← UInt32.toNat_inj, toNat_code_of_longest hg h, hc]
    rfl
  refine .escape ?_
  rw [List.append_eq, List.cons_append, readEscape_of_longest hg h, hcode, Token.ofCodeValue_val]

theorem lowSurrogate?_of_longest (hg : Readable g) (h : w.IsIn g.longest) (hlow : w.IsLow)
    (s : Text) : Token.lowSurrogate? g (w.text ++ s) = some (w.text, w.code, s) := by
  obtain ⟨e, -, hnumeric, hread⟩ := read_of_longest hg h s
  have hcode : CodeValue.isLowSurrogate w.code = true := by
    rw [CodeValue.isLowSurrogate_iff, toNat_code_of_longest hg h]
    exact hlow
  simp [Token.lowSurrogate?, text, hnumeric, hread, hcode]

/-- Two escapes of the most digits that spell the halves of a character stand for it. -/
theorem reads_pair (hg : Readable g) (h : high.IsIn g.longest) (hl : low.IsIn g.longest)
    (hhigh : high.IsHigh) (hlow : low.IsLow) {c : Char}
    (hc : c.toNat = 0x10000 + 0x400 * (high.value - 0xD800) + (low.value - 0xDC00)) (s : Text) :
    Reads g (high.text ++ low.text ++ s) (.pair high.text low.text c) s := by
  have hhighCode : CodeValue.isHighSurrogate high.code = true := by
    rw [CodeValue.isHighSurrogate_iff, toNat_code_of_longest hg h]
    exact hhigh
  have hlowCode : CodeValue.isLowSurrogate low.code = true := by
    rw [CodeValue.isLowSurrogate_iff, toNat_code_of_longest hg hl]
    exact hlow
  have hscalar : CodeValue.scalar? (CodeValue.combine high.code low.code) = some c := by
    rw [CodeValue.scalar?_eq_some_iff, ← UInt32.toNat_inj,
      CodeValue.toNat_combine _ _ hhighCode hlowCode, toNat_code_of_longest hg h,
      toNat_code_of_longest hg hl]
    exact hc
  rw [List.append_assoc]
  refine .escape ?_
  rw [List.append_eq, List.cons_append, readEscape_of_longest hg h]
  simp [Token.ofCodeValue, hhighCode, lowSurrogate?_of_longest hg hl hlow, hscalar]

end HexEscape

end Unescape
