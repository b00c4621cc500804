import Mathlib.Computability.Language
import Unescape.Proofs.HexEscapes

set_option autoImplicit false

/-! # Accepted texts

Which texts a decoder accepts can be said without a decoder: `EscapeForms.texts` are the concatenations
of pieces, each of them a plain character or an escape of as few digits as there may be.

A decoder goes about it in another way. It takes as many digits as it can, so it does not end its
escapes where the pieces end, and it looks ahead for the low half of a pair. It accepts the same texts
all the same (`fault_scan_eq_none_iff`). What a token takes beyond its piece are digits, each a piece of
its own, so the token is made of pieces (`text_mem_texts`); and what it leaves of the text is still made
of pieces (`exists_reads`), because pieces that are not plain begin with a backslash. -/

namespace Unescape

/-! ## The pieces of a literal -/

/-- The escapes of a kind of literal. -/
structure EscapeForms where
  /-- Letters that make an escape behind a backslash. -/
  letters : List Char
  hex : List HexForm

namespace EscapeForms

/-- What a literal is made of. -/
inductive Piece (f : EscapeForms) : Text → Prop where
  | plain {c : Char} : c ≠ backslash → Piece f [c]
  | letter {m : Char} : m ∈ f.letters → Piece f [backslash, m]
  | octal {d : Char} : IsDigit 8 d → Piece f [backslash, d]
  /-- Hexadecimal digits of a Unicode scalar. -/
  | scalar {w : HexEscape} : w.IsIn f.hex → w.value.isValidChar → Piece f w.text
  /-- Hexadecimal digits of a high surrogate, and of a low one. -/
  | pair {high low : HexEscape} : high.IsIn f.hex → low.IsIn f.hex → high.IsHigh → low.IsLow →
    Piece f (high.text ++ low.text)

/-- The pieces as a language. -/
def pieces (f : EscapeForms) : Language Char := {p | f.Piece p}

/-- The concatenations of pieces. -/
def texts (f : EscapeForms) : Language Char := KStar.kstar f.pieces

/-- The escapes of Java. -/
def java : EscapeForms :=
  { letters := ['b', 't', 'n', 'f', 'r', 's', '"', '\x27', '\\']
    hex := javaHexForms }

/-- The escapes of the text format. One digit behind an `x` is enough for an escape. -/
def proto : EscapeForms :=
  { letters := ['a', 'b', 'f', 'n', 'r', 't', 'v', '\\', '\x27', '"', '?']
    hex := protoHexForms 1 }

variable {f : EscapeForms} {p s t : Text}

/-! ## Texts of pieces -/

theorem nil_mem_texts (f : EscapeForms) : [] ∈ f.texts := Language.nil_mem_kstar _

theorem append_mem_texts (hs : s ∈ f.texts) (ht : t ∈ f.texts) : s ++ t ∈ f.texts := by
  obtain ⟨ps, rfl, hps⟩ := Language.mem_kstar.1 hs
  obtain ⟨qs, rfl, hqs⟩ := Language.mem_kstar.1 ht
  rw [← List.flatten_append]
  exact Language.join_mem_kstar fun p hp => (List.mem_append.1 hp).elim (hps p) (hqs p)

theorem Piece.mem_texts (h : f.Piece p) : p ∈ f.texts :=
  Language.mem_kstar.2 ⟨[p], by simp, List.forall_mem_singleton.2 h⟩

theorem Piece.append_mem_texts (h : f.Piece p) (hs : s ∈ f.texts) : p ++ s ∈ f.texts :=
  EscapeForms.append_mem_texts h.mem_texts hs

/-- No piece is empty, and those that are no plain characters begin with a backslash. -/
theorem Piece.eq_or_exists_cons (h : f.Piece p) :
    (∃ c, c ≠ backslash ∧ p = [c]) ∨ ∃ r, p = backslash :: r := by
  cases h with
  | plain hc => exact .inl ⟨_, hc, rfl⟩
  | letter hm => exact .inr ⟨_, rfl⟩
  | octal hd => exact .inr ⟨_, rfl⟩
  | scalar hw hvalue => exact .inr ⟨_, rfl⟩
  | pair hhigh hlow hvalue hvalue' => exact .inr ⟨_, rfl⟩

/-- A text of pieces is empty, or it begins with one. -/
theorem eq_nil_or_exists_piece (h : t ∈ f.texts) :
    t = [] ∨ ∃ p s, f.Piece p ∧ s ∈ f.texts ∧ t = p ++ s := by
  obtain ⟨ps, rfl, hps⟩ := Language.mem_kstar.1 h
  cases ps with
  | nil => exact .inl rfl
  | cons p ps =>
    obtain ⟨hp, hps⟩ := List.forall_mem_cons.1 hps
    exact .inr ⟨p, ps.flatten, hp, Language.join_mem_kstar hps, rfl⟩

/-- A character that opens no escape is a piece by itself, however the text is taken apart. -/
theorem cons_mem_texts_iff {c : Char} (hc : c ≠ backslash) : c :: s ∈ f.texts ↔ s ∈ f.texts := by
  constructor
  · intro h
    rcases eq_nil_or_exists_piece h with hnil | ⟨p, s', hp, hs', heq⟩
    · simp at hnil
    · rcases hp.eq_or_exists_cons with ⟨d, -, rfl⟩ | ⟨r, rfl⟩
      · obtain ⟨-, rfl⟩ := List.cons.inj heq
        exact hs'
      · exact absurd (List.cons.inj heq).1 hc
  · intro h
    exact (Piece.plain hc).append_mem_texts h

/-- Digits in front of a text of pieces make no difference. -/
theorem append_mem_texts_iff {base : Nat} (hbase : base ≤ 16) {digits : Text}
    (h : ∀ c ∈ digits, IsDigit base c) : digits ++ s ∈ f.texts ↔ s ∈ f.texts := by
  induction digits with
  | nil => rfl
  | cons c digits ih =>
    obtain ⟨hc, hdigits⟩ := List.forall_mem_cons.1 h
    rw [List.cons_append, cons_mem_texts_iff (hc.ne_backslash hbase), ih hdigits]

/-- Digits behind a text of pieces make a text of pieces. -/
theorem mem_texts_append {base : Nat} (hbase : base ≤ 16) {digits : Text}
    (h : ∀ c ∈ digits, IsDigit base c) (hs : s ∈ f.texts) : s ++ digits ∈ f.texts := by
  refine append_mem_texts hs ?_
  rw [← List.append_nil digits, append_mem_texts_iff hbase h]
  exact f.nil_mem_texts

/-! ## Grammars -/

/-- The escapes of a grammar. -/
structure Describes (f : EscapeForms) (g : Grammar) : Prop where
  letter : ∀ m, m ∈ f.letters ↔ (g.simple? m).isSome = true
  hex : f.hex = g.shortest
  octal : g.octal.isSome = true

end EscapeForms

theorem EscapeForms.letter_of_perm {g : Grammar} {letters : List Char}
    (h : letters.Perm (g.simple.entries.map Prod.fst)) (m : Char) :
    m ∈ letters ↔ (g.simple? m).isSome = true := by
  rw [h.mem_iff]
  exact (SortedMap.isSome_find?_iff m g.simple.entries).symm

theorem EscapeForms.describes_java : java.Describes Grammar.java :=
  ⟨letter_of_perm (by decide +kernel), shortest_java.symm, rfl⟩

theorem EscapeForms.describes_proto : proto.Describes Grammar.proto :=
  ⟨letter_of_perm (by decide +kernel), shortest_proto.symm, rfl⟩

/-! ## Escapes with any number of digits -/

namespace HexEscape

/-- An escape of a grammar, with any number of digits that there may be. -/
def IsOf (w : HexEscape) (g : Grammar) : Prop :=
  ∃ e ∈ g.numeric, w.HasForm (e.form w.digits.length) ∧ e.minDigits ≤ w.digits.length ∧
    w.digits.length ≤ e.maxDigits

variable {g : Grammar} {w : HexEscape}

theorem IsOf.of_shortest (hg : Readable g) (h : w.IsIn g.shortest) : w.IsOf g := by
  obtain ⟨f, hf, hform⟩ := h
  obtain ⟨e, he, rfl⟩ := List.mem_map.1 hf
  have hlen : w.digits.length = e.minDigits := hform.length_eq
  refine ⟨e, he, ?_, Nat.le_of_eq hlen.symm, ?_⟩
  · rwa [hlen]
  · rw [hlen]
    exact (hg.digits e he).2.1

theorem IsOf.toNat_code (hg : Readable g) (h : w.IsOf g) : w.code.toNat = w.value := by
  obtain ⟨e, he, -, -, hmax⟩ := h
  exact HexEscape.toNat_code (Nat.le_trans hmax (hg.digits e he).2.2)

/-- In a grammar that is safe to cut, surrogates are spelled with a fixed number of digits. -/
theorem IsOf.isIn_of_surrogate (hcut : CutSafe g) (h : w.IsOf g) (hvalue : 0xD800 ≤ w.value) :
    w.IsIn g.shortest ∧ w.IsIn g.longest := by
  obtain ⟨e, he, hform, hmin, hmax⟩ := h
  have hwidth : e.minDigits = e.maxDigits := by
    rcases (hcut.numeric e he).2 with heq | hfew
    · exact heq
    · have := value_lt (Nat.le_trans hmax hfew)
      omega
  have hlen : w.digits.length = e.minDigits := by omega
  rw [hlen] at hform
  exact ⟨⟨_, List.mem_map_of_mem he, hform⟩, _, List.mem_map_of_mem he, by rwa [← hwidth]⟩

/-- Digits that are accepted behind a marker were written as an escape of the grammar. -/
theorem exists_isOf_of_read {m : Char} {e : NumericEscape} {r digits behind : Text} {v : UInt32}
    (he : g.numeric? m = some e) (hread : e.read r = ⟨digits, .ok v, behind⟩) :
    ∃ w : HexEscape, w.IsOf g ∧ backslash :: m :: digits = w.text ∧ v = w.code := by
  obtain ⟨w, hform, hmin, hmax, hbody, hcode⟩ :=
    NumericEscape.exists_hexEscape_of_read (e := e) (t := r) (v := v) (by rw [hread])
  rw [hread] at hbody
  have hmarker : m = w.marker := by
    rw [← Grammar.marker_of_numeric?_eq_some he]
    exact hform.marker_eq.symm
  refine ⟨w, ⟨e, Grammar.mem_of_numeric?_eq_some he, hform, hmin, hmax⟩, ?_, hcode⟩
  rw [text, ← hbody, ← hmarker]

theorem exists_isOf_of_lowSurrogate? {t lexeme rest : Text} {low : UInt32}
    (h : Token.lowSurrogate? g t = some (lexeme, low, rest)) :
    ∃ w : HexEscape, w.IsOf g ∧ lexeme = w.text ∧ low = w.code ∧
      CodeValue.isLowSurrogate low = true := by
  obtain ⟨m, r, e, digits, -, rfl, he, hread, hlow⟩ := Token.lowSurrogate?_eq_some_iff.1 h
  obtain ⟨w, hw, htext, hcode⟩ := exists_isOf_of_read he hread
  exact ⟨w, hw, htext, hcode, hlow⟩

end HexEscape

/-! ## Tokens are made of pieces -/

section

variable {f : EscapeForms} {g : Grammar} (hf : f.Describes g) (hg : Readable g) (hcut : CutSafe g)

include hf hcut

/-- The text of a scalar that a grammar reads is a piece and the digits that the piece leaves out. -/
theorem HexEscape.IsOf.text_mem_texts {w : HexEscape} (hw : w.IsOf g)
    (hvalue : w.value.isValidChar) : w.text ∈ f.texts := by
  obtain ⟨e, he, hform, hmin, hmax⟩ := hw
  have htake : (w.take e.minDigits).IsIn f.hex := by
    rw [hf.hex]
    exact ⟨_, List.mem_map_of_mem he, hform.marker_eq, hform.more_eq, List.length_take_of_le hmin⟩
  have htakeValue : (w.take e.minDigits).value.isValidChar := by
    rcases (hcut.numeric e he).2 with heq | hfew
    · -- The digits are all there.
      rw [w.value_take (by omega)]
      exact hvalue
    · have hlen : (w.take e.minDigits).digits.length ≤ 3 :=
        Nat.le_trans (List.length_take_le ..) (by omega)
      exact .inl (Nat.lt_trans (HexEscape.value_lt hlen) (by decide))
  rw [← w.text_take_append e.minDigits]
  exact EscapeForms.mem_texts_append (Nat.le_refl 16)
    (fun c hc => w.isDigit c (List.mem_of_mem_drop hc))
    (EscapeForms.Piece.scalar htake htakeValue).mem_texts

include hg

theorem Token.text_mem_texts_of_ofCodeValue {w : HexEscape} (hw : w.IsOf g) {rest rest' : Text}
    {tok : Token} (h : ofCodeValue g w.text w.code rest = .ok (tok, rest')) :
    tok.text ∈ f.texts := by
  have hcode := hw.toNat_code hg
  cases ofCodeValue_eq_ok_iff.1 h with
  | @scalar c _ _ char =>
    have hval := (CodeValue.scalar?_eq_some_iff _ _).1 char
    refine hw.text_mem_texts hf hcut ?_
    rw [← hcode, ← hval]
    exact c.valid
  | pair hhigh found =>
    rw [CodeValue.isHighSurrogate_iff, hcode] at hhigh
    obtain ⟨wl, hwl, rfl, rfl, hlow⟩ := HexEscape.exists_isOf_of_lowSurrogate? found
    rw [CodeValue.isLowSurrogate_iff, hwl.toNat_code hg] at hlow
    have hin := (hw.isIn_of_surrogate hcut hhigh.1).1
    have hinLow := (hwl.isIn_of_surrogate hcut (Nat.le_trans (by decide) hlow.1)).1
    rw [← hf.hex] at hin hinLow
    exact (EscapeForms.Piece.pair hin hinLow hhigh hlow).mem_texts

theorem Token.text_mem_texts_of_readEscape {t rest : Text} {tok : Token}
    (h : readEscape g t = .ok (tok, rest)) : tok.text ∈ f.texts := by
  cases readEscape_eq_ok_iff.1 h with
  | @simple m c _ hsimple =>
    have hletter : m ∈ f.letters := (hf.letter m).2 (by rw [hsimple]; rfl)
    exact (EscapeForms.Piece.letter hletter).mem_texts
  | numeric _ he hread token =>
    obtain ⟨w, hw, htext, rfl⟩ := HexEscape.exists_isOf_of_read he hread
    rw [htext] at token
    exact text_mem_texts_of_ofCodeValue hf hg hcut hw token
  | octal _ _ _ hd run =>
    -- Behind the first digit there are only more digits.
    exact EscapeForms.mem_texts_append (show 8 ≤ 16 by decide)
      (fun _ hc => isDigit_of_mem_octalRun (by rwa [run]))
      (EscapeForms.Piece.octal (isDigit_of_octalDigit? hd)).mem_texts

/-- The text of a token is made of pieces. -/
theorem Token.text_mem_texts {c : Char} {r rest : Text} {tok : Token}
    (h : read g c r = .ok (tok, rest)) : tok.text ∈ f.texts := by
  rcases read_eq_ok_iff.1 h with ⟨-, hescape⟩ | ⟨hc, rfl, -⟩
  · exact text_mem_texts_of_readEscape hf hg hcut hescape
  · exact (EscapeForms.Piece.plain hc).mem_texts

/-! ## Pieces are read -/

/-- An octal digit is read with the digits behind it, as far as they take the value no further than it
    may go. -/
theorem exists_reads_octal {d : Char} (hd : IsDigit 8 d) {s : Text} (hs : s ∈ f.texts) :
    ∃ tok rest, Reads g (backslash :: d :: s) tok rest ∧ rest ∈ f.texts := by
  obtain ⟨hsimple, hnumeric⟩ := hg.octal d hd
  obtain ⟨o, ho⟩ := Option.isSome_iff_exists.1 hf.octal
  have hdigit := octalDigit?_of_isDigit hd
  obtain ⟨⟨digits, value, rest⟩, hrun⟩ :
    ∃ run, octalRun o.maxValue (o.maxDigits - 1) (UInt32.ofNat (digitNat d)) s = run := ⟨_, rfl⟩
  have hlt := hcut.octalRun_lt ho hdigit (o.maxDigits - 1) s
  rw [hrun] at hlt
  obtain ⟨c, hc, -⟩ := exists_scalar?_of_lt hlt
  refine ⟨.escape (backslash :: d :: digits) c, rest, .escape ?_, ?_⟩
  · simp [Token.readEscape, hsimple, hnumeric, ho, hdigit, hrun, hc]
  · have happ := octalRun_append o.maxValue (o.maxDigits - 1) (UInt32.ofNat (digitNat d)) s
    rw [← happ] at hs
    have hrest := (EscapeForms.append_mem_texts_iff (show 8 ≤ 16 by decide)
      (fun _ => isDigit_of_mem_octalRun)).1 hs
    rwa [hrun] at hrest

/-- The digits of a scalar are read, or they are few and read with digits behind them. -/
theorem exists_reads_scalar {w : HexEscape} (hw : w.IsIn f.hex) (hvalue : w.value.isValidChar)
    {s : Text} (hs : s ∈ f.texts) :
    ∃ tok rest, Reads g (w.text ++ s) tok rest ∧ rest ∈ f.texts := by
  rw [hf.hex] at hw
  obtain ⟨f', hf', hform⟩ := hw
  obtain ⟨e, he, rfl⟩ := List.mem_map.1 hf'
  rcases (hcut.numeric e he).2 with hwidth | hfew
  · have hlongest : w.IsIn g.longest := ⟨_, List.mem_map_of_mem he, by rwa [← hwidth]⟩
    exact ⟨_, s, HexEscape.reads_scalar hg hlongest (c := Char.ofNatAux w.value hvalue) rfl s, hs⟩
  · obtain ⟨hsimple, hnumeric⟩ := hg.marker e he
    obtain ⟨hpos, hle, -⟩ := hg.digits e he
    have hlen : w.digits.length = e.minDigits := hform.length_eq
    have hmarker : w.marker = e.marker := hform.marker_eq
    obtain ⟨⟨extra, rest⟩, hextra⟩ :
      ∃ run, hexRun (e.maxDigits - w.digits.length) s = run := ⟨_, rfl⟩
    have hread := NumericEscape.read_body_append (by rwa [hlen]) (by rwa [hlen])
      (Nat.le_of_eq hlen.symm) (by rwa [hlen]) (hg.repeats e he) hextra
    have hlt := NumericEscape.toNat_value_lt hfew (t := w.body ++ s) (by rw [hread])
    obtain ⟨c, hc, -⟩ :=
      Token.ofCodeValue_of_lt g (backslash :: w.marker :: (w.body ++ extra)) rest hlt
    rw [hmarker] at hc
    refine ⟨.escape (backslash :: e.marker :: (w.body ++ extra)) c, rest, .escape ?_, ?_⟩
    · simp [Token.readEscape, hmarker, hsimple, hnumeric, hread, hc]
    · have happ := hexRun_append (e.maxDigits - w.digits.length) s
      rw [← happ] at hs
      have hrest := (EscapeForms.append_mem_texts_iff (Nat.le_refl 16)
        (fun _ => isDigit_of_mem_hexRun)).1 hs
      rwa [hextra] at hrest

/-- Two halves of a supplementary character are read. -/
theorem exists_reads_pair {high low : HexEscape} (h : high.IsIn f.hex) (hl : low.IsIn f.hex)
    (hhigh : high.IsHigh) (hlow : low.IsLow) (s : Text) :
    ∃ tok, Reads g (high.text ++ low.text ++ s) tok s := by
  rw [hf.hex] at h hl
  have hlongest :=
    ((HexEscape.IsOf.of_shortest hg h).isIn_of_surrogate hcut hhigh.1).2
  have hlongest' :=
    ((HexEscape.IsOf.of_shortest hg hl).isIn_of_surrogate hcut (Nat.le_trans (by decide) hlow.1)).2
  have hvalid : (0x10000 + 0x400 * (high.value - 0xD800) + (low.value - 0xDC00)).isValidChar := by
    obtain ⟨h₁, h₂⟩ := hhigh
    obtain ⟨l₁, l₂⟩ := hlow
    refine .inr ⟨?_, ?_⟩ <;> omega
  exact ⟨_, HexEscape.reads_pair hg hlongest hlongest' hhigh hlow (c := Char.ofNatAux _ hvalid) rfl s⟩

/-- At the front of a text of pieces a token is read, and what it leaves is a text of pieces. -/
theorem exists_reads {t : Text} (h : t ∈ f.texts) (hne : t ≠ []) :
    ∃ tok rest, Reads g t tok rest ∧ rest ∈ f.texts := by
  rcases EscapeForms.eq_nil_or_exists_piece h with hnil | ⟨p, s, hp, hs, rfl⟩
  · exact absurd hnil hne
  · cases hp with
    | plain hc => exact ⟨_, s, .plain g hc s, hs⟩
    | letter hm =>
      obtain ⟨c, hc⟩ := Option.isSome_iff_exists.1 ((hf.letter _).1 hm)
      exact ⟨_, s, .simple hc s, hs⟩
    | octal hd => exact exists_reads_octal hf hg hcut hd hs
    | scalar hw hvalue => exact exists_reads_scalar hf hg hcut hw hvalue hs
    | pair hin hinLow hhigh hlow =>
      obtain ⟨tok, hreads⟩ := exists_reads_pair hf hg hcut hin hinLow hhigh hlow s
      exact ⟨tok, s, hreads, hs⟩

/-! ## Accepted texts -/

/-- A text that is read without a fault is a text of pieces, token by token. -/
theorem mem_texts_of_fault_eq_none {t : Text} (h : (scan g t).fault = none) : t ∈ f.texts := by
  fun_induction scan g t with
  | case1 => exact f.nil_mem_texts
  | case2 => simp at h
  | case3 c r tok rest hread hlen ih =>
    rw [← Token.text_append_of_read hread]
    exact EscapeForms.append_mem_texts (Token.text_mem_texts hf hg hcut hread) (ih h)

/-- A text of pieces is read without a fault. -/
theorem fault_eq_none_of_mem_texts (t : Text) (h : t ∈ f.texts) : (scan g t).fault = none := by
  by_cases hne : t = []
  · rw [hne, scan_nil]
  · obtain ⟨tok, rest, hreads, hrest⟩ := exists_reads hf hg hcut h hne
    have := hreads.length_lt
    rw [hreads.scan_eq]
    exact fault_eq_none_of_mem_texts rest hrest
termination_by t.length

/-- The texts of pieces are those that are read without a fault. -/
theorem fault_scan_eq_none_iff (t : Text) : (scan g t).fault = none ↔ t ∈ f.texts :=
  ⟨mem_texts_of_fault_eq_none hf hg hcut, fault_eq_none_of_mem_texts hf hg hcut t⟩

end

/-- Decoding is complete exactly when no fault is met. -/
theorem decode_complete_iff (g : Grammar) (t : Text) (out : Output) :
    (decode g t out).2 = .complete ↔ (scan g t).fault = none := by
  rw [decode_eq]
  cases hfault : (scan g t).fault <;> simp [Scan.status, hfault]

/-- The built-in decoders accept the texts that are made of the pieces of their grammars, and no
    others. -/
theorem decode_complete_iff_mem_texts (t : Text) (out : Output) :
    ((decode Grammar.java t out).2 = .complete ↔ t ∈ EscapeForms.java.texts) ∧
      ((decode Grammar.proto t out).2 = .complete ↔ t ∈ EscapeForms.proto.texts) := by
  rw [decode_complete_iff, decode_complete_iff]
  exact ⟨fault_scan_eq_none_iff EscapeForms.describes_java readable_java cutSafe_java t,
    fault_scan_eq_none_iff EscapeForms.describes_proto readable_proto cutSafe_proto t⟩

end Unescape
