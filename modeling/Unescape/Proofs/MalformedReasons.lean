import Unescape.Proofs.BuiltGrammar
import Unescape.Proofs.CheckedDecode
import Unescape.Proofs.FragmentPlaces

set_option autoImplicit false

/-! # What is said about a malformed escape

The kind of a malformed escape carries characters, counts and code values for its message.
`MalformedKind.IsTrueOf` says what each kind states, of the grammar and of the text behind the
backslash. Where decoding stops, the kind that is reported is true there, and no other kind with any
other values is (`decode_kind_isTrueOf`).

A code value that is reported was spelled by one escape. Two escapes that are the halves of a pair always
stand for a supplementary character, and no step of the sum leaves the 32 bits, so a sum of two halves is
never reported. -/

namespace Unescape

/-! ## What the kinds state -/

/-- A text begins with a numeric escape whose digits have the code value `v`, and goes on with `rest`. -/
def HasNumericCode (g : Grammar) (v : UInt32) (rest : Text) : Text → Prop
  | [] => False
  | m :: r => g.simple? m = none ∧ ∃ n, g.numeric? m = some n ∧
    r = n.moreMarkers r ++ n.digits r ++ rest ∧ n.minDigits ≤ (n.digits r).length ∧
      hexValue (n.digits r) = v

/-- A text begins with an octal escape with the code value `v`. -/
def HasOctalCode (g : Grammar) (v : UInt32) : Text → Prop
  | [] => False
  | m :: r => g.simple? m = none ∧ g.numeric? m = none ∧
    ∃ o d, g.octal = some o ∧ octalDigit? m = some d ∧
      (octalRun o.maxValue (o.maxDigits - 1) d r).2.1 = v

/-- What a kind states of the text behind a backslash. A surrogate that octal digits spell is no character,
    but it is not half of a pair either. -/
def MalformedKind.IsTrueOf (g : Grammar) (t : Text) : MalformedKind → Prop
  | trailingBackslash => t = []
  | unknownEscape c => ∃ r, t = c :: r ∧ g.simple? c = none ∧ g.numeric? c = none ∧
    (g.octal = none ∨ ¬ IsDigit 8 c)
  | missingDigits marker expected found => ∃ r n, t = marker :: r ∧ g.simple? marker = none ∧
    g.numeric? marker = some n ∧ expected = n.minDigits ∧ found = (n.digits r).length ∧ found < expected
  | loneSurrogate v => 0xD800 ≤ v.toNat ∧ v.toNat ≤ 0xDFFF ∧ ∃ rest, HasNumericCode g v rest t ∧
    (v.toNat ≤ 0xDBFF → Token.lowSurrogate? g rest = none)
  | invalidCodePoint v => ¬ v.isValidChar ∧
    (0x10FFFF < v.toNat ∧ (∃ rest, HasNumericCode g v rest t) ∨ HasOctalCode g v t)

/-! ## The kind of a fault -/

/-- With enough digits an escape is read, and what is read are its markers and these digits. -/
theorem NumericEscape.exists_read_eq_ok_iff (n : NumericEscape) (r : Text) (v : UInt32) (rest : Text) :
    (∃ lexeme, n.read r = ⟨lexeme, .ok v, rest⟩) ↔
      r = n.moreMarkers r ++ n.digits r ++ rest ∧ n.minDigits ≤ (n.digits r).length ∧
        hexValue (n.digits r) = v := by
  have hread := n.read_eq_digits r
  have hall : n.moreMarkers r ++ n.digits r ++ (n.read r).rest = r := by
    have happ := n.lexeme_append_rest r
    rwa [show (n.read r).lexeme = n.moreMarkers r ++ n.digits r by rw [hread]] at happ
  by_cases hfew : (n.digits r).length < n.minDigits
  · rw [if_pos hfew] at hread
    simp [hread, Nat.not_le.2 hfew]
  · rw [if_neg hfew] at hread
    constructor
    · rintro ⟨lexeme, h⟩
      have hvalue : (n.read r).value = .ok v := by rw [h]
      rw [hread] at hvalue
      rw [h] at hall
      exact ⟨hall.symm, Nat.not_lt.1 hfew, Except.ok.inj hvalue⟩
    · rintro ⟨hr, -, rfl⟩
      obtain rfl : (n.read r).rest = rest := List.append_cancel_left (hall.trans hr)
      exact ⟨(n.read r).lexeme, by rw [hread]⟩

/-- Beyond the surrogates only the values behind the last character are no characters. -/
theorem CodeValue.lt_toNat_iff_of_not_isValidChar {v : UInt32} (hvalid : ¬ v.isValidChar) :
    0x10FFFF < v.toNat ↔ isHighSurrogate v = false ∧ isLowSurrogate v = false := by
  have hhigh := isHighSurrogate_iff v
  have hlow := isLowSurrogate_iff v
  have hrange : ¬ (v.toNat < 0xD800 ∨ 0xDFFF < v.toNat ∧ v.toNat < 0x110000) := hvalid
  rw [Bool.eq_false_iff, Bool.eq_false_iff, ne_eq, ne_eq, hhigh, hlow]
  omega

section

variable {g : Grammar} {t : Text}

namespace Token

/-- A code value that makes no token is a surrogate alone or no code value of a character. -/
theorem isTrueOf_of_codeFails {lexeme rest : Text} {v : UInt32} {f : Fault}
    (hcode : HasNumericCode g v rest t) (h : CodeFails g lexeme v rest f) : f.kind.IsTrueOf g t := by
  cases h with
  | high high alone =>
    obtain ⟨hle, hle'⟩ := (CodeValue.isHighSurrogate_iff v).1 high
    exact ⟨hle, by omega, rest, hcode, fun _ => alone⟩
  | low high low =>
    obtain ⟨hle, hle'⟩ := (CodeValue.isLowSurrogate_iff v).1 low
    exact ⟨by omega, hle', rest, hcode, fun hlt => absurd hlt (by omega)⟩
  | invalid high low char =>
    have hvalid := (CodeValue.scalar?_eq_none_iff v).1 char
    exact ⟨hvalid, .inl ⟨(CodeValue.lt_toNat_iff_of_not_isValidChar hvalid).2 ⟨high, low⟩, rest, hcode⟩⟩

theorem isTrueOf_of_escapeFails {f : Fault} (h : EscapeFails g t f) : f.kind.IsTrueOf g t := by
  cases h with
  | trailing => rfl
  | @unknown m r simple numeric octal =>
    refine ⟨r, rfl, simple, numeric, octal.imp_right ?_⟩
    intro hnone hdigit
    rw [octalDigit?_of_isDigit hdigit] at hnone
    simp at hnone
  | @digits m r lexeme behind n kind simple numeric read =>
    have hvalue : (n.read r).value = .error kind := by rw [read]
    obtain ⟨hfew, rfl⟩ := (n.value_read_eq_error_iff r kind).1 hvalue
    -- The marker in the report is that of the escape, which is the one in the text.
    obtain rfl := Grammar.marker_of_numeric?_eq_some numeric
    exact ⟨r, n, rfl, simple, numeric, rfl, rfl, hfew⟩
  | numeric simple numeric read fails =>
    have hdigits := (NumericEscape.exists_read_eq_ok_iff _ _ _ _).1 ⟨_, read⟩
    exact isTrueOf_of_codeFails ⟨simple, _, numeric, hdigits⟩ (ofCodeValue_eq_error_iff.1 fails)
  | octal simple numeric octal digit run char =>
    exact ⟨(CodeValue.scalar?_eq_none_iff _).1 char,
      .inr ⟨simple, numeric, _, _, octal, digit, by rw [run]⟩⟩

/-- A numeric escape whose code value makes no token makes no token. -/
theorem exists_escapeFails_of_hasNumericCode {v : UInt32} {rest : Text} {kind : MalformedKind}
    (hcode : HasNumericCode g v rest t) (h : ∀ lexeme, CodeFails g lexeme v rest ⟨kind, lexeme⟩) :
    ∃ f, f.kind = kind ∧ EscapeFails g t f := by
  cases t with
  | nil => exact hcode.elim
  | cons m r =>
    obtain ⟨simple, n, numeric, hdigits⟩ := hcode
    obtain ⟨lexeme, read⟩ := (n.exists_read_eq_ok_iff r v rest).2 hdigits
    exact ⟨_, rfl, .numeric simple numeric read (ofCodeValue_eq_error_iff.2 (h _))⟩

theorem exists_escapeFails_of_isTrueOf {kind : MalformedKind} (h : kind.IsTrueOf g t) :
    ∃ f, f.kind = kind ∧ EscapeFails g t f := by
  cases kind with
  | trailingBackslash =>
    obtain rfl : t = [] := h
    exact ⟨_, rfl, .trailing⟩
  | unknownEscape c =>
    obtain ⟨r, rfl, simple, numeric, octal⟩ := h
    refine ⟨_, rfl, .unknown simple numeric (octal.imp_right ?_)⟩
    intro hdigit
    rw [octalDigit?_eq, if_neg hdigit]
  | missingDigits marker expected found =>
    obtain ⟨r, n, rfl, simple, numeric, rfl, rfl, hfew⟩ := h
    have hvalue := (n.value_read_eq_error_iff r _).2 ⟨hfew, rfl⟩
    rw [Grammar.marker_of_numeric?_eq_some numeric] at hvalue
    exact ⟨⟨_, backslash :: marker :: (n.read r).lexeme⟩, rfl,
      .digits simple numeric (by rw [← hvalue])⟩
  | loneSurrogate v =>
    obtain ⟨hle, hle', rest, hcode, halone⟩ := h
    refine exists_escapeFails_of_hasNumericCode hcode fun lexeme => ?_
    -- Only a high half looks ahead; a low one in front is alone whatever follows.
    by_cases hhigh : v.toNat ≤ 0xDBFF
    · exact .high ((CodeValue.isHighSurrogate_iff v).2 ⟨hle, hhigh⟩) (halone hhigh)
    · refine .low ?_ ((CodeValue.isLowSurrogate_iff v).2 ⟨by omega, hle'⟩)
      rw [Bool.eq_false_iff, ne_eq, CodeValue.isHighSurrogate_iff]
      exact fun hrange => hhigh hrange.2
  | invalidCodePoint v =>
    obtain ⟨hvalid, ⟨hlt, rest, hcode⟩ | hcode⟩ := h
    · obtain ⟨high, low⟩ := (CodeValue.lt_toNat_iff_of_not_isValidChar hvalid).1 hlt
      exact exists_escapeFails_of_hasNumericCode hcode
        fun lexeme => .invalid high low ((CodeValue.scalar?_eq_none_iff v).2 hvalid)
    · cases t with
      | nil => exact hcode.elim
      | cons m r =>
        obtain ⟨simple, numeric, o, d, octal, digit, rfl⟩ := hcode
        exact ⟨_, rfl, .octal simple numeric octal digit rfl ((CodeValue.scalar?_eq_none_iff _).2 hvalid)⟩

/-- Of the text behind a backslash that opens no token, just the kind of the fault is true. -/
theorem isTrueOf_iff_of_readEscape {f : Fault} (h : readEscape g t = .error f) (kind : MalformedKind) :
    kind.IsTrueOf g t ↔ kind = f.kind := by
  constructor
  · intro htrue
    obtain ⟨f', rfl, hfails⟩ := exists_escapeFails_of_isTrueOf htrue
    rw [readEscape_eq_error_iff.2 hfails] at h
    exact congrArg Fault.kind (Except.error.inj h)
  · rintro rfl
    exact isTrueOf_of_escapeFails (readEscape_eq_error_iff.1 h)

end Token

end

/-! ## Where decoding stops -/

/-- The sum of a high and a low surrogate is the code value of a supplementary character. -/
theorem CodeValue.exists_combine_eq {high low : UInt32} (hhigh : CodeValue.isHighSurrogate high = true)
    (hlow : CodeValue.isLowSurrogate low = true) :
    ∃ c : Char, CodeValue.combine high low = c.val ∧ 0x10000 ≤ c.toNat ∧
      c.toNat = 0x10000 + 1024 * (high.toNat - 0xD800) + (low.toNat - 0xDC00) := by
  obtain ⟨c, hc, -⟩ := CodeValue.scalar?_combine high low hhigh hlow
  have hval : c.val = CodeValue.combine high low := (CodeValue.scalar?_eq_some_iff _ _).1 hc
  have hnat : c.toNat = 0x10000 + 1024 * (high.toNat - 0xD800) + (low.toNat - 0xDC00) := by
    rw [← CodeValue.toNat_combine high low hhigh hlow, ← hval]
    rfl
  exact ⟨c, hval.symm, by omega, hnat⟩

/-- Where decoding stops, at a backslash, the kind that is reported is true of the grammar and of the text
    behind the backslash, and no other one is. An unknown escape has a character that is no marker and no
    octal digit of a grammar with octal escapes; missing digits are fewer than their marker asks for; a
    lone surrogate is one; and an invalid code point is no character and was spelled by one escape. For a
    high and a low surrogate always make a supplementary character: their sum is computed without leaving
    the 32 bits, and wherever the low half is found behind the high one, there is a token. -/
theorem decode_kind_isTrueOf (g : Grammar) :
    (∀ t out e, (decode g t out).2 = .stopped e →
      ∃ front behind, t = front ++ backslash :: behind ∧ Text.units front = e.span.start ∧
        e.kind.IsTrueOf g behind ∧ ∀ kind : MalformedKind, kind.IsTrueOf g behind → kind = e.kind) ∧
    ∀ high low, CodeValue.isHighSurrogate high = true → CodeValue.isLowSurrogate low = true →
      ∃ c : Char, 0x10000 ≤ c.toNat ∧
        c.toNat = 0x10000 + 1024 * (high.toNat - 0xD800) + (low.toNat - 0xDC00) ∧
        Checked.combine high low = pure c.val ∧
        ∀ lexeme lowLexeme behind rest, Token.lowSurrogate? g behind = some (lowLexeme, low, rest) →
          Token.ofCodeValue g lexeme high behind = .ok (.pair lexeme lowLexeme c, rest) := by
  constructor
  · intro t out e h
    rw [decode_eq] at h
    obtain ⟨f, hfault, hspan, hkind⟩ := exists_fault_of_stopped h
    obtain ⟨c, behind, hrest, hread⟩ := exists_read_of_fault_eq_some hfault
    obtain ⟨rfl, hescape⟩ := Token.read_eq_error_iff.1 hread
    have htrue := Token.isTrueOf_iff_of_readEscape hescape
    refine ⟨Token.textOf (scan g t).tokens, behind, ?_, ?_, ?_, ?_⟩
    · rw [← hrest, textOf_append_rest_scan]
    · rw [hspan, Nat.zero_add, Scan.consumed]
    · rw [htrue, hkind]
    · intro kind hkind'
      rw [hkind]
      exact (htrue kind).1 hkind'
  · intro high low hhigh hlow
    obtain ⟨c, hsum, hle, hnat⟩ := CodeValue.exists_combine_eq hhigh hlow
    refine ⟨c, hle, hnat, by rw [Checked.combine_eq hhigh hlow, hsum], ?_⟩
    intro lexeme lowLexeme behind rest hfound
    exact Token.ofCodeValue_eq_ok_iff.2
      (.pair hhigh hfound ((CodeValue.scalar?_eq_some_iff _ _).2 hsum.symm))

/-- An octal digit that is the marker of a numeric escape, behind a pair: what follows it is counted as
    hexadecimal digits, and there are too few. -/
theorem decode_kind_isTrueOf_digit_marker :
    let g := Grammar.java.withNumeric (NumericEscape.fixed '7' 4)
    (decode g "\\uD83D\\uDE00\\712".toList Output.recording).2
      = .stopped ⟨⟨12, 16⟩, .missingDigits '7' 4 2⟩ ∧
    ∃ front behind, "\\uD83D\\uDE00\\712".toList = front ++ backslash :: behind ∧
      Text.units front = 12 ∧ (MalformedKind.missingDigits '7' 4 2).IsTrueOf g behind ∧
      ∀ kind : MalformedKind, kind.IsTrueOf g behind → kind = .missingDigits '7' 4 2 := by
  intro g
  have h : (decode g "\\uD83D\\uDE00\\712".toList Output.recording).2
      = .stopped ⟨⟨12, 16⟩, .missingDigits '7' 4 2⟩ := by
    decide +kernel
  exact ⟨h, (decode_kind_isTrueOf g).1 _ _ _ h⟩

end Unescape
