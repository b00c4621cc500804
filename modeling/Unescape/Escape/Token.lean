import Unescape.Escape.CodeValue
import Unescape.Escape.Malformed
import Unescape.Grammar.Basic

set_option autoImplicit false

/-! # Tokens of a literal

The contents of a literal are read one *token* at a time: a plain character, an escape, or two
escapes that are the halves of a surrogate pair. A token keeps the piece of text it was read from,
its *lexeme*, so that offsets of the decoded text follow from the tokens alone.

`Token.read` reads one token. All that can come of it is listed in `EscapeReads` and `EscapeFails`,
and for a code value in `CodeReads` and `CodeFails`. It never loses text: the lexeme and the rest make
up what was read (`text_append_of_read`), and where no token can be read, the lexeme of the fault
stands at the front (`lexeme_prefix_of_read`). -/

namespace Unescape

/-- The character that opens an escape. -/
def backslash : Char := '\\'

/-! ## Digit runs -/

/-- The longest run of hexadecimal digits at the front of a text, at most `limit` long, and what
    follows it. -/
def hexRun : Nat → Text → Text × Text
  | 0, t => ([], t)
  | _ + 1, [] => ([], [])
  | limit + 1, c :: r =>
    if (hexDigit? c).isSome then (c :: (hexRun limit r).1, (hexRun limit r).2) else ([], c :: r)

theorem hexRun_append (limit : Nat) (t : Text) : (hexRun limit t).1 ++ (hexRun limit t).2 = t := by
  fun_induction hexRun limit t <;> simp_all

theorem length_hexRun_le (limit : Nat) (t : Text) : (hexRun limit t).1.length ≤ limit := by
  fun_induction hexRun limit t <;> simp_all

/-- The octal digits that continue an escape whose digits so far have the given value, at most
    `limit` of them and none that takes the value beyond `maxValue`; with the value of all digits
    and what follows them.

    Values have 32 bits. `value * 8` wraps where the digits so far are worth `2 ^ 29` or more, which
    they only are if `maxValue` lets them. This is what a build without overflow checks does; one with
    overflow checks traps at that product. -/
def octalRun (maxValue : UInt32) : Nat → UInt32 → Text → Text × UInt32 × Text
  | 0, value, t => ([], value, t)
  | _ + 1, value, [] => ([], value, [])
  | limit + 1, value, c :: r =>
    match octalDigit? c with
    | some d =>
      if value * 8 + d ≤ maxValue then
        let (digits, total, rest) := octalRun maxValue limit (value * 8 + d) r
        (c :: digits, total, rest)
      else ([], value, c :: r)
    | none => ([], value, c :: r)

theorem octalRun_append (maxValue : UInt32) (limit : Nat) (value : UInt32) (t : Text) :
    (octalRun maxValue limit value t).1 ++ (octalRun maxValue limit value t).2.2 = t := by
  fun_induction octalRun maxValue limit value t <;> simp_all

theorem eq_append_of_octalRun {maxValue value total : UInt32} {limit : Nat} {t digits rest : Text}
    (h : octalRun maxValue limit value t = (digits, total, rest)) : t = digits ++ rest := by
  have happ := octalRun_append maxValue limit value t
  rw [h] at happ
  exact happ.symm

/-! ## Numeric escapes -/

namespace NumericEscape

/-- What stands behind the marker of a numeric escape. -/
structure Reading where
  /-- Further markers and the digits. -/
  lexeme : Text
  /-- The code value of the digits, or what is wrong with them. -/
  value : Except MalformedKind UInt32
  /-- The text behind the digits. -/
  rest : Text

/-- The markers that repeat the first one. -/
def moreMarkers (e : NumericEscape) (t : Text) : Text :=
  if e.repeatMarker then t.takeWhile (· = e.marker) else []

/-- Read on behind the marker: further markers if the escape allows them, then as many digits as
    there are, up to the most. -/
def read (e : NumericEscape) (t : Text) : Reading :=
  let markers := e.moreMarkers t
  let (digits, rest) := hexRun e.maxDigits (t.drop markers.length)
  { lexeme := markers ++ digits
    value :=
      if digits.length < e.minDigits then .error (.missingDigits e.marker e.minDigits digits.length)
      else .ok (hexValue digits)
    rest := rest }

theorem moreMarkers_prefix (e : NumericEscape) (t : Text) : e.moreMarkers t <+: t := by
  unfold moreMarkers
  split
  · exact List.takeWhile_prefix _
  · exact List.nil_prefix

theorem lexeme_append_rest (e : NumericEscape) (t : Text) :
    (e.read t).lexeme ++ (e.read t).rest = t := by
  have h := List.prefix_iff_eq_append.1 (e.moreMarkers_prefix t)
  simp only [read, List.append_assoc, hexRun_append]
  exact h

theorem eq_append_of_read {e : NumericEscape} {t lexeme rest : Text}
    {value : Except MalformedKind UInt32} (h : e.read t = ⟨lexeme, value, rest⟩) :
    t = lexeme ++ rest := by
  have happ := e.lexeme_append_rest t
  rw [h] at happ
  exact happ.symm

end NumericEscape

/-! ## Tokens -/

/-- A piece of a literal that decodes to one character. -/
inductive Token where
  /-- A character that stands for itself. -/
  | plain (c : Char)
  /-- One escape. -/
  | escape (lexeme : Text) (c : Char)
  /-- Two escapes, the high and the low half of one supplementary character. -/
  | pair (high low : Text) (c : Char)
deriving DecidableEq, Repr

/-- Where and why no token could be read. -/
structure Fault where
  kind : MalformedKind
  /-- The backslash and what was examined behind it. -/
  lexeme : Text
deriving DecidableEq, Repr

namespace Token

/-- The text of a token. -/
def text : Token → Text
  | plain c => [c]
  | escape lexeme _ => lexeme
  | pair high low _ => high ++ low

/-- The character that a token decodes to. -/
def char : Token → Char
  | plain c => c
  | escape _ c => c
  | pair _ _ c => c

/-- For each unit of the decoded character the host unit that produced it, when the token begins
    at `start`: a plain character keeps its units apart, an escape gives all to its backslash, and
    each half of a pair gives its own backslash. -/
def offsets (start : Nat) : Token → List Nat
  | plain c => List.range' start (unitsOf c)
  | escape _ c => List.replicate (unitsOf c) start
  | pair high _ _ => [start, start + Text.units high]

/-! ## Reading a token -/

/-- The low half of a surrogate pair at the front of a text: an escape of its own, with its code
    value and what follows it. -/
def lowSurrogate? (g : Grammar) : Text → Option (Text × UInt32 × Text)
  | b :: m :: r =>
    if b = backslash then
      match g.numeric? m with
      | some e =>
        match (e.read r).value with
        | .ok low =>
          if CodeValue.isLowSurrogate low then some (b :: m :: (e.read r).lexeme, low, (e.read r).rest)
          else none
        | .error _ => none
      | none => none
    else none
  | _ => none

/-- The token of a numeric escape with a given code value; a high surrogate needs its low half
    directly behind it. -/
def ofCodeValue (g : Grammar) (lexeme : Text) (value : UInt32) (rest : Text) :
    Except Fault (Token × Text) :=
  if CodeValue.isHighSurrogate value then
    match lowSurrogate? g rest with
    | some (lowLexeme, low, rest') =>
      match CodeValue.scalar? (CodeValue.combine value low) with
      | some c => .ok (pair lexeme lowLexeme c, rest')
      | none => .error ⟨.invalidCodePoint (CodeValue.combine value low), lexeme⟩
    | none => .error ⟨.loneSurrogate value, lexeme⟩
  else if CodeValue.isLowSurrogate value then .error ⟨.loneSurrogate value, lexeme⟩
  else
    match CodeValue.scalar? value with
    | some c => .ok (escape lexeme c, rest)
    | none => .error ⟨.invalidCodePoint value, lexeme⟩

/-- Read the escape behind a backslash. A simple escape comes first, then a numeric one, then an
    octal one. -/
def readEscape (g : Grammar) : Text → Except Fault (Token × Text)
  | [] => .error ⟨.trailingBackslash, [backslash]⟩
  | m :: r =>
    match g.simple? m with
    | some c => .ok (escape [backslash, m] c, r)
    | none =>
      match g.numeric? m with
      | some e =>
        let found := e.read r
        match found.value with
        | .ok value => ofCodeValue g (backslash :: m :: found.lexeme) value found.rest
        | .error kind => .error ⟨kind, backslash :: m :: found.lexeme⟩
      | none =>
        match g.octal, octalDigit? m with
        | some o, some d =>
          let (digits, value, rest) := octalRun o.maxValue (o.maxDigits - 1) d r
          match CodeValue.scalar? value with
          | some c => .ok (escape (backslash :: m :: digits) c, rest)
          | none => .error ⟨.invalidCodePoint value, backslash :: m :: digits⟩
        | _, _ => .error ⟨.unknownEscape m, [backslash, m]⟩

/-- Read the token at the front of a text that starts with `c`. -/
def read (g : Grammar) (c : Char) (r : Text) : Except Fault (Token × Text) :=
  if c = backslash then readEscape g r else .ok (plain c, r)

/-! ## The ways of reading

What each reader answers is one of a few outcomes. They are listed here once, with all that has been
seen when they are met, so that a fact about readings has one case for each of them. -/

/-- The outcomes of a code value that make a token. -/
inductive CodeReads (g : Grammar) (lexeme : Text) (value : UInt32) (rest : Text) : Token → Text → Prop
  /-- The code value of a character. -/
  | scalar {c : Char} (high : CodeValue.isHighSurrogate value = false)
      (low : CodeValue.isLowSurrogate value = false) (char : CodeValue.scalar? value = some c) :
      CodeReads g lexeme value rest (escape lexeme c) rest
  /-- A high half with its low half directly behind it. -/
  | pair {lowLexeme : Text} {low : UInt32} {rest' : Text} {c : Char}
      (high : CodeValue.isHighSurrogate value = true)
      (found : lowSurrogate? g rest = some (lowLexeme, low, rest'))
      (char : CodeValue.scalar? (CodeValue.combine value low) = some c) :
      CodeReads g lexeme value rest (pair lexeme lowLexeme c) rest'

/-- The outcomes of a code value that make no token. That a pair of surrogates is no character is
    none of them. -/
inductive CodeFails (g : Grammar) (lexeme : Text) (value : UInt32) (rest : Text) : Fault → Prop
  /-- A high half without its low half. -/
  | high (high : CodeValue.isHighSurrogate value = true) (alone : lowSurrogate? g rest = none) :
      CodeFails g lexeme value rest ⟨.loneSurrogate value, lexeme⟩
  /-- A low half in front. -/
  | low (high : CodeValue.isHighSurrogate value = false)
      (low : CodeValue.isLowSurrogate value = true) :
      CodeFails g lexeme value rest ⟨.loneSurrogate value, lexeme⟩
  /-- A value beyond the last character. -/
  | invalid (high : CodeValue.isHighSurrogate value = false)
      (low : CodeValue.isLowSurrogate value = false) (char : CodeValue.scalar? value = none) :
      CodeFails g lexeme value rest ⟨.invalidCodePoint value, lexeme⟩

/-- The outcomes of an escape that make a token. -/
inductive EscapeReads (g : Grammar) : Text → Token → Text → Prop
  /-- A simple escape. -/
  | simple {m c : Char} {r : Text} (simple : g.simple? m = some c) :
      EscapeReads g (m :: r) (escape [backslash, m] c) r
  /-- A numeric escape with enough digits. -/
  | numeric {m : Char} {r digits behind rest : Text} {e : NumericEscape} {value : UInt32}
      {tok : Token} (simple : g.simple? m = none) (numeric : g.numeric? m = some e)
      (read : e.read r = ⟨digits, .ok value, behind⟩)
      (token : ofCodeValue g (backslash :: m :: digits) value behind = .ok (tok, rest)) :
      EscapeReads g (m :: r) tok rest
  /-- An octal escape. -/
  | octal {m c : Char} {r digits rest : Text} {o : OctalEscape} {d value : UInt32}
      (simple : g.simple? m = none) (numeric : g.numeric? m = none) (octal : g.octal = some o)
      (digit : octalDigit? m = some d)
      (run : octalRun o.maxValue (o.maxDigits - 1) d r = (digits, value, rest))
      (char : CodeValue.scalar? value = some c) :
      EscapeReads g (m :: r) (escape (backslash :: m :: digits) c) rest

/-- The outcomes of an escape that make no token. -/
inductive EscapeFails (g : Grammar) : Text → Fault → Prop
  /-- Nothing stands behind the backslash. -/
  | trailing : EscapeFails g [] ⟨.trailingBackslash, [backslash]⟩
  /-- A character that opens no escape. -/
  | unknown {m : Char} {r : Text} (simple : g.simple? m = none) (numeric : g.numeric? m = none)
      (octal : g.octal = none ∨ octalDigit? m = none) :
      EscapeFails g (m :: r) ⟨.unknownEscape m, [backslash, m]⟩
  /-- A numeric escape with too few digits. -/
  | digits {m : Char} {r digits behind : Text} {e : NumericEscape} {kind : MalformedKind}
      (simple : g.simple? m = none) (numeric : g.numeric? m = some e)
      (read : e.read r = ⟨digits, .error kind, behind⟩) :
      EscapeFails g (m :: r) ⟨kind, backslash :: m :: digits⟩
  /-- A numeric escape whose code value makes no token. -/
  | numeric {m : Char} {r digits behind : Text} {e : NumericEscape} {value : UInt32} {f : Fault}
      (simple : g.simple? m = none) (numeric : g.numeric? m = some e)
      (read : e.read r = ⟨digits, .ok value, behind⟩)
      (fails : ofCodeValue g (backslash :: m :: digits) value behind = .error f) :
      EscapeFails g (m :: r) f
  /-- An octal escape whose value is no character. -/
  | octal {m : Char} {r digits rest : Text} {o : OctalEscape} {d value : UInt32}
      (simple : g.simple? m = none) (numeric : g.numeric? m = none) (octal : g.octal = some o)
      (digit : octalDigit? m = some d)
      (run : octalRun o.maxValue (o.maxDigits - 1) d r = (digits, value, rest))
      (char : CodeValue.scalar? value = none) :
      EscapeFails g (m :: r) ⟨.invalidCodePoint value, backslash :: m :: digits⟩

section

variable {g : Grammar} {t lexeme rest rest' : Text} {value low : UInt32} {tok : Token} {f : Fault}

/-- A low half is a numeric escape with the code value of a low surrogate. -/
theorem lowSurrogate?_eq_some_iff :
    lowSurrogate? g t = some (lexeme, low, rest) ↔
      ∃ m r e digits, t = backslash :: m :: r ∧ lexeme = backslash :: m :: digits ∧
        g.numeric? m = some e ∧ e.read r = ⟨digits, .ok low, rest⟩ ∧
        CodeValue.isLowSurrogate low = true := by
  constructor
  · intro h
    unfold lowSurrogate? at h
    repeat' split at h
    all_goals simp only [Option.some.injEq, Prod.mk.injEq, reduceCtorEq] at h
    rename_i m r hb _ e he _ low' hvalue hlow
    obtain ⟨rfl, rfl, rfl⟩ := h
    exact ⟨m, r, e, _, by rw [hb], by rw [hb], he, by rw [← hvalue], hlow⟩
  · rintro ⟨m, r, e, digits, rfl, rfl, he, hread, hlow⟩
    simp [lowSurrogate?, he, hread, hlow]

theorem ofCodeValue_eq_ok_iff :
    ofCodeValue g lexeme value rest = .ok (tok, rest') ↔
      CodeReads g lexeme value rest tok rest' := by
  constructor
  · intro h
    unfold ofCodeValue at h
    repeat' split at h
    all_goals simp only [Except.ok.injEq, Prod.mk.injEq, reduceCtorEq] at h
    · rename_i hhigh _ _ _ _ hfound _ _ hchar
      obtain ⟨rfl, rfl⟩ := h
      exact .pair hhigh hfound hchar
    · rename_i hhigh hlow _ _ hchar
      obtain ⟨rfl, rfl⟩ := h
      exact .scalar (Bool.eq_false_iff.2 hhigh) (Bool.eq_false_iff.2 hlow) hchar
  · intro h
    cases h with
    | scalar high low char => simp [ofCodeValue, high, low, char]
    | pair high found char => simp [ofCodeValue, high, found, char]

theorem ofCodeValue_eq_error_iff :
    ofCodeValue g lexeme value rest = .error f ↔ CodeFails g lexeme value rest f := by
  constructor
  · intro h
    unfold ofCodeValue at h
    repeat' split at h
    all_goals simp only [Except.error.injEq, reduceCtorEq] at h
    all_goals subst h
    · -- A pair of surrogates is always a character.
      rename_i hhigh _ _ low _ hfound _ hchar
      obtain ⟨_, _, _, _, _, _, _, _, hlow⟩ := lowSurrogate?_eq_some_iff.1 hfound
      obtain ⟨c, hc, -⟩ := CodeValue.scalar?_combine value low hhigh hlow
      simp [hc] at hchar
    · rename_i hhigh _ halone
      exact .high hhigh halone
    · rename_i hhigh hlow
      exact .low (Bool.eq_false_iff.2 hhigh) hlow
    · rename_i hhigh hlow _ hchar
      exact .invalid (Bool.eq_false_iff.2 hhigh) (Bool.eq_false_iff.2 hlow) hchar
  · intro h
    cases h with
    | high high alone => simp [ofCodeValue, high, alone]
    | low high low => simp [ofCodeValue, high, low]
    | invalid high low char => simp [ofCodeValue, high, low, char]

theorem readEscape_eq_ok_iff : readEscape g t = .ok (tok, rest) ↔ EscapeReads g t tok rest := by
  constructor
  · intro h
    unfold readEscape at h
    dsimp only at h
    repeat' split at h
    all_goals try simp only [Except.ok.injEq, Prod.mk.injEq, reduceCtorEq] at h
    · rename_i hsimple
      obtain ⟨rfl, rfl⟩ := h
      exact .simple hsimple
    · rename_i hsimple _ e he _ value hvalue
      exact .numeric hsimple he (by rw [← hvalue]) h
    · rename_i hsimple _ hnumeric _ _ o d ho hd _ c hc
      obtain ⟨rfl, rfl⟩ := h
      exact .octal hsimple hnumeric ho hd rfl hc
  · intro h
    cases h with
    | simple simple => simp [readEscape, simple]
    | numeric simple numeric read token => simp [readEscape, simple, numeric, read, token]
    | octal simple numeric octal digit run char =>
      simp [readEscape, simple, numeric, octal, digit, run, char]

theorem readEscape_eq_error_iff : readEscape g t = .error f ↔ EscapeFails g t f := by
  constructor
  · intro h
    unfold readEscape at h
    dsimp only at h
    repeat' split at h
    all_goals try simp only [Except.error.injEq, reduceCtorEq] at h
    · subst h
      exact .trailing
    · rename_i hsimple _ e he _ value hvalue
      exact .numeric hsimple he (by rw [← hvalue]) h
    · rename_i hsimple _ e he _ kind hvalue
      subst h
      exact .digits hsimple he (by rw [← hvalue])
    · rename_i hsimple _ hnumeric _ _ o d ho hd _ hc
      subst h
      exact .octal hsimple hnumeric ho hd rfl hc
    · rename_i m _ _ hsimple _ hnumeric _ _ hoctal
      subst h
      refine .unknown hsimple hnumeric ?_
      cases ho : g.octal with
      | none => exact .inl rfl
      | some o =>
        cases hd : octalDigit? m with
        | none => exact .inr rfl
        | some d => exact absurd hd (hoctal o d ho)
  · intro h
    cases h with
    | trailing => rfl
    | unknown simple numeric octal =>
      rcases octal with ho | hd
      · simp [readEscape, simple, numeric, ho]
      · simp [readEscape, simple, numeric, hd]
    | digits simple numeric read => simp [readEscape, simple, numeric, read]
    | numeric simple numeric read fails => simp [readEscape, simple, numeric, read, fails]
    | octal simple numeric octal digit run char =>
      simp [readEscape, simple, numeric, octal, digit, run, char]

@[simp] theorem read_backslash (g : Grammar) (r : Text) : read g backslash r = readEscape g r :=
  if_pos rfl

theorem read_of_ne {c : Char} (h : c ≠ backslash) (r : Text) : read g c r = .ok (plain c, r) :=
  if_neg h

theorem read_eq_ok_iff {c : Char} {r : Text} :
    read g c r = .ok (tok, rest) ↔
      c = backslash ∧ readEscape g r = .ok (tok, rest) ∨
        c ≠ backslash ∧ tok = plain c ∧ rest = r := by
  by_cases hc : c = backslash
  · simp [hc]
  · simp [hc, read_of_ne hc, eq_comm]

theorem read_eq_error_iff {c : Char} {r : Text} :
    read g c r = .error f ↔ c = backslash ∧ readEscape g r = .error f := by
  by_cases hc : c = backslash
  · simp [hc]
  · simp [hc, read_of_ne hc]

/-! ## Reading loses no text -/

theorem text_append_of_lowSurrogate? (h : lowSurrogate? g t = some (lexeme, low, rest)) :
    lexeme ++ rest = t := by
  obtain ⟨m, r, e, digits, rfl, rfl, -, hread, -⟩ := lowSurrogate?_eq_some_iff.1 h
  rw [NumericEscape.eq_append_of_read hread]
  rfl

theorem text_append_of_ofCodeValue (h : ofCodeValue g lexeme value rest = .ok (tok, rest')) :
    tok.text ++ rest' = lexeme ++ rest := by
  cases ofCodeValue_eq_ok_iff.1 h with
  | scalar => rfl
  | pair _ found => rw [← text_append_of_lowSurrogate? found, text, List.append_assoc]

theorem text_append_of_readEscape (h : readEscape g t = .ok (tok, rest)) :
    tok.text ++ rest = backslash :: t := by
  cases readEscape_eq_ok_iff.1 h with
  | simple => rfl
  | numeric _ _ read token =>
    rw [text_append_of_ofCodeValue token, NumericEscape.eq_append_of_read read]
    rfl
  | octal _ _ _ _ run =>
    rw [eq_append_of_octalRun run]
    rfl

/-- A token and the rest behind it make up the text that was read. -/
theorem text_append_of_read {c : Char} {r : Text} (h : read g c r = .ok (tok, rest)) :
    tok.text ++ rest = c :: r := by
  rcases read_eq_ok_iff.1 h with ⟨rfl, hescape⟩ | ⟨-, rfl, rfl⟩
  · exact text_append_of_readEscape hescape
  · rfl

theorem text_of_ofCodeValue (h : ofCodeValue g lexeme value rest = .ok (tok, rest')) :
    ∃ s, tok.text = lexeme ++ s := by
  cases ofCodeValue_eq_ok_iff.1 h with
  | scalar => exact ⟨[], by rw [text, List.append_nil]⟩
  | pair => exact ⟨_, rfl⟩

theorem text_of_readEscape (h : readEscape g t = .ok (tok, rest)) :
    ∃ m s, tok.text = backslash :: m :: s := by
  cases readEscape_eq_ok_iff.1 h with
  | simple => exact ⟨_, _, rfl⟩
  | numeric _ _ _ token =>
    obtain ⟨s, hs⟩ := text_of_ofCodeValue token
    exact ⟨_, _, hs⟩
  | octal => exact ⟨_, _, rfl⟩

/-- A token takes at least the first character. -/
theorem length_rest_le_of_read {c : Char} {r : Text} (h : read g c r = .ok (tok, rest)) :
    rest.length ≤ r.length := by
  have happ := text_append_of_read h
  have hne : 0 < tok.text.length := by
    rcases read_eq_ok_iff.1 h with ⟨-, hescape⟩ | ⟨-, rfl, -⟩
    · obtain ⟨m, s, hs⟩ := text_of_readEscape hescape
      simp [hs]
    · simp [text]
  have hlen := congrArg List.length happ
  simp only [List.length_append, List.length_cons] at hlen
  omega

theorem lexeme_prefix_of_ofCodeValue (h : ofCodeValue g lexeme value rest = .error f) :
    f.lexeme = lexeme := by
  cases ofCodeValue_eq_error_iff.1 h <;> rfl

/-- Where no token can be read, the lexeme of the fault begins with the backslash at the front of
    the text. -/
theorem lexeme_prefix_of_read {c : Char} {r : Text} (h : read g c r = .error f) :
    c = backslash ∧ ∃ s q, f.lexeme = c :: s ∧ s ++ q = r := by
  obtain ⟨rfl, hescape⟩ := read_eq_error_iff.1 h
  refine ⟨rfl, ?_⟩
  cases readEscape_eq_error_iff.1 hescape with
  | trailing => exact ⟨[], [], rfl, rfl⟩
  | @unknown m r => exact ⟨[m], r, rfl, rfl⟩
  | digits _ _ read =>
    exact ⟨_, _, rfl, by rw [NumericEscape.eq_append_of_read read, List.cons_append]⟩
  | @numeric m r digits behind _ _ _ _ _ read fails =>
    exact ⟨m :: digits, behind, lexeme_prefix_of_ofCodeValue fails,
      by rw [NumericEscape.eq_append_of_read read, List.cons_append]⟩
  | octal _ _ _ _ run => exact ⟨_, _, rfl, by rw [eq_append_of_octalRun run, List.cons_append]⟩

end

end Token

end Unescape
