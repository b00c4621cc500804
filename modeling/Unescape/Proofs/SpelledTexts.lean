import Unescape.Proofs.HexEscapes
import Unescape.Proofs.TableEntries

set_option autoImplicit false

/-! # Texts that were spelled out

An encoder chooses a spelling for each character of a text: the character itself, a letter, three octal
digits, hexadecimal digits, or two escapes for the halves of a supplementary character. `Spelling` lists
the choices and `Spelling.Spells` says which of them are open for a character.

Every spelling is complete in itself, so that a decoder which reads as far as it can never reads on
into the next one (`Spelling.Spells.reads`). Hence a text that was spelled out, each character in its
own way, decodes to what was spelled, and its offsets tell where the spellings begin
(`Spelled.recovered`). -/

namespace Unescape

/-! ## Spellings -/

/-- A choice of how to write a character. -/
inductive Spelling where
  /-- The character itself. -/
  | raw
  /-- A letter that stands for the character. -/
  | letter (marker : Char)
  /-- Octal digits of the character. -/
  | octal (digits : Text)
  /-- Hexadecimal digits of the character. -/
  | hex (w : HexEscape)
  /-- Hexadecimal digits of the two surrogates of the character. -/
  | pair (high low : HexEscape)

namespace Spelling

/-- What is written for a character. -/
def text (c : Char) : Spelling → Text
  | raw => [c]
  | letter marker => [backslash, marker]
  | octal digits => backslash :: digits
  | hex w => w.text
  | pair high low => high.text ++ low.text

/-- How far behind the begin of the spelling the second unit of a supplementary character is found. -/
def second : Spelling → Nat
  | raw => 1
  | pair high _ => Text.units high.text
  | letter _ | octal _ | hex _ => 0

/-- The spellings that a character may have in a grammar, when hexadecimal escapes are written in some
    of given forms. -/
def Spells (g : Grammar) (forms : List HexForm) (c : Char) : Spelling → Prop
  | raw => c ≠ backslash
  | letter marker => g.simple? marker = some c
  | octal digits => digits.length = 3 ∧ (∀ d ∈ digits, IsDigit 8 d) ∧
      numeralNat 8 digits = c.toNat ∧ c.toNat ≤ 0o377
  | hex w => w.IsIn forms ∧ w.value = c.toNat
  | pair high low => high.IsIn forms ∧ low.IsIn forms ∧ 0x10000 ≤ c.toNat ∧
      high.value = 0xD800 + (c.toNat - 0x10000) / 0x400 ∧
      low.value = 0xDC00 + (c.toNat - 0x10000) % 0x400

/-- What the spelling of a character is read as. -/
def token (c : Char) : Spelling → Token
  | raw => .plain c
  | letter marker => .escape [backslash, marker] c
  | octal digits => .escape (backslash :: digits) c
  | hex w => .escape w.text c
  | pair high low => .pair high.text low.text c

@[simp] theorem text_token (c : Char) (x : Spelling) : (x.token c).text = x.text c := by
  cases x <;> rfl

@[simp] theorem char_token (c : Char) (x : Spelling) : (x.token c).char = c := by
  cases x <;> rfl

/-! ## Reading a spelling -/

/-- Three octal digits are read as one escape, also in front of more digits. -/
theorem reads_octal {g : Grammar} (hg : Readable g) (hoctal : g.octal = some OctalEscape.standard)
    {digits : Text} {c : Char} (hlen : digits.length = 3) (hdigits : ∀ d ∈ digits, IsDigit 8 d)
    (hvalue : numeralNat 8 digits = c.toNat) (hle : c.toNat ≤ 0o377) (s : Text) :
    Reads g (backslash :: digits ++ s) (.escape (backslash :: digits) c) s := by
  cases digits with
  | nil => simp at hlen
  | cons d digits =>
    obtain ⟨hd, hdigits⟩ := List.forall_mem_cons.1 hdigits
    obtain ⟨hsimple, hnumeric⟩ := hg.octal d hd
    have hfirst := hd.toNat_ofNat (by decide)
    have htotal : numeralFrom 8 (UInt32.ofNat (digitNat d)).toNat digits = c.toNat := by
      rw [hfirst, ← hvalue, numeralNat, numeralFrom_cons, Nat.mul_zero, Nat.zero_add]
    have hfits : numeralFrom 8 (UInt32.ofNat (digitNat d)).toNat digits ≤ (255 : UInt32).toNat := by
      rw [htotal]
      exact hle
    have hrun := octalRun_of_numeral hdigits (UInt32.ofNat (digitNat d)) hfits s
    have hword : UInt32.ofNat c.toNat = c.val := UInt32.ofNat_toNat
    rw [htotal, Nat.succ.inj hlen, hword] at hrun
    have hscalar : CodeValue.scalar? c.val = some c := (CodeValue.scalar?_eq_some_iff _ _).2 rfl
    refine .escape ?_
    simp [Token.readEscape, hsimple, hnumeric, hoctal, OctalEscape.standard,
      octalDigit?_of_isDigit hd, hrun, hscalar]

/-- A character's spelling is read as the character, whatever follows it. -/
theorem Spells.reads {g : Grammar} (hg : Readable g)
    (hoctal : g.octal = some OctalEscape.standard) {c : Char} {x : Spelling}
    (h : x.Spells g g.longest c) (s : Text) : Reads g (x.text c ++ s) (x.token c) s := by
  cases x with
  | raw => exact .plain g h s
  | letter marker => exact .simple h s
  | octal digits =>
    obtain ⟨hlen, hdigits, hvalue, hle⟩ := h
    exact reads_octal hg hoctal hlen hdigits hvalue hle s
  | hex w =>
    obtain ⟨hform, hvalue⟩ := h
    exact HexEscape.reads_scalar hg hform hvalue s
  | pair high low =>
    obtain ⟨hhigh, hlow, hle, hvalue, hvalue'⟩ := h
    have hvalid : c.toNat < 0xD800 ∨ 0xDFFF < c.toNat ∧ c.toNat < 0x110000 := c.valid
    refine HexEscape.reads_pair hg hhigh hlow ⟨?_, ?_⟩ ⟨?_, ?_⟩ ?_ s <;> omega

end Spelling

/-! ## Spelled texts -/

/-- The offsets of a token are found behind as many as the characters in front of it have units. -/
theorem Token.getElem?_offsetsOf_append {ts : List Token} (h : ∀ tok ∈ ts, tok.Proper)
    {tok : Token} (us : List Token) {i o : Nat}
    (ho : (tok.offsets (Text.units (textOf ts)))[i]? = some o) :
    (offsetsOf 0 (ts ++ tok :: us))[Text.units (charsOf ts) + i]? = some o := by
  have hi := (List.getElem?_eq_some_iff.1 ho).1
  rw [offsetsOf_append, Nat.zero_add, offsetsOf, ← length_offsetsOf h 0,
    List.getElem?_append_right (Nat.le_add_right ..), Nat.add_sub_cancel_left,
    List.getElem?_append_left hi, ho]

/-- A character with a spelling that it may have. -/
structure Spelled (g : Grammar) (forms : List HexForm) where
  char : Char
  spelling : Spelling
  spells : spelling.Spells g forms char

namespace Spelled

variable {g : Grammar} {forms : List HexForm}

/-- What is written for the character. -/
def text (x : Spelled g forms) : Text := x.spelling.text x.char

/-- What is written for several characters. -/
def textOf (xs : List (Spelled g forms)) : Text := xs.flatMap text

/-- The characters that were spelled. -/
def charsOf (xs : List (Spelled g forms)) : Text := xs.map char

/-- Every text can be spelled: a backslash by its letter, any other character by itself. -/
theorem exists_charsOf_eq (hletter : g.simple? backslash = some backslash) (t : Text) :
    ∃ xs : List (Spelled g forms), charsOf xs = t := by
  induction t with
  | nil => exact ⟨[], rfl⟩
  | cons c t ih =>
    obtain ⟨xs, rfl⟩ := ih
    by_cases hc : c = backslash
    · subst hc
      exact ⟨⟨backslash, .letter backslash, hletter⟩ :: xs, rfl⟩
    · exact ⟨⟨c, .raw, hc⟩ :: xs, rfl⟩

/-- A decode finds the characters that were spelled. For the first unit of each it records where the
    spelling begins, and for the second unit of a supplementary character where in the spelling that
    unit is found. -/
def Recovered (xs : List (Spelled g forms)) : Prop :=
  ∃ offsets : Array Nat,
    decode g (textOf xs) Output.recording = (⟨(charsOf xs).toArray, some offsets⟩, .complete) ∧
    ∀ front x back, xs = front ++ x :: back →
      offsets[Text.units (charsOf front)]? = some (Text.units (textOf front)) ∧
      (unitsOf x.char = 2 →
        offsets[Text.units (charsOf front) + 1]?
          = some (Text.units (textOf front) + x.spelling.second))

/-- What the spellings are read as. -/
def tokens (xs : List (Spelled g forms)) : List Token := xs.map fun x => x.spelling.token x.char

theorem textOf_tokens (xs : List (Spelled g forms)) : Token.textOf (tokens xs) = textOf xs := by
  induction xs with
  | nil => rfl
  | cons x xs ih =>
    have hcons : textOf (x :: xs) = x.text ++ textOf xs := rfl
    rw [hcons, ← ih, text, ← Spelling.text_token]
    rfl

theorem charsOf_tokens (xs : List (Spelled g forms)) : Token.charsOf (tokens xs) = charsOf xs := by
  simp [Token.charsOf, tokens, charsOf]

/-- The offsets of a token that a spelling is read as. -/
theorem getElem?_offsets_token (x : Spelled g forms) (start : Nat) :
    ((x.spelling.token x.char).offsets start)[0]? = some start ∧
      (unitsOf x.char = 2 →
        ((x.spelling.token x.char).offsets start)[1]? = some (start + x.spelling.second)) := by
  obtain ⟨os, hos⟩ := Token.exists_offsets_eq_cons start (x.spelling.token x.char)
  refine ⟨by rw [hos]; rfl, ?_⟩
  intro htwo
  cases hx : x.spelling <;>
    simp [Spelling.token, Token.offsets, Spelling.second, htwo]

/-- Spellings one behind the other are read one by one. -/
theorem fronts_tokens (hg : Readable g) (hoctal : g.octal = some OctalEscape.standard)
    (xs : List (Spelled g g.longest)) : Fronts g (tokens xs) [] := by
  induction xs with
  | nil => exact .nil g []
  | cons x xs ih =>
    obtain ⟨c, r, -, hread⟩ := x.spells.reads hg hoctal (Token.textOf (tokens xs) ++ [])
    exact Fronts.cons hread ih

/-- Decoding undoes spelling. -/
theorem recovered (hg : Readable g) (hoctal : g.octal = some OctalEscape.standard)
    (xs : List (Spelled g g.longest)) : Recovered xs := by
  have hscan := (fronts_tokens hg hoctal xs).scan_textOf
  rw [textOf_tokens] at hscan
  have hproper := proper_tokens g (textOf xs)
  rw [hscan] at hproper
  refine ⟨(Token.offsetsOf 0 (tokens xs) ++ [(scan g (textOf xs)).consumed]).toArray, ?_, ?_⟩
  · rw [decode_recording_eq, hscan, charsOf_tokens]
    rfl
  · rintro front x back rfl
    have happ : tokens (front ++ x :: back)
        = tokens front ++ x.spelling.token x.char :: tokens back := by
      simp [tokens]
    rw [happ] at hproper ⊢
    have hentry : ∀ i o, ((x.spelling.token x.char).offsets (Text.units (textOf front)))[i]? = some o →
        (Token.offsetsOf 0 (tokens front ++ x.spelling.token x.char :: tokens back)
          ++ [(scan g (textOf (front ++ x :: back))).consumed])[Text.units (charsOf front) + i]?
            = some o := by
      intro i o ho
      rw [← textOf_tokens] at ho
      have hget := Token.getElem?_offsetsOf_append
        (fun tok h => hproper tok (List.mem_append_left _ h)) (tokens back) ho
      rw [charsOf_tokens] at hget
      rw [List.getElem?_append_left (List.getElem?_eq_some_iff.1 hget).1, hget]
    obtain ⟨hfirst, hsecond⟩ := x.getElem?_offsets_token (Text.units (textOf front))
    refine ⟨?_, ?_⟩
    · simpa using hentry 0 _ hfirst
    · intro htwo
      simpa using hentry 1 _ (hsecond htwo)

end Spelled

/-- Decoding undoes every spelling of a text, of Java and of the text format. -/
theorem decode_spelled_builtin :
    (∀ xs : List (Spelled Grammar.java javaHexForms), Spelled.Recovered xs) ∧
      ∀ xs : List (Spelled Grammar.proto (protoHexForms 2)), Spelled.Recovered xs := by
  constructor
  · have h : ∀ xs : List (Spelled Grammar.java Grammar.java.longest), Spelled.Recovered xs :=
      Spelled.recovered readable_java rfl
    rwa [longest_java] at h
  · have h : ∀ xs : List (Spelled Grammar.proto Grammar.proto.longest), Spelled.Recovered xs :=
      Spelled.recovered readable_proto rfl
    rwa [longest_proto] at h

/-- Three spellings that are followed by digits, and a supplementary character spelled in three ways. -/
example :
    decode Grammar.proto "\\xe9a\\0610\\u00410😀\\uD83D\\uDE00\\U0001F600".toList Output.recording =
      (⟨"éa10A0😀😀😀".toList.toArray,
        some #[0, 4, 5, 9, 10, 16, 17, 18, 19, 25, 31, 31, 41]⟩, .complete) := by
  decide +kernel

end Unescape
