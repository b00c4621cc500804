import Unescape.Proofs.CheckedText
import Unescape.Proofs.DigitValue
import Unescape.Proofs.TableEntries

set_option autoImplicit false

/-! # The decoder, step by step

The decoder reads a text through a cursor that counts the units it passes; it counts digits, computes
code values, and takes the differences of surrogates. `Checked.decodeText` has all of these steps, those
of a look-ahead that comes to nothing included, and traps where one is not defined.

Every count is bounded by the cursor, and the cursor never leaves the text, so each reader stands where
the reader of tokens says it does (`readEscape_eq`). A surrogate is in its range before anything is
subtracted from it, and every round passes at least one character. -/

namespace Unescape

namespace Token

theorem ne_plain_of_ofCodeValue {g : Grammar} {lexeme rest rest' : Text} {value : UInt32} {tok : Token}
    (h : ofCodeValue g lexeme value rest = .ok (tok, rest')) (c : Char) : tok ≠ plain c := by
  rintro rfl
  cases ofCodeValue_eq_ok_iff.1 h

theorem ne_plain_of_readEscape {g : Grammar} {t rest : Text} {tok : Token}
    (h : readEscape g t = .ok (tok, rest)) (c : Char) : tok ≠ plain c := by
  rintro rfl
  cases readEscape_eq_ok_iff.1 h with
  | numeric _ _ _ token => exact ne_plain_of_ofCodeValue token c rfl

end Token

namespace Checked

/-- A place in a text: what is left to read, and the offset that was reached. -/
structure Cursor where
  rest : Text
  pos : Nat
deriving DecidableEq, Repr

/-- What an escape decodes to. The second half of a pair has an offset of its own. -/
inductive Escaped where
  | char (c : Char)
  | pair (c : Char) (lowStart : Nat)
deriving DecidableEq, Repr

/-- An escape and the place behind it, or what is wrong with it and the offset up to which it was
    examined. -/
abbrev Outcome := Except (MalformedKind × Nat) (Escaped × Cursor)

/-! ## Digits -/

/-- Pass the markers at the front. -/
def skipMarkers (marker : Char) : Text → Nat → Checked Cursor
  | [], pos => pure ⟨[], pos⟩
  | c :: r, pos =>
    if c = marker then do skipMarkers marker r (← add pos (unitsOf c)) else pure ⟨c :: r, pos⟩

/-- Read hexadecimal digits until there are `most`, when `found` were read and have the value `value`. -/
def readHex (most found : Nat) (value : UInt32) : Text → Nat → Checked (Nat × UInt32 × Cursor)
  | [], pos => pure (found, value, ⟨[], pos⟩)
  | c :: r, pos =>
    if found < most then
      match hexDigit? c with
      | some d => do readHex most (← add found 1) (value <<< 4 ||| d) r (← add pos (unitsOf c))
      | none => pure (found, value, ⟨c :: r, pos⟩)
    else pure (found, value, ⟨c :: r, pos⟩)

/-- Read octal digits until there are `most` or the value would be too large, when `found` were read and
    have the value `value`.

    Offsets and counts trap here, and so does the sum of a code value and a digit. The product
    `value * 8` is the one operation that does not: it wraps, as `octalRun` has it, from values of
    `2 ^ 29` on. A build with overflow checks traps at it as well, so for such a build this is the
    arithmetic of grammars whose `maxValue` is below `2 ^ 29`. -/
def readOctal (maxValue : UInt32) (most found : Nat) (value : UInt32) :
    Text → Nat → Checked (UInt32 × Cursor)
  | [], pos => pure (value, ⟨[], pos⟩)
  | c :: r, pos =>
    if found < most then
      match octalDigit? c with
      | some d => do
        let next ← addCode (value * 8) d
        if next ≤ maxValue then readOctal maxValue most (← add found 1) next r (← add pos (unitsOf c))
        else pure (value, ⟨c :: r, pos⟩)
      | none => pure (value, ⟨c :: r, pos⟩)
    else pure (value, ⟨c :: r, pos⟩)

/-- Pass further markers, if the escape allows them. -/
def skipMore (e : NumericEscape) (cur : Cursor) : Checked Cursor :=
  if e.repeatMarker then skipMarkers e.marker cur.rest cur.pos else pure cur

/-- Read what stands behind the marker of a numeric escape: its code value, or what is wrong with it. -/
def readNumeric (e : NumericEscape) (cur : Cursor) :
    Checked (Except MalformedKind UInt32 × Cursor) := do
  let cur ← skipMore e cur
  let (found, value, cur) ← readHex e.maxDigits 0 0 cur.rest cur.pos
  if found < e.minDigits then pure (.error (.missingDigits e.marker e.minDigits found), cur)
  else pure (.ok value, cur)

/-! ## Escapes -/

/-- Look ahead for the low half of a surrogate pair: its value and the place behind it. -/
def readLow? (g : Grammar) : Text → Nat → Checked (Option (UInt32 × Cursor))
  | [], _ => pure none
  | b :: r, pos =>
    if b = backslash then do
      let pos ← add pos (unitsOf b)
      match r with
      | [] => pure none
      | m :: r => do
        let pos ← add pos (unitsOf m)
        match g.numeric? m with
        | none => pure none
        | some e => do
          match ← readNumeric e ⟨r, pos⟩ with
          | (.ok low, cur) => pure (if CodeValue.isLowSurrogate low then some (low, cur) else none)
          | (.error _, _) => pure none
    else pure none

/-- The sum that a pair of surrogates stands for. -/
def combine (high low : UInt32) : Checked UInt32 := do
  let upper ← subCode high 0xD800
  let sum ← addCode 0x10000 (upper <<< (10 : UInt32))
  let lower ← subCode low 0xDC00
  addCode sum lower

/-- What a code value stands for, with the low half behind it if it is a high surrogate. -/
def readCodeValue (g : Grammar) (value : UInt32) (cur : Cursor) : Checked Outcome :=
  if CodeValue.isHighSurrogate value then do
    match ← readLow? g cur.rest cur.pos with
    | none => pure (.error (.loneSurrogate value, cur.pos))
    | some (low, ahead) => do
      let combined ← combine value low
      match CodeValue.scalar? combined with
      | some c => pure (.ok (.pair c cur.pos, ahead))
      | none => pure (.error (.invalidCodePoint combined, cur.pos))
  else if CodeValue.isLowSurrogate value then pure (.error (.loneSurrogate value, cur.pos))
  else
    match CodeValue.scalar? value with
    | some c => pure (.ok (.char c, cur))
    | none => pure (.error (.invalidCodePoint value, cur.pos))

/-- Read the escape behind a backslash. -/
def readEscape (g : Grammar) : Text → Nat → Checked Outcome
  | [], pos => pure (.error (.trailingBackslash, pos))
  | m :: r, pos => do
    let pos ← add pos (unitsOf m)
    match g.simple? m with
    | some c => pure (.ok (.char c, ⟨r, pos⟩))
    | none =>
      match g.numeric? m with
      | some e => do
        match ← readNumeric e ⟨r, pos⟩ with
        | (.ok value, cur) => readCodeValue g value cur
        | (.error kind, cur) => pure (.error (kind, cur.pos))
      | none =>
        match g.octal, octalDigit? m with
        | some o, some d => do
          let (value, cur) ← readOctal o.maxValue o.maxDigits 1 d r pos
          match CodeValue.scalar? value with
          | some c => pure (.ok (.char c, cur))
          | none => pure (.error (.invalidCodePoint value, cur.pos))
        | _, _ => pure (.error (.unknownEscape m, pos))

/-! ## The loop -/

/-- Write a character and its offsets. -/
def put (out : Output) (c : Char) (offsets : List Nat) : Output :=
  ⟨out.chars.push c, out.offsets.map fun os => offsets.foldl Array.push os⟩

/-- Write what an escape decodes to. -/
def putEscaped (out : Output) (start : Nat) : Escaped → Output
  | .char c => put out c (List.replicate (unitsOf c) start)
  | .pair c lowStart => put out c [start, lowStart]

/-- Decode what is behind a cursor. A round that does not bring the cursor further is a trap. -/
def decodeBehind (g : Grammar) : Text → Nat → Output → Checked (Output × Status)
  | [], start, out => pure (out.close start, .complete)
  | c :: r, start, out => do
    let pos ← add start (unitsOf c)
    if c = backslash then do
      match ← readEscape g r pos with
      | .ok (escaped, cur) =>
        if cur.rest.length ≤ r.length then decodeBehind g cur.rest cur.pos (putEscaped out start escaped)
        else throw .noProgress
      | .error (kind, stop) => pure (out.close start, .stopped ⟨⟨start, stop⟩, kind⟩)
    else
      -- The offsets from `start` up to `pos`; nothing is subtracted to write them.
      decodeBehind g r pos (put out c (List.range' start (pos - start)))
termination_by t => t.length
decreasing_by all_goals (simp only [List.length_cons]; omega)

/-- Decode a text. -/
def decodeText (g : Grammar) (t : Text) (out : Output) : Checked (Output × Status) :=
  decodeBehind g t 0 out

/-! ## The readers stand where the reader of tokens does -/

variable {g : Grammar} {t : Text} {pos : Nat}

theorem skipMarkers_eq (marker : Char) (h : pos + Text.units t < offsetLimit) :
    skipMarkers marker t pos =
      pure ⟨t.drop (t.takeWhile (· = marker)).length, pos + Text.units (t.takeWhile (· = marker))⟩ := by
  induction t generalizing pos with
  | nil => rfl
  | cons c r ih =>
    rw [Text.units_cons, ← Nat.add_assoc] at h
    rw [skipMarkers]
    by_cases hc : c = marker
    · rw [if_pos hc, add_eq (by omega), pure_bind, ih h, List.takeWhile_cons_of_pos (by simpa using hc),
        List.length_cons, List.drop_succ_cons, Text.units_cons, Nat.add_assoc]
    · rw [if_neg hc, List.takeWhile_cons_of_neg (by simpa using hc)]
      rfl

/-- The value of hexadecimal digits behind digits with the value `value`. -/
def hexValueFrom (value : UInt32) (digits : Text) : UInt32 :=
  (digits.filterMap hexDigit?).foldl (fun v d => v <<< 4 ||| d) value

theorem hexValueFrom_cons {c : Char} {d : UInt32} (h : hexDigit? c = some d) (value : UInt32)
    (digits : Text) : hexValueFrom value (c :: digits) = hexValueFrom (value <<< 4 ||| d) digits := by
  rw [hexValueFrom, List.filterMap_cons_some h]
  rfl

theorem readHex_eq (most : Nat) {found : Nat} (value : UInt32) (h : pos + Text.units t < offsetLimit)
    (hfound : found ≤ pos) :
    readHex most found value t pos =
      pure (found + (hexRun (most - found) t).1.length,
        hexValueFrom value (hexRun (most - found) t).1,
        ⟨(hexRun (most - found) t).2, pos + Text.units (hexRun (most - found) t).1⟩) := by
  induction t generalizing pos found value with
  | nil => cases most - found <;> rfl
  | cons c r ih =>
    have hpos := unitsOf_pos c
    rw [Text.units_cons, ← Nat.add_assoc] at h
    rw [readHex]
    by_cases hmore : found < most
    · rw [if_pos hmore]
      obtain ⟨k, hk⟩ : ∃ k, most - found = k + 1 := Nat.exists_eq_succ_of_ne_zero (by omega)
      have hk' : most - (found + 1) = k := by omega
      rw [hk, hexRun]
      cases hd : hexDigit? c with
      | none => rfl
      | some d =>
        dsimp only
        rw [add_eq (by omega), pure_bind, add_eq (by omega), pure_bind, ih _ h (by omega), hk']
        simp only [Option.isSome_some, if_true, hexValueFrom_cons hd, List.length_cons,
          Text.units_cons, Nat.add_assoc, Nat.add_comm 1]
    · rw [if_neg hmore, Nat.sub_eq_zero_of_le (Nat.le_of_not_lt hmore)]
      rfl

/-- A product by eight that wrapped leaves room for one more digit. -/
theorem addCode_mul_eight {value d : UInt32} (h : d.toNat < 8) :
    addCode (value * 8) d = pure (value * 8 + d) := by
  refine addCode_eq ?_
  rw [UInt32.toNat_mul]
  simp only [UInt32.reduceToNat, UInt32.size]
  omega

theorem readOctal_eq (maxValue : UInt32) (most : Nat) {found : Nat} (value : UInt32)
    (h : pos + Text.units t < offsetLimit) (hfound : found ≤ pos) :
    readOctal maxValue most found value t pos =
      pure ((octalRun maxValue (most - found) value t).2.1,
        ⟨(octalRun maxValue (most - found) value t).2.2,
          pos + Text.units (octalRun maxValue (most - found) value t).1⟩) := by
  induction t generalizing pos found value with
  | nil => cases most - found <;> rfl
  | cons c r ih =>
    have hpos := unitsOf_pos c
    rw [Text.units_cons, ← Nat.add_assoc] at h
    rw [readOctal]
    by_cases hmore : found < most
    · rw [if_pos hmore]
      obtain ⟨k, hk⟩ : ∃ k, most - found = k + 1 := Nat.exists_eq_succ_of_ne_zero (by omega)
      have hk' : most - (found + 1) = k := by omega
      rw [hk, octalRun]
      cases hd : octalDigit? c with
      | none => rfl
      | some d =>
        dsimp only
        rw [addCode_mul_eight (toNat_lt_of_octalDigit? hd), pure_bind]
        by_cases hle : value * 8 + d ≤ maxValue
        · rw [if_pos hle, if_pos hle, add_eq (by omega), pure_bind, add_eq (by omega), pure_bind,
            ih _ h (by omega), hk']
          simp [Nat.add_assoc]
        · rw [if_neg hle, if_neg hle]
          rfl
    · rw [if_neg hmore, Nat.sub_eq_zero_of_le (Nat.le_of_not_lt hmore)]
      rfl

theorem readNumeric_eq (e : NumericEscape) (h : pos + Text.units t < offsetLimit) :
    readNumeric e ⟨t, pos⟩ =
      pure ((e.read t).value, ⟨(e.read t).rest, pos + Text.units (e.read t).lexeme⟩) := by
  have hmarkers : skipMore e ⟨t, pos⟩
      = pure ⟨t.drop (e.moreMarkers t).length, pos + Text.units (e.moreMarkers t)⟩ := by
    unfold skipMore NumericEscape.moreMarkers
    split
    · exact skipMarkers_eq e.marker h
    · rfl
  have hunits : Text.units t
      = Text.units (e.moreMarkers t) + Text.units (t.drop (e.moreMarkers t).length) := by
    have happ := List.prefix_iff_eq_append.1 (e.moreMarkers_prefix t)
    rw [← Text.units_append, happ]
  rw [readNumeric, hmarkers, pure_bind]
  dsimp only
  rw [readHex_eq _ _ (by omega) (Nat.zero_le _), pure_bind]
  simp only [NumericEscape.read, Nat.sub_zero, Nat.zero_add, Text.units_append, hexValue, Nat.add_assoc]
  split <;> rfl

theorem readLow?_eq (h : pos + Text.units t < offsetLimit) :
    readLow? g t pos =
      pure ((Token.lowSurrogate? g t).map fun found =>
        (found.2.1, ⟨found.2.2, pos + Text.units found.1⟩)) := by
  cases t with
  | nil => rfl
  | cons b r =>
    rw [Text.units_cons, ← Nat.add_assoc] at h
    rw [readLow?]
    by_cases hb : b = backslash
    · rw [if_pos hb, add_eq (by omega), pure_bind]
      cases r with
      | nil => rfl
      | cons m r =>
        rw [Text.units_cons, ← Nat.add_assoc] at h
        dsimp only
        rw [add_eq (by omega), pure_bind, Token.lowSurrogate?, if_pos hb]
        cases g.numeric? m with
        | none => rfl
        | some e =>
          dsimp only
          rw [readNumeric_eq e h, pure_bind]
          cases (e.read r).value with
          | error kind => rfl
          | ok low =>
            dsimp only
            split
            · simp only [Option.map_some, Text.units_cons, Nat.add_assoc]
            · rfl
    · rw [if_neg hb]
      cases r with
      | nil => rfl
      | cons m r => rw [Token.lowSurrogate?, if_neg hb]; rfl

/-- The halves of a surrogate pair are in their ranges, so that each can be brought down to zero, and
    their sum is a code value. -/
theorem combine_eq {high low : UInt32} (hhigh : CodeValue.isHighSurrogate high = true)
    (hlow : CodeValue.isLowSurrogate low = true) : combine high low = pure (CodeValue.combine high low) := by
  obtain ⟨hhigh₁, hhigh₂⟩ := (CodeValue.isHighSurrogate_iff high).1 hhigh
  obtain ⟨hlow₁, hlow₂⟩ := (CodeValue.isLowSurrogate_iff low).1 hlow
  have hupper : 0xD800 ≤ high := UInt32.le_iff_toNat_le.2 hhigh₁
  have hlower : 0xDC00 ≤ low := UInt32.le_iff_toNat_le.2 hlow₁
  have htop : ((high - 0xD800) <<< (10 : UInt32)).toNat = (high.toNat - 0xD800) * 1024 := by
    rw [UInt32.toNat_shiftLeft, UInt32.toNat_sub_of_le _ _ hupper, Nat.shiftLeft_eq]
    simp only [UInt32.reduceToNat, Nat.reduceMod, Nat.reducePow]
    omega
  have hsum : (0x10000 + (high - 0xD800) <<< (10 : UInt32)).toNat
      = 0x10000 + (high.toNat - 0xD800) * 1024 := by
    rw [UInt32.toNat_add, htop]
    simp only [UInt32.reduceToNat, Nat.reducePow]
    omega
  have hbottom : (low - 0xDC00).toNat = low.toNat - 0xDC00 := UInt32.toNat_sub_of_le _ _ hlower
  have hsize : UInt32.size = 4294967296 := rfl
  have hbase : (0x10000 : UInt32).toNat = 0x10000 := rfl
  rw [combine, subCode_eq hupper, pure_bind, addCode_eq (by omega), pure_bind, subCode_eq hlower, pure_bind,
    addCode_eq (by omega), CodeValue.combine]

/-- What an escape that is a token decodes to. -/
def Escaped.ofToken (start : Nat) : Token → Escaped
  | .plain c => .char c
  | .escape _ c => .char c
  | .pair high _ c => .pair c (start + Text.units high)

/-- A token or a fault as seen through a cursor that was at `start`. -/
def outcome (start : Nat) : Except Fault (Token × Text) → Outcome
  | .ok (tok, rest) => .ok (Escaped.ofToken start tok, ⟨rest, start + Text.units tok.text⟩)
  | .error f => .error (f.kind, start + Text.units f.lexeme)

theorem readCodeValue_eq {start : Nat} {lexeme rest : Text} (value : UInt32)
    (h : start + Text.units lexeme + Text.units rest < offsetLimit) :
    readCodeValue g value ⟨rest, start + Text.units lexeme⟩
      = pure (outcome start (Token.ofCodeValue g lexeme value rest)) := by
  rw [readCodeValue, Token.ofCodeValue]
  split
  · rename_i hhigh
    dsimp only
    rw [readLow?_eq h, pure_bind]
    cases hlow : Token.lowSurrogate? g rest with
    | none => rfl
    | some found =>
      obtain ⟨lowLexeme, low, rest'⟩ := found
      dsimp only [Option.map_some]
      rw [combine_eq hhigh (Token.lowSurrogate?_spec hlow).1, pure_bind]
      cases CodeValue.scalar? (CodeValue.combine value low) with
      | none => rfl
      | some c => simp only [outcome, Escaped.ofToken, Token.text, Text.units_append, Nat.add_assoc]
  · split
    · rfl
    · cases CodeValue.scalar? value <;> rfl

theorem readEscape_eq {start : Nat} (h : start + unitsOf backslash + Text.units t < offsetLimit) :
    readEscape g t (start + unitsOf backslash) = pure (outcome start (Token.readEscape g t)) := by
  cases t with
  | nil => rfl
  | cons m r =>
    rw [Text.units_cons, ← Nat.add_assoc] at h
    rw [readEscape, add_eq (by omega), pure_bind, Token.readEscape]
    cases g.simple? m with
    | some c => simp only [outcome, Escaped.ofToken, Token.text, Text.units_cons, Text.units_nil,
        Nat.add_zero, Nat.add_assoc]
    | none =>
      cases g.numeric? m with
      | some e =>
        have hunits : Text.units r = Text.units (e.read r).lexeme + Text.units (e.read r).rest := by
          rw [← Text.units_append, e.lexeme_append_rest]
        have hpos : start + Text.units (backslash :: m :: (e.read r).lexeme)
            = start + unitsOf backslash + unitsOf m + Text.units (e.read r).lexeme := by
          simp only [Text.units_cons, Nat.add_assoc]
        dsimp only
        rw [readNumeric_eq e h, pure_bind]
        cases (e.read r).value with
        | error kind => rw [outcome, hpos]
        | ok value =>
          dsimp only
          rw [← hpos, readCodeValue_eq value (by omega)]
      | none =>
        dsimp only
        cases g.octal with
        | none => simp only [outcome, Text.units_cons, Text.units_nil, Nat.add_zero, Nat.add_assoc]
        | some o =>
          cases octalDigit? m with
          | none => simp only [outcome, Text.units_cons, Text.units_nil, Nat.add_zero, Nat.add_assoc]
          | some d =>
            have hm := unitsOf_pos m
            dsimp only
            rw [readOctal_eq _ _ _ h (by omega), pure_bind]
            dsimp only
            cases CodeValue.scalar? (octalRun o.maxValue (o.maxDigits - 1) d r).2.1 <;>
              simp only [outcome, Escaped.ofToken, Token.text, Text.units_cons, Nat.add_assoc]

/-- The reader of escapes reads no plain character, so what it reads is written as the token is. -/
theorem putEscaped_ofToken {tok : Token} {rest : Text} (h : Token.readEscape g t = .ok (tok, rest))
    (out : Output) (start : Nat) :
    putEscaped out start (Escaped.ofToken start tok) = out.push start tok := by
  cases tok with
  | plain c => exact absurd rfl (Token.ne_plain_of_readEscape h c)
  | escape lexeme c => rfl
  | pair high low c => rfl

/-- Decoding meets no trap, and it is the decoding of the tokens. -/
theorem decodeBehind_eq {start : Nat} (out : Output) (h : start + Text.units t < offsetLimit) :
    decodeBehind g t start out = pure (decodeFrom g start t out) := by
  fun_induction decodeFrom g start t out with
  | case1 start out => rw [decodeBehind]
  | case2 start c r out f hread =>
    rw [Text.units_cons, ← Nat.add_assoc] at h
    rw [decodeBehind, add_eq (by omega), pure_bind]
    obtain ⟨rfl, hescape⟩ := Token.read_eq_error_iff.1 hread
    rw [if_pos rfl, readEscape_eq h, pure_bind, hescape]
    rfl
  | case3 start c r out tok rest hread hlen ih =>
    have happ := congrArg Text.units (Token.text_append_of_read hread)
    rw [Text.units_append] at happ
    rw [← ih (by omega)]
    rw [Text.units_cons, ← Nat.add_assoc] at h
    rw [decodeBehind, add_eq (by omega), pure_bind]
    rcases Token.read_eq_ok_iff.1 hread with ⟨rfl, hescape⟩ | ⟨hc, rfl, rfl⟩
    · rw [if_pos rfl, readEscape_eq h, pure_bind, hescape]
      simp only [outcome, hlen, if_true, putEscaped_ofToken hescape]
    · rw [if_neg hc, Nat.add_sub_cancel_left]
      rfl

theorem decodeText_eq (out : Output) (h : Text.units t < offsetLimit) :
    decodeText g t out = pure (decode g t out) := by
  rw [decodeText, decodeBehind_eq out (by rwa [Nat.zero_add]), decode]

end Checked

end Unescape
