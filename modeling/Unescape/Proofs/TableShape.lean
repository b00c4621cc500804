import Mathlib.Data.List.Pairwise
import Unescape.Proofs.TableEntries

set_option autoImplicit false

/-! # The shape of recorded offsets

Decoding a text into empty buffers records one host offset for every unit that it writes, and the
sentinel. `RecordsOffsets` says what these offsets look like: they begin at the front of the text and
ascend to the sentinel, which is where decoding ended and lies behind every unit.

Offsets of different tokens differ, and so do those of the two units of a plain character or of a pair
of escapes. Only where one escape stands for a supplementary character have two neighbouring units
the same offset (`SharesEscape`). -/

namespace Unescape

namespace Token

/-- Units `i` and `i + 1` of what the tokens decode to are the halves of a supplementary character that
    a single escape stands for. -/
def SharesEscape (ts : List Token) (i : Nat) : Prop :=
  ∃ front lexeme c back, ts = front ++ escape lexeme c :: back ∧ unitsOf c = 2 ∧
    i = Text.units (charsOf front)

/-- Behind the units of the first token come those of the others. -/
theorem sharesEscape_cons_add (tok : Token) (ts : List Token) (k : Nat) :
    SharesEscape (tok :: ts) (unitsOf tok.char + k) ↔ SharesEscape ts k := by
  have hpos := unitsOf_pos tok.char
  constructor
  · rintro ⟨front, lexeme, c, back, hts, hunits, hi⟩
    cases front with
    | nil =>
      simp only [charsOf_nil, Text.units_nil] at hi
      omega
    | cons tok' front =>
      obtain ⟨rfl, rfl⟩ := List.cons.inj hts
      refine ⟨front, lexeme, c, back, rfl, hunits, ?_⟩
      simp only [charsOf_cons, Text.units_cons] at hi
      omega
  · rintro ⟨front, lexeme, c, back, rfl, hunits, rfl⟩
    exact ⟨tok :: front, lexeme, c, back, rfl, hunits, by simp⟩

theorem sharesEscape_cons_of_lt {tok : Token} {ts : List Token} {i : Nat}
    (hi : i < unitsOf tok.char) :
    SharesEscape (tok :: ts) i ↔ i = 0 ∧ ∃ lexeme c, tok = escape lexeme c ∧ unitsOf c = 2 := by
  constructor
  · rintro ⟨front, lexeme, c, back, hts, hunits, rfl⟩
    cases front with
    | nil => exact ⟨rfl, lexeme, c, (List.cons.inj hts).1, hunits⟩
    | cons tok' front =>
      obtain ⟨rfl, -⟩ := List.cons.inj hts
      simp only [charsOf_cons, Text.units_cons] at hi
      omega
  · rintro ⟨rfl, lexeme, c, rfl, hunits⟩
    exact ⟨[], lexeme, c, ts, rfl, hunits, rfl⟩

/-- The two units of one token have the same offset if the token is a single escape. -/
theorem offsets_zero_eq_one_iff {tok : Token} (h : tok.Proper) {start a b : Nat}
    (ha : (tok.offsets start)[0]? = some a) (hb : (tok.offsets start)[1]? = some b) :
    a = b ↔ ∃ lexeme c, tok = escape lexeme c ∧ unitsOf c = 2 := by
  cases tok with
  | plain c =>
    have hlen := (List.getElem?_eq_some_iff.1 hb).1
    simp only [offsets, List.length_range'] at hlen
    rw [offsets, List.getElem?_range' (by omega)] at ha hb
    simp only [Option.some.injEq, reduceCtorEq, false_and, exists_false, iff_false] at ha hb ⊢
    omega
  | escape lexeme c =>
    have hlen := (List.getElem?_eq_some_iff.1 hb).1
    simp only [offsets, List.length_replicate] at hlen
    have hunits : unitsOf c = 2 := by
      have := unitsOf_eq_one_or_two c
      omega
    rw [offsets, hunits] at ha hb
    exact iff_of_true (Option.some.inj (ha.symm.trans hb)) ⟨lexeme, c, rfl, hunits⟩
  | pair high low c =>
    obtain ⟨-, hhigh, -⟩ := h
    simp only [offsets, List.getElem?_cons_zero, List.getElem?_cons_succ, Option.some.injEq] at ha hb
    simp only [reduceCtorEq, false_and, exists_false, iff_false]
    omega

/-- Neighbouring offsets of tokens, the end of the last one included, are equal where the units share
    an escape. -/
theorem offsetsOf_eq_succ_iff {ts : List Token} (h : ∀ tok ∈ ts, tok.Proper) {start i a b : Nat}
    (ha : (offsetsOf start ts ++ [start + Text.units (textOf ts)])[i]? = some a)
    (hb : (offsetsOf start ts ++ [start + Text.units (textOf ts)])[i + 1]? = some b) :
    a = b ↔ SharesEscape ts i := by
  induction ts generalizing start i with
  | nil => simp [offsetsOf] at hb
  | cons tok ts ih =>
    obtain ⟨htok, hts⟩ := List.forall_mem_cons.1 h
    have hlen := length_offsets htok start
    rw [offsetsOf, textOf_cons, Text.units_append, ← Nat.add_assoc, List.append_assoc] at ha hb
    by_cases hi : i < unitsOf tok.char
    · rw [sharesEscape_cons_of_lt hi]
      rw [List.getElem?_append_left (by omega)] at ha
      by_cases hi' : i + 1 < unitsOf tok.char
      · -- Both units are of this token, so there are no others.
        have hunits := unitsOf_eq_one_or_two tok.char
        obtain rfl : i = 0 := by omega
        rw [List.getElem?_append_left (by omega)] at hb
        rw [offsets_zero_eq_one_iff htok ha hb]
        exact ⟨fun hex => ⟨rfl, hex⟩, fun hex => hex.2⟩
      · -- The second offset is where the next token begins.
        have hlt := (mem_offsets htok (List.mem_of_getElem? ha)).2
        have hb_eq : b = start + Text.units tok.text := by
          rw [List.getElem?_append_right (by omega), hlen, show i + 1 - unitsOf tok.char = 0 by omega]
            at hb
          cases ts with
          | nil => simpa [offsetsOf] using hb.symm
          | cons tok' ts =>
            obtain ⟨os, hos⟩ := tok'.exists_offsets_eq_cons (start + Text.units tok.text)
            simpa [offsetsOf, hos] using hb.symm
        refine iff_of_false (by omega) ?_
        rintro ⟨rfl, lexeme, c, rfl, hunits⟩
        simp only [char, hunits] at hi'
        omega
    · obtain ⟨k, rfl⟩ := Nat.exists_eq_add_of_le (Nat.le_of_not_lt hi)
      rw [List.getElem?_append_right (by omega), hlen, Nat.add_sub_cancel_left] at ha
      rw [List.getElem?_append_right (by omega), hlen,
        show unitsOf tok.char + k + 1 - unitsOf tok.char = k + 1 by omega] at hb
      rw [sharesEscape_cons_add]
      exact ih hts ha hb

end Token

/-! ## Recorded offsets -/

/-- Units `i` and `i + 1` of the decoded text come from one escape. -/
def SharesEscape (g : Grammar) (t : Text) (i : Nat) : Prop :=
  Token.SharesEscape (scan g t).tokens i

/-- Where the decode of a text ended: behind the text, or where the malformed escape begins. -/
def Status.stop (t : Text) : Status → Nat
  | .complete => Text.units t
  | .stopped m => m.span.start

/-- What was recorded for a text: `offsets` are those of the units of `decoded` and the sentinel. -/
structure RecordsOffsets (g : Grammar) (t decoded : Text) (offsets : Array Nat) (status : Status) :
    Prop where
  size_eq : offsets.size = Text.units decoded + 1
  first : offsets[0]? = some 0
  mono : ∀ i j a b : Nat, i ≤ j → offsets[i]? = some a → offsets[j]? = some b → a ≤ b
  sentinel : offsets[Text.units decoded]? = some (status.stop t)
  lt_sentinel : ∀ i a : Nat, i < Text.units decoded → offsets[i]? = some a → a < status.stop t
  units_le_sentinel : Text.units decoded ≤ status.stop t
  eq_succ_iff : ∀ i a b : Nat, offsets[i]? = some a → offsets[i + 1]? = some b →
    (a = b ↔ SharesEscape g t i)

section Entries

variable (g : Grammar) (t : Text)

theorem stop_status_scan : ((scan g t).status 0).stop t = (scan g t).consumed := by
  unfold Scan.status
  cases hfault : (scan g t).fault with
  | none => simp [Status.stop, Scan.consumed, textOf_tokens_of_complete hfault]
  | some f => simp [Status.stop]

theorem entries_mono {i j a b : Nat} (hij : i ≤ j) (ha : (scan g t).entries[i]? = some a)
    (hb : (scan g t).entries[j]? = some b) : a ≤ b := by
  obtain ⟨hi, rfl⟩ := List.getElem?_eq_some_iff.1 ha
  obtain ⟨hj, rfl⟩ := List.getElem?_eq_some_iff.1 hb
  exact (pairwise_entries g t).rel_get_of_le (show (⟨i, hi⟩ : Fin _) ≤ ⟨j, hj⟩ from hij)

theorem entries_lt_consumed {i a : Nat} (hi : i < Text.units (Token.charsOf (scan g t).tokens))
    (ha : (scan g t).entries[i]? = some a) : a < (scan g t).consumed := by
  rw [Scan.entries, List.getElem?_append_left
    (by rwa [Token.length_offsetsOf (proper_tokens g t)])] at ha
  have := (Token.mem_offsetsOf (proper_tokens g t) (List.mem_of_getElem? ha)).2
  unfold Scan.consumed
  omega

theorem recordsOffsets_entries :
    RecordsOffsets g t (Token.charsOf (scan g t).tokens) (scan g t).entries.toArray
      ((scan g t).status 0) where
  size_eq := by simpa using length_entries g t
  first := by
    obtain ⟨es, hes⟩ := (scan g t).exists_entries_eq_cons
    simp [hes]
  mono i j a b hij ha hb := entries_mono g t hij (by simpa using ha) (by simpa using hb)
  sentinel := by
    rw [stop_status_scan, List.getElem?_toArray, Scan.entries,
      ← Token.length_offsetsOf (proper_tokens g t) 0, List.getElem?_concat_length]
  lt_sentinel i a hi ha := by
    rw [stop_status_scan]
    exact entries_lt_consumed g t hi (by simpa using ha)
  units_le_sentinel := by
    rw [stop_status_scan]
    exact Token.units_charsOf_le (proper_tokens g t)
  eq_succ_iff i a b ha hb := by
    rw [List.getElem?_toArray, Scan.entries, Scan.consumed, ← Nat.zero_add (Text.units _)] at ha hb
    exact Token.offsetsOf_eq_succ_iff (proper_tokens g t) ha hb

end Entries

/-- Decoding a text into empty buffers records an offset for every unit of the decoded text and the
    sentinel, in ascending order; two neighbours are equal exactly if they belong to one escape. -/
theorem recordsOffsets_decode (g : Grammar) (t : Text) :
    ∃ chars offsets status, decode g t Output.recording = (⟨chars, some offsets⟩, status) ∧
      RecordsOffsets g t chars.toList offsets status :=
  ⟨_, _, _, decode_recording_eq g t, recordsOffsets_entries g t⟩

/-- A plain supplementary character, a pair of escapes and a single escape of one, in front of a
    malformed escape: only the last has two equal offsets. -/
example : (OffsetTable.build Grammar.proto "😀\\uD83D\\uDE00\\U0001F600\\q".toList).offsets
    = #[0, 1, 2, 8, 14, 14, 24] := by decide +kernel

end Unescape
