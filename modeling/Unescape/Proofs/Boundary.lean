import Unescape.Escape.Decode
import Unescape.Grammar.Builtin
import Unescape.Proofs.TokenLocality

set_option autoImplicit false

/-! # Boundaries and cuts

The decoder goes round a loop, one token a round. `Round` says at which offsets a round begins and
what text is in front of the decoder there; `isBoundary_iff_round` says that these offsets are the
boundaries of the text.

At a boundary decoding is compositional: the text in front of it decodes on its own to the tokens
that were read there, and the text behind it decodes as it does in the whole
(`decode_of_isBoundary`). At other offsets it is not, since digits are read greedily and a high
surrogate looks ahead. -/

namespace Unescape

/-! ## Rounds of the decoder -/

/-- Decoding a text that begins at `start` comes to `offset` with `rest` still to decode. -/
inductive Round (g : Grammar) : Nat → Text → Nat → Text → Prop where
  /-- The first round begins with the whole text. -/
  | first (start : Nat) (t : Text) : Round g start t start t
  /-- A token that is read leads to the rounds of the text behind it. -/
  | next {start offset : Nat} {c : Char} {r after rest : Text} {tok : Token} :
    Token.read g c r = .ok (tok, after) → Round g (start + Text.units tok.text) after offset rest →
      Round g start (c :: r) offset rest

/-- A round goes on with the decode from where it begins. -/
theorem Round.exists_decodeFrom_eq {g : Grammar} {start offset : Nat} {t rest : Text}
    (h : Round g start t offset rest) (out : Output) :
    ∃ out', decodeFrom g start t out = decodeFrom g offset rest out' := by
  induction h generalizing out with
  | first start t => exact ⟨out, rfl⟩
  | @next start offset c r after rest tok hread _ ih =>
    obtain ⟨out', hout⟩ := ih (out.push start tok)
    refine ⟨out', ?_⟩
    rw [decodeFrom]
    split
    · rename_i hread'
      rw [hread] at hread'
      exact absurd hread' (by simp)
    · rename_i hread'
      rw [hread] at hread'
      simp only [Except.ok.injEq, Prod.mk.injEq] at hread'
      obtain ⟨rfl, rfl⟩ := hread'
      exact hout

/-! ## Tokens at the front of a text -/

/-- A scan with several more tokens in front. -/
def Scan.prepend (ts : List Token) (s : Scan) : Scan := ⟨ts ++ s.tokens, s.rest, s.fault⟩

@[simp] theorem Token.charsOf_append (ts us : List Token) :
    charsOf (ts ++ us) = charsOf ts ++ charsOf us := List.map_append

namespace Scan

theorem prepend_cons (tok : Token) (ts : List Token) (s : Scan) :
    prepend (tok :: ts) s = cons tok (prepend ts s) := rfl

@[simp] theorem tokens_prepend (ts : List Token) (s : Scan) :
    (prepend ts s).tokens = ts ++ s.tokens := rfl

@[simp] theorem fault_prepend (ts : List Token) (s : Scan) : (prepend ts s).fault = s.fault := rfl

@[simp] theorem consumed_prepend (ts : List Token) (s : Scan) :
    (prepend ts s).consumed = Text.units (Token.textOf ts) + s.consumed := by
  simp [consumed]

theorem status_prepend (start : Nat) (ts : List Token) (s : Scan) :
    (prepend ts s).status start = s.status (start + Text.units (Token.textOf ts)) := by
  simp only [status, fault_prepend, consumed_prepend, Nat.add_assoc]

end Scan

/-- `ts` are the tokens at the front of a text that goes on with `u`, and they are no matter where
    behind them the text is cut. -/
def Fronts (g : Grammar) (ts : List Token) (u : Text) : Prop :=
  ∀ v w, u = v ++ w → scan g (Token.textOf ts ++ v) = (scan g v).prepend ts

namespace Fronts

variable {g : Grammar} {ts : List Token} {tok : Token} {u : Text}

theorem nil (g : Grammar) (u : Text) : Fronts g [] u := fun _ _ _ => rfl

theorem cons {c : Char} {r : Text} (hread : Token.read g c r = .ok (tok, Token.textOf ts ++ u))
    (h : Fronts g ts u) : Fronts g (tok :: ts) u := by
  rintro v w rfl
  rw [← List.append_assoc] at hread
  obtain ⟨x, htext, hcut⟩ := Token.read_cut hread
  rw [Token.textOf_cons, htext, List.cons_append, List.cons_append, List.append_assoc,
    scan_of_ok hcut, h v w rfl, Scan.prepend_cons]

/-- What follows the tokens may be cut. -/
theorem left {v w : Text} (h : Fronts g ts (v ++ w)) : Fronts g ts v :=
  fun s t hst => h s (t ++ w) (by rw [hst, List.append_assoc])

theorem append {us : List Token} (h : Fronts g ts (Token.textOf us ++ u)) (hu : Fronts g us u) :
    Fronts g (ts ++ us) u := by
  rintro v w rfl
  rw [Token.textOf_append, List.append_assoc, h _ w (List.append_assoc ..).symm, hu v w rfl]
  simp [Scan.prepend]

/-- The text behind the tokens reads as it does in the whole. -/
theorem scan_append (h : Fronts g ts u) :
    scan g (Token.textOf ts ++ u) = (scan g u).prepend ts :=
  h u [] (by simp)

/-- The tokens alone read as themselves. -/
theorem scan_textOf (h : Fronts g ts u) : scan g (Token.textOf ts) = ⟨ts, [], none⟩ := by
  have := h [] u rfl
  simpa [Scan.prepend] using this

end Fronts

/-! ## Boundaries -/

/-- The first token of a scan was read at the front of the text, and the others behind it. -/
theorem exists_read_of_tokens_eq_cons {g : Grammar} {t : Text} {tok : Token} {ts : List Token}
    (h : (scan g t).tokens = tok :: ts) :
    ∃ c r after, t = c :: r ∧ Token.read g c r = .ok (tok, after) ∧ (scan g after).tokens = ts ∧
      (scan g after).rest = (scan g t).rest := by
  cases t with
  | nil => simp at h
  | cons c r =>
    cases hread : Token.read g c r with
    | error f =>
      rw [scan_of_error hread] at h
      exact absurd h (by simp)
    | ok a =>
      obtain ⟨tok', after⟩ := a
      rw [scan_of_ok hread] at h ⊢
      obtain ⟨rfl, hts⟩ := List.cons.inj h
      exact ⟨c, r, after, rfl, hread, hts, rfl⟩

/-- The tokens of a scan are at the front of the text. -/
theorem fronts_of_tokens_eq_append {g : Grammar} {t : Text} {ts us : List Token}
    (h : (scan g t).tokens = ts ++ us) : Fronts g ts (Token.textOf us ++ (scan g t).rest) := by
  induction ts generalizing t with
  | nil => exact .nil g _
  | cons tok ts ih =>
    obtain ⟨c, r, after, rfl, hread, htokens, hrest⟩ := exists_read_of_tokens_eq_cons h
    have htext := textOf_append_rest_scan g after
    rw [htokens, hrest] at htext
    have hfronts := ih htokens
    rw [hrest] at hfronts
    refine .cons (c := c) (r := r) ?_ hfronts
    rw [hread, ← htext, List.append_eq, Token.textOf_append, List.append_assoc]

/-- All tokens of a text are those of their own text. -/
theorem fronts_tokens (g : Grammar) (t : Text) : Fronts g (scan g t).tokens [] :=
  Fronts.left (v := []) (fronts_of_tokens_eq_append (List.append_nil (scan g t).tokens).symm)

/-- A text that decodes completely consists of its tokens. -/
theorem textOf_tokens_of_complete {g : Grammar} {t : Text} (h : (scan g t).fault = none) :
    Token.textOf (scan g t).tokens = t := by
  have htext := textOf_append_rest_scan g t
  rwa [(rest_scan_eq_nil_iff g t).2 h, List.append_nil] at htext

/-- Where a text has no tokens, it is malformed at its front. -/
theorem fault_ne_none_of_tokens_eq_nil {g : Grammar} {t : Text} (ht : t ≠ [])
    (htokens : (scan g t).tokens = []) : (scan g t).fault ≠ none := by
  intro hnone
  have htext := textOf_tokens_of_complete hnone
  rw [htokens] at htext
  exact ht htext.symm

theorem round_of_tokens_eq_append {g : Grammar} {t : Text} {ts us : List Token} (start : Nat)
    (h : (scan g t).tokens = ts ++ us) :
    ∃ rest, Round g start t (start + Text.units (Token.textOf ts)) rest := by
  induction ts generalizing t start with
  | nil => exact ⟨t, .first start t⟩
  | cons tok ts ih =>
    obtain ⟨c, r, after, rfl, hread, htokens, _⟩ := exists_read_of_tokens_eq_cons h
    obtain ⟨rest, hround⟩ := ih (start + Text.units tok.text) htokens
    refine ⟨rest, .next hread ?_⟩
    simpa [Nat.add_assoc] using hround

/-- What was decoded before a round is made of tokens at the front of the text. -/
theorem Round.exists_fronts {g : Grammar} {start offset : Nat} {t rest : Text}
    (h : Round g start t offset rest) :
    ∃ ts, t = Token.textOf ts ++ rest ∧ offset = start + Text.units (Token.textOf ts) ∧
      Fronts g ts rest := by
  induction h with
  | first start t => exact ⟨[], rfl, rfl, .nil g t⟩
  | @next start offset c r after rest tok hread _ ih =>
    obtain ⟨ts, rfl, rfl, hfronts⟩ := ih
    refine ⟨tok :: ts, ?_, ?_, hfronts.cons hread⟩
    · rw [← Token.text_append_of_read hread, Token.textOf_cons, List.append_assoc]
    · simp [Nat.add_assoc]

/-- At a boundary a text falls into tokens and a text that reads on its own as it does behind
    them. -/
theorem isBoundary_iff_fronts {g : Grammar} {t : Text} {p : Nat} :
    IsBoundary g t p ↔
      ∃ ts u, t = Token.textOf ts ++ u ∧ p = Text.units (Token.textOf ts) ∧ Fronts g ts u := by
  constructor
  · rintro ⟨ts, us, htokens, rfl⟩
    refine ⟨ts, _, ?_, rfl, fronts_of_tokens_eq_append htokens⟩
    rw [← List.append_assoc, ← Token.textOf_append, ← htokens, textOf_append_rest_scan]
  · rintro ⟨ts, u, rfl, rfl, hfronts⟩
    exact ⟨ts, (scan g u).tokens, by rw [hfronts.scan_append]; rfl, rfl⟩

/-- The boundaries of a text are the offsets at which the decoder begins a round. -/
theorem isBoundary_iff_round {g : Grammar} {t : Text} {p : Nat} :
    IsBoundary g t p ↔ ∃ rest, Round g 0 t p rest := by
  constructor
  · rintro ⟨ts, us, htokens, rfl⟩
    simpa using round_of_tokens_eq_append 0 htokens
  · rintro ⟨rest, hround⟩
    obtain ⟨ts, ht, hp, hfronts⟩ := hround.exists_fronts
    exact isBoundary_iff_fronts.2 ⟨ts, rest, ht, by simpa using hp, hfronts⟩

/-- Cutting the tokens of a text anywhere in turn finds its boundaries. -/
instance (g : Grammar) (t : Text) (p : Nat) : Decidable (IsBoundary g t p) :=
  decidable_of_iff (((List.range ((scan g t).tokens.length + 1)).any fun n =>
      p = Text.units (Token.textOf ((scan g t).tokens.take n))) = true) (by
    simp only [List.any_eq_true, List.mem_range, decide_eq_true_eq]
    constructor
    · rintro ⟨n, -, hp⟩
      exact ⟨_, (scan g t).tokens.drop n, (List.take_append_drop n _).symm, hp⟩
    · rintro ⟨ts, us, htokens, rfl⟩
      refine ⟨ts.length, ?_, ?_⟩
      · simp only [htokens, List.length_append]; omega
      · simp [htokens])

/-! ## Decoding at a boundary -/

namespace Token

theorem offsets_add (start delta : Nat) (tok : Token) :
    tok.offsets (start + delta) = (tok.offsets start).map (· + delta) := by
  cases tok with
  | plain c => simp [offsets, List.map_add_range', Nat.add_comm]
  | escape lexeme c => simp [offsets]
  | pair high low c =>
    simp [offsets]
    omega

theorem offsets_eq_map (start : Nat) (tok : Token) :
    tok.offsets start = (tok.offsets 0).map (· + start) := by
  rw [← offsets_add, Nat.zero_add]

/-- Offsets count from where the first token begins. -/
theorem offsetsOf_add (start delta : Nat) (ts : List Token) :
    offsetsOf (start + delta) ts = (offsetsOf start ts).map (· + delta) := by
  induction ts generalizing start with
  | nil => rfl
  | cons tok ts ih =>
    have hnext : start + delta + Text.units tok.text = start + Text.units tok.text + delta := by
      omega
    simp only [offsetsOf, List.map_append, offsets_add, hnext, ih]

end Token

/-- Decoding a literal into empty buffers. -/
theorem decode_recording_eq (g : Grammar) (t : Text) :
    decode g t Output.recording =
      (⟨(Token.charsOf (scan g t).tokens).toArray,
          some (Token.offsetsOf 0 (scan g t).tokens ++ [(scan g t).consumed]).toArray⟩,
        (scan g t).status 0) := by
  simp [decode_eq, Output.append, Output.recording]

/-- Decoding a literal without its offsets. -/
theorem decode_plain_eq (g : Grammar) (t : Text) :
    decode g t (Output.plain #[])
      = (⟨(Token.charsOf (scan g t).tokens).toArray, none⟩, (scan g t).status 0) := by
  simp [decode_eq, Output.append, Output.plain]

theorem Scan.status_add (start delta : Nat) (s : Scan) :
    s.status (start + delta) = (s.status start).shift delta := by
  unfold Scan.status
  split
  · rfl
  · simp [Status.shift, Malformed.shift, Span.shift]
    omega

/-- Decoding is compositional at a boundary. The text in front of it decodes completely; and what the
    whole text decodes to is this, followed by what the text behind the boundary decodes to, with
    offsets and end moved to where that text begins. -/
theorem decode_of_isBoundary {g : Grammar} {t : Text} {p : Nat} (h : IsBoundary g t p) :
    ∃ front back chars chars' offsets offsets' status,
      Text.splitAt? t p = some (front, back) ∧
      decode g front Output.recording = (⟨chars, some (offsets.push p)⟩, .complete) ∧
      decode g back Output.recording = (⟨chars', some offsets'⟩, status) ∧
      decode g t Output.recording =
        (⟨chars ++ chars', some (offsets ++ offsets'.map (· + p))⟩, status.shift p) := by
  obtain ⟨ts, u, rfl, rfl, hfronts⟩ := isBoundary_iff_fronts.1 h
  refine ⟨Token.textOf ts, u, (Token.charsOf ts).toArray, _, (Token.offsetsOf 0 ts).toArray, _, _,
    (Text.splitAt?_eq_some_iff _ _ _ _).2 ⟨rfl, rfl⟩, ?_, decode_recording_eq g u, ?_⟩
  · rw [decode_recording_eq, hfronts.scan_textOf]
    simp [Scan.consumed, Scan.status]
  · have hoffsets := Token.offsetsOf_add 0 (Text.units (Token.textOf ts)) (scan g u).tokens
    rw [Nat.zero_add] at hoffsets
    rw [decode_recording_eq, hfronts.scan_append, Scan.status_prepend, Scan.status_add]
    simp [Token.offsetsOf_append, hoffsets, Nat.add_comm]

/-- Behind `\47`, which the digit that follows would take beyond the largest value, and in front of a
    malformed escape. -/
theorem decode_of_isBoundary_octal :
    IsBoundary Grammar.java "\\477\\uD83D\\uDE00\\q".toList 3 ∧
    ∃ front back chars chars' offsets offsets' status,
      Text.splitAt? "\\477\\uD83D\\uDE00\\q".toList 3 = some (front, back) ∧
      decode Grammar.java front Output.recording
        = (⟨chars, some (offsets.push 3)⟩, .complete) ∧
      decode Grammar.java back Output.recording = (⟨chars', some offsets'⟩, status) ∧
      decode Grammar.java "\\477\\uD83D\\uDE00\\q".toList Output.recording =
        (⟨chars ++ chars', some (offsets ++ offsets'.map (· + 3))⟩, status.shift 3) :=
  ⟨by decide +kernel, decode_of_isBoundary (by decide +kernel)⟩

end Unescape
