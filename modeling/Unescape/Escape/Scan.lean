import Unescape.Escape.Token

set_option autoImplicit false

/-! # The tokens of a whole literal

`scan` reads a literal from the front into tokens until the text ends or a fault is met. It is the
plain account of what decoding does; `Escape/Decode.lean` proves that the decoder, which writes
into buffers as it goes, follows it.

The offsets between two tokens are the *boundaries* of the literal: there it can be cut in two
without changing how either part reads. -/

namespace Unescape

/-- What reading a literal finds. -/
structure Scan where
  /-- The tokens, in order. -/
  tokens : List Token
  /-- The text behind the last token. -/
  rest : Text
  /-- Why reading stopped before the end, if it did. -/
  fault : Option Fault
deriving DecidableEq, Repr

/-- A scan with one more token in front. -/
def Scan.cons (tok : Token) (s : Scan) : Scan := ⟨tok :: s.tokens, s.rest, s.fault⟩

/-- Read a literal from the front into tokens. -/
def scan (g : Grammar) : Text → Scan
  | [] => ⟨[], [], none⟩
  | c :: r =>
    match h : Token.read g c r with
    | .error f => ⟨[], c :: r, some f⟩
    | .ok (tok, rest) =>
      have := Token.length_rest_le_of_read h
      (scan g rest).cons tok
termination_by t => t.length
decreasing_by all_goals (simp only [List.length_cons]; omega)

/-! ## One step of a scan -/

@[simp] theorem scan_nil (g : Grammar) : scan g [] = ⟨[], [], none⟩ := by rw [scan]

theorem scan_of_error {g : Grammar} {c : Char} {r : Text} {f : Fault}
    (h : Token.read g c r = .error f) : scan g (c :: r) = ⟨[], c :: r, some f⟩ := by
  rw [scan]; split
  · rename_i h'; rw [h] at h'; simp only [Except.error.injEq] at h'; rw [h']
  · rename_i h'; rw [h] at h'; simp at h'

theorem scan_of_ok {g : Grammar} {c : Char} {r : Text} {tok : Token} {rest : Text}
    (h : Token.read g c r = .ok (tok, rest)) :
    scan g (c :: r) = (scan g rest).cons tok := by
  rw [scan]; split
  · rename_i h'; rw [h] at h'; simp at h'
  · rename_i h'
    rw [h] at h'
    simp only [Except.ok.injEq, Prod.mk.injEq] at h'
    obtain ⟨rfl, rfl⟩ := h'
    rfl

/-! ## Text, output and offsets of a list of tokens -/

namespace Token

/-- The text of several tokens. -/
def textOf (ts : List Token) : Text := ts.flatMap text

/-- The characters that several tokens decode to. -/
def charsOf (ts : List Token) : Text := ts.map char

/-- The host offsets of the units that several tokens decode to, when the first begins at
    `start`. -/
def offsetsOf (start : Nat) : List Token → List Nat
  | [] => []
  | t :: ts => t.offsets start ++ offsetsOf (start + Text.units t.text) ts

@[simp] theorem textOf_nil : textOf [] = [] := rfl

@[simp] theorem textOf_cons (t : Token) (ts : List Token) :
    textOf (t :: ts) = t.text ++ textOf ts := rfl

@[simp] theorem textOf_append (ts us : List Token) :
    textOf (ts ++ us) = textOf ts ++ textOf us := by simp [textOf]

@[simp] theorem charsOf_nil : charsOf [] = [] := rfl

@[simp] theorem charsOf_cons (t : Token) (ts : List Token) :
    charsOf (t :: ts) = t.char :: charsOf ts := rfl

theorem offsetsOf_append (start : Nat) (ts us : List Token) :
    offsetsOf start (ts ++ us)
      = offsetsOf start ts ++ offsetsOf (start + Text.units (textOf ts)) us := by
  induction ts generalizing start with
  | nil => simp [offsetsOf]
  | cons t ts ih => simp [offsetsOf, ih, Nat.add_assoc]

end Token

namespace Scan

/-- Host units that the tokens take: where the text ended or the fault begins. -/
def consumed (s : Scan) : Nat := Text.units (Token.textOf s.tokens)

/-- How the scan of a text that begins at `start` ended. -/
def status (start : Nat) (s : Scan) : Status :=
  match s.fault with
  | none => .complete
  | some f =>
    .stopped ⟨⟨start + s.consumed, start + s.consumed + Text.units f.lexeme⟩, f.kind⟩

end Scan

/-- The tokens and what stands behind them make up the literal. -/
theorem textOf_append_rest_scan (g : Grammar) (t : Text) :
    Token.textOf (scan g t).tokens ++ (scan g t).rest = t := by
  fun_induction scan g t with
  | case1 => rfl
  | case2 => rfl
  | case3 c r tok rest h hlen ih =>
    simp only [Scan.cons, Token.textOf_cons, List.append_assoc, ih]
    exact Token.text_append_of_read h

/-- Nothing is left over exactly when no fault was met. -/
theorem rest_scan_eq_nil_iff (g : Grammar) (t : Text) :
    (scan g t).rest = [] ↔ (scan g t).fault = none := by
  fun_induction scan g t with
  | case1 => simp
  | case2 => simp
  | case3 c r tok rest h hlen ih => exact ih

/-! ## Boundaries -/

/-- An offset of a literal at which the reading of a token begins, or at which reading stopped. -/
def IsBoundary (g : Grammar) (t : Text) (offset : Nat) : Prop :=
  ∃ ts us, (scan g t).tokens = ts ++ us ∧ offset = Text.units (Token.textOf ts)

end Unescape
