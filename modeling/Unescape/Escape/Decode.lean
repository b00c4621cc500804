import Unescape.Escape.Scan

set_option autoImplicit false

/-! # Decoding into buffers

`decode` appends the decoded text of a literal to an output buffer and, if asked to, appends to a
second buffer one host offset per decoded unit and a *sentinel*: the host units that were decoded,
all of them or up to the malformed escape.

`decode_eq` says what the buffers hold afterwards in terms of the tokens of the literal. What was
in them before is kept, and recording offsets does not change the output. -/

namespace Unescape

/-- The buffers that decoding appends to. Offsets are recorded if there is a buffer for them. -/
structure Output where
  chars : Array Char
  offsets : Option (Array Nat)
deriving DecidableEq, Repr

namespace Output

/-- Nothing written, offsets recorded. -/
def recording : Output := ⟨#[], some #[]⟩

/-- Output to a given buffer without a record of offsets. -/
def plain (chars : Array Char) : Output := ⟨chars, none⟩

/-- Write the character of a token that begins at `start`. -/
def push (out : Output) (start : Nat) (tok : Token) : Output :=
  { chars := out.chars.push tok.char
    offsets := out.offsets.map fun os => (tok.offsets start).foldl Array.push os }

/-- Write the sentinel. -/
def close (out : Output) (sentinel : Nat) : Output :=
  { out with offsets := out.offsets.map fun os => os.push sentinel }

end Output

/-- Decode a text that begins `start` units into the literal. -/
def decodeFrom (g : Grammar) (start : Nat) : Text → Output → Output × Status
  | [], out => (out.close start, .complete)
  | c :: r, out =>
    match h : Token.read g c r with
    | .error f =>
      (out.close start, .stopped ⟨⟨start, start + Text.units f.lexeme⟩, f.kind⟩)
    | .ok (tok, rest) =>
      have := Token.length_rest_le_of_read h
      decodeFrom g (start + Text.units tok.text) rest (out.push start tok)
termination_by t => t.length
decreasing_by all_goals (simp only [List.length_cons]; omega)

/-- Decode a literal. -/
def decode (g : Grammar) (t : Text) (out : Output) : Output × Status := decodeFrom g 0 t out

/-! ## The buffers after a decode -/

namespace Output

/-- Append characters and offsets to what the buffers hold. -/
def append (out : Output) (chars : Text) (offsets : List Nat) : Output :=
  { chars := out.chars ++ chars.toArray
    offsets := out.offsets.map fun os => os ++ offsets.toArray }

theorem push_eq_append (out : Output) (start : Nat) (tok : Token) :
    out.push start tok = out.append [tok.char] (tok.offsets start) := by
  simp [push, append]

theorem close_eq_append (out : Output) (sentinel : Nat) :
    out.close sentinel = out.append [] [sentinel] := by
  simp [close, append]

theorem append_append (out : Output) (s t : Text) (os ps : List Nat) :
    (out.append s os).append t ps = out.append (s ++ t) (os ++ ps) := by
  obtain ⟨chars, offsets⟩ := out
  cases offsets <;> simp [append]

end Output

theorem decodeFrom_eq (g : Grammar) (start : Nat) (t : Text) (out : Output) :
    decodeFrom g start t out =
      (out.append (Token.charsOf (scan g t).tokens)
          (Token.offsetsOf start (scan g t).tokens ++ [start + (scan g t).consumed]),
        (scan g t).status start) := by
  fun_induction decodeFrom g start t out with
  | case1 start out =>
    simp [Output.close_eq_append, Token.offsetsOf, Scan.consumed, Scan.status]
  | case2 start c r out f h =>
    simp [Output.close_eq_append, Token.offsetsOf, Scan.consumed, Scan.status, scan_of_error h]
  | case3 start c r out tok rest h hlen ih =>
    rw [ih, scan_of_ok h]
    simp [Output.push_eq_append, Output.append_append, Token.offsetsOf, Scan.cons, Scan.consumed,
      Scan.status, Nat.add_assoc]

/-- Decoding appends the characters of the tokens, their offsets and the sentinel, and ends as the
    scan does. -/
theorem decode_eq (g : Grammar) (t : Text) (out : Output) :
    decode g t out =
      (out.append (Token.charsOf (scan g t).tokens)
          (Token.offsetsOf 0 (scan g t).tokens ++ [(scan g t).consumed]),
        (scan g t).status 0) := by
  rw [decode, decodeFrom_eq, Nat.zero_add]

end Unescape
