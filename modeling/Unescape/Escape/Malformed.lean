import Unescape.Text.Span

set_option autoImplicit false

/-! # Malformed escapes

Decoding ends at the end of the text or at the first malformed escape. A malformed escape is a
property of the text and not a failure of the program, so it is part of the result: `Status`. -/

namespace Unescape

/-- What is wrong with an escape. -/
inductive MalformedKind where
  /-- A backslash with nothing behind it. -/
  | trailingBackslash
  /-- A character behind the backslash that starts no escape of the grammar. -/
  | unknownEscape (c : Char)
  /-- A numeric escape with fewer digits than its marker asks for. -/
  | missingDigits (marker : Char) (expected found : Nat)
  /-- Half of a surrogate pair without the other half next to it. -/
  | loneSurrogate (value : UInt32)
  /-- A code value that stands for no character. -/
  | invalidCodePoint (value : UInt32)
deriving DecidableEq, Repr

/-- A code value in capital hexadecimal digits, with leading zeros up to `width` digits. -/
def upperHex (width : Nat) (value : UInt32) : String :=
  let digits := (Nat.toDigits 16 value.toNat).map Char.toUpper
  String.ofList (List.replicate (width - digits.length) '0' ++ digits)

/-- The sentence shown for a malformed escape. -/
def MalformedKind.message : MalformedKind → String
  | .trailingBackslash => "backslash at end of literal"
  | .unknownEscape c => "illegal escape character '" ++ c.toString ++ "'"
  | .missingDigits marker expected found =>
    "expected " ++ toString expected ++ " hex digit(s) after '\\" ++ marker.toString ++
      "', found " ++ toString found
  | .loneSurrogate value => "unpaired surrogate U+" ++ upperHex 4 value
  | .invalidCodePoint value => "U+" ++ upperHex 1 value ++ " is not a valid code point"

/-- A malformed escape and its place: from the backslash to the last unit that was examined. -/
structure Malformed where
  span : Span
  kind : MalformedKind
deriving DecidableEq, Repr

namespace Malformed

/-- The same escape in a text that begins `delta` units earlier. -/
def shift (m : Malformed) (delta : Nat) : Malformed := { m with span := m.span.shift delta }

/-- The sentence shown for the escape, with its place. -/
def message (m : Malformed) : String :=
  m.kind.message ++ " at offset " ++ toString m.span.start

end Malformed

/-- How a decode ended. -/
inductive Status where
  /-- All of the text was decoded. -/
  | complete
  /-- Decoding stopped at a malformed escape, and what came before it was kept. -/
  | stopped (escape : Malformed)
deriving DecidableEq, Repr

namespace Status

/-- Whether all of the text was decoded. -/
def isComplete : Status → Bool
  | .complete => true
  | .stopped _ => false

/-- The malformed escape that ended the decode. -/
def malformed? : Status → Option Malformed
  | .complete => none
  | .stopped m => some m

/-- The same end in a text that begins `delta` units earlier. -/
def shift (s : Status) (delta : Nat) : Status :=
  match s with
  | .complete => .complete
  | .stopped m => .stopped (m.shift delta)

end Status

end Unescape
