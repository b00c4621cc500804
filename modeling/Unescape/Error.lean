import Unescape.Text.Span

set_option autoImplicit false

/-! # Errors

What the operations on literals, documents and settings refuse to do. A malformed escape is not
among them: it is a property of the text that is decoded, see `Status`. -/

namespace Unescape

/-- Why an operation was refused. -/
inductive Error where
  /-- A span is reversed, ends behind the text of `length` units, or cuts a character. -/
  | invalidRange (range : Span) (length : Nat)
  /-- A strict lookup found nothing within the range. -/
  | offsetOutOfRange (offset : Nat) (range : Span)
  /-- A strict lookup in a range that was not decoded before. -/
  | notDecoded (start : Nat)
  /-- A settings file is missing or is not text. -/
  | unreadableSettings
  /-- A settings file does not follow the format of settings. -/
  | malformedSettings
  /-- Settings name a built-in grammar that does not exist. -/
  | unknownPreset (name : String)
deriving DecidableEq, Repr

namespace Error

/-- A span as it is shown in a message. -/
def showSpan (s : Span) : String := toString s.start ++ ".." ++ toString s.stop

/-- The sentence shown for an error. -/
def message : Error → String
  | invalidRange range length =>
    "invalid range " ++ showSpan range ++ " for host text of " ++ toString length ++
      " UTF-16 units"
  | offsetOutOfRange offset range =>
    "decoded offset " ++ toString offset ++ " maps outside host range " ++ showSpan range
  | notDecoded start =>
    "no range starting at host offset " ++ toString start ++ " has been decoded"
  | unreadableSettings => "I/O error"
  | malformedSettings => "settings parse error"
  | unknownPreset name => "unknown escape grammar preset: '" ++ name ++ "'"

end Error

end Unescape
