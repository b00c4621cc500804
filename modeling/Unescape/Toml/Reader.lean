import Unescape.Text.Units

set_option autoImplicit false

/-! # Reading text from the front

A reader takes a value off the front of a text, or fails. Readers are composed as steps of a
computation; `p <|> q` tries `q` on the same text where `p` fails.

`Reader.many` repeats a reader as long as it succeeds and takes something, so it always ends. -/

namespace Unescape

namespace Toml

/-- Takes a value off the front of a text. -/
abbrev Reader (α : Type) := StateT Text Option α

namespace Reader

variable {α β : Type}

/-- The next character, if it has a property. -/
def satisfy (p : Char → Bool) : Reader Char
  | c :: r => if p c then some (c, r) else none
  | [] => none

/-- A given character. -/
def char (c : Char) : Reader Unit := do
  let _ ← satisfy (· == c)

/-- A given piece of text. -/
def literal : Text → Reader Unit
  | [] => pure ()
  | c :: r => do
    char c
    literal r

/-- The longest front part whose characters have a property. -/
def takeWhile (p : Char → Bool) : Reader Text := fun t => some (t.takeWhile p, t.dropWhile p)

/-- Such a front part with at least one character. -/
def takeWhile1 (p : Char → Bool) : Reader Text := do
  let s ← takeWhile p
  if s.isEmpty then failure else return s

/-- The end of the text. -/
def atEnd : Reader Unit
  | [] => some ((), [])
  | _ :: _ => none

/-- What a reader takes, if it succeeds. -/
def optional? (p : Reader α) : Reader (Option α) := (some <$> p) <|> pure none

/-- Exactly `n` characters with a property. -/
def count (p : Char → Bool) : Nat → Reader Text
  | 0 => pure []
  | n + 1 => do
    let c ← satisfy p
    let r ← count p n
    return c :: r

/-- Repeat a reader as long as it succeeds and takes something. -/
def many (p : Reader α) (t : Text) : Option (List α × Text) :=
  match p t with
  | none => some ([], t)
  | some (a, rest) =>
    if rest.length < t.length then
      match many p rest with
      | some (as, rest) => some (a :: as, rest)
      | none => none
    else some ([], t)
termination_by t.length

/-- One or more values with a separator between them, without one at the end. -/
def separated1 (p : Reader α) (separator : Reader Unit) : Reader (List α) := do
  let a ← p
  let as ← many (separator *> p)
  return a :: as

/-- Any number of values with a separator between them. -/
def separated (p : Reader α) (separator : Reader Unit) : Reader (List α) :=
  separated1 p separator <|> pure []

/-- What a reader takes from all of a text. -/
def run? (p : Reader α) (t : Text) : Option α := (StateT.run (p <* atEnd) t).map (·.1)

end Reader

/-! ## Blanks and line ends -/

/-- Spaces and tabs. -/
def blank : Reader Unit := do
  let _ ← Reader.takeWhile fun c => c == ' ' || c == '\t'

/-- A line feed, alone or behind a carriage return. -/
def newline : Reader Unit := Reader.char '\n' <|> Reader.literal ['\r', '\n']

/-- Characters of a comment: all but control characters, with the tab among them. -/
def isCommentChar (c : Char) : Bool := c == '\t' || (' ' ≤ c && c != '\x7f')

/-- A comment up to the end of its line. -/
def comment : Reader Unit := do
  Reader.char '#'
  let _ ← Reader.takeWhile isCommentChar

/-- The end of a line or of the text. -/
def lineEnd : Reader Unit := newline <|> Reader.atEnd

/-- What may stand behind a statement on its line. -/
def lineRest : Reader Unit := do
  blank
  let _ ← Reader.optional? comment
  lineEnd

/-- Blanks, line ends and comments, in any number. -/
def blankLines : Reader Unit := do
  blank
  let _ ← Reader.many ((newline <|> (comment *> newline)) *> blank)

end Toml

end Unescape
