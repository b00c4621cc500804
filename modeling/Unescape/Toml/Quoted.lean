import Unescape.Escape.CodeValue
import Unescape.Toml.Reader

set_option autoImplicit false

/-! # Quoted strings of a TOML document

There are four forms: basic strings with escapes between double quotes, literal strings without
escapes between single quotes, and both over several lines between three quotes. -/

namespace Unescape

namespace Toml

open Reader

/-! ## Characters -/

/-- Characters that stand for themselves on one line: no control character but the tab. -/
def isPlainChar (c : Char) : Bool := isCommentChar c

/-- The character of an escape whose marker has no digits. -/
def simpleEscape? : Char → Option Char
  | 'b' => some '\x08'
  | 'f' => some '\x0c'
  | 'n' => some '\n'
  | 'r' => some '\r'
  | 't' => some '\t'
  | '\\' => some '\\'
  | '"' => some '"'
  | _ => none

/-- The character of an escape of exactly `digits` hexadecimal digits. -/
def codeEscape (digits : Nat) : Reader Char := do
  let ds ← count (fun c => (hexDigit? c).isSome) digits
  match CodeValue.scalar? (hexValue ds) with
  | some c => return c
  | none => failure

/-- The escape behind a backslash. -/
def escape : Reader Char := do
  let marker ← satisfy fun _ => true
  match simpleEscape? marker with
  | some c => return c
  | none =>
    if marker == 'u' then codeEscape 4
    else if marker == 'U' then codeEscape 8
    else failure

/-! ## One line -/

/-- Characters of a basic string that are no escape. -/
def isBasicChar (c : Char) : Bool := isPlainChar c && c != '"' && c != '\\'

/-- A piece of a basic string: characters that stand for themselves, or one escape. -/
def basicPiece : Reader Text :=
  takeWhile1 isBasicChar <|> (fun c => [c]) <$> (char '\\' *> escape)

/-- A basic string on one line. -/
def basicString : Reader Text := do
  char '"'
  let pieces ← many basicPiece
  char '"'
  return pieces.flatten

/-- Characters of a literal string. -/
def isLiteralChar (c : Char) : Bool := isPlainChar c && c != '\x27'

/-- A literal string on one line. -/
def literalString : Reader Text := do
  char '\x27'
  let s ← takeWhile isLiteralChar
  char '\x27'
  return s

/-! ## Several lines -/

/-- A line end within a string, always as a line feed. -/
def innerNewline : Reader Text := newline *> pure ['\n']

/-- A backslash at the end of a line: it takes the line end and the blanks and empty lines behind
    it out of the string. -/
def continuedLine : Reader Text := do
  char '\\'
  blank
  newline
  let _ ← takeWhile (fun c => c == ' ' || c == '\t') *> many (newline *> blank)
  return []

/-- One or two quotes, which do not end a string over several lines. -/
def innerQuotes (quote : Char) : Reader Text := fun t =>
  let quotes := t.takeWhile (· == quote)
  if quotes.length = 1 ∨ quotes.length = 2 then some (quotes, t.drop quotes.length) else none

/-- Three quotes, in front of which one or two may belong to the string. -/
def closingQuotes (quote : Char) : Reader Text := fun t =>
  let quotes := t.takeWhile (· == quote)
  if 3 ≤ quotes.length ∧ quotes.length ≤ 5 then
    some (quotes.drop 3, t.drop quotes.length)
  else none

/-- A string over several lines, whose pieces `piece` takes. A line end directly behind the opening
    quotes does not belong to the string. -/
def multiLine (quote : Char) (piece : Reader Text) : Reader Text := do
  literal [quote, quote, quote]
  let _ ← optional? newline
  let pieces ← many (piece <|> innerNewline <|> innerQuotes quote)
  let last ← closingQuotes quote
  return pieces.flatten ++ last

/-- A basic string over several lines. -/
def multiLineBasic : Reader Text := multiLine '"' (basicPiece <|> continuedLine)

/-- A literal string over several lines. -/
def multiLineLiteral : Reader Text := multiLine '\x27' (takeWhile1 isLiteralChar)

/-- A string in any of the four forms. -/
def quoted : Reader Text :=
  multiLineBasic <|> multiLineLiteral <|> basicString <|> literalString

end Toml

end Unescape
