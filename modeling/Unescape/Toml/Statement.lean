import Unescape.Toml.Quoted
import Unescape.Toml.Value

set_option autoImplicit false

/-! # Statements of a TOML document

A document is a sequence of lines. A line holds nothing, a header that opens a table, a header that
adds a table to an array of tables, or an entry of the table that was opened last. -/

namespace Unescape

namespace Toml

open Reader

/-- A dotted key: the path to a table, and the key in it. -/
structure Key where
  path : List String
  last : String
deriving DecidableEq, Repr

/-- One line of a document that says something. -/
inductive Statement where
  | table (key : Key)
  | arrayTable (key : Key)
  | entry (key : Key) (value : Value)
deriving Repr

/-- Parts of a dotted key, and brackets and braces within each other, must be fewer than this. -/
def depthLimit : Nat := 80

/-! ## Keys -/

/-- Characters of a key that needs no quotes. -/
def isBareKeyChar (c : Char) : Bool := c.isAlphanum || c == '_' || c == '-'

/-- One part of a key, with the blanks around it. -/
def keyPart : Reader String := do
  blank
  let s ← takeWhile1 isBareKeyChar <|> basicString <|> literalString
  blank
  return String.ofList s

/-- A key with the blanks around it. -/
def key : Reader Key := do
  let parts ← separated1 keyPart (char '.')
  if parts.length < depthLimit then
    match parts.getLast? with
    | some last => return ⟨parts.dropLast, last⟩
    | none => failure
  else failure

/-! ## Values -/

/-- One of the two truth values. -/
def boolean : Reader Bool :=
  (literal ['t', 'r', 'u', 'e'] *> pure true) <|> (literal ['f', 'a', 'l', 's', 'e'] *> pure false)

/-- A value without parts. A number that could be several things is a date first and a float
    second. -/
def scalar : Reader Value :=
  (do return .string (String.ofList (← quoted)))
  <|> Value.dateTime <$> dateTime
  <|> Value.float <$> float
  <|> Value.integer <$> integer
  <|> Value.boolean <$> boolean

/-- Values between brackets, on any number of lines. A comma may stand behind the last. -/
def arrayOf (value : Reader Value) : Reader Value := do
  char '['
  let items ← separated (blankLines *> value <* blankLines) (char ',')
  if !items.isEmpty then
    let _ ← optional? (char ',')
  blankLines
  char ']'
  return .array items

/-- Entries between braces, on one line and without a comma behind the last. -/
def tableOf (value : Reader Value) : Reader Value := do
  char '{'
  let entry : Reader (Key × Value) := do
    let k ← key
    char '='
    blank
    let v ← value
    blank
    return (k, v)
  let entries ← separated entry (char ',')
  blank
  char '}'
  match entries.foldlM (fun es (k, v) => Entries.assign k.path k.last v .braces es) [] with
  | some es => return .table .braces es
  | none => failure

/-- A value with less than a number of brackets and braces within each other. -/
def valueWithin : Nat → Reader Value
  | 0 => failure
  | 1 => scalar
  | depth + 2 => scalar <|> arrayOf (valueWithin (depth + 1)) <|> tableOf (valueWithin (depth + 1))

/-- A value of any kind. -/
def value : Reader Value := valueWithin depthLimit

/-! ## Lines -/

/-- A header or an entry, up to the end of its line. -/
def statement : Reader Statement :=
  (do
    literal ['[', '[']
    let k ← key
    literal [']', ']']
    lineRest
    return .arrayTable k)
  <|> (do
    char '['
    let k ← key
    char ']'
    lineRest
    return .table k)
  <|> (do
    let k ← key
    char '='
    blank
    let v ← value
    lineRest
    return .entry k v)

/-- A line, with the blanks in front of the next. -/
def line : Reader (Option Statement) :=
  ((some <$> statement) <|> (newline *> pure none) <|> (comment *> lineEnd *> pure none)) <* blank

/-- The statements of a document, which may begin with a byte order mark. -/
def statements : Reader (List Statement) := do
  let _ ← optional? (char '\uFEFF')
  blank
  return (← many line).filterMap id

end Toml

end Unescape
