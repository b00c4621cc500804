import Unescape.PartitionPoint
import Unescape.Text.Span

set_option autoImplicit false

/-! # Lines and positions

Editors name a place in a text by line and column. Lines end at a line feed; a carriage return
directly in front of it belongs to the line end and not to the content of the line. Columns count
UTF-16 units from the start of the line. Both are 32-bit words in what editors send, and larger numbers
are cut to their low 32 bits.

Every offset has a position (`offsetToPosition`). A position may lie behind the content of its line
or between the halves of a character; `positionToOffset?` then rounds down. -/

namespace Unescape

/-- A place in a text; lines and columns count from zero. -/
structure Position where
  line : Nat
  character : Nat
deriving DecidableEq, Repr, Inhabited

/-- The position in 32-bit words. -/
def Position.wrap (p : Position) : Position := ⟨p.line % UInt32.size, p.character % UInt32.size⟩

/-- The places from `start` up to, and without, `stop`. -/
structure PositionRange where
  start : Position
  stop : Position
deriving DecidableEq, Repr, Inhabited

/-- One line of a text. -/
structure Line where
  /-- Offset of the first unit. -/
  start : Nat
  /-- The line without its line end. -/
  content : Text
deriving DecidableEq, Repr

namespace Text

/-- The lines of a text, with carriage returns and without line feeds: the first one, which every
    text has, and the others. -/
def splitLines : Text → Text × List Text
  | [] => ([], [])
  | c :: r =>
    let (first, more) := splitLines r
    if c = '\n' then ([], first :: more) else (c :: first, more)

/-- A line without a carriage return at its end. -/
def trimReturn (line : Text) : Text := if line.getLast? = some '\r' then line.dropLast else line

/-- Give lines their starts. Each but the last ends in a line feed, so only these lose a carriage
    return. -/
def placeLines (start : Nat) : Text → List Text → List Line
  | last, [] => [⟨start, last⟩]
  | line, next :: more => ⟨start, trimReturn line⟩ :: placeLines (start + units line + 1) next more

/-- The lines of a text. -/
def lines (t : Text) : List Line :=
  let (first, more) := splitLines t
  placeLines 0 first more

end Text

/-- A text with its lines. -/
structure LineIndex where
  source : Text
  lines : Array Line
deriving DecidableEq, Repr

namespace LineIndex

/-- Find the lines of a text. -/
def ofText (source : Text) : LineIndex := ⟨source, (Text.lines source).toArray⟩

/-- Length of the text in units. -/
def length (ix : LineIndex) : Nat := Text.units ix.source

/-- Whether the text has no units. -/
def isEmpty (ix : LineIndex) : Bool := ix.length = 0

/-- The line and column of an offset. Offsets behind the text count as its end. -/
def exactPosition (ix : LineIndex) (offset : Nat) : Position :=
  let offset := min offset ix.length
  let line := partitionPoint (·.start ≤ offset) ix.lines - 1
  ⟨line, offset - (ix.lines[line]?.map (·.start)).getD 0⟩

/-- The position of an offset, as it is sent. -/
def offsetToPosition (ix : LineIndex) (offset : Nat) : Position := (ix.exactPosition offset).wrap

/-- The offset of a position, if the line exists. A column behind the content of the line counts as
    its end, one within a character as the start of the character. -/
def positionToOffset? (ix : LineIndex) (p : Position) : Option Nat :=
  ix.lines[p.line]?.map fun l => l.start + Text.units (Text.takeUnits l.content p.character)

/-- The positions of the ends of a span. -/
def spanToRange (ix : LineIndex) (s : Span) : PositionRange :=
  ⟨ix.offsetToPosition s.start, ix.offsetToPosition s.stop⟩

/-- The part of the text that a span names. -/
def slice? (ix : LineIndex) (s : Span) : Option Text := Text.slice? ix.source s

end LineIndex

end Unescape
