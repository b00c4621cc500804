import Unescape.Mapper

set_option autoImplicit false

/-! # Fragments of a document

A fragment is the decoded text of a range of one literal, together with the place of the literal in
its document. Its mapper counts offsets from the start of the literal; the fragment adds the offset
at which the contents of the literal start, so that it answers in offsets of the document. -/

namespace Unescape

/-- The decoded text of a range of a literal. -/
structure Fragment where
  /-- Document offset at which the contents of the literal start, behind the opening quote. -/
  hostOffset : Nat
  /-- The decoded range of the literal. -/
  range : Span
  mapper : Mapper
  /-- What the range decodes to, up to its first malformed escape. -/
  decoded : Text
  /-- How decoding the range ended, with spans in the literal. -/
  status : Status
deriving DecidableEq, Repr

/-- Computations that use a fragment and report events. -/
abbrev FragmentM := StateT Fragment Logged

namespace Fragment

/-- Decode a range of a literal whose contents start at a document offset. -/
def new (hostOffset : Nat) (literal : Text) (range : Span) (g : Grammar) :
    Logged (Except Error Fragment) := do
  let ((result, chars), mapper) ← ((Mapper.decodeChecked range).run #[]).run (Mapper.new literal g)
  match result with
  | .ok status => return .ok ⟨hostOffset, range, mapper, chars.toList, status⟩
  | .error e => return .error e

/-- Decode all of a literal. -/
def whole (hostOffset : Nat) (literal : Text) (g : Grammar) : Logged (Except Error Fragment) :=
  new hostOffset literal ⟨0, Text.units literal⟩ g

/-- Whether all of the range was decoded. -/
def isComplete (f : Fragment) : Bool := f.status.isComplete

/-- Whether the decoded text is a single line. -/
def isOneLine (f : Fragment) : Bool := f.mapper.isOneLine

/-- Document span of the decoded range. -/
def hostSpan (f : Fragment) : Span := f.range.shift f.hostOffset

/-- Document span of the malformed escape that ended the decode. -/
def malformedSpan? (f : Fragment) : Option Span :=
  f.status.malformed?.map fun m => m.span.shift f.hostOffset

/-- Whether a document offset belongs to the fragment. Its end does, since a cursor in front of the
    closing quote still edits the literal. -/
def contains (f : Fragment) (offset : Nat) : Bool := f.hostSpan.touches offset

/-! ## Offsets of the document -/

/-- Use the mapper of the fragment. -/
def withMapper {α : Type} (x : MapperM α) : FragmentM α := fun f => do
  let (a, mapper) ← x.run f.mapper
  return (a, { f with mapper := mapper })

/-- The document offset of a decoded offset. -/
def toHost (offset : Nat) : FragmentM Nat := do
  let f ← get
  return f.hostOffset + (← withMapper (Mapper.mapToHost offset f.range))

/-- The document span of a decoded span. -/
def spanToHost (span : Span) : FragmentM Span := do
  let start ← toHost span.start
  let stop ← toHost span.stop
  return ⟨start, stop⟩

/-- The decoded offset of a document offset that belongs to the fragment. -/
def hostToDecoded? (offset : Nat) : FragmentM (Option Nat) := do
  let f ← get
  if f.contains offset then
    return some (← withMapper (Mapper.mapToDecoded (offset - f.hostOffset) f.range))
  else return none

end Fragment

end Unescape
