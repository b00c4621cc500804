import Unescape.Event
import Unescape.OffsetTable

set_option autoImplicit false

/-! # Mapping between a range of a literal and its decoded text

A mapper holds the contents of one literal, the *host*. It decodes ranges of the host and maps
offsets of the text decoded for a range to the host and back.

The offset table covers the whole literal and is built once, at first use. To find a unit of a
range in it, the mapper adds the *baseline* of the range: the length of what the host before the
range decodes to. A table that ends at a malformed escape says nothing about the text behind it;
there the mapper decodes the range on its own.

Table and baseline are caches. They never change what an operation answers, except that a strict
lookup (`tryMapToHost`) is refused until a range with the same start was the last one used. -/

namespace Unescape

/-- Where a range starts, in the host and in the decoded text of the whole literal. -/
structure Baseline where
  rangeStart : Nat
  displayStart : Nat
deriving DecidableEq, Repr

/-- A literal with what is known about it so far. -/
structure Mapper where
  /-- The contents of the literal, without its quotes. -/
  host : Text
  grammar : Grammar
  /-- The offset table of the whole literal, once it was needed. -/
  table : Option OffsetTable
  /-- The baseline of the range that was used last. -/
  baseline : Option Baseline
deriving DecidableEq, Repr

/-- Computations that use a mapper and report events. -/
abbrev MapperM := StateT Mapper Logged

/-- Computations that write to a buffer of the caller as well. The buffer is there at the end of every
    run, also of one that fails. -/
abbrev BufferedM := StateT (Array Char) MapperM

/-- Offsets are 64-bit words. -/
def offsetLimit : Nat := UInt64.size

/-- The sum of two offsets, if it is an offset. -/
def addOffset? (a b : Nat) : Option Nat := if a + b < offsetLimit then some (a + b) else none

/-- The length of what a text decodes to, up to its first malformed escape. -/
def decodedUnits (g : Grammar) (t : Text) : Nat :=
  Text.units (decode g t (Output.plain #[])).1.chars.toList

namespace Mapper

/-- A mapper that knows nothing yet. -/
def new (host : Text) (grammar : Grammar) : Mapper := ⟨host, grammar, none, none⟩

/-- Whether the offset table exists. -/
inductive Phase where
  | fresh
  | indexed
deriving DecidableEq, Repr

/-- Whether the mapper has its table. -/
def phase (m : Mapper) : Phase := if m.table.isSome then .indexed else .fresh

/-- Length of the host in units. -/
def hostLength (m : Mapper) : Nat := Text.units m.host

/-- Whether decoded text of the literal is a single line. -/
def isOneLine (m : Mapper) : Bool := m.grammar.oneLine

/-- The decoded length in front of the range that was used last. -/
def displayStart? (m : Mapper) : Option Nat := m.baseline.map (·.displayStart)

/-- The decoded length of the host in front of an offset. A prefix that stops inside an escape
    counts with what it decodes to. -/
def prefixLength (m : Mapper) (offset : Nat) : Nat :=
  decodedUnits m.grammar (Text.takeUnits m.host offset)

/-- The offset table of a range decoded on its own. -/
def rangeTable? (m : Mapper) (range : Span) : Option OffsetTable :=
  (Text.slice? m.host range).map (OffsetTable.build m.grammar)

/-! ## The caches -/

/-- The offset table of the whole literal, built if there is none yet. -/
def offsetTable : MapperM OffsetTable := do
  let m ← get
  match m.table with
  | some table => return table
  | none =>
    emit (.indexing m.grammar.name m.hostLength)
    let table := OffsetTable.build m.grammar m.host
    set { m with table := some table }
    return table

/-- Compute and keep the baseline of a range. -/
def setBaseline (rangeStart : Nat) : MapperM Nat := do
  let m ← get
  let displayStart := m.prefixLength rangeStart
  set { m with baseline := some ⟨rangeStart, displayStart⟩ }
  return displayStart

/-- The baseline of a range, computed anew unless it is the one that was kept. -/
def baselineFor (rangeStart : Nat) : MapperM Nat := do
  match (← get).baseline with
  | some b => if b.rangeStart = rangeStart then return b.displayStart else setBaseline rangeStart
  | none => setBaseline rangeStart

/-! ## Decoding a range -/

/-- Decode a range of the host to the end of the buffer. A malformed escape ends the decode; its span
    is given in the host. A range that is no part of the host is refused. -/
def decodeChecked (range : Span) : BufferedM (Except Error Status) := do
  let m ← getThe Mapper
  match Text.slice? m.host range with
  | none => return .error (.invalidRange range m.hostLength)
  | some part =>
    let _ ← offsetTable
    let _ ← setBaseline range.start
    let (out, ended) := decode m.grammar part (Output.plain (← get))
    set out.chars
    let status := ended.shift range.start
    match status with
    | .complete => pure ()
    | .stopped e => emit (.malformed e.kind m.grammar.name e.span)
    return .ok status

/-- Decode a range of the host to the end of the buffer, and say whether all of it was decoded. -/
def decodeRange (range : Span) : BufferedM (Except Error Bool) := do
  return (← decodeChecked range).map Status.isComplete

/-- Decoding a range, with the buffer passed from step to step. -/
theorem run_decodeChecked (range : Span) (chars : Array Char) :
    (decodeChecked range).run chars = (do
      let m ← get
      match Text.slice? m.host range with
      | none => return (.error (.invalidRange range m.hostLength), chars)
      | some part =>
        let _ ← offsetTable
        let _ ← setBaseline range.start
        let (out, ended) := decode m.grammar part (Output.plain chars)
        let status := ended.shift range.start
        match status with
        | .complete => pure ()
        | .stopped e => emit (.malformed e.kind m.grammar.name e.span)
        return (.ok status, out.chars)) := by
  have hget : (getThe Mapper : BufferedM Mapper).run chars = do return (← get, chars) := rfl
  simp only [decodeChecked, StateT.run_bind, hget, bind_assoc, pure_bind]
  refine bind_congr fun m => ?_
  cases Text.slice? m.host range with
  | none => rfl
  | some part =>
    simp only [StateT.run_bind, StateT.run_get, StateT.run_set, StateT.run_monadLift, bind_assoc,
      pure_bind]
    refine bind_congr fun _ => bind_congr fun _ => ?_
    cases (decode m.grammar part (Output.plain chars)).2.shift range.start with
    | complete => rfl
    | stopped e => simp

theorem run_decodeRange (range : Span) (chars : Array Char) :
    (decodeRange range).run chars = (do
      let (result, chars) ← (decodeChecked range).run chars
      return (result.map Status.isComplete, chars)) := rfl

/-! ## From decoded text to the host -/

/-- The host offset of a unit of the text decoded for a range, wherever it lies. -/
def lookup (offset : Nat) (range : Span) : MapperM (Option Nat) := do
  let displayStart ← baselineFor range.start
  match addOffset? offset displayStart with
  | none => return none
  | some index =>
    let table ← offsetTable
    if table.status.isComplete || index < table.decodedLength then return table.get? index
    else
      -- The literal stopped at a malformed escape in front of this unit.
      let m ← get
      match m.rangeTable? range with
      | none => return none
      | some part => return (part.get? offset).map (range.start + ·)

/-- The host offset of a unit of the text decoded for a range. It never leaves the range: a unit
    behind the decoded text, or one that the host has behind the range, is mapped to the end of the
    range, and one that the host has in front of the range to its start. -/
def mapToHost (offset : Nat) (range : Span) : MapperM Nat := do
  match ← lookup offset range with
  | some host => return if host ≤ range.stop then max host range.start else range.stop
  | none => return range.stop

/-- The host offset of a unit of the text decoded for a range, refused where `mapToHost` would have
    to guess. -/
def tryMapToHost (offset : Nat) (range : Span) : MapperM (Except Error Nat) := do
  match (← get).baseline with
  | none => return .error (.notDecoded range.start)
  | some b =>
    if b.rangeStart = range.start then
      match ← lookup offset range with
      | some host =>
        return if range.touches host then .ok host else .error (.offsetOutOfRange offset range)
      | none => return .error (.offsetOutOfRange offset range)
    else return .error (.notDecoded range.start)

/-- The host span of a span of the text decoded for a range. -/
def mapSpanToHost (span : Span) (range : Span) : MapperM Span := do
  let start ← mapToHost span.start range
  let stop ← mapToHost span.stop range
  return ⟨start, stop⟩

/-! ## From the host to decoded text -/

/-- The offset, in the text decoded for a range, of what a host unit decodes to. Host offsets
    outside the range count as its ends. -/
def mapToDecoded (host : Nat) (range : Span) : MapperM Nat := do
  let displayStart ← baselineFor range.start
  let host := min (max host range.start) range.stop
  let table ← offsetTable
  if table.status.isComplete || host < table.consumed then
    return table.decodedIndex host - displayStart
  else
    let m ← get
    match m.rangeTable? range with
    | none => return 0
    | some part => return part.decodedIndex (host - range.start)

end Mapper

end Unescape
