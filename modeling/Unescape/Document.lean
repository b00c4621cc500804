import Unescape.Fragment
import Unescape.Text.LineIndex

set_option autoImplicit false

/-! # Documents with fragments

A document is a text in which some literals have been decoded into fragments. Which literals these
are is the caller's choice; the document decodes them and converts between its own positions and
offsets of the decoded texts. -/

namespace Unescape

/-- A text with the fragments of its literals, in the order in which they were injected. -/
structure Document where
  lineIndex : LineIndex
  fragments : List Fragment
  /-- The number that the editor gave to this state of the text. -/
  version : Int
deriving DecidableEq, Repr

/-- Computations that use a document and report events. -/
abbrev DocumentM := StateT Document Logged

namespace Document

/-- A document without fragments. -/
def new (source : Text) (version : Int) : Document := ⟨LineIndex.ofText source, [], version⟩

/-! ## Fragments -/

/-- Decode a range of the literal whose contents stand at a span of the document, and add it as the
    last fragment. Answers its index. -/
def injectRange (contents range : Span) (g : Grammar) : DocumentM (Except Error Nat) := do
  let d ← get
  match d.lineIndex.slice? contents with
  | none => return .error (.invalidRange contents d.lineIndex.length)
  | some literal =>
    match ← Fragment.new contents.start literal range g with
    | .error e => return .error e
    | .ok f =>
      set { d with fragments := d.fragments ++ [f] }
      return .ok d.fragments.length

/-- Decode all of the literal whose contents stand at a span of the document. -/
def inject (contents : Span) (g : Grammar) : DocumentM (Except Error Nat) :=
  injectRange contents ⟨0, contents.stop - contents.start⟩ g

/-- Drop a fragment; those behind it move up. Without a fragment of that index nothing changes. -/
def removeFragment (d : Document) (index : Nat) : Document :=
  { d with fragments := d.fragments.eraseIdx index }

/-- The first fragment to which a document offset belongs. -/
def fragmentAt? (d : Document) (offset : Nat) : Option Nat :=
  d.fragments.findIdx? (·.contains offset)

/-- Use one of the fragments. -/
def withFragment {α : Type} (index : Nat) (x : FragmentM α) : DocumentM (Option α) := fun d => do
  match d.fragments[index]? with
  | none => return (none, d)
  | some f =>
    let (a, f) ← x.run f
    return (some a, { d with fragments := d.fragments.set index f })

/-! ## Positions -/

/-- The fragment at a position, and the offset in its decoded text. -/
def positionToDecoded? (p : Position) : DocumentM (Option (Nat × Nat)) := do
  let d ← get
  match d.lineIndex.positionToOffset? p with
  | none => return none
  | some offset =>
    match d.fragmentAt? offset with
    | none => return none
    | some index =>
      match ← withFragment index (Fragment.hostToDecoded? offset) with
      | some (some decoded) => return some (index, decoded)
      | _ => return none

/-- The positions of a span of the decoded text of a fragment. -/
def decodedSpanToRange? (index : Nat) (span : Span) : DocumentM (Option PositionRange) := do
  let d ← get
  return (← withFragment index (Fragment.spanToHost span)).map d.lineIndex.spanToRange

end Document

end Unescape
