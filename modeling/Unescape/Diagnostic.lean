import Unescape.Document

set_option autoImplicit false

/-! # Diagnostics

A malformed escape as an editor shows it: a range of positions in the document, a code, and a
sentence. Decoding a fragment ends at its first malformed escape, so a fragment has at most one
diagnostic. -/

namespace Unescape

/-- How bad a finding is. -/
inductive Severity where
  | error
  | warning
  | information
  | hint
deriving DecidableEq, Repr

/-- A finding at a place of a document. -/
structure Diagnostic where
  range : PositionRange
  severity : Severity
  code : String
  /-- Who reports. -/
  source : String
  message : String
deriving DecidableEq, Repr

/-- The diagnostics of one state of a document, for the editor that shows it. -/
structure Publication where
  uri : String
  diagnostics : List Diagnostic
  version : Int
deriving DecidableEq, Repr

/-- A stable name for what is wrong with an escape. -/
def MalformedKind.code : MalformedKind → String
  | .trailingBackslash => "trailing-backslash"
  | .unknownEscape _ => "unknown-escape"
  | .missingDigits .. => "missing-digits"
  | .loneSurrogate _ => "lone-surrogate"
  | .invalidCodePoint _ => "invalid-code-point"

/-- Who reports malformed escapes. -/
def Diagnostic.escapeSource : String := "literal"

/-- The diagnostic of the malformed escape that ended the decode of a fragment. -/
def Fragment.diagnostic? (f : Fragment) (ix : LineIndex) : Option Diagnostic :=
  match f.status with
  | .complete => none
  | .stopped m =>
    some
      { range := ix.spanToRange (m.span.shift f.hostOffset)
        severity := .error
        code := m.kind.code
        source := Diagnostic.escapeSource
        message := m.kind.message }

namespace Document

/-- The diagnostics of all fragments, in their order. -/
def diagnostics (d : Document) : List Diagnostic :=
  d.fragments.filterMap (·.diagnostic? d.lineIndex)

/-- The diagnostics of a document with its version. -/
def publication (d : Document) (uri : String) : Publication := ⟨uri, d.diagnostics, d.version⟩

end Document

end Unescape
