import Unescape.Toml.Statement

set_option autoImplicit false

/-! # TOML documents

The statements of a document are carried out in order on the table that the document is. A document
that says the same thing twice is refused, as is one that cannot be read. -/

namespace Unescape

namespace Toml

/-- A document that has been carried out up to some statement. -/
structure Progress where
  root : Entries
  /-- The path of the table that was opened last. -/
  opened : List String

/-- Carry out one statement. -/
def Progress.step (p : Progress) : Statement → Option Progress
  | .table k => do
    let root ← p.root.openTable k.path k.last
    return ⟨root, k.path ++ [k.last]⟩
  | .arrayTable k => do
    let root ← p.root.appendTable k.path k.last
    return ⟨root, k.path ++ [k.last]⟩
  | .entry k v => do
    let root ← p.root.updateHeader p.opened (Entries.assign k.path k.last v .header)
    return ⟨root, p.opened⟩

/-- The table of a document. -/
def parse? (t : Text) : Option Entries := do
  let p ← (← statements.run? t).foldlM Progress.step ⟨[], []⟩
  return p.root

end Toml

end Unescape
