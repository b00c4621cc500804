import Unescape.Escape.Decode
import Unescape.PartitionPoint

set_option autoImplicit false

/-! # Offset tables

The table of a literal lists, for every unit of the decoded text, the host unit that produced it,
and ends in the sentinel. It answers both questions: `get?` goes from the decoded text to the host,
`decodedIndex` from the host to the decoded text.

Two neighbouring entries are equal when one escape decoded to a character of two units; otherwise
the entries increase, so both directions of the lookup agree. -/

namespace Unescape

/-- Host offsets of the units of a decoded text, the sentinel, and how decoding ended. -/
structure OffsetTable where
  offsets : Array Nat
  status : Status
deriving DecidableEq, Repr

namespace OffsetTable

/-- The table of a literal: decode all of it and keep the offsets. -/
def build (g : Grammar) (t : Text) : OffsetTable :=
  let (out, status) := decode g t Output.recording
  ⟨out.offsets.getD #[], status⟩

/-- The entries are the offsets of the tokens and the sentinel. -/
theorem build_eq (g : Grammar) (t : Text) :
    build g t =
      ⟨(Token.offsetsOf 0 (scan g t).tokens ++ [(scan g t).consumed]).toArray,
        (scan g t).status 0⟩ := by
  simp [build, decode_eq, Output.append, Output.recording]

/-- The host offset of a decoded unit; one past the last unit it is the sentinel. -/
def get? (tbl : OffsetTable) (index : Nat) : Option Nat := tbl.offsets[index]?

/-- The number of entries, with the sentinel. -/
def size (tbl : OffsetTable) : Nat := tbl.offsets.size

/-- Whether there are no entries. A table that was built has at least the sentinel. -/
def isEmpty (tbl : OffsetTable) : Bool := tbl.offsets.isEmpty

/-- The number of decoded units. -/
def decodedLength (tbl : OffsetTable) : Nat := tbl.size - 1

/-- The sentinel: host units that were decoded. -/
def consumed (tbl : OffsetTable) : Nat := tbl.offsets.back?.getD 0

/-- The index of the decoded unit that a host unit produced. Inside an escape it is the first unit
    of what the escape decoded to; past the decoded text it is the index of the sentinel. -/
def decodedIndex (tbl : OffsetTable) (host : Nat) : Nat :=
  match partitionPoint (· ≤ host) tbl.offsets with
  | 0 => 0
  | last + 1 =>
    let entry := tbl.offsets[last]?.getD 0
    partitionPoint (· < entry) tbl.offsets

end OffsetTable

end Unescape
