import Unescape.Proofs.RequestEffects

set_option autoImplicit false

/-! # When a strict lookup is refused

A strict lookup is meant for ranges that were decoded: its error says that no range with that start was.
What it looks at is the baseline of the mapper, and that is the one of the range that was used last,
whatever it was used for. So it is refused exactly unless the last request that used a range used one
with the same start (`tryMapToHost_notDecoded_iff`).

The error is right in a run if the range used last is the only one, by its start, that was decoded. A
range that was decoded is forgotten when another one is used, and a lenient lookup makes its range count
as decoded (`tryMapToHost_forgets`). -/

namespace Unescape

namespace Mapper

variable {g : Grammar} {host : Text}

/-- A request decodes a range with a given start, and is not refused. -/
def Request.Decodes (start : Nat) (m : Mapper) : Request → Prop
  | decode range chars =>
    range.start = start ∧ ∃ r, (((Mapper.decodeRange range).run chars).run m).value.1.1 = .ok r
  | decodeChecked range chars =>
    range.start = start ∧ ∃ r, (((Mapper.decodeChecked range).run chars).run m).value.1.1 = .ok r
  | _ => False

/-- Some request of a run decoded a range with a given start. -/
def HasDecoded (g : Grammar) (host : Text) (requests : List Request) (start : Nat) : Prop :=
  Happens g host (Request.Decodes start) requests

/-- The start of the range that a run uses last. -/
def lastUsedStart? (host : Text) (requests : List Request) : Option Nat :=
  (requests.filterMap (·.usedStart? host)).getLast?

theorem any_baseline_iff (m : Mapper) (start : Nat) :
    m.baseline.any (·.rangeStart = start) = true ↔ m.lastStart? = some start := by
  simp [lastStart?, Option.any_eq_true]

theorem tryToHostFresh_ne_notDecoded (offset : Nat) (range : Span) (start : Nat) :
    tryToHostFresh g host offset range ≠ .error (.notDecoded start) := by
  unfold tryToHostFresh
  repeat' split
  all_goals simp

/-- A strict lookup is refused as not decoded unless the range that was used last begins where its
    range does. -/
theorem value_tryMapToHost_eq_notDecoded_iff {requests : List Request} {offset : Nat} {range : Span}
    {start : Nat} :
    ((tryMapToHost offset range).run (after g host requests)).value.1 = .error (.notDecoded start) ↔
      start = range.start ∧ lastUsedStart? host requests ≠ some range.start := by
  rw [value_tryMapToHost (serves_after g host requests), lastUsedStart?, ← lastStart?_after (g := g),
    ne_eq, ← any_baseline_iff]
  split
  · rename_i hany
    exact iff_of_false (tryToHostFresh_ne_notDecoded offset range start) (fun h => h.2 hany)
  · rename_i hany
    simp only [Except.error.injEq, Error.notDecoded.injEq]
    exact ⟨fun h => ⟨h.symm, hany⟩, fun h => h.1.symm⟩

/-- After a run, a strict lookup is refused as not decoded exactly unless the range that the run used
    last begins where its range does. So the refusal says what was decoded exactly if the start was
    decoded and is the last one used, or neither. -/
theorem tryMapToHost_notDecoded_iff (g : Grammar) (host : Text) (requests : List Request)
    (offset : Nat) (range : Span) :
    (∀ start, ((tryMapToHost offset range).run (after g host requests)).value.1
          = .error (.notDecoded start) ↔
        start = range.start ∧ lastUsedStart? host requests ≠ some range.start) ∧
    ((((tryMapToHost offset range).run (after g host requests)).value.1
            = .error (.notDecoded range.start) ↔
          ¬ HasDecoded g host requests range.start) ↔
      (HasDecoded g host requests range.start ↔
        lastUsedStart? host requests = some range.start)) := by
  refine ⟨fun start => value_tryMapToHost_eq_notDecoded_iff, ?_⟩
  rw [value_tryMapToHost_eq_notDecoded_iff]
  tauto

/-- A range is decoded and then another one: the first one counts as not decoded. A lenient lookup in a
    range that was not decoded: the range counts as decoded. -/
theorem tryMapToHost_forgets :
    (HasDecoded Grammar.java "ab".toList [.decode ⟨0, 2⟩ #[], .decode ⟨1, 2⟩ #[]] 0 ∧
      ((tryMapToHost 0 ⟨0, 2⟩).run (after Grammar.java "ab".toList
        [.decode ⟨0, 2⟩ #[], .decode ⟨1, 2⟩ #[]])).value.1 = .error (.notDecoded 0)) ∧
    (¬ HasDecoded Grammar.java "ab".toList [.toHost 0 ⟨1, 2⟩] 1 ∧
      ((tryMapToHost 0 ⟨1, 2⟩).run (after Grammar.java "ab".toList [.toHost 0 ⟨1, 2⟩])).value.1
        ≠ .error (.notDecoded 1)) := by
  refine ⟨⟨⟨[], _, _, rfl, rfl, ?_⟩, ?_⟩, ?_, ?_⟩
  · exact ((reachable_after _ _ []).decodeRange_eq_ok_iff _ _).2 ⟨"ab".toList, by decide⟩
  · exact value_tryMapToHost_eq_notDecoded_iff.2 ⟨rfl, by decide⟩
  · rintro ⟨before, q, later, h, hdecodes⟩
    have hq : q ∈ [Request.toHost 0 ⟨1, 2⟩] := by simp [h]
    obtain rfl := List.mem_singleton.1 hq
    exact hdecodes
  · intro h
    exact (value_tryMapToHost_eq_notDecoded_iff.1 h).2 rfl

end Mapper

end Unescape
