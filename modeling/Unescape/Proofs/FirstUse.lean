import Unescape.Proofs.RequestEffects

set_option autoImplicit false

/-! # The first use of a mapper

A new mapper has no table; the first request that needs it builds it, and it stays. Every request that is
not refused needs it, with one exception: a lookup from the decoded text to the host gives up before it
looks at the table if the index of its unit is no offset (`Request.Overflows`). So a mapper that was used
has its table unless all that it was used for are lookups that overflow
(`phase_after_eq_indexed_iff`). -/

namespace Unescape

namespace Mapper

variable {g : Grammar} {host : Text} {requests : List Request}

/-- A request that should leave a mapper with its table: a decode that is not refused, a lookup in either
    direction, and asking for the table itself. Strict lookups only look where another request was. -/
def Request.Uses (m : Mapper) : Request → Prop
  | decode range chars => ∃ r, (((Mapper.decodeRange range).run chars).run m).value.1.1 = .ok r
  | decodeChecked range chars => ∃ r, (((Mapper.decodeChecked range).run chars).run m).value.1.1 = .ok r
  | tryToHost _ _ => False
  | _ => True

/-- A lenient lookup whose units have no index in the table. -/
def Request.Overflows (g : Grammar) (host : Text) : Request → Prop
  | toHost offset range => ¬ HasIndex g host offset range
  | spanToHost span range => ¬ HasIndex g host span.start range ∧ ¬ HasIndex g host span.stop range
  | _ => False

theorem value_decodeChecked_eq_ok_iff {m : Mapper} (hm : Serves g host m) (range : Span)
    (chars : Array Char) :
    (∃ r, (((decodeChecked range).run chars).run m).value.1.1 = .ok r) ↔
      (Text.slice? host range).isSome = true := by
  rw [(answers_decodeChecked range chars m hm).1, decodeFresh]
  cases Text.slice? host range <;> simp

theorem value_decodeRange_eq_ok_iff {m : Mapper} (hm : Serves g host m) (range : Span)
    (chars : Array Char) :
    (∃ r, (((decodeRange range).run chars).run m).value.1.1 = .ok r) ↔
      (Text.slice? host range).isSome = true := by
  rw [(answers_decodeRange range chars m hm).1, decodeFresh]
  cases Text.slice? host range <;> simp [Except.map]

namespace Request

/-- A request that uses a mapper builds the table or overflows. -/
theorem Uses.builds_or_overflows {m : Mapper} (hm : Serves g host m) {q : Request} (h : q.Uses m) :
    q.builds g host m = true ∨ q.Overflows g host := by
  cases q with
  | decode range chars => exact .inl ((value_decodeRange_eq_ok_iff hm range chars).1 h)
  | decodeChecked range chars => exact .inl ((value_decodeChecked_eq_ok_iff hm range chars).1 h)
  | toHost offset range =>
    by_cases hindex : HasIndex g host offset range
    · exact .inl (decide_eq_true hindex)
    · exact .inr hindex
  | spanToHost span range =>
    by_cases hindex : HasIndex g host span.start range ∨ HasIndex g host span.stop range
    · exact .inl (by simpa [builds] using hindex)
    · exact .inr (not_or.1 hindex)
  | toDecoded offset range => exact .inl rfl
  | tryToHost offset range => exact h.elim
  | table => exact .inl rfl

/-- A request that uses a range uses the mapper. -/
theorem uses_of_usedStart? {m : Mapper} (hm : Serves g host m) {q : Request} {start : Nat}
    (h : q.usedStart? host = some start) : q.Uses m := by
  cases q with
  | decode range chars =>
    obtain ⟨part, hpart, -⟩ := Option.map_eq_some_iff.1 h
    exact (value_decodeRange_eq_ok_iff hm range chars).2 (by rw [hpart]; rfl)
  | decodeChecked range chars =>
    obtain ⟨part, hpart, -⟩ := Option.map_eq_some_iff.1 h
    exact (value_decodeChecked_eq_ok_iff hm range chars).2 (by rw [hpart]; rfl)
  | toHost offset range => trivial
  | spanToHost span range => trivial
  | toDecoded offset range => trivial
  | tryToHost offset range => exact absurd h (by simp [usedStart?])
  | table => trivial

/-- A request that builds the table uses the mapper, or it is a strict lookup in a range that was used
    before. -/
theorem uses_of_builds {m : Mapper} (hm : Serves g host m) {q : Request}
    (h : q.builds g host m = true) : q.Uses m ∨ m.lastStart?.isSome = true := by
  cases q with
  | decode range chars => exact .inl ((value_decodeRange_eq_ok_iff hm range chars).2 h)
  | decodeChecked range chars => exact .inl ((value_decodeChecked_eq_ok_iff hm range chars).2 h)
  | toHost offset range => exact .inl trivial
  | spanToHost span range => exact .inl trivial
  | toDecoded offset range => exact .inl trivial
  | tryToHost offset range =>
    obtain ⟨hlast, -⟩ := Bool.and_eq_true_iff.1 h
    exact .inr (by rw [of_decide_eq_true hlast]; rfl)
  | table => exact .inl trivial

end Request

/-- A mapper in which a range was used is one that was used. -/
theorem happens_uses_of_lastStart? (h : (after g host requests).lastStart?.isSome = true) :
    Happens g host (fun m q => q.Uses m) requests := by
  obtain ⟨start, hstart⟩ := Option.isSome_iff_exists.1 h
  rw [lastStart?_after] at hstart
  obtain ⟨q, hq, hused⟩ := List.mem_filterMap.1 (List.mem_of_getLast? hstart)
  obtain ⟨before, later, rfl⟩ := List.append_of_mem hq
  exact ⟨before, q, later, rfl, Request.uses_of_usedStart? (serves_after g host before) hused⟩

/-- A mapper with a table was used. -/
theorem happens_uses_of_isSome_table (h : (after g host requests).table.isSome = true) :
    Happens g host (fun m q => q.Uses m) requests := by
  obtain ⟨before, q, later, rfl, hbuilds⟩ := isSome_table_after_iff.1 h
  rcases Request.uses_of_builds (serves_after g host before) hbuilds with huses | hlast
  · exact ⟨before, q, later, rfl, huses⟩
  · obtain ⟨before', q', later', rfl, huses⟩ := happens_uses_of_lastStart? hlast
    exact ⟨before', q', later' ++ q :: later, by simp, huses⟩

theorem phase_eq_indexed_iff (m : Mapper) : m.phase = .indexed ↔ m.table.isSome = true := by
  unfold phase
  split <;> simp_all

/-- After a run a mapper has its table exactly if some request of the run needed it; it keeps the table,
    and reports building it once. It has been used then. If it has been used and has no table, then no
    request needed the table, and each of those that used the mapper is a lookup that overflows. -/
theorem phase_after_eq_indexed_iff (g : Grammar) (host : Text) (requests : List Request) :
    ((after g host requests).phase = .indexed ↔
      Happens g host (fun m q => q.builds g host m = true) requests) ∧
    (∀ more, (after g host requests).phase = .indexed →
      (after g host (requests ++ more)).phase = .indexed) ∧
    (reported (new host g) requests).filter Event.isIndexing =
      (if (after g host requests).phase = .indexed then [.indexing g.name (Text.units host)] else []) ∧
    (((after g host requests).phase = .indexed ↔ Happens g host (fun m q => q.Uses m) requests) ↔
      (Happens g host (fun m q => q.Uses m) requests →
        Happens g host (fun m q => q.builds g host m = true) requests)) ∧
    ((after g host requests).phase = .fresh →
      ∀ before q later, requests = before ++ q :: later → q.Uses (after g host before) →
        q.Overflows g host) := by
  have hphase : ∀ requests, (after g host requests).phase = .indexed ↔
      Happens g host (fun m q => q.builds g host m = true) requests := by
    intro requests
    rw [phase_eq_indexed_iff, isSome_table_after_iff]
  refine ⟨hphase requests, ?_, ?_, ?_, ?_⟩
  · intro more h
    obtain ⟨before, q, later, rfl, hbuilds⟩ := (hphase requests).1 h
    exact (hphase _).2 ⟨before, q, later ++ more, by simp, hbuilds⟩
  · rw [indexings_reported]
    simp only [phase_eq_indexed_iff]
  · rw [hphase requests]
    refine ⟨fun h => h.2, fun h => ⟨fun hbuilds => ?_, h⟩⟩
    exact happens_uses_of_isSome_table (isSome_table_after_iff.2 hbuilds)
  · intro hfresh before q later hrequests huses
    rcases huses.builds_or_overflows (serves_after g host before) with hbuilds | hoverflows
    · have hindexed := (hphase requests).2 ⟨before, q, later, hrequests, hbuilds⟩
      rw [hfresh] at hindexed
      exact absurd hindexed (by decide)
    · exact hoverflows

/-- A lookup that overflows, and then a strict one that does not: the strict one builds the table. -/
theorem phase_after_eq_indexed_iff_strict :
    (after Grammar.java "ab".toList [.toHost 18446744073709551615 ⟨1, 2⟩, .tryToHost 0 ⟨1, 2⟩]).phase
        = .indexed ∧
      (after Grammar.java "ab".toList
        [.toHost 18446744073709551615 ⟨1, 2⟩, .tryToHost 0 ⟨1, 2⟩, .table]).phase = .indexed ∧
      (reported (new "ab".toList Grammar.java)
          [.toHost 18446744073709551615 ⟨1, 2⟩, .tryToHost 0 ⟨1, 2⟩]).filter Event.isIndexing
        = [.indexing "java" 2] := by
  obtain ⟨hphase, hstays, hevents, -, -⟩ := phase_after_eq_indexed_iff Grammar.java "ab".toList
    [.toHost 18446744073709551615 ⟨1, 2⟩, .tryToHost 0 ⟨1, 2⟩]
  have hindexed := hphase.2 ⟨[.toHost 18446744073709551615 ⟨1, 2⟩], .tryToHost 0 ⟨1, 2⟩, [], rfl,
    by decide +kernel⟩
  refine ⟨hindexed, hstays [.table] hindexed, ?_⟩
  rw [hevents, if_pos hindexed]
  rfl

/-- A lookup whose index overflows uses a mapper and leaves it without its table. -/
theorem phase_fresh_of_overflow :
    Happens Grammar.java "ab".toList (fun m q => q.Uses m) [.toHost 18446744073709551615 ⟨1, 2⟩] ∧
      (after Grammar.java "ab".toList [.toHost 18446744073709551615 ⟨1, 2⟩]).phase = .fresh :=
  ⟨⟨[], _, [], rfl, trivial⟩, by decide +kernel⟩

end Mapper

end Unescape
