import Unescape.Proofs.MapperAnswers

set_option autoImplicit false

/-! # Caches are not seen

A mapper keeps its table and the baseline of one range, and any request may build the one or replace
the other, also a request that is refused. After every sequence of requests both are what they stand
for (`Reachable.serves`), so whatever is asked next is answered as on a mapper that was asked nothing
before (`caches_after`). A strict lookup is the exception: it looks at the baseline to tell whether the
range was used. -/

namespace Unescape

namespace Mapper

variable {g : Grammar} {host : Text} {α : Type}

/-- The mapper after a sequence of requests. -/
def after (g : Grammar) (host : Text) (requests : List Request) : Mapper :=
  requests.foldl Request.perform (new host g)

theorem Reachable.foldl {m : Mapper} (h : Reachable g host m) (requests : List Request) :
    Reachable g host (requests.foldl Request.perform m) := by
  induction requests generalizing m with
  | nil => exact h
  | cons q requests ih => exact ih (.perform q h)

theorem reachable_after (g : Grammar) (host : Text) (requests : List Request) :
    Reachable g host (after g host requests) :=
  Reachable.new.foldl requests

/-- What does not depend on the caches is answered as by a new mapper. -/
theorem Answers.value_eq_new {x : MapperM α} {a : α} (hx : Answers g host x a) {m : Mapper}
    (hm : Serves g host m) : (x.run m).value.1 = (x.run (new host g)).value.1 :=
  (hx m hm).1.trans (hx _ (serves_new g host)).1.symm

/-- After any requests the caches hold what they stand for, and all that can be asked, strict lookups
    apart, is answered as by a new mapper. -/
theorem caches_after (g : Grammar) (host : Text) (requests : List Request) :
    ((after g host requests).table = none ∨
      (after g host requests).table = some (OffsetTable.build g host)) ∧
    ((after g host requests).baseline = none ∨
      ∃ start, (after g host requests).baseline
        = some ⟨start, decodedUnits g (Text.takeUnits host start)⟩) ∧
    (∀ range chars, (((decodeRange range).run chars).run (after g host requests)).value.1
      = (((decodeRange range).run chars).run (new host g)).value.1) ∧
    (∀ range chars, (((decodeChecked range).run chars).run (after g host requests)).value.1
      = (((decodeChecked range).run chars).run (new host g)).value.1) ∧
    (∀ offset range, ((mapToHost offset range).run (after g host requests)).value.1
      = ((mapToHost offset range).run (new host g)).value.1) ∧
    (∀ span range, ((mapSpanToHost span range).run (after g host requests)).value.1
      = ((mapSpanToHost span range).run (new host g)).value.1) ∧
    (∀ offset range, ((mapToDecoded offset range).run (after g host requests)).value.1
      = ((mapToDecoded offset range).run (new host g)).value.1) ∧
    (offsetTable.run (after g host requests)).value.1
      = (offsetTable.run (new host g)).value.1 := by
  have hm := (reachable_after g host requests).serves
  refine ⟨?_, ?_, fun range chars => (answers_decodeRange range chars).value_eq_new hm,
    fun range chars => (answers_decodeChecked range chars).value_eq_new hm,
    fun offset range => (answers_mapToHost offset range).value_eq_new hm,
    fun span range => (answers_mapSpanToHost span range).value_eq_new hm,
    fun offset range => (answers_mapToDecoded offset range).value_eq_new hm,
    answers_offsetTable.value_eq_new hm⟩
  · cases htable : (after g host requests).table with
    | none => exact .inl rfl
    | some table => exact .inr (congrArg some (hm.table_eq table htable))
  · cases hbaseline : (after g host requests).baseline with
    | none => exact .inl rfl
    | some b =>
      refine .inr ⟨b.rangeStart, ?_⟩
      rw [← hm.displayStart_eq b hbaseline]

end Mapper

end Unescape
