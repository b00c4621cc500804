import Unescape.Mapper
import Unescape.Proofs.TableEntries

set_option autoImplicit false

/-! # What a mapper answers

Table and baseline of a mapper are caches. `Serves` says what they stand for: the table is that of
the host, and the baseline is the decoded length of the host in front of its range. Every request
keeps this (`Reachable.serves`), whatever was asked before.

So the answers are functions of host and grammar alone. `lookupFresh`, `toHostFresh` and
`toDecodedFresh` say what they are, without caches; `Answers` relates a computation on mappers to
such an answer. Only a strict lookup depends on the past, through the start of the range that was
used last (`value_tryMapToHost`). -/

namespace Unescape

namespace Mapper

variable {g : Grammar} {host : Text} {α β : Type}

/-! ## The caches -/

/-- A mapper of a host and a grammar whose caches hold what they stand for. -/
structure Serves (g : Grammar) (host : Text) (m : Mapper) : Prop where
  host_eq : m.host = host
  grammar_eq : m.grammar = g
  table_eq : ∀ table, m.table = some table → table = OffsetTable.build g host
  displayStart_eq : ∀ b, m.baseline = some b →
    b.displayStart = decodedUnits g (Text.takeUnits host b.rangeStart)

theorem serves_new (g : Grammar) (host : Text) : Serves g host (new host g) :=
  ⟨rfl, rfl, fun _ h => absurd h (by simp [new]), fun _ h => absurd h (by simp [new])⟩

/-- On every mapper of the host and the grammar a computation has the same answer, and it leaves such
    a mapper. -/
def Answers (g : Grammar) (host : Text) (x : MapperM α) (a : α) : Prop :=
  ∀ m, Serves g host m → (x.run m).value.1 = a ∧ Serves g host (x.run m).value.2

/-- A computation leaves a mapper of the same host and grammar, whatever it answers. -/
def Keeps (g : Grammar) (host : Text) (x : MapperM α) : Prop :=
  ∀ m, Serves g host m → Serves g host (x.run m).value.2

theorem Answers.keeps {x : MapperM α} {a : α} (h : Answers g host x a) : Keeps g host x :=
  fun m hm => (h m hm).2

theorem Answers.pure (a : α) : Answers g host (Pure.pure a) a := fun _ hm => ⟨rfl, hm⟩

theorem Answers.bind {x : MapperM α} {f : α → MapperM β} {a : α} {b : β}
    (hx : Answers g host x a) (hf : Answers g host (f a) b) : Answers g host (x >>= f) b := by
  intro m hm
  obtain ⟨ha, hm'⟩ := hx m hm
  have := hf _ hm'
  rwa [← ha] at this

/-- What a computation does with the mapper itself may only use that its caches are right. -/
theorem Answers.get_bind {f : Mapper → MapperM β} {b : β}
    (hf : ∀ m, Serves g host m → Answers g host (f m) b) : Answers g host (get >>= f) b :=
  fun m hm => hf m hm m hm

theorem Keeps.pure (a : α) : Keeps g host (Pure.pure a) := fun _ hm => hm

theorem Keeps.bind {x : MapperM α} {f : α → MapperM β} (hx : Keeps g host x)
    (hf : ∀ a, Keeps g host (f a)) : Keeps g host (x >>= f) :=
  fun m hm => hf _ _ (hx m hm)

theorem Keeps.emit (e : Event) : Keeps g host (liftM (emit e) : MapperM Unit) := fun _ hm => hm

/-! ## Table and baseline -/

theorem answers_offsetTable : Answers g host offsetTable (OffsetTable.build g host) := by
  rintro ⟨host', g', table, baseline⟩ hm
  obtain ⟨rfl, rfl, htable, hbase⟩ := hm
  cases table with
  | some table =>
    exact ⟨htable table rfl, rfl, rfl, htable, hbase⟩
  | none => exact ⟨rfl, rfl, rfl, fun _ h => (Option.some.inj h).symm, hbase⟩

theorem answers_setBaseline (start : Nat) :
    Answers g host (setBaseline start) (decodedUnits g (Text.takeUnits host start)) := by
  rintro m ⟨rfl, rfl, htable, _⟩
  refine ⟨rfl, rfl, rfl, htable, fun b hb => ?_⟩
  obtain rfl := Option.some.inj hb
  rfl

theorem answers_baselineFor (start : Nat) :
    Answers g host (baselineFor start) (decodedUnits g (Text.takeUnits host start)) := by
  refine Answers.get_bind fun m hm => ?_
  cases hb : m.baseline with
  | none => exact answers_setBaseline start
  | some b =>
    dsimp only
    split
    · rename_i heq
      rw [← heq, ← hm.displayStart_eq b hb]
      exact .pure _
    · exact answers_setBaseline start

/-! ## Answers without caches -/

/-- The host offset of a unit of the text decoded for a range, wherever it lies. -/
def lookupFresh (g : Grammar) (host : Text) (offset : Nat) (range : Span) : Option Nat :=
  match addOffset? offset (decodedUnits g (Text.takeUnits host range.start)) with
  | none => none
  | some index =>
    let table := OffsetTable.build g host
    if table.status.isComplete || index < table.decodedLength then table.get? index
    else
      match Text.slice? host range with
      | none => none
      | some part => ((OffsetTable.build g part).get? offset).map (range.start + ·)

/-- The host offset of a unit of the text decoded for a range, brought into the range. -/
def toHostFresh (g : Grammar) (host : Text) (offset : Nat) (range : Span) : Nat :=
  match lookupFresh g host offset range with
  | some found => if found ≤ range.stop then max found range.start else range.stop
  | none => range.stop

/-- The offset, in the text decoded for a range, of what a host unit decodes to. -/
def toDecodedFresh (g : Grammar) (host : Text) (offset : Nat) (range : Span) : Nat :=
  let offset := min (max offset range.start) range.stop
  let table := OffsetTable.build g host
  if table.status.isComplete || offset < table.consumed then
    table.decodedIndex offset - decodedUnits g (Text.takeUnits host range.start)
  else
    match Text.slice? host range with
    | none => 0
    | some part => (OffsetTable.build g part).decodedIndex (offset - range.start)

theorem Serves.rangeTable?_eq {m : Mapper} (hm : Serves g host m) (range : Span) :
    m.rangeTable? range = (Text.slice? host range).map (OffsetTable.build g) := by
  rw [rangeTable?, hm.host_eq, hm.grammar_eq]

theorem answers_lookup (offset : Nat) (range : Span) :
    Answers g host (lookup offset range) (lookupFresh g host offset range) := by
  refine (answers_baselineFor range.start).bind ?_
  unfold lookupFresh
  cases addOffset? offset (decodedUnits g (Text.takeUnits host range.start)) with
  | none => exact .pure _
  | some index =>
    refine answers_offsetTable.bind ?_
    dsimp only
    split
    · exact .pure _
    · refine Answers.get_bind fun m hm => ?_
      rw [hm.rangeTable?_eq]
      cases Text.slice? host range <;> exact .pure _

theorem answers_mapToHost (offset : Nat) (range : Span) :
    Answers g host (mapToHost offset range) (toHostFresh g host offset range) := by
  refine (answers_lookup offset range).bind ?_
  unfold toHostFresh
  cases lookupFresh g host offset range <;> exact .pure _

theorem answers_mapSpanToHost (span range : Span) :
    Answers g host (mapSpanToHost span range)
      ⟨toHostFresh g host span.start range, toHostFresh g host span.stop range⟩ :=
  (answers_mapToHost span.start range).bind
    ((answers_mapToHost span.stop range).bind (.pure _))

theorem answers_mapToDecoded (offset : Nat) (range : Span) :
    Answers g host (mapToDecoded offset range) (toDecodedFresh g host offset range) := by
  refine (answers_baselineFor range.start).bind (answers_offsetTable.bind ?_)
  unfold toDecodedFresh
  dsimp only
  split
  · exact .pure _
  · refine Answers.get_bind fun m hm => ?_
    rw [hm.rangeTable?_eq]
    cases Text.slice? host range <;> exact .pure _

/-! ## Decoding a range -/

/-- What decoding a range to the end of a buffer answers, and what the buffer holds then. -/
def decodeFresh (g : Grammar) (host : Text) (range : Span) (chars : Array Char) :
    Except Error Status × Array Char :=
  match Text.slice? host range with
  | none => (.error (.invalidRange range (Text.units host)), chars)
  | some part =>
    (.ok ((decode g part (Output.plain chars)).2.shift range.start),
      (decode g part (Output.plain chars)).1.chars)

theorem answers_decodeChecked (range : Span) (chars : Array Char) :
    Answers g host ((decodeChecked range).run chars) (decodeFresh g host range chars) := by
  rw [run_decodeChecked]
  refine Answers.get_bind fun m hm => ?_
  unfold decodeFresh
  rw [hm.host_eq, hm.grammar_eq, hostLength, hm.host_eq]
  cases Text.slice? host range with
  | none => exact .pure _
  | some part =>
    refine answers_offsetTable.bind ((answers_setBaseline range.start).bind ?_)
    dsimp only
    cases (decode g part (Output.plain chars)).2.shift range.start with
    | complete => exact .pure _
    | stopped e => exact fun m hm => ⟨rfl, hm⟩

theorem answers_decodeRange (range : Span) (chars : Array Char) :
    Answers g host ((decodeRange range).run chars)
      ((decodeFresh g host range chars).1.map Status.isComplete,
        (decodeFresh g host range chars).2) := by
  rw [run_decodeRange]
  exact (answers_decodeChecked range chars).bind (.pure _)

/-- The baseline of a range that was decoded is kept. -/
theorem baseline_decodeRange {m : Mapper} (hm : Serves g host m) {range : Span} {part : Text}
    (hpart : Text.slice? host range = some part) (chars : Array Char) :
    (((decodeRange range).run chars).run m).value.2.baseline
      = some ⟨range.start, decodedUnits g (Text.takeUnits host range.start)⟩ := by
  obtain ⟨hhost, hgrammar⟩ : ((offsetTable.run m).value.2).host = host ∧
      ((offsetTable.run m).value.2).grammar = g :=
    ⟨(answers_offsetTable m hm).2.host_eq, (answers_offsetTable m hm).2.grammar_eq⟩
  show (((decodeChecked range).run chars).run m).value.2.baseline = _
  simp only [run_decodeChecked, StateT.run_bind, StateT.run_get, Logged.value_bind,
    Logged.value_pure, hm.host_eq, hpart]
  cases (decode m.grammar part (Output.plain chars)).2.shift range.start with
  | complete =>
    rw [← hhost, ← hgrammar]
    rfl
  | stopped e =>
    rw [← hhost, ← hgrammar]
    rfl

/-! ## Strict lookups -/

/-- What a strict lookup answers in a range whose start was the last one used. -/
def tryToHostFresh (g : Grammar) (host : Text) (offset : Nat) (range : Span) : Except Error Nat :=
  match lookupFresh g host offset range with
  | some found => if range.touches found then .ok found else .error (.offsetOutOfRange offset range)
  | none => .error (.offsetOutOfRange offset range)

/-- A strict lookup is refused unless the start of its range was the last one used. -/
theorem value_tryMapToHost {m : Mapper} (hm : Serves g host m) (offset : Nat) (range : Span) :
    ((tryMapToHost offset range).run m).value.1 =
      if m.baseline.any (·.rangeStart = range.start) then tryToHostFresh g host offset range
      else .error (.notDecoded range.start) := by
  unfold tryMapToHost
  simp only [StateT.run_bind, StateT.run_get, Logged.value_bind, Logged.value_pure]
  cases hb : m.baseline with
  | none => rfl
  | some b =>
    by_cases hstart : b.rangeStart = range.start
    · have hlookup := (answers_lookup offset range m hm).1
      simp only [hstart, if_true, Option.any_some, decide_true, StateT.run_bind, Logged.value_bind,
        hlookup, tryToHostFresh]
      cases lookupFresh g host offset range <;> rfl
    · simp only [hstart, if_false, Option.any_some, decide_false, Bool.false_eq_true]
      rfl

theorem keeps_tryMapToHost (offset : Nat) (range : Span) :
    Keeps g host (tryMapToHost offset range) := by
  intro m hm
  unfold tryMapToHost
  simp only [StateT.run_bind, StateT.run_get, Logged.value_bind, Logged.value_pure]
  cases m.baseline with
  | none => exact hm
  | some b =>
    dsimp only
    split
    · refine (answers_lookup offset range).keeps.bind (fun found => ?_) m hm
      cases found <;> exact .pure _
    · exact hm

/-! ## Requests in any order -/

/-- What a mapper can be asked for. -/
inductive Request where
  | decode (range : Span) (chars : Array Char)
  | decodeChecked (range : Span) (chars : Array Char)
  | toHost (offset : Nat) (range : Span)
  | spanToHost (span range : Span)
  | toDecoded (host : Nat) (range : Span)
  | tryToHost (offset : Nat) (range : Span)
  | table
deriving DecidableEq, Repr

/-- The mapper after a request, whether or not it was refused. -/
def Request.perform (m : Mapper) : Request → Mapper
  | decode range chars => (((Mapper.decodeRange range).run chars).run m).value.2
  | decodeChecked range chars => (((Mapper.decodeChecked range).run chars).run m).value.2
  | toHost offset range => ((mapToHost offset range).run m).value.2
  | spanToHost span range => ((mapSpanToHost span range).run m).value.2
  | toDecoded host range => ((mapToDecoded host range).run m).value.2
  | tryToHost offset range => ((tryMapToHost offset range).run m).value.2
  | table => (offsetTable.run m).value.2

/-- The mappers to which requests lead from a new one. -/
inductive Reachable (g : Grammar) (host : Text) : Mapper → Prop where
  | new : Reachable g host (Mapper.new host g)
  | perform {m : Mapper} (q : Request) : Reachable g host m → Reachable g host (q.perform m)

theorem Serves.perform {m : Mapper} (hm : Serves g host m) (q : Request) :
    Serves g host (q.perform m) := by
  cases q with
  | decode range chars => exact (answers_decodeRange range chars).keeps m hm
  | decodeChecked range chars => exact (answers_decodeChecked range chars).keeps m hm
  | toHost offset range => exact (answers_mapToHost offset range).keeps m hm
  | spanToHost span range => exact (answers_mapSpanToHost span range).keeps m hm
  | toDecoded offset range => exact (answers_mapToDecoded offset range).keeps m hm
  | tryToHost offset range => exact keeps_tryMapToHost offset range m hm
  | table => exact answers_offsetTable.keeps m hm

/-- Whatever was asked before, the caches hold what they stand for. -/
theorem Reachable.serves {m : Mapper} (h : Reachable g host m) : Serves g host m := by
  induction h with
  | new => exact serves_new g host
  | perform q _ ih => exact ih.perform q

/-- The ranges that are decoded are those that name a part of the host. -/
theorem Reachable.decodeRange_eq_ok_iff {m : Mapper} (h : Reachable g host m) (range : Span)
    (chars : Array Char) :
    (∃ r, (((decodeRange range).run chars).run m).value.1.1 = .ok r) ↔
      ∃ part, Text.slice? host range = some part := by
  rw [(answers_decodeRange range chars m h.serves).1, decodeFresh]
  cases Text.slice? host range <;> simp [Except.map]

end Mapper

end Unescape
