import Unescape.Proofs.CheckedDecode
import Unescape.Proofs.FragmentPlaces

set_option autoImplicit false

/-! # The mapping operations, step by step

A mapping operation takes any offset and any range: reversed, behind the host, with ends inside a
character. It does not look at the range first, so each of its steps has to be safe for a reason of its
own. The prefix in front of a range ends where a character begins; the sum of an offset and a baseline is
tried before it is used; a range is decoded alone only after the bytes of its ends were found and compared,
and only then its start is added to or taken from an offset (`rangeTable?_eq`).

`Evaluates` says that a step-by-step operation meets no trap and is otherwise the plain one: same answer,
same mapper, same events. It holds of all four operations on every mapper, also one whose caches are
wrong (`Mapper.mapping_evaluates`). -/

namespace Unescape

/-- Computations on a mapper that may meet a trap. -/
abbrev CheckedM := ExceptT Trap MapperM

namespace Checked

/-- A step that does not involve the mapper. -/
def step {α : Type} (x : Checked α) : CheckedM α := ExceptT.mk (pure x)

/-! ## Tables -/

/-- The table of a text. The room for its entries is measured first: one for each byte, and the
    sentinel. -/
def buildTable (g : Grammar) (t : Text) : Checked OffsetTable := do
  let _ ← add (Text.bytes t) 1
  let (out, status) ← decodeText g t Output.recording
  pure ⟨out.offsets.getD #[], status⟩

/-- Look a host offset up in a table. -/
def decodedIndex (tbl : OffsetTable) (host : Nat) : Checked Nat :=
  match partitionPoint (· ≤ host) tbl.offsets with
  | 0 => pure 0
  | last + 1 =>
    match tbl.offsets[last]? with
    | some entry => pure (partitionPoint (· < entry) tbl.offsets)
    | none => throw .badIndex

/-- The decoded length of the host in front of an offset. -/
def prefixLength (m : Mapper) (offset : Nat) : Checked Nat := do
  let stop ← byteFloorFrom offset 0 0 m.host
  let front ← slice m.host 0 stop
  let (out, _) ← decodeText m.grammar front (Output.plain #[])
  unitsFrom 0 out.chars.toList

/-- The bytes of the ends of a range, if the range is a part of the host. -/
def byteRange? (host : Text) (range : Span) : Checked (Option (Nat × Nat)) := do
  let start ← byteIndexFrom range.start 0 0 host
  let stop ← byteIndexFrom range.stop 0 0 host
  match start, stop with
  | some start, some stop => pure (if start ≤ stop then some (start, stop) else none)
  | _, _ => pure none

/-- The table of a range decoded on its own. -/
def rangeTable? (m : Mapper) (range : Span) : Checked (Option OffsetTable) := do
  match ← byteRange? m.host range with
  | none => pure none
  | some (start, stop) => do
    let part ← slice m.host start stop
    let table ← buildTable m.grammar part
    pure (some table)

/-! ## Operations on a mapper -/

/-- The table of the whole literal, built if there is none yet. -/
def offsetTable : CheckedM OffsetTable := do
  let m ← get
  match m.table with
  | some table => return table
  | none =>
    emit (.indexing m.grammar.name m.hostLength)
    let table ← step (buildTable m.grammar m.host)
    set { m with table := some table }
    return table

/-- Compute and keep the baseline of a range. -/
def setBaseline (rangeStart : Nat) : CheckedM Nat := do
  let m ← get
  let displayStart ← step (prefixLength m rangeStart)
  set { m with baseline := some ⟨rangeStart, displayStart⟩ }
  return displayStart

/-- The baseline of a range. -/
def baselineFor (rangeStart : Nat) : CheckedM Nat := do
  let m ← get
  match m.baseline with
  | some b => if b.rangeStart = rangeStart then return b.displayStart else setBaseline rangeStart
  | none => setBaseline rangeStart

/-- The host offset of a unit of the text decoded for a range, wherever it lies. -/
def lookup (offset : Nat) (range : Span) : CheckedM (Option Nat) := do
  let displayStart ← baselineFor range.start
  match addOffset? offset displayStart with
  | none => return none
  | some index =>
    let table ← offsetTable
    if table.status.isComplete || index < table.decodedLength then return table.get? index
    else
      let m ← get
      match ← step (rangeTable? m range) with
      | none => return none
      | some part =>
        match part.get? offset with
        | none => return none
        | some host =>
          let found ← step (add range.start host)
          return some found

/-- The host offset of a unit of the text decoded for a range. -/
def mapToHost (offset : Nat) (range : Span) : CheckedM Nat := do
  match ← lookup offset range with
  | some host => return if host ≤ range.stop then max host range.start else range.stop
  | none => return range.stop

/-- The same, refused where the range is not the last one used or the host offset is not in it. -/
def tryMapToHost (offset : Nat) (range : Span) : CheckedM (Except Error Nat) := do
  let m ← get
  match m.baseline with
  | none => return .error (.notDecoded range.start)
  | some b =>
    if b.rangeStart = range.start then
      match ← lookup offset range with
      | some host =>
        return if range.touches host then .ok host else .error (.offsetOutOfRange offset range)
      | none => return .error (.offsetOutOfRange offset range)
    else return .error (.notDecoded range.start)

/-- The host span of a span of the text decoded for a range. -/
def mapSpanToHost (span : Span) (range : Span) : CheckedM Span := do
  let start ← mapToHost span.start range
  let stop ← mapToHost span.stop range
  return ⟨start, stop⟩

/-- The offset, in the text decoded for a range, of what a host unit decodes to. The baseline may be
    larger than the index; that difference is cut off at zero and has no trap. -/
def mapToDecoded (host : Nat) (range : Span) : CheckedM Nat := do
  let displayStart ← baselineFor range.start
  let host := min (max host range.start) range.stop
  let table ← offsetTable
  if table.status.isComplete || host < table.consumed then
    let index ← step (decodedIndex table host)
    return index - displayStart
  else
    let m ← get
    match ← step (rangeTable? m range) with
    | none => return 0
    | some part =>
      let offset ← step (sub host range.start)
      step (decodedIndex part offset)

/-! ## Tables that meet no trap -/

variable {g : Grammar} {t : Text} {m : Mapper} {range : Span}

theorem buildTable_eq (h : Text.bytes t + 1 < offsetLimit) :
    buildTable g t = pure (OffsetTable.build g t) := by
  have hunits := Text.units_le_bytes t
  rw [buildTable, add_eq h, pure_bind, decodeText_eq _ (by omega)]
  rfl

/-- A search never points behind the entries. -/
theorem decodedIndex_eq (tbl : OffsetTable) (host : Nat) :
    decodedIndex tbl host = pure (tbl.decodedIndex host) := by
  have hle := partitionPoint_le (· ≤ host) tbl.offsets
  unfold decodedIndex OffsetTable.decodedIndex
  cases hpoint : partitionPoint (· ≤ host) tbl.offsets with
  | zero => rfl
  | succ last =>
    have hlt : last < tbl.offsets.size := by omega
    dsimp only
    rw [Array.getElem?_eq_getElem hlt]
    rfl

theorem prefixLength_eq (h : Text.bytes m.host + 1 < offsetLimit) (offset : Nat) :
    prefixLength m offset = pure (m.prefixLength offset) := by
  have hunits := Text.units_le_bytes m.host
  have hfront := Text.units_takeUnits_le_units m.host offset
  have hdecoded := Mapper.decodedUnits_le m.grammar (Text.takeUnits m.host offset)
  unfold decodedUnits at hdecoded
  have hslice : slice m.host 0 (Text.byteFloor m.host offset) = pure (Text.takeUnits m.host offset) := by
    have happ := slice_append [] (Text.takeUnits m.host offset) (Text.dropUnits m.host offset)
    rwa [List.nil_append, Text.takeUnits_append_dropUnits] at happ
  rw [prefixLength, byteFloorFrom_eq (by omega) (by omega) (Nat.zero_le _), pure_bind, Nat.zero_add,
    Nat.sub_zero, hslice, pure_bind, decodeText_eq _ (by omega), pure_bind]
  dsimp only
  rw [unitsFrom_eq (by omega), Nat.zero_add]
  rfl

theorem byteIndexFrom_zero (h : Text.bytes t + 1 < offsetLimit) (offset : Nat) :
    byteIndexFrom offset 0 0 t = pure (Text.byteIndex? t offset) := by
  have hunits := Text.units_le_bytes t
  rw [byteIndexFrom_eq (by omega) (by omega) (Nat.zero_le _), Nat.sub_zero]
  simp

/-- The bytes of the ends are found, and found to be in order, exactly if the range is a part of the
    host. -/
theorem byteRange?_eq (h : Text.bytes t + 1 < offsetLimit) (range : Span) :
    (Text.slice? t range = none ∧ byteRange? t range = pure none) ∨
    ∃ p part q, t = p ++ part ++ q ∧ Text.slice? t range = some part ∧
      byteRange? t range = pure (some (Text.bytes p, Text.bytes (p ++ part))) := by
  rw [byteRange?, byteIndexFrom_zero h, byteIndexFrom_zero h, pure_bind, pure_bind]
  cases hslice : Text.slice? t range with
  | none =>
    refine .inl ⟨rfl, ?_⟩
    have hnames : ¬ range.Names t := by simp [Span.names_iff_slice?, hslice]
    rw [Span.names_iff_byteIndex?] at hnames
    split
    · rename_i a b ha hb
      rw [if_neg fun hle => hnames ⟨a, b, ha, hb, hle⟩]
    · rfl
  | some part =>
    obtain ⟨p, q, rfl, hstart, hstop⟩ := Text.exists_byteIndex?_of_slice? hslice
    refine .inr ⟨p, part, q, rfl, rfl, ?_⟩
    rw [hstart, hstop]
    dsimp only
    rw [if_pos (by rw [Text.bytes_append]; exact Nat.le_add_right _ _)]

theorem rangeTable?_eq (h : Text.bytes m.host + 1 < offsetLimit) (range : Span) :
    rangeTable? m range = pure (m.rangeTable? range) := by
  unfold rangeTable? Mapper.rangeTable?
  rcases byteRange?_eq h range with ⟨hslice, hbytes⟩ | ⟨p, part, q, hhost, hslice, hbytes⟩
  · rw [hslice, hbytes]
    rfl
  · have hpart : Text.bytes part ≤ Text.bytes m.host := by
      rw [hhost, Text.bytes_append, Text.bytes_append]
      omega
    rw [hslice, hbytes, pure_bind]
    dsimp only
    rw [hhost, slice_append, pure_bind, buildTable_eq (by omega)]
    rfl

theorem start_le_of_rangeTable? {part : OffsetTable} (h : m.rangeTable? range = some part) :
    range.start ≤ range.stop := by
  obtain ⟨text, hslice, -⟩ := Option.map_eq_some_iff.1 h
  exact ((Text.slice?_eq_some_iff _ _ _).1 hslice).1

/-- An entry of the table of a range can be moved to where the range starts. -/
theorem start_add_lt {part : OffsetTable} (h : Text.bytes m.host + 1 < offsetLimit)
    (hpart : m.rangeTable? range = some part) {offset host : Nat} (hget : part.get? offset = some host) :
    range.start + host < offsetLimit := by
  obtain ⟨text, hslice, rfl⟩ := Option.map_eq_some_iff.1 hpart
  obtain ⟨hle, p, q, hhost, hp, hunits⟩ := (Text.slice?_eq_some_iff _ _ _).1 hslice
  rw [get?_build] at hget
  have hentry := le_consumed_of_mem_entries _ _ (List.mem_of_getElem? hget)
  have hconsumed := consumed_scan_le m.grammar text
  have hbytes := Text.units_le_bytes m.host
  rw [hhost, Text.units_append, Text.units_append] at hbytes
  rw [← hhost] at hbytes
  omega

/-! ## Operations that meet no trap -/

/-- From a mapper the step-by-step computation meets no trap, and is otherwise the plain one: it has the
    same answer, leaves the same mapper and reports the same events. -/
def Evaluates {α : Type} (x : CheckedM α) (y : MapperM α) (m : Mapper) : Prop :=
  x.run.run m = ⟨(.ok (y.run m).value.1, (y.run m).value.2), (y.run m).events⟩

/-- A computation evaluates on every mapper of a host, and leaves such a mapper. -/
def Agrees {α : Type} (host : Text) (x : CheckedM α) (y : MapperM α) : Prop :=
  ∀ m, m.host = host → Evaluates x y m ∧ (y.run m).value.2.host = host

section Agrees

variable {α β : Type} {host : Text}

theorem Agrees.pure (a : α) : Agrees host (Pure.pure a) (Pure.pure a) := fun _ hm => ⟨rfl, hm⟩

theorem Agrees.bind {x : CheckedM α} {y : MapperM α} {f : α → CheckedM β} {h : α → MapperM β}
    (hx : Agrees host x y) (hf : ∀ a, Agrees host (f a) (h a)) : Agrees host (x >>= f) (y >>= h) := by
  intro m hm
  obtain ⟨hrun, hhost⟩ := hx m hm
  obtain ⟨hrun', hhost'⟩ := hf (y.run m).value.1 _ hhost
  refine ⟨?_, hhost'⟩
  unfold Evaluates at hrun hrun' ⊢
  rw [ExceptT.run_bind, StateT.run_bind, hrun]
  have hvalue := congrArg Logged.value hrun'
  have hevents := congrArg ((y.run m).events ++ ·) (congrArg Logged.events hrun')
  exact Logged.ext_iff.2 ⟨hvalue, hevents⟩

theorem Agrees.get_bind {f : Mapper → CheckedM β} {h : Mapper → MapperM β}
    (hf : ∀ m, m.host = host → Agrees host (f m) (h m)) : Agrees host (get >>= f) (get >>= h) :=
  fun m hm => hf m hm m hm

theorem Agrees.step_bind {x : Checked α} {a : α} (hx : x = Pure.pure a) {f : α → CheckedM β} {y : MapperM β}
    (hf : Agrees host (f a) y) : Agrees host (step x >>= f) y := by
  subst hx
  exact hf

theorem Agrees.set {m : Mapper} (hm : m.host = host) : Agrees host (MonadStateOf.set m) (MonadStateOf.set m) :=
  fun _ _ => ⟨rfl, hm⟩

theorem Agrees.emit (e : Event) :
    Agrees host (liftM (Unescape.emit e) : CheckedM Unit) (liftM (Unescape.emit e) : MapperM Unit) :=
  fun _ hm => ⟨rfl, hm⟩

theorem agrees_offsetTable (hfit : Text.bytes host + 1 < offsetLimit) :
    Agrees host offsetTable Mapper.offsetTable := by
  refine Agrees.get_bind ?_
  intro m hm
  cases m.table with
  | some table => exact .pure table
  | none =>
    refine (Agrees.emit _).bind ?_
    intro _
    refine Agrees.step_bind (buildTable_eq (by rwa [hm])) ?_
    dsimp only
    refine Agrees.bind (Agrees.set hm) ?_
    intro _
    exact .pure _

theorem agrees_setBaseline (hfit : Text.bytes host + 1 < offsetLimit) (rangeStart : Nat) :
    Agrees host (setBaseline rangeStart) (Mapper.setBaseline rangeStart) := by
  refine Agrees.get_bind ?_
  intro m hm
  refine Agrees.step_bind (prefixLength_eq (by rwa [hm]) rangeStart) ?_
  dsimp only
  refine Agrees.bind (Agrees.set hm) ?_
  intro _
  exact .pure _

theorem agrees_baselineFor (hfit : Text.bytes host + 1 < offsetLimit) (rangeStart : Nat) :
    Agrees host (baselineFor rangeStart) (Mapper.baselineFor rangeStart) := by
  refine Agrees.get_bind ?_
  intro m hm
  cases m.baseline with
  | none => exact agrees_setBaseline hfit rangeStart
  | some b =>
    dsimp only
    split
    · exact .pure b.displayStart
    · exact agrees_setBaseline hfit rangeStart

theorem agrees_lookup (hfit : Text.bytes host + 1 < offsetLimit) (offset : Nat) (range : Span) :
    Agrees host (lookup offset range) (Mapper.lookup offset range) := by
  refine (agrees_baselineFor hfit range.start).bind ?_
  intro displayStart
  cases addOffset? offset displayStart with
  | none => exact .pure none
  | some index =>
    refine (agrees_offsetTable hfit).bind ?_
    intro table
    split
    · exact .pure _
    · refine Agrees.get_bind ?_
      intro m hm
      refine Agrees.step_bind (rangeTable?_eq (by rwa [hm]) range) ?_
      cases hpart : m.rangeTable? range with
      | none => exact .pure none
      | some part =>
        dsimp only
        cases hget : part.get? offset with
        | none => exact .pure none
        | some found =>
          refine Agrees.step_bind (add_eq (start_add_lt (by rwa [hm]) hpart hget)) ?_
          exact .pure (some (range.start + found))

theorem agrees_mapToHost (hfit : Text.bytes host + 1 < offsetLimit) (offset : Nat) (range : Span) :
    Agrees host (mapToHost offset range) (Mapper.mapToHost offset range) := by
  refine (agrees_lookup hfit offset range).bind ?_
  intro found
  cases found <;> exact .pure _

theorem agrees_mapSpanToHost (hfit : Text.bytes host + 1 < offsetLimit) (span range : Span) :
    Agrees host (mapSpanToHost span range) (Mapper.mapSpanToHost span range) := by
  refine (agrees_mapToHost hfit span.start range).bind ?_
  intro start
  exact (agrees_mapToHost hfit span.stop range).bind fun stop => .pure _

theorem agrees_tryMapToHost (hfit : Text.bytes host + 1 < offsetLimit) (offset : Nat) (range : Span) :
    Agrees host (tryMapToHost offset range) (Mapper.tryMapToHost offset range) := by
  refine Agrees.get_bind ?_
  intro m hm
  cases m.baseline with
  | none => exact .pure _
  | some b =>
    dsimp only
    split
    · refine (agrees_lookup hfit offset range).bind ?_
      intro found
      cases found <;> exact .pure _
    · exact .pure _

theorem agrees_mapToDecoded (hfit : Text.bytes host + 1 < offsetLimit) (offset : Nat) (range : Span) :
    Agrees host (mapToDecoded offset range) (Mapper.mapToDecoded offset range) := by
  refine (agrees_baselineFor hfit range.start).bind ?_
  intro displayStart
  refine (agrees_offsetTable hfit).bind ?_
  intro table
  split
  · exact Agrees.step_bind (decodedIndex_eq table _) (.pure _)
  · refine Agrees.get_bind ?_
    intro m hm
    refine Agrees.step_bind (rangeTable?_eq (by rwa [hm]) range) ?_
    cases hpart : m.rangeTable? range with
    | none => exact .pure 0
    | some part =>
      -- A range with a table of its own is not reversed, so what is brought into it is not before it.
      have hle := start_le_of_rangeTable? hpart
      refine Agrees.step_bind (sub_eq (by omega)) ?_
      rw [decodedIndex_eq]
      exact .pure _

end Agrees

end Checked

namespace Mapper

/-- Whatever the caches hold, mapping to the host does not leave a range that is not reversed. -/
theorem value_mapToHost_mem (m : Mapper) (offset : Nat) {range : Span} (hle : range.start ≤ range.stop) :
    range.start ≤ ((mapToHost offset range).run m).value.1 ∧
      ((mapToHost offset range).run m).value.1 ≤ range.stop := by
  rw [mapToHost, StateT.run_bind, Logged.value_bind]
  cases ((lookup offset range).run m).value.1 with
  | none => exact ⟨hle, Nat.le_refl _⟩
  | some found => exact ite_max_mem hle found

/-- The mapping operations take any offsets and any range, on any mapper. No sum they evaluate is too
    large for a word, no difference is below zero, no slice begins or ends inside a character, and they
    answer as the plain operations do; and mapping to the host answers within the range, if that is not
    reversed. The host is a text whose bytes a word can count. -/
theorem mapping_evaluates (m : Mapper) (hfit : Text.bytes m.host + 1 < offsetLimit) (offset : Nat)
    (span range : Span) :
    Checked.Evaluates (Checked.mapToHost offset range) (mapToHost offset range) m ∧
    Checked.Evaluates (Checked.mapSpanToHost span range) (mapSpanToHost span range) m ∧
    Checked.Evaluates (Checked.mapToDecoded offset range) (mapToDecoded offset range) m ∧
    Checked.Evaluates (Checked.tryMapToHost offset range) (tryMapToHost offset range) m ∧
    (range.start ≤ range.stop →
      range.start ≤ ((mapToHost offset range).run m).value.1 ∧
      ((mapToHost offset range).run m).value.1 ≤ range.stop) := by
  refine ⟨?_, ?_, ?_, ?_, value_mapToHost_mem m offset⟩
  · exact (Checked.agrees_mapToHost hfit offset range m rfl).1
  · exact (Checked.agrees_mapSpanToHost hfit span range m rfl).1
  · exact (Checked.agrees_mapToDecoded hfit offset range m rfl).1
  · exact (Checked.agrees_tryMapToHost hfit offset range m rfl).1

/-- The largest offset, in a range that begins inside a character and ends behind the host; the host is
    malformed. -/
theorem mapping_evaluates_inside_char :
    Text.bytes (new "a😀\\q".toList Grammar.java).host + 1 < offsetLimit ∧
    Checked.Evaluates (Checked.mapToHost 18446744073709551615 ⟨2, 9⟩)
      (mapToHost 18446744073709551615 ⟨2, 9⟩) (new "a😀\\q".toList Grammar.java) ∧
    Checked.Evaluates (Checked.mapSpanToHost ⟨1, 18446744073709551615⟩ ⟨2, 9⟩)
      (mapSpanToHost ⟨1, 18446744073709551615⟩ ⟨2, 9⟩) (new "a😀\\q".toList Grammar.java) ∧
    Checked.Evaluates (Checked.mapToDecoded 18446744073709551615 ⟨2, 9⟩)
      (mapToDecoded 18446744073709551615 ⟨2, 9⟩) (new "a😀\\q".toList Grammar.java) ∧
    Checked.Evaluates (Checked.tryMapToHost 18446744073709551615 ⟨2, 9⟩)
      (tryMapToHost 18446744073709551615 ⟨2, 9⟩) (new "a😀\\q".toList Grammar.java) ∧
    2 ≤ ((mapToHost 18446744073709551615 ⟨2, 9⟩).run (new "a😀\\q".toList Grammar.java)).value.1 ∧
    ((mapToHost 18446744073709551615 ⟨2, 9⟩).run (new "a😀\\q".toList Grammar.java)).value.1 ≤ 9 := by
  have hfit : Text.bytes (new "a😀\\q".toList Grammar.java).host + 1 < offsetLimit := by decide +kernel
  obtain ⟨hhost, hspan, hdecoded, hstrict, hrange⟩ := mapping_evaluates
    (new "a😀\\q".toList Grammar.java) hfit 18446744073709551615 ⟨1, 18446744073709551615⟩ ⟨2, 9⟩
  exact ⟨hfit, hhost, hspan, hdecoded, hstrict, hrange (by decide)⟩

end Mapper

end Unescape
