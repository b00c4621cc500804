import Unescape.Proofs.CutRange

set_option autoImplicit false

/-! # Strict lookups

A strict lookup refuses a unit that the host has outside the range, but it does not ask whether the
range on its own has the unit at all. It is exact in a range exactly if every unit that the table of
the literal places in the range is a unit of the table of the range, at the same place
(`PlacesAlike`).

If the range starts at an aligned offset, all of this is decided at its end, by the token that begins
in the range or where the range ends, and ends behind it: the range on its own must have the units
of that token which the literal has in the range (`KeepsLastUnits`). An escape that decodes to a
character of two units has both at its backslash. Where the range ends at that backslash, the second
unit is behind the decoded text and is not refused. -/

namespace Unescape

namespace Mapper

variable {g : Grammar} {host part q : Text} {range : Span}

/-- Every unit that the literal places in a range, counted from the start of the range, is a unit
    that the range on its own has at that place. -/
def PlacesAlike (g : Grammar) (host : Text) (range : Span) (part : Text) : Prop :=
  ∀ i h, Covers g host (i + decodedUnits g (Text.takeUnits host range.start)) →
    (OffsetTable.build g host).get? (i + decodedUnits g (Text.takeUnits host range.start)) = some h →
    range.start ≤ h → h ≤ range.stop →
    (OffsetTable.build g part).get? i = some (h - range.start)

/-- The token `tok` of a literal, which stands behind `ts`, ends behind a range and begins no later
    than where the range ends. -/
def Crosses (g : Grammar) (host : Text) (range : Span) (ts : List Token) (tok : Token) : Prop :=
  (∃ us, (scan g host).tokens = ts ++ tok :: us) ∧ Text.units (Token.textOf ts) ≤ range.stop ∧
    range.stop < Text.units (Token.textOf ts) + Text.units tok.text

/-- Of a token that ends behind a range, the range on its own has the units that the literal has in
    the range. -/
def KeepsLastUnits (g : Grammar) (host : Text) (range : Span) (part : Text) : Prop :=
  ∀ ts tok, Crosses g host range ts tok → ∀ n h : Nat,
    (tok.offsets (Text.units (Token.textOf ts)))[n]? = some h → h ≤ range.stop →
    (OffsetTable.build g part).get? (Text.units (Token.charsOf ts) + n
      - decodedUnits g (Text.takeUnits host range.start)) = some (h - range.start)

/-! ## What a strict lookup accepts -/

theorem tryToHostFresh_eq_ok_iff {i h : Nat} :
    tryToHostFresh g host i range = .ok h ↔
      lookupFresh g host i range = some h ∧ range.start ≤ h ∧ h ≤ range.stop := by
  unfold tryToHostFresh
  cases lookupFresh g host i range with
  | none => simp
  | some found =>
    dsimp only
    split
    · rename_i htouches
      simp only [Span.touches, Bool.and_eq_true, decide_eq_true_eq] at htouches
      simp only [Except.ok.injEq, Option.some.injEq]
      constructor
      · rintro rfl
        exact ⟨rfl, htouches⟩
      · exact fun h => h.1
    · rename_i htouches
      simp only [Span.touches, Bool.and_eq_true, decide_eq_true_eq] at htouches
      simp only [reduceCtorEq, Option.some.injEq, false_iff]
      rintro ⟨rfl, hin⟩
      exact htouches hin

/-- Strict lookups in a range that was just decoded are not refused for the range. -/
theorem value_tryMapToHost_decodeRange {m : Mapper} (hm : Serves g host m)
    (hpart : Text.slice? host range = some part) (chars : Array Char) (i : Nat) :
    ((tryMapToHost i range).run (((decodeRange range).run chars).run m).value.2).value.1
      = tryToHostFresh g host i range := by
  rw [value_tryMapToHost ((answers_decodeRange range chars).keeps m hm),
    baseline_decodeRange hm hpart, if_pos (by simp)]

/-- What the table of the literal places in the range is all that can be answered wrongly; where the
    literal stopped, the table of the range answers itself. -/
theorem tryToHostFresh_exact_iff (hfit : Text.units host < offsetLimit)
    (hpart : Text.slice? host range = some part) :
    (∀ i h, tryToHostFresh g host i range = .ok h →
        i ≤ (OffsetTable.build g part).decodedLength ∧
        ∃ o, (OffsetTable.build g part).get? i = some o ∧ h = range.start + o) ↔
      PlacesAlike g host range part := by
  constructor
  · intro hexact i h hcovers hget hle hle'
    rw [← lookupFresh_of_covers hfit hcovers] at hget
    obtain ⟨-, o, ho, rfl⟩ := hexact i h (tryToHostFresh_eq_ok_iff.2 ⟨hget, hle, hle'⟩)
    rw [ho, Nat.add_sub_cancel_left]
  · -- Only what comes from the table of the literal needs `PlacesAlike`.
    intro halike i h hok
    obtain ⟨hlookup, hle, hle'⟩ := tryToHostFresh_eq_ok_iff.1 hok
    have hget : ∃ o, (OffsetTable.build g part).get? i = some o ∧ h = range.start + o := by
      by_cases hcovers : Covers g host (i + decodedUnits g (Text.takeUnits host range.start))
      · rw [lookupFresh_of_covers hfit hcovers] at hlookup
        exact ⟨h - range.start, halike i h hcovers hlookup hle hle', by omega⟩
      · rw [lookupFresh_of_not_covers hfit hpart hcovers] at hlookup
        obtain ⟨o, ho, rfl⟩ := Option.map_eq_some_iff.1 hlookup
        exact ⟨o, ho, rfl⟩
    obtain ⟨o, ho, rfl⟩ := hget
    exact ⟨le_decodedLength_of_get? ho, o, ho, rfl⟩

/-! ## The end of a range -/

/-- The units that `part` and `q` together place in `part` are units of `part` alone. -/
def SameUnits (g : Grammar) (part q : Text) : Prop :=
  ∀ i o, Covers g (part ++ q) i → (scan g (part ++ q)).entries[i]? = some o → o ≤ Text.units part →
    (scan g part).entries[i]? = some o

theorem placesAlike_iff_of_fronts {ts : List Token} (hfronts : Fronts g ts (part ++ q))
    (hstart : range.start = Text.units (Token.textOf ts))
    (hstop : range.stop = Text.units (Token.textOf ts) + Text.units part) :
    PlacesAlike g (Token.textOf ts ++ (part ++ q)) range part ↔ SameUnits g part q := by
  unfold PlacesAlike SameUnits
  rw [hstart, hstop, decodedUnits_takeUnits_of_fronts hfronts]
  constructor
  · intro halike i o hcovers hget hle
    have hsame := halike i (Text.units (Token.textOf ts) + o)
      (by rw [Nat.add_comm i]; exact (covers_add_iff hfronts i).2 hcovers)
      (by rw [get?_build, Nat.add_comm i, hfronts.getElem?_entries_add, hget]; rfl)
      (by omega) (by omega)
    rwa [get?_build, Nat.add_sub_cancel_left] at hsame
  · intro hsame i h hcovers hget hle hle'
    rw [Nat.add_comm i] at hcovers hget
    rw [get?_build, hfronts.getElem?_entries_add] at hget
    obtain ⟨o, ho, rfl⟩ := Option.map_eq_some_iff.1 hget
    rw [get?_build, Nat.add_sub_cancel_left]
    exact hsame i o ((covers_add_iff hfronts i).1 hcovers) ho (by omega)

/-- Whole tokens at the front of a range are the same in both tables. -/
theorem sameUnits_append_iff {ms : List Token} {v : Text} (hfronts : Fronts g ms (v ++ q)) :
    SameUnits g (Token.textOf ms ++ v) q ↔ SameUnits g v q := by
  unfold SameUnits
  rw [List.append_assoc, Text.units_append]
  constructor
  · intro hsame i o hcovers hget hle
    have happ := hsame (Text.units (Token.charsOf ms) + i) (Text.units (Token.textOf ms) + o)
      ((covers_add_iff hfronts i).2 hcovers)
      (by rw [hfronts.getElem?_entries_add, hget]; rfl) (by omega)
    rw [hfronts.left.getElem?_entries_add] at happ
    obtain ⟨o', ho', heq⟩ := Option.map_eq_some_iff.1 happ
    obtain rfl : o' = o := by omega
    exact ho'
  · intro hsame i o hcovers hget hle
    by_cases hi : i < Text.units (Token.charsOf ms)
    · rw [hfronts.getElem?_entries_of_lt hi] at hget
      rw [hfronts.left.getElem?_entries_of_lt hi, hget]
    · obtain ⟨j, rfl⟩ := Nat.exists_eq_add_of_le (Nat.le_of_not_lt hi)
      rw [hfronts.getElem?_entries_add] at hget
      obtain ⟨o, ho, rfl⟩ := Option.map_eq_some_iff.1 hget
      rw [hfronts.left.getElem?_entries_add,
        hsame j o ((covers_add_iff hfronts j).1 hcovers) ho (by omega)]
      rfl

/-- Where no token ends, the units of the token that is cut decide. -/
theorem sameUnits_iff_of_cutsFirst {v : Text} (hcut : CutsFirst g v q) :
    SameUnits g v q ↔ ∀ (tok : Token) (us : List Token), (scan g (v ++ q)).tokens = tok :: us →
      ∀ n o : Nat, (tok.offsets 0)[n]? = some o → o ≤ Text.units v →
        (scan g v).entries[n]? = some o := by
  constructor
  · intro hsame tok us htokens n o hn hle
    have hlt := (List.getElem?_eq_some_iff.1 hn).1
    refine hsame n o (covers_iff.2 (.inr ?_)) ?_ hle
    · have hproper : tok.Proper := proper_tokens g (v ++ q) tok (by simp [htokens])
      rw [Token.length_offsets hproper] at hlt
      rw [htokens, Token.charsOf_cons, Text.units_cons]
      omega
    · obtain ⟨es, hes, -⟩ := exists_entries_eq_append g _ htokens
      rw [hes, List.getElem?_append_left hlt, hn]
  · intro hkeeps i o hcovers hget hle
    cases htokens : (scan g (v ++ q)).tokens with
    | nil =>
      -- Without tokens there is only the sentinel, in front.
      have hzero : i = 0 ∧ o = 0 := by
        rw [Scan.entries, Scan.consumed, htokens] at hget
        cases i with
        | zero => simpa [Token.offsetsOf, eq_comm] using hget
        | succ i => simp [Token.offsetsOf] at hget
      obtain ⟨es, hes⟩ := (scan g v).exists_entries_eq_cons
      simp [hes, hzero]
    | cons tok us =>
      obtain ⟨es, hentries, hbehind⟩ := exists_entries_eq_append g _ htokens
      rw [hentries] at hget
      by_cases hi : i < (tok.offsets 0).length
      · rw [List.getElem?_append_left hi] at hget
        exact hkeeps tok us htokens i o hget hle
      · -- The entries behind the token are behind the cut.
        exfalso
        have hlt := hcut.units_lt htokens
        rw [List.getElem?_append_right (by omega)] at hget
        have := hbehind o (List.mem_of_getElem? hget)
        omega

/-- The token that ends behind a range is the first one behind the tokens that end in the range. -/
theorem crosses_iff_of_fronts {fs : List Token} {v : Text} (hfronts : Fronts g fs (v ++ q))
    (hcut : CutsFirst g v q) (hstop : range.stop = Text.units (Token.textOf fs) + Text.units v)
    (ts : List Token) (tok : Token) :
    Crosses g (Token.textOf fs ++ (v ++ q)) range ts tok ↔
      ts = fs ∧ ∃ us, (scan g (v ++ q)).tokens = tok :: us := by
  unfold Crosses
  rw [hfronts.scan_append, Scan.tokens_prepend, hstop]
  constructor
  · rintro ⟨⟨us, htokens⟩, hle, hlt⟩
    rcases List.append_eq_append_iff.1 htokens with ⟨ms, rfl, hms⟩ | ⟨ms, rfl, hms⟩
    · cases ms with
      | nil => exact ⟨List.append_nil fs, us, hms⟩
      | cons tok' ms =>
        -- The first token behind `fs` ends behind the range, so `tok` would begin there.
        exfalso
        have := hcut.units_lt hms
        simp only [Token.textOf_append, Token.textOf_cons, Text.units_append] at hle
        omega
    · cases ms with
      | nil => exact ⟨(List.append_nil ts).symm, us, hms.symm⟩
      | cons tok' ms =>
        -- The tokens `fs` end in the range, so `tok` would as well.
        exfalso
        obtain ⟨rfl, -⟩ := List.cons.inj hms
        simp only [Token.textOf_append, Token.textOf_cons, Text.units_append] at hlt
        omega
  · rintro ⟨rfl, us, htokens⟩
    have := hcut.units_lt htokens
    exact ⟨⟨us, by rw [htokens]⟩, by omega, by omega⟩

theorem keepsLastUnits_iff_of_fronts {ts ms : List Token} {v : Text}
    (hfronts : Fronts g ts (Token.textOf ms ++ (v ++ q))) (hms : Fronts g ms (v ++ q))
    (hcut : CutsFirst g v q) (hstart : range.start = Text.units (Token.textOf ts))
    (hstop : range.stop = Text.units (Token.textOf (ts ++ ms)) + Text.units v) :
    KeepsLastUnits g (Token.textOf (ts ++ ms) ++ (v ++ q)) range (Token.textOf ms ++ v) ↔
      ∀ (tok : Token) (us : List Token), (scan g (v ++ q)).tokens = tok :: us →
        ∀ n o : Nat, (tok.offsets 0)[n]? = some o → o ≤ Text.units v →
          (scan g v).entries[n]? = some o := by
  have hcrosses := crosses_iff_of_fronts (hfronts.append hms) hcut hstop
  have hbase : decodedUnits g (Text.takeUnits (Token.textOf (ts ++ ms) ++ (v ++ q)) range.start)
      = Text.units (Token.charsOf ts) := by
    rw [hstart, Token.textOf_append, List.append_assoc, decodedUnits_takeUnits_of_fronts hfronts]
  -- The table of the range counts from behind `ts`.
  have hget : ∀ n, (OffsetTable.build g (Token.textOf ms ++ v)).get?
        (Text.units (Token.charsOf (ts ++ ms)) + n - Text.units (Token.charsOf ts))
      = ((scan g v).entries[n]?).map (Text.units (Token.textOf ms) + ·) := by
    intro n
    have hindex : Text.units (Token.charsOf (ts ++ ms)) + n - Text.units (Token.charsOf ts)
        = Text.units (Token.charsOf ms) + n := by
      rw [Token.charsOf_append, Text.units_append]
      omega
    rw [hindex, get?_build, hms.left.getElem?_entries_add]
  have htext : Text.units (Token.textOf (ts ++ ms))
      = Text.units (Token.textOf ts) + Text.units (Token.textOf ms) := by
    rw [Token.textOf_append, Text.units_append]
  unfold KeepsLastUnits
  rw [hbase]
  constructor
  · intro hkeeps tok us htokens n o hn hle
    have hentry := hkeeps (ts ++ ms) tok ((hcrosses _ _).2 ⟨rfl, us, htokens⟩) n
      (o + Text.units (Token.textOf (ts ++ ms)))
      (by rw [Token.offsets_eq_map, List.getElem?_map, hn]; rfl) (by omega)
    rw [hget] at hentry
    obtain ⟨o', ho', heq⟩ := Option.map_eq_some_iff.1 hentry
    obtain rfl : o' = o := by omega
    exact ho'
  · intro hsame ts' tok hcross n h hn hle
    obtain ⟨rfl, us, htokens⟩ := (hcrosses _ _).1 hcross
    rw [Token.offsets_eq_map, List.getElem?_map] at hn
    obtain ⟨o, ho, rfl⟩ := Option.map_eq_some_iff.1 hn
    rw [hget, hsame tok us htokens n o ho (by omega)]
    simp only [Option.map_some, Option.some.injEq]
    omega

/-! ## Ranges that start at an aligned offset -/

/-- Around the end of a range that starts at a boundary, the literal has tokens in front of the range,
    tokens in the range, and a piece in which no token ends. -/
theorem exists_cut_of_isBoundary (hpart : Text.slice? host range = some part)
    (hstart : IsBoundary g host range.start) :
    ∃ ts ms v q, host = Token.textOf (ts ++ ms) ++ (v ++ q) ∧ part = Token.textOf ms ++ v ∧
      Fronts g ts (Token.textOf ms ++ (v ++ q)) ∧ Fronts g ms (v ++ q) ∧ CutsFirst g v q ∧
      range.start = Text.units (Token.textOf ts) ∧
      range.stop = Text.units (Token.textOf (ts ++ ms)) + Text.units v := by
  obtain ⟨ts, q, rfl, hfronts, hstart_eq, hstop⟩ := exists_fronts_of_isBoundary hpart hstart
  obtain ⟨ms, v, rfl, hms, hcut⟩ := exists_fronts_append g part q
  rw [List.append_assoc] at hfronts
  refine ⟨ts, ms, v, q, by simp, rfl, hfronts, hms, hcut, hstart_eq, ?_⟩
  rw [hstop, Token.textOf_append, Text.units_append, Text.units_append, Nat.add_assoc]

/-- No token crosses the end of a range behind the place where the literal stopped. -/
theorem not_crosses_of_stopsBefore (hpart : Text.slice? host range = some part)
    (hstart : StopsBefore g host range.start) (ts : List Token) (tok : Token) :
    ¬ Crosses g host range ts tok := by
  rintro ⟨⟨us, htokens⟩, hle, hlt⟩
  obtain ⟨-, hconsumed⟩ := stopsBefore_iff.1 hstart
  obtain ⟨-, -, -, -, hstop⟩ := Text.exists_of_slice?_eq_some hpart
  rw [Scan.consumed, htokens, Token.textOf_append, Token.textOf_cons, Text.units_append,
    Text.units_append] at hconsumed
  omega

theorem placesAlike_iff_of_isAligned (hpart : Text.slice? host range = some part)
    (hstart : IsAligned g host range.start) :
    PlacesAlike g host range part ↔ KeepsLastUnits g host range part := by
  rcases hstart with hboundary | hstopped
  · obtain ⟨ts, ms, v, q, rfl, rfl, hfronts, hms, hcut, hstart, hstop⟩ :=
      exists_cut_of_isBoundary hpart hboundary
    rw [keepsLastUnits_iff_of_fronts hfronts hms hcut hstart hstop, ← sameUnits_iff_of_cutsFirst hcut,
      ← sameUnits_append_iff hms]
    rw [Token.textOf_append, Text.units_append] at hstop
    rw [Token.textOf_append, List.append_assoc, ← List.append_assoc (Token.textOf ms)]
    exact placesAlike_iff_of_fronts (by rwa [List.append_assoc]) hstart
      (by rw [hstop, Text.units_append, Nat.add_assoc])
  · -- The table of the literal is used for no unit, and no token crosses.
    exact iff_of_true (fun i h hcovers => absurd hcovers (not_covers_of_stopsBefore hpart hstopped i))
      (fun ts tok hcross => absurd hcross (not_crosses_of_stopsBefore hpart hstopped ts tok))

/-- In a grammar that is safe to cut, an escape that decodes to two units is nothing when it is cut. -/
theorem entries_of_cutsFirst (hg : CutSafe g) {v : Text} (hcut : CutsFirst g v q) {tok : Token}
    {us : List Token} (htokens : (scan g (v ++ q)).tokens = tok :: us)
    (hunits : 1 < unitsOf tok.char) : (scan g v).entries = [0] := by
  by_cases hv : v = []
  · rw [hv]
    simp [Scan.entries, Scan.consumed, Token.offsetsOf]
  · obtain ⟨v, w, after, rfl, hw, rfl, hread, htext⟩ :=
      exists_readEscape_of_cutsFirst hv hcut htokens
    rcases Token.readEscape_of_cut hg hread htext hw with ⟨f, hf⟩ | ⟨c, -, -, hone⟩
    · rw [scan_of_error ((Token.read_backslash g v).trans hf)]
      rfl
    · omega

theorem sameUnits_iff_of_cutSafe (hg : CutSafe g) {v : Text} (hcut : CutsFirst g v q) :
    SameUnits g v q ↔ ∀ (tok : Token) (us : List Token), (scan g (v ++ q)).tokens = tok :: us →
      ∀ o ∈ (tok.offsets 0).tail, Text.units v < o := by
  rw [sameUnits_iff_of_cutsFirst hcut]
  constructor
  · intro hsame tok us htokens o ho
    obtain ⟨n, hn⟩ := List.mem_iff_getElem?.1 ho
    rw [List.getElem?_tail] at hn
    have hlen := (List.getElem?_eq_some_iff.1 hn).1
    rw [Token.length_offsets (proper_tokens g (v ++ q) tok (by simp [htokens]))] at hlen
    refine Nat.lt_of_not_le fun hle => ?_
    have hentry := hsame tok us htokens (n + 1) o hn hle
    rw [entries_of_cutsFirst hg hcut htokens (by omega)] at hentry
    simp at hentry
  · intro htail tok us htokens n o hn hle
    cases n with
    | zero =>
      -- The first unit is at the front of both tables.
      obtain ⟨os, hos⟩ := tok.exists_offsets_eq_cons 0
      obtain ⟨es, hes⟩ := (scan g v).exists_entries_eq_cons
      rw [hos] at hn
      rw [hes]
      exact hn
    | succ n =>
      rw [← List.getElem?_tail] at hn
      have := htail tok us htokens o (List.mem_of_getElem? hn)
      omega

/-- In a grammar that is safe to cut, such as the built-in ones, all depends on whether the token
    that ends behind the range has a second unit in the range. An escape that decodes to two units
    has, and so has a pair of escapes of which the first lies in the range. -/
theorem keepsLastUnits_iff_of_cutSafe (hg : CutSafe g) (hpart : Text.slice? host range = some part)
    (hstart : IsAligned g host range.start) :
    KeepsLastUnits g host range part ↔ ∀ ts tok, Crosses g host range ts tok →
      ∀ h ∈ (tok.offsets (Text.units (Token.textOf ts))).tail, range.stop < h := by
  rcases hstart with hboundary | hstopped
  · obtain ⟨ts, ms, v, q, rfl, rfl, hfronts, hms, hcut, hstart, hstop⟩ :=
      exists_cut_of_isBoundary hpart hboundary
    have hcrosses := crosses_iff_of_fronts (hfronts.append hms) hcut hstop
    rw [keepsLastUnits_iff_of_fronts hfronts hms hcut hstart hstop, ← sameUnits_iff_of_cutsFirst hcut,
      sameUnits_iff_of_cutSafe hg hcut, hstop]
    constructor
    · intro htail ts' tok hcross h hh
      obtain ⟨rfl, us, htokens⟩ := (hcrosses _ _).1 hcross
      rw [Token.offsets_eq_map, ← List.map_tail] at hh
      obtain ⟨o, ho, rfl⟩ := List.mem_map.1 hh
      have := htail tok us htokens o ho
      omega
    · intro hbehind tok us htokens o ho
      have hmem : o + Text.units (Token.textOf (ts ++ ms))
          ∈ (tok.offsets (Text.units (Token.textOf (ts ++ ms)))).tail := by
        rw [Token.offsets_eq_map, ← List.map_tail]
        exact List.mem_map_of_mem ho
      have := hbehind (ts ++ ms) tok ((hcrosses _ _).2 ⟨rfl, us, htokens⟩) _ hmem
      omega
  · exact iff_of_true
      (fun ts tok hcross => absurd hcross (not_crosses_of_stopsBefore hpart hstopped ts tok))
      (fun ts tok hcross => absurd hcross (not_crosses_of_stopsBefore hpart hstopped ts tok))

/-- Strict lookups in a range that was just decoded answer only what the table of the range alone
    says exactly if the literal places units in the range as the range on its own does. If the range
    starts at an aligned offset, that is the case exactly if, of a token that ends behind the range,
    the range on its own has the units that the literal has in the range. -/
theorem tryMapToHost_exact_iff {m : Mapper} (hm : Reachable g host m)
    (hfit : Text.units host < offsetLimit) (hpart : Text.slice? host range = some part)
    (chars : Array Char) :
    ((∀ i h, ((tryMapToHost i range).run (((decodeRange range).run chars).run m).value.2).value.1 = .ok h →
        i ≤ (OffsetTable.build g part).decodedLength ∧
        ∃ o, (OffsetTable.build g part).get? i = some o ∧ h = range.start + o) ↔
      PlacesAlike g host range part) ∧
    (IsAligned g host range.start →
      (PlacesAlike g host range part ↔ KeepsLastUnits g host range part)) := by
  refine ⟨?_, placesAlike_iff_of_isAligned hpart⟩
  simp only [value_tryMapToHost_decodeRange hm.serves hpart]
  exact tryToHostFresh_exact_iff hfit hpart

/-- A range that ends inside the first half of a pair of escapes, in a mapper that was used for a
    range in front of it before. -/
theorem tryMapToHost_exact_iff_pair :
    Reachable Grammar.java "a\\uD83D\\uDE00".toList
        ((Request.toHost 0 ⟨0, 1⟩).perform (Mapper.new "a\\uD83D\\uDE00".toList Grammar.java)) ∧
      Text.units "a\\uD83D\\uDE00".toList < offsetLimit ∧
      Text.slice? "a\\uD83D\\uDE00".toList ⟨1, 4⟩ = some "\\uD".toList ∧
      IsAligned Grammar.java "a\\uD83D\\uDE00".toList 1 ∧
    ((∀ i h, ((tryMapToHost i ⟨1, 4⟩).run (((decodeRange ⟨1, 4⟩).run #[]).run
          ((Request.toHost 0 ⟨0, 1⟩).perform
            (Mapper.new "a\\uD83D\\uDE00".toList Grammar.java))).value.2).value.1 = .ok h →
        i ≤ (OffsetTable.build Grammar.java "\\uD".toList).decodedLength ∧
        ∃ o, (OffsetTable.build Grammar.java "\\uD".toList).get? i = some o ∧ h = 1 + o) ↔
      PlacesAlike Grammar.java "a\\uD83D\\uDE00".toList ⟨1, 4⟩ "\\uD".toList) ∧
    (PlacesAlike Grammar.java "a\\uD83D\\uDE00".toList ⟨1, 4⟩ "\\uD".toList ↔
      KeepsLastUnits Grammar.java "a\\uD83D\\uDE00".toList ⟨1, 4⟩ "\\uD".toList) := by
  have hstart : IsAligned Grammar.java "a\\uD83D\\uDE00".toList 1 := by decide +kernel
  have hfit : Text.units "a\\uD83D\\uDE00".toList < offsetLimit := by decide +kernel
  have hpart : Text.slice? "a\\uD83D\\uDE00".toList ⟨1, 4⟩ = some "\\uD".toList := by decide +kernel
  obtain ⟨hexact, haligned⟩ :=
    tryMapToHost_exact_iff (.perform (.toHost 0 ⟨0, 1⟩) .new) hfit hpart #[]
  exact ⟨.perform _ .new, hfit, hpart, hstart, hexact, haligned hstart⟩

/-- A range of a literal that ends where an escape begins; the escape decodes to a character of two
    units, and a strict lookup finds the second one at the end of the range. -/
theorem tryMapToHost_behind_decoded :
    Text.slice? "a\\U0001F600".toList ⟨0, 1⟩ = some "a".toList ∧
      ¬ ∀ i h, ((tryMapToHost i ⟨0, 1⟩).run (((decodeRange ⟨0, 1⟩).run #[]).run
          (Mapper.new "a\\U0001F600".toList Grammar.proto)).value.2).value.1 = .ok h →
        i ≤ (OffsetTable.build Grammar.proto "a".toList).decodedLength ∧
        ∃ o, (OffsetTable.build Grammar.proto "a".toList).get? i = some o ∧ h = 0 + o := by
  have hpart : Text.slice? "a\\U0001F600".toList ⟨0, 1⟩ = some "a".toList := by decide +kernel
  refine ⟨hpart, fun h => ?_⟩
  have hok : tryToHostFresh Grammar.proto "a\\U0001F600".toList 2 ⟨0, 1⟩ = .ok 1 :=
    tryToHostFresh_eq_ok_iff.2 ⟨by decide +kernel, by decide, by decide⟩
  rw [← value_tryMapToHost_decodeRange (serves_new _ _) hpart #[]] at hok
  exact absurd (h 2 1 hok).1 (by decide +kernel)

end Mapper

end Unescape
