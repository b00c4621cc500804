import Unescape.Proofs.RangeLookup
import Unescape.Proofs.TableLookup

set_option autoImplicit false

/-! # Mapping in a range between aligned offsets

If a range starts and ends at aligned offsets, lookups in it through the table of the whole literal
answer what the table of the range alone says, in both directions (`mapping_of_isAligned`). -/

namespace Unescape

namespace Mapper

variable {g : Grammar} {host part q : Text} {ts : List Token} {range : Span}

/-! ## An aligned end -/

/-- Where a range ends at an aligned offset, mapping goes by its own table. -/
theorem mappedEntry_of_isAligned (h : IsAligned g (part ++ q) (Text.units part)) (i : Nat) :
    mappedEntry g part q i = ownEntry g part i := by
  obtain ⟨ms, v, rfl, hfronts, hcut⟩ := exists_fronts_append g part q
  refine mappedEntry_of_fronts hfronts fun j _ => ?_
  rw [List.append_assoc, Text.units_append, hfronts.isAligned_add_iff] at h
  rcases eq_nil_or_stopped_of_isAligned hcut h with rfl | ⟨htokens, hfault⟩
  · exact mappedEntry_nil g q j
  · exact mappedEntry_of_tokens_eq_nil htokens hfault j

/-- Where a range ends at an aligned offset, a host offset in it belongs to the unit that its own
    table says, as long as the literal could be decoded there. -/
theorem decodedIndex_of_isAligned (h : IsAligned g (part ++ q) (Text.units part)) {offset : Nat}
    (hle : offset ≤ Text.units part)
    (hdecoded : (scan g (part ++ q)).fault = none ∨ offset < (scan g (part ++ q)).consumed) :
    (OffsetTable.build g (part ++ q)).decodedIndex offset
      = (OffsetTable.build g part).decodedIndex offset := by
  obtain ⟨ms, v, rfl, hfronts, hcut⟩ := exists_fronts_append g part q
  have hown : (scan g (Token.textOf ms ++ v)).entries = Token.offsetsOf 0 ms ++
      (scan g v).entries.map (· + Text.units (Token.textOf ms)) := by
    rw [hfronts v q rfl, Scan.entries_prepend]
  have hwhole : (scan g (Token.textOf ms ++ v ++ q)).entries = Token.offsetsOf 0 ms ++
      (scan g (v ++ q)).entries.map (· + Text.units (Token.textOf ms)) := by
    rw [List.append_assoc, hfronts.scan_append, Scan.entries_prepend]
  have hsorted := pairwise_entries g (Token.textOf ms ++ v)
  have hsorted' := pairwise_entries g (Token.textOf ms ++ v ++ q)
  rw [build_eq_entries, build_eq_entries, hown, hwhole]
  rw [hown] at hsorted
  rw [hwhole] at hsorted'
  have hbehind : ∀ l : List Nat, ∀ e ∈ l.map (· + Text.units (Token.textOf ms)),
      Text.units (Token.textOf ms) ≤ e := by
    intro l e he
    obtain ⟨o, -, rfl⟩ := List.mem_map.1 he
    omega
  by_cases hlt : offset < Text.units (Token.textOf ms)
  · have hzero : 0 ∈ Token.offsetsOf 0 ms := by
      cases ms with
      | nil => simp at hlt
      | cons tok ms =>
        obtain ⟨os, hos⟩ := tok.exists_offsets_eq_cons 0
        simp [Token.offsetsOf, hos]
    exact decodedIndex_append_of_lt hzero hsorted' hsorted (hbehind _) (hbehind _) hlt _ _
  · -- The host offset can only be the end of the range, which then is the end of a token.
    rw [List.append_assoc, Text.units_append, hfronts.isAligned_add_iff] at h
    have heq : v = [] ∧ offset = Text.units (Token.textOf ms) := by
      rcases eq_nil_or_stopped_of_isAligned hcut h with rfl | ⟨htokens, hfault⟩
      · rw [List.append_nil] at hle
        exact ⟨rfl, by omega⟩
      · rw [List.append_assoc, hfronts.scan_append, Scan.fault_prepend, Scan.consumed_prepend,
          Scan.consumed, htokens] at hdecoded
        rcases hdecoded with hnone | hlt'
        · exact absurd hnone hfault
        · simp only [Token.textOf_nil, Text.units_nil] at hlt'
          omega
    obtain ⟨rfl, rfl⟩ := heq
    have hfront := hfronts.lt_of_mem_offsetsOf
    have hmem : ∀ s : Scan, Text.units (Token.textOf ms)
        ∈ s.entries.map (· + Text.units (Token.textOf ms)) :=
      fun s => List.mem_map.2 ⟨0, s.zero_mem_entries, Nat.zero_add _⟩
    rw [decodedIndex_append_of_eq hsorted' hfront (hmem _) (hbehind _),
      decodedIndex_append_of_eq hsorted hfront (hmem _) (hbehind _)]

/-- Behind tokens at the front of a text, indices are those of what follows, counted from there. -/
theorem decodedIndex_add {ts : List Token} {u : Text} (hfronts : Fronts g ts u) (x : Nat) :
    (OffsetTable.build g (Token.textOf ts ++ u)).decodedIndex (Text.units (Token.textOf ts) + x)
      = Text.units (Token.charsOf ts) + (OffsetTable.build g u).decodedIndex x := by
  have hsorted := pairwise_entries g (Token.textOf ts ++ u)
  rw [hfronts.scan_append, Scan.entries_prepend] at hsorted
  rw [build_eq_entries, build_eq_entries, hfronts.scan_append, Scan.entries_prepend,
    ← hfronts.length_offsetsOf]
  exact decodedIndex_append_map (Scan.zero_mem_entries _) (pairwise_entries g u) hsorted
    hfronts.lt_of_mem_offsetsOf x _ _

/-- The first unit of a text is what its first unit decodes to. -/
theorem decodedIndex_build_zero (g : Grammar) (t : Text) :
    (OffsetTable.build g t).decodedIndex 0 = 0 := by
  have hfloor : IsFloor (scan g t).entries 0 0 :=
    ⟨(scan g t).zero_mem_entries, Nat.le_refl _, fun _ _ hle => hle⟩
  rw [build_eq_entries, decodedIndex_eq_countP (pairwise_entries g t) hfloor, List.countP_eq_zero]
  simp

/-- The offset behind tokens at the front of a text belongs to the first unit behind these. -/
theorem decodedIndex_textOf {ts : List Token} {u : Text} (hfronts : Fronts g ts u) :
    (OffsetTable.build g (Token.textOf ts ++ u)).decodedIndex (Text.units (Token.textOf ts))
      = Text.units (Token.charsOf ts) := by
  have hindex := decodedIndex_add hfronts 0
  rwa [decodedIndex_build_zero, Nat.add_zero, Nat.add_zero] at hindex

/-! ## Mapping -/

/-- In a range that starts at a boundary, a host offset is looked up behind the baseline. -/
theorem toDecodedFresh_of_fronts (hfronts : Fronts g ts (part ++ q))
    (hpart : Text.slice? (Token.textOf ts ++ (part ++ q)) range = some part)
    (hstart : range.start = Text.units (Token.textOf ts)) {offset : Nat}
    (hle : range.start ≤ offset) (hle' : offset ≤ range.stop) :
    toDecodedFresh g (Token.textOf ts ++ (part ++ q)) offset range =
      if (scan g (part ++ q)).fault = none ∨
          offset - range.start < (scan g (part ++ q)).consumed then
        (OffsetTable.build g (part ++ q)).decodedIndex (offset - range.start)
      else (OffsetTable.build g part).decodedIndex (offset - range.start) := by
  obtain ⟨x, rfl⟩ : ∃ x, offset = range.start + x := ⟨offset - range.start, by omega⟩
  have hclamp : min (max (range.start + x) range.start) range.stop = range.start + x := by omega
  unfold toDecodedFresh
  dsimp only
  rw [hclamp, hpart, hstart, decodedUnits_takeUnits_of_fronts hfronts,
    decodedIndex_add hfronts, Nat.add_sub_cancel_left, Nat.add_sub_cancel_left]
  simp only [isComplete_build, consumed_build, hfronts.scan_append, Scan.fault_prepend,
    Scan.consumed_prepend, Bool.or_eq_true, Option.isNone_iff_eq_none, decide_eq_true_eq,
    Nat.add_lt_add_iff_left]

/-- In a range behind the place where the literal stopped, host offsets are looked up in the table of
    the range. -/
theorem toDecodedFresh_of_stopsBefore (hpart : Text.slice? host range = some part)
    (hstart : StopsBefore g host range.start) {offset : Nat} (hle : range.start ≤ offset)
    (hle' : offset ≤ range.stop) :
    toDecodedFresh g host offset range
      = (OffsetTable.build g part).decodedIndex (offset - range.start) := by
  have hclamp : min (max offset range.start) range.stop = offset := by omega
  have hbehind : ¬ offset < (OffsetTable.build g host).consumed := by
    have := hstart.2
    omega
  unfold toDecodedFresh
  simp [hclamp, hstart.1, hbehind, hpart]

/-! ## Aligned ranges -/

theorem toHostFresh_of_isAligned (hfit : Text.units host < offsetLimit)
    (hpart : Text.slice? host range = some part) (hstart : IsAligned g host range.start)
    (hstop : IsAligned g host range.stop) (i : Nat) :
    toHostFresh g host i range = range.start + ownEntry g part i := by
  refine toHostFresh_of_isAligned_start hfit hpart hstart fun ts q hhost hfronts hstop_eq => ?_
  rw [hhost, hstop_eq, hfronts.isAligned_add_iff] at hstop
  exact mappedEntry_of_isAligned hstop i

theorem toDecodedFresh_of_isAligned (hpart : Text.slice? host range = some part)
    (hstart : IsAligned g host range.start) (hstop : IsAligned g host range.stop) {offset : Nat}
    (hle : range.start ≤ offset) (hle' : offset ≤ range.stop) :
    toDecodedFresh g host offset range
      = (OffsetTable.build g part).decodedIndex (offset - range.start) := by
  rcases hstart with hboundary | hstopped
  · obtain ⟨ts, q, rfl, hfronts, hstart_eq, hstop_eq⟩ := exists_fronts_of_isBoundary hpart hboundary
    rw [hstop_eq, hfronts.isAligned_add_iff] at hstop
    rw [toDecodedFresh_of_fronts hfronts hpart hstart_eq hle hle']
    split
    · rename_i hdecoded
      exact decodedIndex_of_isAligned hstop (by omega) hdecoded
    · rfl
  · exact toDecodedFresh_of_stopsBefore hpart hstopped hle hle'

/-- A range that starts and ends at aligned offsets is mapped by its own table, moved to where the
    range starts, although lookups go through the table of the whole literal: every unit of its
    decoded text and the end of that text to the host offset in the table, every larger offset to the
    end of the range, and every host offset of the range to the unit in the table. -/
theorem mapping_of_isAligned {m : Mapper} (hm : Reachable g host m)
    (hfit : Text.units host < offsetLimit) (hpart : Text.slice? host range = some part)
    (hstart : IsAligned g host range.start) (hstop : IsAligned g host range.stop) :
    (∀ i, i ≤ (OffsetTable.build g part).decodedLength →
      ∃ o, (OffsetTable.build g part).get? i = some o ∧
        ((mapToHost i range).run m).value.1 = range.start + o) ∧
    (∀ i, (OffsetTable.build g part).decodedLength < i →
      ((mapToHost i range).run m).value.1 = range.stop) ∧
    (∀ offset, range.start ≤ offset → offset ≤ range.stop →
      ((mapToDecoded offset range).run m).value.1
        = (OffsetTable.build g part).decodedIndex (offset - range.start)) := by
  obtain ⟨-, -, -, -, hstop_eq⟩ := Text.exists_of_slice?_eq_some hpart
  have hforward : ∀ i, ((mapToHost i range).run m).value.1 = range.start + ownEntry g part i := by
    intro i
    rw [(answers_mapToHost i range m hm.serves).1]
    exact toHostFresh_of_isAligned hfit hpart hstart hstop i
  refine ⟨fun i hi => ?_, fun i hi => ?_, fun offset hle hle' => ?_⟩
  · exact ⟨ownEntry g part i, get?_eq_some_ownEntry hi, hforward i⟩
  · rw [hforward, ownEntry_of_lt hi, hstop_eq]
  · rw [(answers_mapToDecoded offset range m hm.serves).1]
    exact toDecodedFresh_of_isAligned hpart hstart hstop hle hle'

/-- A range that starts at a boundary and ends behind a malformed escape, in a mapper that was used
    for a range behind that escape before. -/
theorem mapping_of_isAligned_over_fault :
    Reachable Grammar.proto "a\\U0001F600\\q\\x41".toList
        ((Request.toHost 1 ⟨13, 17⟩).perform
          (Mapper.new "a\\U0001F600\\q\\x41".toList Grammar.proto)) ∧
      Text.units "a\\U0001F600\\q\\x41".toList < offsetLimit ∧
      Text.slice? "a\\U0001F600\\q\\x41".toList ⟨1, 16⟩ = some "\\U0001F600\\q\\x4".toList ∧
      IsAligned Grammar.proto "a\\U0001F600\\q\\x41".toList 1 ∧
      IsAligned Grammar.proto "a\\U0001F600\\q\\x41".toList 16 ∧
    (∀ i, i ≤ (OffsetTable.build Grammar.proto "\\U0001F600\\q\\x4".toList).decodedLength →
      ∃ o, (OffsetTable.build Grammar.proto "\\U0001F600\\q\\x4".toList).get? i = some o ∧
        ((mapToHost i ⟨1, 16⟩).run ((Request.toHost 1 ⟨13, 17⟩).perform
          (Mapper.new "a\\U0001F600\\q\\x41".toList Grammar.proto))).value.1 = 1 + o) ∧
    (∀ i, (OffsetTable.build Grammar.proto "\\U0001F600\\q\\x4".toList).decodedLength < i →
      ((mapToHost i ⟨1, 16⟩).run ((Request.toHost 1 ⟨13, 17⟩).perform
          (Mapper.new "a\\U0001F600\\q\\x41".toList Grammar.proto))).value.1 = 16) ∧
    (∀ offset, 1 ≤ offset → offset ≤ 16 →
      ((mapToDecoded offset ⟨1, 16⟩).run ((Request.toHost 1 ⟨13, 17⟩).perform
          (Mapper.new "a\\U0001F600\\q\\x41".toList Grammar.proto))).value.1
        = (OffsetTable.build Grammar.proto "\\U0001F600\\q\\x4".toList).decodedIndex
            (offset - 1)) :=
  ⟨.perform _ .new, by decide +kernel, by decide +kernel, by decide +kernel, by decide +kernel,
    mapping_of_isAligned (.perform _ .new) (by decide +kernel) (by decide +kernel)
      (by decide +kernel) (by decide +kernel)⟩

end Mapper

end Unescape
