import Unescape.Proofs.ForwardOrder
import Unescape.Proofs.StrictMapping

set_option autoImplicit false

/-! # Where host offsets are mapped to

Mapping from the host goes through the table of the literal, less the baseline, in front of the malformed
escape at which the literal stops, and through a table of the range behind it. Each of them ascends, and
the second one never leaves the decoded text of the range. So the order of host offsets can only be lost
where the malformed escape begins (`OrderedAtSentinel`), and the decoded text can only be left at the
last host unit that the first table answers for: in front of that escape, or at the end of the range
(`EndsInside`).

In a range that starts at an aligned offset the order is kept, and the decoded text is left only where
the range ends behind the first half of a pair of escapes, whose second half is a unit of the literal and
of nothing in the range (`SplitsPair`). -/

namespace Unescape

/-! ## Indices of one table -/

section Index

variable (g : Grammar) (t : Text)

theorem decodedIndex_build_eq_countP {offset top : Nat}
    (htop : IsFloor (scan g t).entries offset top) :
    (OffsetTable.build g t).decodedIndex offset = (scan g t).entries.countP (· < top) := by
  rw [build_eq_entries]
  exact decodedIndex_eq_countP (pairwise_entries g t) htop _

theorem decodedIndex_build_mono {a b : Nat} (hab : a ≤ b) :
    (OffsetTable.build g t).decodedIndex a ≤ (OffsetTable.build g t).decodedIndex b := by
  obtain ⟨top, htop⟩ := exists_isFloor (scan g t).zero_mem_entries a
  obtain ⟨top', htop'⟩ := exists_isFloor (scan g t).zero_mem_entries b
  have hle : top ≤ top' := htop'.le_of_mem top htop.mem (Nat.le_trans htop.le hab)
  rw [decodedIndex_build_eq_countP g t htop, decodedIndex_build_eq_countP g t htop']
  refine List.countP_mono_left fun e _ he => ?_
  simp only [decide_eq_true_eq] at he ⊢
  omega

/-- An index is one of a unit of the decoded text, or that of the sentinel. -/
theorem decodedIndex_build_le (offset : Nat) :
    (OffsetTable.build g t).decodedIndex offset ≤ decodedUnits g t := by
  obtain ⟨top, htop⟩ := exists_isFloor (scan g t).zero_mem_entries offset
  have hsentinel : ¬ (scan g t).consumed < top :=
    Nat.not_lt.2 (le_consumed_of_mem_entries g t htop.mem)
  have hlen := List.countP_le_length (p := fun e => decide (e < top))
    (l := Token.offsetsOf 0 (scan g t).tokens)
  rw [Token.length_offsetsOf (proper_tokens g t)] at hlen
  rw [decodedIndex_build_eq_countP g t htop, Mapper.decodedUnits_eq, Scan.entries, List.countP_append]
  simpa [hsentinel] using hlen

end Index

/-- The offset of a span that is nearest to a given one. -/
def Span.clamp (s : Span) (offset : Nat) : Nat := min (max offset s.start) s.stop

namespace Mapper

variable {g : Grammar} {host part q : Text} {range : Span}

/-! ## From one table to the other -/

/-- The text could be decoded where the host unit stands. -/
def IsDecodedAt (g : Grammar) (t : Text) (offset : Nat) : Prop :=
  (OffsetTable.build g t).status.isComplete = true ∨ offset < (OffsetTable.build g t).consumed

theorem toDecodedFresh_of_isDecodedAt {offset : Nat} (h : IsDecodedAt g host (range.clamp offset)) :
    toDecodedFresh g host offset range
      = (OffsetTable.build g host).decodedIndex (range.clamp offset)
        - decodedUnits g (Text.takeUnits host range.start) :=
  if_pos (by simpa [IsDecodedAt, Span.clamp] using h)

theorem toDecodedFresh_of_not_isDecodedAt (hpart : Text.slice? host range = some part) {offset : Nat}
    (h : ¬ IsDecodedAt g host (range.clamp offset)) :
    toDecodedFresh g host offset range
      = (OffsetTable.build g part).decodedIndex (range.clamp offset - range.start) := by
  unfold toDecodedFresh
  dsimp only
  rw [if_neg (by simpa [IsDecodedAt, Span.clamp] using h), hpart]
  rfl

/-- Offsets count as the nearest ones of the range. -/
theorem toDecodedFresh_congr {a b : Nat} (h : range.clamp a = range.clamp b) :
    toDecodedFresh g host a range = toDecodedFresh g host b range := by
  unfold Span.clamp at h
  simp only [toDecodedFresh, h]

theorem toDecodedFresh_le_of_isDecodedAt {a b : Nat} (hle : range.clamp a ≤ range.clamp b)
    (hb : IsDecodedAt g host (range.clamp b)) :
    toDecodedFresh g host a range ≤ toDecodedFresh g host b range := by
  have ha : IsDecodedAt g host (range.clamp a) := hb.imp id (Nat.lt_of_le_of_lt hle)
  rw [toDecodedFresh_of_isDecodedAt ha, toDecodedFresh_of_isDecodedAt hb]
  exact Nat.sub_le_sub_right (decodedIndex_build_mono g host hle) _

theorem toDecodedFresh_le_of_not_isDecodedAt (hpart : Text.slice? host range = some part) {a b : Nat}
    (hle : range.clamp a ≤ range.clamp b) (ha : ¬ IsDecodedAt g host (range.clamp a)) :
    toDecodedFresh g host a range ≤ toDecodedFresh g host b range := by
  have hb : ¬ IsDecodedAt g host (range.clamp b) := fun hb =>
    ha (hb.imp id (Nat.lt_of_le_of_lt hle))
  rw [toDecodedFresh_of_not_isDecodedAt hpart ha, toDecodedFresh_of_not_isDecodedAt hpart hb]
  exact decodedIndex_build_mono g part (Nat.sub_le_sub_right hle _)

/-- The last host unit in front of the malformed escape is mapped no further than the escape. -/
def OrderedAtSentinel (g : Grammar) (host : Text) (range : Span) : Prop :=
  ∀ offset, offset + 1 = (OffsetTable.build g host).consumed →
    toDecodedFresh g host offset range ≤ toDecodedFresh g host (offset + 1) range

/-- The end of the range, and the last host unit in front of the malformed escape, are mapped into the
    text decoded for the range. -/
def EndsInside (g : Grammar) (host : Text) (range : Span) (part : Text) : Prop :=
  toDecodedFresh g host range.stop range ≤ decodedUnits g part ∧
    ∀ offset, offset + 1 = (OffsetTable.build g host).consumed →
      toDecodedFresh g host offset range ≤ decodedUnits g part

instance (g : Grammar) (host : Text) (range : Span) : Decidable (OrderedAtSentinel g host range) :=
  decidable_of_iff (∀ offset, offset < (OffsetTable.build g host).consumed →
      offset + 1 = (OffsetTable.build g host).consumed →
      toDecodedFresh g host offset range ≤ toDecodedFresh g host (offset + 1) range)
    ⟨fun h offset hlast => h offset (by omega) hlast, fun h offset _ => h offset⟩

instance (g : Grammar) (host : Text) (range : Span) (part : Text) :
    Decidable (EndsInside g host range part) :=
  decidable_of_iff (toDecodedFresh g host range.stop range ≤ decodedUnits g part ∧
      ∀ offset, offset < (OffsetTable.build g host).consumed →
        offset + 1 = (OffsetTable.build g host).consumed →
        toDecodedFresh g host offset range ≤ decodedUnits g part)
    ⟨fun h => ⟨h.1, fun offset hlast => h.2 offset (by omega) hlast⟩,
      fun h => ⟨h.1, fun offset _ => h.2 offset⟩⟩

/-- Where the two tables meet within a range, the last offset of the first one and the first offset of
    the second one are offsets of the range. -/
theorem exists_clamp_eq_of_not_isDecodedAt (hle : range.start ≤ range.stop) {a b : Nat}
    (ha : IsDecodedAt g host (range.clamp a)) (hb : ¬ IsDecodedAt g host (range.clamp b)) :
    ∃ k, k + 1 = (OffsetTable.build g host).consumed ∧ range.clamp a ≤ k ∧ range.clamp k = k ∧
      range.clamp (k + 1) = k + 1 ∧ k + 1 ≤ range.clamp b ∧ IsDecodedAt g host k ∧
      ¬ IsDecodedAt g host (k + 1) := by
  obtain ⟨hincomplete, hbehind⟩ := not_or.1 hb
  have hlt := ha.resolve_left hincomplete
  unfold Span.clamp at hbehind hlt ⊢
  refine ⟨(OffsetTable.build g host).consumed - 1, by omega, by omega, by omega, by omega, by omega,
    .inr (by omega), not_or.2 ⟨hincomplete, by omega⟩⟩

/-- Mapping keeps the order of all host offsets if it keeps it where the malformed escape begins. -/
theorem monotone_toDecodedFresh_iff (hpart : Text.slice? host range = some part) :
    Monotone (fun offset => toDecodedFresh g host offset range) ↔ OrderedAtSentinel g host range := by
  have hle := ((Text.slice?_eq_some_iff _ _ _).1 hpart).1
  constructor
  · exact fun hmono offset _ => hmono (Nat.le_succ offset)
  · intro hordered a b hab
    have hclamp : range.clamp a ≤ range.clamp b := by
      unfold Span.clamp
      omega
    by_cases hb : IsDecodedAt g host (range.clamp b)
    · exact toDecodedFresh_le_of_isDecodedAt hclamp hb
    · by_cases ha : IsDecodedAt g host (range.clamp a)
      · obtain ⟨k, hk, hak, hclamp_k, hclamp_succ, hkb, hdecoded, hstopped⟩ :=
          exists_clamp_eq_of_not_isDecodedAt hle ha hb
        calc toDecodedFresh g host a range
            ≤ toDecodedFresh g host k range :=
              toDecodedFresh_le_of_isDecodedAt (by rwa [hclamp_k]) (by rwa [hclamp_k])
          _ ≤ toDecodedFresh g host (k + 1) range := hordered k hk
          _ ≤ toDecodedFresh g host b range :=
              toDecodedFresh_le_of_not_isDecodedAt hpart (by rwa [hclamp_succ])
                (by rwa [hclamp_succ])
      · exact toDecodedFresh_le_of_not_isDecodedAt hpart hclamp ha

/-- In a range that starts inside an escape, the last host unit in front of the malformed escape is
    counted in units of the literal, and the malformed escape in units of the range. -/
example : toDecodedFresh Grammar.java "\\\\u0041\\q".toList 6 ⟨1, 9⟩ = 5 ∧
    toDecodedFresh Grammar.java "\\\\u0041\\q".toList 7 ⟨1, 9⟩ = 1 := by decide +kernel

/-- In a literal without a malformed escape only one table is used. -/
theorem orderedAtSentinel_of_isComplete (hle : range.start ≤ range.stop)
    (hcomplete : (OffsetTable.build g host).status.isComplete = true) :
    OrderedAtSentinel g host range := by
  refine fun offset _ => toDecodedFresh_le_of_isDecodedAt ?_ (.inl hcomplete)
  unfold Span.clamp
  omega

/-- Mapping never leaves the text decoded for the range if it does not at its two last offsets. -/
theorem toDecodedFresh_le_iff (hpart : Text.slice? host range = some part) :
    (∀ offset, toDecodedFresh g host offset range ≤ decodedUnits g part) ↔
      EndsInside g host range part := by
  have hle := ((Text.slice?_eq_some_iff _ _ _).1 hpart).1
  constructor
  · exact fun h => ⟨h range.stop, fun offset _ => h offset⟩
  · rintro ⟨hstop, hlast⟩ offset
    by_cases hdecoded : IsDecodedAt g host (range.clamp offset)
    · by_cases hend : IsDecodedAt g host (range.clamp range.stop)
      · refine Nat.le_trans (toDecodedFresh_le_of_isDecodedAt ?_ hend) hstop
        unfold Span.clamp
        omega
      · obtain ⟨k, hk, hak, hclamp_k, -, -, hdecoded_k, -⟩ :=
          exists_clamp_eq_of_not_isDecodedAt hle hdecoded hend
        exact Nat.le_trans (toDecodedFresh_le_of_isDecodedAt (by rwa [hclamp_k]) (by rwa [hclamp_k]))
          (hlast k hk)
    · rw [toDecodedFresh_of_not_isDecodedAt hpart hdecoded]
      exact decodedIndex_build_le g part _

/-! ## Ranges that start at an aligned offset -/

/-- In a range that starts at an aligned offset the order is kept, wherever the range ends. -/
theorem orderedAtSentinel_of_isAligned (hpart : Text.slice? host range = some part)
    (hstart : IsAligned g host range.start) : OrderedAtSentinel g host range := by
  intro offset hconsumed
  have hle := ((Text.slice?_eq_some_iff _ _ _).1 hpart).1
  by_cases houtside : offset + 1 ≤ range.start ∨ range.stop ≤ offset
  · refine Nat.le_of_eq (toDecodedFresh_congr ?_)
    unfold Span.clamp
    omega
  · rcases hstart with hboundary | hstopped
    · obtain ⟨ts, q, rfl, hfronts, hstart, hstop⟩ := exists_fronts_of_isBoundary hpart hboundary
      obtain ⟨x, rfl⟩ : ∃ x, offset = range.start + x := ⟨offset - range.start, by omega⟩
      rw [consumed_build, hfronts.scan_append, Scan.consumed_prepend] at hconsumed
      have hsub : range.start + x + 1 - range.start = x + 1 := by omega
      rw [toDecodedFresh_of_fronts hfronts hpart hstart (by omega) (by omega),
        toDecodedFresh_of_fronts hfronts hpart hstart (by omega) (by omega), Nat.add_sub_cancel_left,
        hsub, if_pos (.inr (by omega))]
      split
      · exact decodedIndex_build_mono g (part ++ q) (Nat.le_succ x)
      · -- The escape begins in the range, which has the tokens in front of it as the literal has.
        rename_i hfault
        have haligned : IsAligned g (part ++ q) (Text.units part) :=
          isAligned_of_consumed_le (fun hnone => hfault (.inl hnone)) (by omega)
        rw [decodedIndex_of_isAligned haligned (by omega) (.inr (by omega))]
        exact decodedIndex_build_mono g part (Nat.le_succ x)
    · have := hstopped.2
      omega

/-- If the order is kept, the end of the range is the offset that is mapped furthest. -/
theorem endsInside_iff_of_orderedAtSentinel (hpart : Text.slice? host range = some part)
    (hordered : OrderedAtSentinel g host range) :
    EndsInside g host range part ↔ toDecodedFresh g host range.stop range ≤ decodedUnits g part := by
  refine ⟨fun h => h.1, fun hstop => (toDecodedFresh_le_iff hpart).1 fun offset => ?_⟩
  have hmono := (monotone_toDecodedFresh_iff hpart).2 hordered
  calc toDecodedFresh g host offset range
      ≤ toDecodedFresh g host (max offset range.stop) range := hmono (Nat.le_max_left ..)
    _ = toDecodedFresh g host range.stop range := by
        refine toDecodedFresh_congr ?_
        unfold Span.clamp
        omega
    _ ≤ decodedUnits g part := hstop

/-! ## The end of a range -/

/-- The range ends behind the first half of a pair of escapes of the literal, but within the pair. -/
def SplitsPair (g : Grammar) (host : Text) (range : Span) : Prop :=
  ∃ ts high low c, Crosses g host range ts (.pair high low c) ∧
    Text.units (Token.textOf ts) + Text.units high ≤ range.stop

/-- Looking at the tokens of the literal in turn finds a pair that is split. -/
instance (g : Grammar) (host : Text) (range : Span) : Decidable (SplitsPair g host range) :=
  decidable_of_iff (((List.range (scan g host).tokens.length).any fun n =>
      match (scan g host).tokens.drop n with
      | .pair high low _ :: _ =>
        let start := Text.units (Token.textOf ((scan g host).tokens.take n))
        start + Text.units high ≤ range.stop && range.stop < start + Text.units (high ++ low)
      | _ => false) = true) (by
    simp only [List.any_eq_true, List.mem_range]
    constructor
    · rintro ⟨n, -, h⟩
      split at h
      · rename_i high low c us hdrop
        simp only [Bool.and_eq_true, decide_eq_true_eq] at h
        refine ⟨(scan g host).tokens.take n, high, low, c, ⟨⟨us, ?_⟩, by omega, h.2⟩, h.1⟩
        rw [← hdrop, List.take_append_drop]
      · exact absurd h (by simp)
    · rintro ⟨ts, high, low, c, ⟨⟨us, htokens⟩, -, hlt⟩, hle⟩
      refine ⟨ts.length, by simp [htokens], ?_⟩
      simp only [htokens, List.drop_left, List.take_left, Bool.and_eq_true, decide_eq_true_eq]
      exact ⟨hle, hlt⟩)

section Cut

variable {v : Text} {high low : Text} {c : Char} {us : List Token}

/-- A cut behind the first half of a pair belongs to the second unit of the pair. -/
theorem decodedIndex_of_pair (hcut : CutsFirst g v q)
    (htokens : (scan g (v ++ q)).tokens = .pair high low c :: us)
    (hhigh : Text.units high ≤ Text.units v) :
    (OffsetTable.build g (v ++ q)).decodedIndex (Text.units v) = 1 := by
  have hlt := hcut.units_lt htokens
  have hproper : Token.Proper (.pair high low c) := proper_tokens g (v ++ q) _ (by simp [htokens])
  obtain ⟨es, hes, hbehind⟩ := exists_entries_eq_append g _ htokens
  have hentries : (scan g (v ++ q)).entries = 0 :: Text.units high :: es := by
    simpa [Token.offsets] using hes
  have hfloor : IsFloor (scan g (v ++ q)).entries (Text.units v) (Text.units high) := by
    refine ⟨by simp [hentries], hhigh, fun e he hle => ?_⟩
    rw [hentries] at he
    rcases List.mem_cons.1 he with rfl | he
    · exact Nat.zero_le _
    · rcases List.mem_cons.1 he with rfl | he
      · exact Nat.le_refl _
      · have := hbehind e he
        omega
  have hnone : es.countP (fun e => decide (e < Text.units high)) = 0 := by
    refine List.countP_eq_zero.2 fun e he => ?_
    have := hbehind e he
    simp only [decide_eq_true_eq]
    omega
  have hpos : 0 < Text.units high := by
    have := hproper.2.1
    omega
  rw [decodedIndex_build_eq_countP g _ hfloor, hentries]
  simp [hnone, hpos]

/-- Any other cut belongs to where the token that is cut begins. -/
theorem decodedIndex_of_not_pair (hcut : CutsFirst g v q)
    (hpair : ∀ high low c us, (scan g (v ++ q)).tokens = .pair high low c :: us →
      Text.units v < Text.units high) :
    (OffsetTable.build g (v ++ q)).decodedIndex (Text.units v) = 0 := by
  have hfloor : IsFloor (scan g (v ++ q)).entries (Text.units v) 0 := by
    refine ⟨Scan.zero_mem_entries _, Nat.zero_le _, fun e he hle => ?_⟩
    cases htokens : (scan g (v ++ q)).tokens with
    | nil =>
      rw [Scan.entries, Scan.consumed, htokens] at he
      simpa [Token.offsetsOf] using he
    | cons tok us =>
      have hlt := hcut.units_lt htokens
      obtain ⟨es, hes, hbehind⟩ := exists_entries_eq_append g _ htokens
      rw [hes] at he
      rcases List.mem_append.1 he with he | he
      · cases tok with
        | plain c =>
          -- A plain character cannot be cut, so the range ends in front of it.
          by_cases hv : v = []
          · rwa [hv] at hle
          · obtain ⟨v', w, -, -, hw, -, -, htext⟩ := exists_readEscape_of_cutsFirst hv hcut htokens
            obtain ⟨-, hnil⟩ := List.cons.inj htext
            exact absurd (List.append_eq_nil_iff.1 hnil.symm).2 hw
        | escape lexeme c => exact Nat.le_of_eq (List.mem_replicate.1 he).2
        | pair high low c =>
          have := hpair high low c us htokens
          simp only [Token.offsets, List.mem_cons, List.not_mem_nil, or_false] at he
          omega
      · have := hbehind e he
        omega
  rw [decodedIndex_build_eq_countP g _ hfloor]
  simp

/-- In a grammar that is safe to cut, what is left of a pair decodes to nothing. -/
theorem decodedUnits_of_pair (hg : CutSafe g) (hcut : CutsFirst g v q)
    (htokens : (scan g (v ++ q)).tokens = .pair high low c :: us) : decodedUnits g v = 0 := by
  have hproper : Token.Proper (.pair high low c) := proper_tokens g (v ++ q) _ (by simp [htokens])
  have htwo : 1 < unitsOf c := by
    have := hproper.1
    omega
  have hlen := length_entries g v
  rw [entries_of_cutsFirst hg hcut htokens htwo] at hlen
  rw [decodedUnits_eq]
  simpa using hlen.symm

end Cut

theorem decodedUnits_append {ts : List Token} {u : Text} (hfronts : Fronts g ts u) :
    decodedUnits g (Token.textOf ts ++ u) = Text.units (Token.charsOf ts) + decodedUnits g u := by
  rw [decodedUnits_eq, decodedUnits_eq, hfronts.scan_append, Scan.tokens_prepend,
    Token.charsOf_append, Text.units_append]

theorem splitsPair_iff_of_fronts {fs : List Token} {v : Text} (hfronts : Fronts g fs (v ++ q))
    (hcut : CutsFirst g v q) (hstop : range.stop = Text.units (Token.textOf fs) + Text.units v) :
    SplitsPair g (Token.textOf fs ++ (v ++ q)) range ↔
      ∃ high low c us, (scan g (v ++ q)).tokens = .pair high low c :: us ∧
        Text.units high ≤ Text.units v := by
  constructor
  · rintro ⟨ts, high, low, c, hcross, hle⟩
    obtain ⟨rfl, us, htokens⟩ := (crosses_iff_of_fronts hfronts hcut hstop _ _).1 hcross
    exact ⟨high, low, c, us, htokens, by omega⟩
  · rintro ⟨high, low, c, us, htokens, hle⟩
    exact ⟨fs, high, low, c, (crosses_iff_of_fronts hfronts hcut hstop _ _).2 ⟨rfl, us, htokens⟩,
      by omega⟩

/-- The end of a range that starts at a boundary is mapped behind the tokens that end in the range. -/
theorem toDecodedFresh_stop_of_fronts {ts ms : List Token} {v : Text}
    (hfronts : Fronts g ts (Token.textOf ms ++ (v ++ q))) (hms : Fronts g ms (v ++ q))
    (hpart : Text.slice? (Token.textOf (ts ++ ms) ++ (v ++ q)) range = some (Token.textOf ms ++ v))
    (hstart : range.start = Text.units (Token.textOf ts))
    (hstop : range.stop = Text.units (Token.textOf (ts ++ ms)) + Text.units v) :
    toDecodedFresh g (Token.textOf (ts ++ ms) ++ (v ++ q)) range.stop range
      = Text.units (Token.charsOf ms) +
        if (scan g (v ++ q)).fault = none ∨ Text.units v < (scan g (v ++ q)).consumed then
          (OffsetTable.build g (v ++ q)).decodedIndex (Text.units v)
        else (OffsetTable.build g v).decodedIndex (Text.units v) := by
  rw [Token.textOf_append, Text.units_append] at hstop
  have hunits : range.stop - range.start = Text.units (Token.textOf ms) + Text.units v := by omega
  have hhost : Token.textOf (ts ++ ms) ++ (v ++ q)
      = Token.textOf ts ++ (Token.textOf ms ++ v ++ q) := by simp
  rw [← List.append_assoc] at hfronts
  rw [hhost] at hpart ⊢
  rw [toDecodedFresh_of_fronts hfronts hpart hstart (by omega) (Nat.le_refl _), hunits,
    List.append_assoc, decodedIndex_add hms, decodedIndex_add hms.left, hms.scan_append,
    Scan.fault_prepend, Scan.consumed_prepend]
  simp only [Nat.add_lt_add_iff_left]
  split <;> rfl

/-- Where the end of a range that starts at an aligned offset is mapped to: into the decoded text unless
    the range splits a pair, and if what is left of a split pair is nothing, then only in that case. -/
theorem toDecodedFresh_stop_of_isAligned (hpart : Text.slice? host range = some part)
    (hstart : IsAligned g host range.start) :
    (¬ SplitsPair g host range →
      toDecodedFresh g host range.stop range ≤ decodedUnits g part) ∧
    (CutSafe g → SplitsPair g host range →
      decodedUnits g part < toDecodedFresh g host range.stop range) := by
  rcases hstart with hboundary | hstopped
  · obtain ⟨ts, ms, v, q, rfl, rfl, hfronts, hms, hcut, hstart, hstop⟩ :=
      exists_cut_of_isBoundary hpart hboundary
    rw [toDecodedFresh_stop_of_fronts hfronts hms hpart hstart hstop, decodedUnits_append hms.left,
      splitsPair_iff_of_fronts (hfronts.append hms) hcut hstop]
    constructor
    · intro hnot
      refine Nat.add_le_add_left ?_ _
      split
      · rw [decodedIndex_of_not_pair hcut fun high low c us htokens =>
          Nat.lt_of_not_le fun hle => hnot ⟨high, low, c, us, htokens, hle⟩]
        exact Nat.zero_le _
      · exact decodedIndex_build_le g v _
    · rintro hg ⟨high, low, c, us, htokens, hle⟩
      have hlt := hcut.units_lt htokens
      -- The literal goes on behind the cut, and what is left of the pair decodes to nothing.
      have hconsumed : Text.units v < (scan g (v ++ q)).consumed := by
        rw [Scan.consumed, htokens, Token.textOf_cons, Text.units_append]
        omega
      rw [if_pos (.inr hconsumed), decodedIndex_of_pair hcut htokens hle,
        decodedUnits_of_pair hg hcut htokens]
      omega
  · constructor
    · intro _
      rw [toDecodedFresh_of_stopsBefore hpart hstopped ((Text.slice?_eq_some_iff _ _ _).1 hpart).1
        (Nat.le_refl _)]
      exact decodedIndex_build_le g part _
    · rintro - ⟨ts, high, low, c, hcross, -⟩
      exact absurd hcross (not_crosses_of_stopsBefore hpart hstopped ts _)

end Mapper

end Unescape
