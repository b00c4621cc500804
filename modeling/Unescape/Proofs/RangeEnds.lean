import Unescape.Proofs.ReverseOrder

set_option autoImplicit false

/-! # The ends of a decoded range

In a range that starts at a boundary, the start belongs to the first unit of the decoded text, in both
directions. What about the other end, if all of the range could be decoded? The end of the decoded text
should be mapped to the end of the range, and the end of the range to the end of the decoded text.

That is so if the range ends at an aligned offset. Otherwise it cuts a token of the literal, and what is left
of the token in the range reads as a token of its own, of which the table of the literal knows nothing.
So the end of the range is never mapped to the end of the decoded text: for the literal it is inside
the token that is cut. In the other direction it takes an escape of a character of two units to make a
difference, of which the range has a character of one unit: for the literal, both units of the
character are at the backslash (`HalvesEscape`, `mapping_ends_iff`). -/

namespace Unescape

variable {g : Grammar}

/-! ## Texts that decode completely -/

namespace Mapper

/-- The end of the decoded text is the end of the text. -/
theorem ownEntry_of_complete {t : Text} (h : (scan g t).fault = none) :
    ownEntry g t (decodedUnits g t) = Text.units t := by
  have hentry := ownEntry_charsOf (fronts_tokens g t)
  rwa [List.append_nil, textOf_tokens_of_complete h, ← decodedUnits_eq] at hentry

/-- The end of the text is the end of the decoded text. -/
theorem decodedIndex_of_complete {t : Text} (h : (scan g t).fault = none) :
    (OffsetTable.build g t).decodedIndex (Text.units t) = decodedUnits g t := by
  have hindex := decodedIndex_textOf (fronts_tokens g t)
  rwa [List.append_nil, textOf_tokens_of_complete h, ← decodedUnits_eq] at hindex

end Mapper

/-! ## What is left of a pair -/

namespace Token

theorem eq_pair_of_ofCodeValue {lexeme rest rest' : Text} {value : UInt32} {tok : Token}
    (hhigh : CodeValue.isHighSurrogate value = true)
    (h : ofCodeValue g lexeme value rest = .ok (tok, rest')) : ∃ low c, tok = .pair lexeme low c := by
  cases ofCodeValue_eq_ok_iff.1 h with
  | scalar high => simp [hhigh] at high
  | pair => exact ⟨_, _, rfl⟩

theorem exists_of_ofCodeValue_eq_pair {lexeme rest rest' high low : Text} {value : UInt32} {c : Char}
    (h : ofCodeValue g lexeme value rest = .ok (.pair high low c, rest')) :
    CodeValue.isHighSurrogate value = true ∧ high = lexeme := by
  cases ofCodeValue_eq_ok_iff.1 h with
  | pair hhigh => exact ⟨hhigh, rfl⟩

/-- A text that begins with the first half of a pair reads as a pair, if it reads as a token at all. -/
theorem eq_pair_of_readEscape {t s x y after rest high low : Text} {c : Char} {tok : Token}
    (hread : readEscape g t = .ok (.pair high low c, after)) (ht : backslash :: t = high ++ (x ++ y))
    (hs : backslash :: s = high ++ x) (hread' : readEscape g s = .ok (tok, rest)) :
    ∃ low' c', tok = .pair high low' c' := by
  cases readEscape_eq_ok_iff.1 hread with
  | @numeric m r digits behind _ e value _ hsimple he hnumeral token =>
    obtain ⟨hhigh, rfl⟩ := exists_of_ofCodeValue_eq_pair token
    -- The digits of the first half end where the text is cut or in front of that.
    have hbehind : behind = x ++ y := by
      simp only [List.cons_append, List.cons.injEq, true_and] at ht
      exact List.append_cancel_left ((NumericEscape.eq_append_of_read hnumeral).symm.trans ht)
    rw [hbehind] at hnumeral
    obtain rfl : s = m :: (digits ++ x) := by simpa using hs
    simp only [readEscape, hsimple, he, NumericEscape.read_cut hnumeral] at hread'
    exact eq_pair_of_ofCodeValue hhigh hread'

end Token

namespace Mapper

variable {v q : Text} {us : List Token}

/-! ## What is left of a token that is cut -/

/-- What is left of a token that is cut, if it can be read, is one token. -/
theorem exists_token_of_complete (hcut : CutsFirst g v q) (hcomplete : (scan g v).fault = none)
    (hv : v ≠ []) {tok : Token} (htokens : (scan g (v ++ q)).tokens = tok :: us) :
    ∃ tok', (scan g v).tokens = [tok'] ∧ tok'.text = v ∧ decodedUnits g v = unitsOf tok'.char := by
  rcases tokens_of_cutsFirst hcut htokens with hnil | ⟨tok', htok', htext⟩
  · have hempty := textOf_tokens_of_complete hcomplete
    rw [hnil] at hempty
    exact absurd hempty.symm hv
  · exact ⟨tok', htok', htext, by simp [decodedUnits_eq, htok']⟩

/-- What is left of a pair behind its first half decodes to two units as well, if it can be read. -/
theorem decodedUnits_of_complete_pair (hcut : CutsFirst g v q) (hcomplete : (scan g v).fault = none)
    {high low : Text} {c : Char} (htokens : (scan g (v ++ q)).tokens = .pair high low c :: us)
    (hhigh : Text.units high ≤ Text.units v) : decodedUnits g v = 2 := by
  have hproper : Token.Proper (.pair high low c) := proper_tokens g (v ++ q) _ (by simp [htokens])
  have hv : v ≠ [] := by
    rintro rfl
    have htwo := hproper.2.1
    rw [Text.units_nil] at hhigh
    omega
  obtain ⟨tok', htok', -, hunits⟩ := exists_token_of_complete hcut hcomplete hv htokens
  obtain ⟨v', w, after, rfl, -, rfl, hread, htext⟩ := exists_readEscape_of_cutsFirst hv hcut htokens
  have hhalves : high ++ low = (backslash :: v') ++ w := htext
  obtain ⟨x, hx, -⟩ := Text.exists_append_of_units_le hhalves hhigh
  obtain ⟨c', r', rest, hcons, hread', -, -⟩ := exists_read_of_tokens_eq_cons htok'
  obtain ⟨rfl, rfl⟩ := List.cons.inj hcons
  rw [Token.read_backslash] at hread'
  obtain ⟨low', c', rfl⟩ := Token.eq_pair_of_readEscape (x := x) (y := w ++ after) hread
    (by rw [← List.append_assoc high, ← hx]; rfl) hx hread'
  have hproper' : Token.Proper (.pair high low' c') := proper_tokens g _ _ (by rw [htok']; simp)
  rw [hunits]
  exact hproper'.1

/-- A unit is mapped to the end of the range if nothing is found for it in front of that. -/
theorem mappedEntry_eq_units_iff {part : Text} {i : Nat} :
    mappedEntry g part q i = Text.units part ↔
      ∀ o, entryIn g part q i = some o → Text.units part ≤ o := by
  unfold mappedEntry
  cases entryIn g part q i with
  | none => exact iff_of_true rfl fun o ho => absurd ho (by simp)
  | some o =>
    constructor
    · intro hmin o' ho'
      obtain rfl := Option.some.inj ho'
      rw [← hmin]
      exact Nat.min_le_right _ _
    · intro h
      exact Nat.min_eq_left (h o rfl)

/-- A unit of the token that is cut is found where the literal has it. -/
theorem entryIn_of_lt {tok : Token} (htokens : (scan g (v ++ q)).tokens = tok :: us) {i : Nat}
    (hi : i < unitsOf tok.char) : entryIn g v q i = (tok.offsets 0)[i]? := by
  have hproper : tok.Proper := proper_tokens g (v ++ q) tok (by simp [htokens])
  have hcovers : Covers g (v ++ q) i := by
    refine covers_iff.2 (.inr ?_)
    rw [htokens, Token.charsOf_cons, Text.units_cons]
    exact Nat.lt_add_right _ hi
  obtain ⟨es, hes, -⟩ := exists_entries_eq_append g _ htokens
  rw [entryIn, if_pos hcovers, hes, List.getElem?_append_left (by rwa [Token.length_offsets hproper])]

/-- Behind its units nothing is found in front of the cut: the literal goes on behind the token, and the
    range has the end of its decoded text at its end. -/
theorem units_le_of_entryIn (hcut : CutsFirst g v q) (hcomplete : (scan g v).fault = none) {tok : Token}
    (htokens : (scan g (v ++ q)).tokens = tok :: us) (hle : unitsOf tok.char ≤ decodedUnits g v)
    {o : Nat} (ho : entryIn g v q (decodedUnits g v) = some o) : Text.units v ≤ o := by
  have hproper : tok.Proper := proper_tokens g (v ++ q) tok (by simp [htokens])
  unfold entryIn at ho
  split at ho
  · obtain ⟨es, hes, hbehind⟩ := exists_entries_eq_append g _ htokens
    rw [hes, List.getElem?_append_right (by rwa [Token.length_offsets hproper])] at ho
    exact Nat.le_trans (Nat.le_of_lt (hcut.units_lt htokens)) (hbehind o (List.mem_of_getElem? ho))
  · have hown := ownEntry_of_complete hcomplete
    rw [ownEntry, ho, Option.getD_some] at hown
    exact Nat.le_of_eq hown.symm

/-- A plain character is not cut. -/
theorem not_plain_of_cutsFirst (hcut : CutsFirst g v q) (hv : v ≠ []) (c : Char) :
    (scan g (v ++ q)).tokens ≠ .plain c :: us := by
  intro htokens
  obtain ⟨v', w, -, -, hw, -, -, htext⟩ := exists_readEscape_of_cutsFirst hv hcut htokens
  obtain ⟨-, hnil⟩ := List.cons.inj htext
  exact hw (List.append_eq_nil_iff.1 hnil.symm).2

/-- Where the end of what is decoded of a cut token is mapped to: the end of the range, unless the token is
    an escape of a character of two units, and what is left of it decodes to one. -/
theorem mappedEntry_end_iff (hcut : CutsFirst g v q) (hcomplete : (scan g v).fault = none) :
    mappedEntry g v q (decodedUnits g v) = Text.units v ↔
      ¬ ∃ lexeme c us, (scan g (v ++ q)).tokens = .escape lexeme c :: us ∧ unitsOf c = 2 ∧
        decodedUnits g v = 1 := by
  by_cases hv : v = []
  · subst hv
    simp [decodedUnits_eq, mappedEntry_zero]
  cases htokens : (scan g (v ++ q)).tokens with
  | nil =>
    have hfault := fault_ne_none_of_tokens_eq_nil (List.append_ne_nil_of_left_ne_nil hv q) htokens
    rw [mappedEntry_of_tokens_eq_nil htokens hfault, ownEntry_of_complete hcomplete]
    simp
  | cons tok us =>
    rw [mappedEntry_eq_units_iff]
    by_cases hle : unitsOf tok.char ≤ decodedUnits g v
    · -- The end of the decoded text is behind all units of the token.
      refine iff_of_true (fun o => units_le_of_entryIn hcut hcomplete htokens hle) ?_
      rintro ⟨lexeme, c, us', heq, hc, hone⟩
      obtain ⟨rfl, -⟩ := List.cons.inj heq
      simp only [Token.char] at hle
      omega
    · -- It is the second unit of the token.
      obtain ⟨tok', -, -, hunits⟩ := exists_token_of_complete hcut hcomplete hv htokens
      have hone : decodedUnits g v = 1 ∧ unitsOf tok.char = 2 := by
        have hpos := unitsOf_pos tok'.char
        have htwo := unitsOf_eq_one_or_two tok.char
        omega
      rw [hone.1, entryIn_of_lt htokens (by omega)]
      cases tok with
      | plain c => exact absurd htokens (not_plain_of_cutsFirst hcut hv c)
      | escape lexeme c =>
        -- It is at the backslash, and the range goes on behind that.
        have hpos : 0 < Text.units v := Nat.pos_of_ne_zero fun hzero =>
          hv ((Text.units_eq_zero_iff v).1 hzero)
        have hc : unitsOf c = 2 := hone.2
        refine iff_of_false (fun h => ?_) (fun h => h ⟨lexeme, c, us, rfl, hc, rfl⟩)
        have hzero := h 0 (by simp [Token.offsets, hc])
        omega
      | pair high low c =>
        -- It is at the second backslash, and the range does not reach behind that.
        refine iff_of_true (fun o ho => ?_) (fun h => ?_)
        · obtain rfl : Text.units high = o := by simpa [Token.offsets] using ho
          refine Nat.le_of_not_lt fun hlt => ?_
          have htwo := decodedUnits_of_complete_pair hcut hcomplete htokens (Nat.le_of_lt hlt)
          omega
        · obtain ⟨lexeme, c', us', heq, -⟩ := h
          simp at heq

/-- What is left of a token that is cut is no token of the literal: the cut belongs to a unit of the token,
    and not to the end of what is left of it. -/
theorem decodedIndex_end_of_not_isAligned (hcut : CutsFirst g v q) (hcomplete : (scan g v).fault = none)
    (h : ¬ IsAligned g (v ++ q) (Text.units v)) :
    Text.units v < (scan g (v ++ q)).consumed ∧
      (OffsetTable.build g (v ++ q)).decodedIndex (Text.units v) ≠ decodedUnits g v := by
  have hv : v ≠ [] := by
    rintro rfl
    exact h (.inl ⟨[], _, rfl, rfl⟩)
  cases htokens : (scan g (v ++ q)).tokens with
  | nil =>
    have hconsumed : (scan g (v ++ q)).consumed ≤ Text.units v := by
      rw [Scan.consumed, htokens]
      exact Nat.zero_le _
    have hfault := fault_ne_none_of_tokens_eq_nil (List.append_ne_nil_of_left_ne_nil hv q) htokens
    exact absurd (isAligned_of_consumed_le hfault hconsumed) h
  | cons tok us =>
    have hlt := hcut.units_lt htokens
    obtain ⟨tok', -, -, hunits⟩ := exists_token_of_complete hcut hcomplete hv htokens
    refine ⟨?_, ?_⟩
    · rw [Scan.consumed, htokens, Token.textOf_cons, Text.units_append]
      exact Nat.lt_add_right _ hlt
    · by_cases hpair : ∃ high low c us', (scan g (v ++ q)).tokens = .pair high low c :: us' ∧
          Text.units high ≤ Text.units v
      · obtain ⟨high, low, c, us', htokens', hhigh⟩ := hpair
        rw [decodedIndex_of_pair hcut htokens' hhigh,
          decodedUnits_of_complete_pair hcut hcomplete htokens' hhigh]
        decide
      · have hnot : ∀ high low c us', (scan g (v ++ q)).tokens = .pair high low c :: us' →
            Text.units v < Text.units high := fun high low c us' htokens' =>
          Nat.lt_of_not_le fun hhigh => hpair ⟨high, low, c, us', htokens', hhigh⟩
        rw [decodedIndex_of_not_pair hcut hnot, hunits]
        exact Nat.ne_of_lt (unitsOf_pos _)

/-! ## The ends of a range -/

variable {host part : Text} {range : Span}

/-- The range ends inside an escape of the literal that stands for a character of two units, and of its
    decoded text, `decoded` units long, one unit is left for the escape. -/
def HalvesEscape (g : Grammar) (host : Text) (range : Span) (decoded : Nat) : Prop :=
  ∃ ts lexeme c, Crosses g host range ts (.escape lexeme c) ∧ unitsOf c = 2 ∧
    decodedUnits g (Text.takeUnits host range.start) + decoded = Text.units (Token.charsOf ts) + 1

theorem mappedEntry_add {ms : List Token} (hfronts : Fronts g ms (v ++ q)) (j : Nat) :
    mappedEntry g (Token.textOf ms ++ v) q (Text.units (Token.charsOf ms) + j)
      = Text.units (Token.textOf ms) + mappedEntry g v q j := by
  unfold mappedEntry
  rw [entryIn_add hfronts, Text.units_append]
  cases entryIn g v q j with
  | none => rfl
  | some o => exact Nat.add_min_add_left _ _ _

theorem halvesEscape_iff_of_fronts {ts ms : List Token}
    (hfronts : Fronts g ts (Token.textOf ms ++ (v ++ q))) (hms : Fronts g ms (v ++ q))
    (hcut : CutsFirst g v q) (hstart : range.start = Text.units (Token.textOf ts))
    (hstop : range.stop = Text.units (Token.textOf (ts ++ ms)) + Text.units v) :
    HalvesEscape g (Token.textOf (ts ++ ms) ++ (v ++ q)) range (decodedUnits g (Token.textOf ms ++ v)) ↔
      ∃ lexeme c us, (scan g (v ++ q)).tokens = .escape lexeme c :: us ∧ unitsOf c = 2 ∧
        decodedUnits g v = 1 := by
  have hcrosses := crosses_iff_of_fronts (hfronts.append hms) hcut hstop
  have hbase : decodedUnits g (Text.takeUnits (Token.textOf (ts ++ ms) ++ (v ++ q)) range.start)
      = Text.units (Token.charsOf ts) := by
    rw [hstart, Token.textOf_append, List.append_assoc, decodedUnits_takeUnits_of_fronts hfronts]
  have hchars : Text.units (Token.charsOf (ts ++ ms))
      = Text.units (Token.charsOf ts) + Text.units (Token.charsOf ms) := by
    rw [Token.charsOf_append, Text.units_append]
  unfold HalvesEscape
  rw [hbase, decodedUnits_append hms.left]
  constructor
  · rintro ⟨ts', lexeme, c, hcross, hc, hunits⟩
    obtain ⟨rfl, us, htokens⟩ := (hcrosses _ _).1 hcross
    exact ⟨lexeme, c, us, htokens, hc, by omega⟩
  · rintro ⟨lexeme, c, us, htokens, hc, hunits⟩
    exact ⟨ts ++ ms, lexeme, c, (hcrosses _ _).2 ⟨rfl, us, htokens⟩, hc, by omega⟩

/-- The end of the decoded text is mapped to the end of the range unless the range halves an escape. -/
theorem toHostFresh_end_iff (hfit : Text.units host < offsetLimit)
    (hpart : Text.slice? host range = some part) (hstart : IsBoundary g host range.start)
    (hcomplete : (scan g part).fault = none) :
    toHostFresh g host (decodedUnits g part) range = range.stop ↔
      ¬ HalvesEscape g host range (decodedUnits g part) := by
  obtain ⟨ts, ms, v, q, rfl, rfl, hfronts, hms, hcut, hstart, hstop⟩ :=
    exists_cut_of_isBoundary hpart hstart
  rw [hms v q rfl, Scan.fault_prepend] at hcomplete
  rw [halvesEscape_iff_of_fronts hfronts hms hcut hstart hstop, ← mappedEntry_end_iff hcut hcomplete]
  rw [Token.textOf_append, Text.units_append] at hstop
  have hhost : Token.textOf (ts ++ ms) ++ (v ++ q)
      = Token.textOf ts ++ (Token.textOf ms ++ v ++ q) := by simp
  rw [← List.append_assoc] at hfronts
  rw [hhost] at hfit hpart ⊢
  rw [toHostFresh_of_fronts hfronts hpart hstart hfit, decodedUnits_append hms.left,
    mappedEntry_add hms, hstop, hstart]
  constructor
  · intro h
    omega
  · intro h
    omega

/-- The end of the range is mapped to the end of the decoded text if it is aligned, and only then. -/
theorem toDecodedFresh_end_iff (hpart : Text.slice? host range = some part)
    (hstart : IsBoundary g host range.start) (hcomplete : (scan g part).fault = none) :
    toDecodedFresh g host range.stop range = decodedUnits g part ↔ IsAligned g host range.stop := by
  constructor
  · intro hend
    obtain ⟨ts, ms, v, q, rfl, rfl, hfronts, hms, hcut, hstart, hstop⟩ :=
      exists_cut_of_isBoundary hpart hstart
    rw [hms v q rfl, Scan.fault_prepend] at hcomplete
    rw [hstop, (hfronts.append hms).isAligned_add_iff]
    by_cases haligned : IsAligned g (v ++ q) (Text.units v)
    · exact haligned
    · obtain ⟨hlt, hne⟩ := decodedIndex_end_of_not_isAligned hcut hcomplete haligned
      rw [toDecodedFresh_stop_of_fronts hfronts hms hpart hstart hstop, if_pos (.inr hlt),
        decodedUnits_append hms.left] at hend
      exact absurd (Nat.add_left_cancel hend) hne
  · intro haligned
    obtain ⟨-, -, -, -, hstop⟩ := Text.exists_of_slice?_eq_some hpart
    have hle : range.start ≤ range.stop := by
      rw [hstop]
      exact Nat.le_add_right _ _
    have hunits : range.stop - range.start = Text.units part := by
      rw [hstop, Nat.add_sub_cancel_left]
    rw [toDecodedFresh_of_isAligned hpart (.inl hstart) haligned hle (Nat.le_refl _), hunits,
      decodedIndex_of_complete hcomplete]

/-- The start of the range and the first unit of the decoded text belong to each other. -/
theorem start_of_isBoundary (hfit : Text.units host < offsetLimit)
    (hpart : Text.slice? host range = some part) (hstart : IsBoundary g host range.start) :
    toHostFresh g host 0 range = range.start ∧ toDecodedFresh g host range.start range = 0 := by
  have hle := ((Text.slice?_eq_some_iff _ _ _).1 hpart).1
  obtain ⟨ts, q, rfl, hfronts, hstart, -⟩ := exists_fronts_of_isBoundary hpart hstart
  rw [toHostFresh_of_fronts hfronts hpart hstart hfit, mappedEntry_zero,
    toDecodedFresh_of_fronts hfronts hpart hstart (Nat.le_refl _) hle, Nat.sub_self,
    decodedIndex_build_zero, decodedIndex_build_zero, ite_self]
  exact ⟨rfl, rfl⟩

/-- What a range decodes to, and whether it could be decoded completely. -/
theorem exists_of_decodeRange {m : Mapper} (hm : Serves g host m) {chars : Array Char} {complete : Bool}
    (h : (((decodeRange range).run #[]).run m).value.1 = (.ok complete, chars)) :
    ∃ part, Text.slice? host range = some part ∧ Text.units chars.toList = decodedUnits g part ∧
      complete = (scan g part).fault.isNone := by
  rw [(answers_decodeRange range #[] m hm).1, decodeFresh] at h
  cases hpart : Text.slice? host range with
  | none => simp [hpart, Except.map] at h
  | some part =>
    simp only [hpart, Except.map, Prod.mk.injEq, Except.ok.injEq] at h
    obtain ⟨rfl, rfl⟩ := h
    refine ⟨part, rfl, rfl, ?_⟩
    rw [decode_eq]
    dsimp only [Scan.status]
    cases (scan g part).fault <;> rfl

/-- In a range that starts at a boundary and decodes completely, the first unit of the decoded text belongs to
    the start of the range. The end of the decoded text is mapped to the end of the range unless the
    range halves an escape, and the end of the range to the end of the decoded text exactly if the
    range ends at an aligned offset. -/
theorem mapping_ends_iff {m : Mapper} (hm : Reachable g host m) (hfit : Text.units host < offsetLimit)
    (hstart : IsBoundary g host range.start) {chars : Array Char}
    (hdecode : (((decodeRange range).run #[]).run m).value.1 = (.ok true, chars)) :
    ((mapToHost 0 range).run m).value.1 = range.start ∧
    ((mapToDecoded range.start range).run m).value.1 = 0 ∧
    (((mapToHost (Text.units chars.toList) range).run m).value.1 = range.stop ↔
      ¬ HalvesEscape g host range (Text.units chars.toList)) ∧
    (((mapToDecoded range.stop range).run m).value.1 = Text.units chars.toList ↔
      IsAligned g host range.stop) := by
  obtain ⟨part, hpart, hunits, hcomplete⟩ := exists_of_decodeRange hm.serves hdecode
  have hcomplete : (scan g part).fault = none := Option.isNone_iff_eq_none.1 hcomplete.symm
  obtain ⟨hforward, hback⟩ := start_of_isBoundary hfit hpart hstart
  rw [(answers_mapToHost 0 range m hm.serves).1, (answers_mapToHost _ range m hm.serves).1,
    (answers_mapToDecoded range.start range m hm.serves).1,
    (answers_mapToDecoded range.stop range m hm.serves).1, hunits]
  exact ⟨hforward, hback, toHostFresh_end_iff hfit hpart hstart hcomplete,
    toDecodedFresh_end_iff hpart hstart hcomplete⟩

/-- A range that ends inside an octal escape, of which it has a character of its own, in a mapper that was
    used for another range before. -/
theorem mapping_ends_iff_octal :
    Reachable Grammar.java "a\\101".toList
        ((Request.toHost 0 ⟨0, 1⟩).perform (Mapper.new "a\\101".toList Grammar.java)) ∧
      Text.units "a\\101".toList < offsetLimit ∧ IsBoundary Grammar.java "a\\101".toList 1 ∧
      ¬ IsAligned Grammar.java "a\\101".toList 4 ∧
    ∃ chars, (((decodeRange ⟨1, 4⟩).run #[]).run ((Request.toHost 0 ⟨0, 1⟩).perform
        (Mapper.new "a\\101".toList Grammar.java))).value.1 = (.ok true, chars) ∧
      ((mapToHost 0 ⟨1, 4⟩).run ((Request.toHost 0 ⟨0, 1⟩).perform
        (Mapper.new "a\\101".toList Grammar.java))).value.1 = 1 ∧
      ((mapToDecoded 1 ⟨1, 4⟩).run ((Request.toHost 0 ⟨0, 1⟩).perform
        (Mapper.new "a\\101".toList Grammar.java))).value.1 = 0 ∧
      (((mapToHost (Text.units chars.toList) ⟨1, 4⟩).run ((Request.toHost 0 ⟨0, 1⟩).perform
          (Mapper.new "a\\101".toList Grammar.java))).value.1 = 4 ↔
        ¬ HalvesEscape Grammar.java "a\\101".toList ⟨1, 4⟩ (Text.units chars.toList)) ∧
      (((mapToDecoded 4 ⟨1, 4⟩).run ((Request.toHost 0 ⟨0, 1⟩).perform
          (Mapper.new "a\\101".toList Grammar.java))).value.1 = Text.units chars.toList ↔
        IsAligned Grammar.java "a\\101".toList 4) := by
  have hfit : Text.units "a\\101".toList < offsetLimit := by decide +kernel
  have hstart : IsBoundary Grammar.java "a\\101".toList (Span.mk 1 4).start := by decide +kernel
  have hdecode : (((decodeRange ⟨1, 4⟩).run #[]).run ((Request.toHost 0 ⟨0, 1⟩).perform
      (Mapper.new "a\\101".toList Grammar.java))).value.1 = (.ok true, #['\x08']) := by decide +kernel
  exact ⟨.perform _ .new, hfit, hstart, by decide +kernel, _, hdecode,
    mapping_ends_iff (.perform (.toHost 0 ⟨0, 1⟩) .new) hfit hstart hdecode⟩

/-- Where the range has the first digits of an escape, both ends can be missed. Of an escape of up to eight
    digits it has a character of one unit, whose end is mapped to the backslash; and with two octal
    digits of three, the end of the range is mapped to the first unit of the decoded text. -/
theorem mapping_ends_inside_escape :
    (IsBoundary ((Grammar.empty "hex").withNumeric (.between 'U' 1 8)) "\\U1F600".toList 0 ∧
      ∃ chars, (((decodeRange ⟨0, 6⟩).run #[]).run (Mapper.new "\\U1F600".toList
          ((Grammar.empty "hex").withNumeric (.between 'U' 1 8)))).value.1 = (.ok true, chars) ∧
        ((mapToHost (Text.units chars.toList) ⟨0, 6⟩).run (((decodeRange ⟨0, 6⟩).run #[]).run
          (Mapper.new "\\U1F600".toList
            ((Grammar.empty "hex").withNumeric (.between 'U' 1 8)))).value.2).value.1 ≠ 6) ∧
    (IsBoundary Grammar.java "\\101".toList 0 ∧
      ∃ chars, (((decodeRange ⟨0, 3⟩).run #[]).run
          (Mapper.new "\\101".toList Grammar.java)).value.1 = (.ok true, chars) ∧
        ((mapToDecoded 3 ⟨0, 3⟩).run (((decodeRange ⟨0, 3⟩).run #[]).run
          (Mapper.new "\\101".toList Grammar.java)).value.2).value.1 ≠ Text.units chars.toList) :=
  ⟨⟨by decide +kernel, #[Char.ofNat 0x1F60], by decide +kernel, by decide +kernel⟩,
    ⟨by decide +kernel, #['\x08'], by decide +kernel, by decide +kernel⟩⟩

end Mapper

end Unescape
