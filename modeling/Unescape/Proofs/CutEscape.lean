import Unescape.Grammar.Builtin
import Unescape.Proofs.DigitValue
import Unescape.Proofs.TokenLocality

set_option autoImplicit false

/-! # Escapes that are cut

A text that ends inside an escape has only the front of the escape, and that front is read anew: it
is malformed, or it is an escape of fewer digits.

In a grammar that is `CutSafe` an escape of a fixed number of digits that is cut lacks digits, and a
pair of surrogates that is cut lacks its low half, so both are malformed. An octal escape and one of
up to three digits spell characters of one unit, whether they are cut or not
(`Token.readEscape_of_cut`). The built-in grammars are of this kind (`cutSafe_java`,
`cutSafe_proto`). -/

namespace Unescape

/-- No escape of the grammar can be cut into one that decodes to another number of units. -/
structure CutSafe (g : Grammar) : Prop where
  /-- The number of digits is fixed, or so small that only characters of one unit are spelled. -/
  numeric : ∀ e ∈ g.numeric,
    0 < e.minDigits ∧ (e.minDigits = e.maxDigits ∨ e.maxDigits ≤ 3)
  /-- Octal values stay below the surrogates. -/
  octal : ∀ o, g.octal = some o → o.maxValue.toNat < 0xD800

theorem cutSafe_java : CutSafe Grammar.java :=
  ⟨by decide +kernel, fun o h => by obtain rfl := Option.some.inj h; decide⟩

theorem cutSafe_proto : CutSafe Grammar.proto :=
  ⟨by decide +kernel, fun o h => by obtain rfl := Option.some.inj h; decide⟩

theorem Grammar.mem_of_numeric?_eq_some {g : Grammar} {m : Char} {e : NumericEscape}
    (h : g.numeric? m = some e) : e ∈ g.numeric :=
  List.mem_of_find?_eq_some h

theorem Grammar.marker_of_numeric?_eq_some {g : Grammar} {m : Char} {e : NumericEscape}
    (h : g.numeric? m = some e) : e.marker = m := by
  simpa using List.find?_some h

/-! ## Digits that are cut -/

theorem hexRun_of_prefix {limit : Nat} {t v : Text} (h : v <+: (hexRun limit t).1) :
    hexRun limit v = (v, []) := by
  fun_induction hexRun limit t generalizing v with
  | case1 => simp_all [hexRun]
  | case2 => simp_all [hexRun]
  | case3 n c r hc ih =>
    cases v with
    | nil => rfl
    | cons d v =>
      obtain ⟨rfl, hv⟩ := List.cons_prefix_cons.1 h
      simp [hexRun, hc, ih hv]
  | case4 => simp_all [hexRun]

theorem octalRun_nil (maxValue : UInt32) (limit : Nat) (value : UInt32) :
    octalRun maxValue limit value [] = ([], value, []) := by
  cases limit <;> rfl

theorem octalRun_of_prefix {maxValue : UInt32} {limit : Nat} {value : UInt32} {t v : Text}
    (h : v <+: (octalRun maxValue limit value t).1) :
    ∃ total, octalRun maxValue limit value v = (v, total, []) := by
  cases v with
  | nil => exact ⟨value, octalRun_nil ..⟩
  | cons e v =>
    fun_induction octalRun maxValue limit value t generalizing e v with
    | case3 limit value c r d hd hle digits total rest hrun ih =>
      obtain ⟨rfl, hv⟩ := List.cons_prefix_cons.1 h
      rw [hrun] at ih
      cases v with
      | nil => exact ⟨_, by simp [octalRun, hd, hle, octalRun_nil]; rfl⟩
      | cons e' v =>
        obtain ⟨total', htotal⟩ := ih e' v hv
        exact ⟨total', by rw [octalRun]; simp [hd, hle, htotal]⟩
    | case1 => simp at h
    | case2 => simp at h
    | case4 => simp at h
    | case5 => simp at h

/-- In a grammar that is safe to cut, octal digits stay below the surrogates. -/
theorem CutSafe.octalRun_lt {g : Grammar} (hg : CutSafe g) {o : OctalEscape} (ho : g.octal = some o)
    {c : Char} {d : UInt32} (hd : octalDigit? c = some d) (limit : Nat) (t : Text) :
    (octalRun o.maxValue limit d t).2.1.toNat < 0xD800 := by
  rcases octalRun_value_le o.maxValue limit d t with hv | hv
  · rw [hv]
    exact Nat.lt_trans (toNat_lt_of_octalDigit? hd) (by decide)
  · exact Nat.lt_of_le_of_lt (UInt32.le_iff_toNat_le.1 hv) (hg.octal o ho)

namespace NumericEscape

/-- Markers that are cut are markers. -/
theorem moreMarkers_of_prefix {e : NumericEscape} {t v : Text} (h : v <+: e.moreMarkers t) :
    e.moreMarkers v = v := by
  unfold moreMarkers at h ⊢
  split
  · rename_i hrep
    rw [if_pos hrep] at h
    have hall : ∀ c ∈ v, decide (c = e.marker) = true := fun c hc =>
      List.all_eq_true.1 List.all_takeWhile c (h.subset hc)
    have htake : (v ++ []).takeWhile (fun c => decide (c = e.marker)) = _ :=
      List.takeWhile_append_of_pos hall
    simpa using htake
  · rename_i hrep
    rw [if_neg hrep] at h
    exact (List.prefix_nil.1 h).symm

theorem read_eq {e : NumericEscape} {t markers digits rest : Text} (hm : e.moreMarkers t = markers)
    (hd : hexRun e.maxDigits (t.drop markers.length) = (digits, rest)) :
    e.read t = ⟨markers ++ digits,
      if digits.length < e.minDigits then
        .error (.missingDigits e.marker e.minDigits digits.length)
      else .ok (hexValue digits), rest⟩ := by
  simp [read, hm, hd]

/-- What is left of a numeric escape that is cut is read to its end, with fewer digits than there
    may be, or none. -/
theorem read_of_cut {e : NumericEscape} {v y z : Text} (h : (e.read (v ++ (y ++ z))).lexeme = v ++ y)
    (hy : y ≠ []) :
    ∃ digits : Text, (digits = [] ∨ digits.length < e.maxDigits) ∧
      e.read v = ⟨v, if digits.length < e.minDigits then
          .error (.missingDigits e.marker e.minDigits digits.length)
        else .ok (hexValue digits), []⟩ := by
  obtain ⟨markers, hm⟩ : ∃ markers, e.moreMarkers (v ++ (y ++ z)) = markers := ⟨_, rfl⟩
  obtain ⟨⟨digits, rest⟩, hd⟩ :
    ∃ run, hexRun e.maxDigits ((v ++ (y ++ z)).drop markers.length) = run := ⟨_, rfl⟩
  have hlimit := length_hexRun_le e.maxDigits ((v ++ (y ++ z)).drop markers.length)
  rw [hd] at hlimit
  rw [read_eq hm hd] at h
  rcases List.append_eq_append_iff.1 h with ⟨a, rfl, rfl⟩ | ⟨more, rfl, -⟩
  · -- The cut is among the digits.
    have hdrop : (markers ++ a ++ (y ++ z)).drop markers.length = a ++ (y ++ z) := by
      rw [List.append_assoc, List.drop_left]
    have hm' := e.moreMarkers_cut (markers ++ a ++ (y ++ z)) a (y ++ z) (by rw [hm, hdrop])
    rw [hm] at hm'
    have hd' : hexRun e.maxDigits a = (a, []) :=
      hexRun_of_prefix (t := (markers ++ a ++ (y ++ z)).drop markers.length)
        (by rw [hd]; exact List.prefix_append a y)
    refine ⟨a, .inr ?_, read_eq hm' (by rw [List.drop_left, hd'])⟩
    have hpos := List.length_pos_iff.2 hy
    simp only [List.length_append] at hlimit
    omega
  · -- The cut is among the markers.
    have hm' : e.moreMarkers v = v := moreMarkers_of_prefix (by rw [hm]; exact List.prefix_append ..)
    have hd' : hexRun e.maxDigits [] = ([], []) :=
      hexRun_of_prefix (t := []) (List.nil_prefix)
    refine ⟨[], .inl rfl, ?_⟩
    rw [read_eq hm' (by rw [List.drop_length, hd']), List.append_nil]

/-- An escape of up to three digits spells characters of one unit. -/
theorem toNat_value_lt {e : NumericEscape} (h : e.maxDigits ≤ 3) {t : Text} {value : UInt32}
    (hvalue : (e.read t).value = .ok value) : value.toNat < 0xD800 := by
  have hlen := length_hexRun_le e.maxDigits (t.drop (e.moreMarkers t).length)
  simp only [read] at hvalue
  split at hvalue
  · simp at hvalue
  · simp only [Except.ok.injEq] at hvalue
    have := toNat_hexValue_lt (Nat.le_trans hlen h)
    rw [hvalue] at this
    omega

/-- In a grammar that is safe to cut, what is left of a numeric escape lacks digits, or the escape
    has few digits. -/
theorem read_of_cut_of_cutSafe {g : Grammar} (hg : CutSafe g) {e : NumericEscape}
    (he : e ∈ g.numeric) {v y z : Text} (h : (e.read (v ++ (y ++ z))).lexeme = v ++ y)
    (hy : y ≠ []) :
    (∃ kind, e.read v = ⟨v, .error kind, []⟩) ∨
      (e.maxDigits ≤ 3 ∧ ∃ value, e.read v = ⟨v, .ok value, []⟩) := by
  obtain ⟨digits, hdigits, hread⟩ := read_of_cut h hy
  obtain ⟨hpos, hwidth⟩ := hg.numeric e he
  by_cases hfew : digits.length < e.minDigits
  · rw [if_pos hfew] at hread
    exact .inl ⟨_, hread⟩
  · rw [if_neg hfew] at hread
    refine .inr ⟨?_, _, hread⟩
    rcases hdigits with rfl | hlt
    · simp only [List.length_nil] at hfew
      omega
    · omega

end NumericEscape

/-! ## Escapes that are cut -/

namespace Token

variable {g : Grammar}

/-- A low half that is cut is none. -/
theorem lowSurrogate?_of_cut (hg : CutSafe g) {v w after : Text} {low : UInt32}
    (h : lowSurrogate? g (v ++ (w ++ after)) = some (v ++ w, low, after)) (hw : w ≠ []) :
    lowSurrogate? g v = none := by
  obtain ⟨m, r, e, digits, ht, hlexeme, he, hread, hlow⟩ := lowSurrogate?_eq_some_iff.1 h
  match v with
  | [] => rfl
  | [b] => rfl
  | b :: m' :: v =>
    simp only [List.cons_append, List.cons.injEq] at ht hlexeme
    obtain ⟨rfl, rfl, rfl⟩ := ht
    obtain ⟨-, -, rfl⟩ := hlexeme
    rcases NumericEscape.read_of_cut_of_cutSafe hg (Grammar.mem_of_numeric?_eq_some he)
      (by rw [hread]) hw with ⟨kind, hcut⟩ | ⟨hfew, -⟩
    · simp [lowSurrogate?, he, hcut]
    · -- A low surrogate has four digits.
      have hlt := NumericEscape.toNat_value_lt hfew (by rw [hread])
      have hle := ((CodeValue.isLowSurrogate_iff _).1 hlow).1
      omega

/-- The high half of a pair is malformed without all of the low half. -/
theorem ofCodeValue_of_cut (hg : CutSafe g) {lexeme v w after : Text} {value : UInt32} {tok : Token}
    (h : ofCodeValue g lexeme value (v ++ (w ++ after)) = .ok (tok, after)) (hw : w ≠ []) :
    ∃ f, ofCodeValue g lexeme value v = .error f := by
  obtain ⟨rest, hrest⟩ : ∃ rest, rest = v ++ (w ++ after) := ⟨_, rfl⟩
  rw [← hrest] at h
  cases ofCodeValue_eq_ok_iff.1 h with
  | scalar =>
    -- The whole escape would leave all of the text.
    have hlen := congrArg List.length hrest
    have := List.length_pos_iff.2 hw
    simp only [List.length_append] at hlen
    omega
  | pair high found =>
    have happ := text_append_of_lowSurrogate? found
    rw [hrest, ← List.append_assoc, List.append_cancel_right_eq] at happ
    rw [hrest, happ] at found
    exact ⟨_, ofCodeValue_eq_error_iff.2 (.high high (lowSurrogate?_of_cut hg found hw))⟩

/-- What is left of a numeric escape that is cut is malformed, or one unit like the whole escape. -/
theorem readEscape_of_cut_numeric (hg : CutSafe g) {m : Char} {e : NumericEscape}
    (hsimple : g.simple? m = none) (he : g.numeric? m = some e) {v w after digits behind : Text}
    {tok : Token} {value : UInt32}
    (hread : e.read (v ++ (w ++ after)) = ⟨digits, .ok value, behind⟩)
    (h : ofCodeValue g (backslash :: m :: digits) value behind = .ok (tok, after))
    (htext : tok.text = backslash :: m :: (v ++ w)) (hw : w ≠ []) :
    (∃ f, readEscape g (m :: v) = .error f) ∨
      ∃ c, readEscape g (m :: v) = .ok (.escape (backslash :: m :: v) c, []) ∧ unitsOf c = 1 ∧
        unitsOf tok.char = 1 := by
  obtain ⟨x, hx⟩ := text_of_ofCodeValue h
  have hsplit : digits ++ x = v ++ w := by
    rw [htext] at hx
    simpa using hx.symm
  have hbehind : behind = x ++ after := by
    have happ := text_append_of_ofCodeValue h
    rw [hx, List.append_assoc, List.append_cancel_left_eq] at happ
    exact happ.symm
  have hwhere : (∃ a, v = digits ++ a ∧ x = a ++ w) ∨ ∃ y, digits = v ++ y ∧ y ≠ [] ∧ w = y ++ x := by
    rcases List.append_eq_append_iff.1 hsplit with ⟨a, hv, hx'⟩ | ⟨y, hdigits, hw'⟩
    · exact .inl ⟨a, hv, hx'⟩
    · by_cases hy : y = []
      · exact .inl ⟨[], by simp [hdigits, hy], by simp [hw', hy]⟩
      · exact .inr ⟨y, hdigits, hy, hw'⟩
  rcases hwhere with ⟨a, rfl, rfl⟩ | ⟨y, rfl, hy, rfl⟩
  · -- The digits are whole, so the escape is the high half of a pair and its low half is cut.
    rw [hbehind, List.append_assoc a] at hread h
    obtain ⟨f, hf⟩ := ofCodeValue_of_cut hg h hw
    exact .inl ⟨f, readEscape_eq_error_iff.2
      (.numeric hsimple he (NumericEscape.read_cut hread) hf)⟩
  · -- The markers or the digits are cut.
    rw [List.append_assoc] at hread
    rcases NumericEscape.read_of_cut_of_cutSafe hg (Grammar.mem_of_numeric?_eq_some he)
      (by rw [hread]) hy with ⟨kind, hcut⟩ | ⟨hfew, left, hcut⟩
    · exact .inl ⟨_, readEscape_eq_error_iff.2 (.digits hsimple he hcut)⟩
    · obtain ⟨c, hc, hunits⟩ := ofCodeValue_of_lt g (backslash :: m :: v) []
        (NumericEscape.toNat_value_lt hfew (by rw [hcut]))
      obtain ⟨c', hc', hunits'⟩ := ofCodeValue_of_lt g (backslash :: m :: (v ++ y)) behind
        (NumericEscape.toNat_value_lt hfew (by rw [hread]))
      rw [hc'] at h
      simp only [Except.ok.injEq, Prod.mk.injEq] at h
      obtain ⟨rfl, -⟩ := h
      exact .inr ⟨c, readEscape_eq_ok_iff.2 (.numeric hsimple he hcut hc), hunits, hunits'⟩

/-- What is left of an escape that is cut is malformed, or one unit like the whole escape. -/
theorem readEscape_of_cut (hg : CutSafe g) {v w after : Text} {tok : Token}
    (h : readEscape g (v ++ (w ++ after)) = .ok (tok, after))
    (htext : tok.text = backslash :: (v ++ w)) (hw : w ≠ []) :
    (∃ f, readEscape g v = .error f) ∨
      ∃ c, readEscape g v = .ok (.escape (backslash :: v) c, []) ∧ unitsOf c = 1 ∧
        unitsOf tok.char = 1 := by
  cases v with
  | nil => exact .inl ⟨_, rfl⟩
  | cons m v =>
    obtain ⟨r, hr⟩ : ∃ r, r = v ++ (w ++ after) := ⟨_, rfl⟩
    rw [List.cons_append, ← hr] at h
    rw [List.cons_append] at htext
    cases readEscape_eq_ok_iff.1 h with
    | simple => simp [text, hw] at htext
    | numeric hsimple he hread token =>
      rw [hr] at hread
      exact readEscape_of_cut_numeric hg hsimple he hread token htext hw
    | @octal _ c' _ digits _ o d value hsimple hnumeric ho hd run char =>
      -- All digits of the cut escape are digits of the whole one.
      obtain rfl : digits = v ++ w := by simpa [text] using htext
      obtain ⟨total, htotal⟩ := octalRun_of_prefix (v := v)
        (by rw [run]; exact List.prefix_append v w)
      have hvalue := hg.octalRun_lt ho hd (o.maxDigits - 1) r
      have hlt := hg.octalRun_lt ho hd (o.maxDigits - 1) v
      rw [run] at hvalue
      rw [htotal] at hlt
      obtain ⟨c'', hc'', hunits'⟩ := exists_scalar?_of_lt hvalue
      obtain rfl := Option.some.inj (hc''.symm.trans char)
      obtain ⟨c, hc, hunits⟩ := exists_scalar?_of_lt hlt
      exact .inr ⟨c, readEscape_eq_ok_iff.2 (.octal hsimple hnumeric ho hd htotal hc),
        hunits, hunits'⟩

end Token

end Unescape
