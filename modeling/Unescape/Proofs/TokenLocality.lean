import Unescape.Escape.Token

set_option autoImplicit false

/-! # Reading a token looks no further than the token

Digits are read greedily, a marker may repeat, and a high surrogate looks ahead for its low half, so
what a text reads as depends on how it goes on. A token that has been read does not: the text may be
cut anywhere behind it, and the same token is read with the shorter rest (`Token.read_cut`).

Every lemma of this module has one shape: reading left the rest `s ++ u`, and reading again what was
taken, with only `s` behind it, takes the same and leaves `s`. What follows `s` was never looked at,
since a greedy reader stops at the first character of the rest, which is that of `s` unless `s` is
empty, and at the end of a text it stops as well. -/

namespace Unescape

/-! ## Greedy runs -/

/-- A run of characters with a property ends where it ended before, also when what follows it is
    cut. -/
theorem takeWhile_cut (p : Char → Bool) (t s u : Text)
    (h : t.drop (t.takeWhile p).length = s ++ u) :
    (t.takeWhile p ++ s).takeWhile p = t.takeWhile p := by
  induction t with
  | nil =>
    obtain ⟨rfl, -⟩ := List.append_eq_nil_iff.1 h.symm
    rfl
  | cons c r ih =>
    by_cases hc : p c = true
    · simp only [List.takeWhile_cons_of_pos hc, List.length_cons, List.drop_succ_cons] at h
      simp [List.takeWhile_cons_of_pos hc, ih h]
    · cases s with
      | nil => simp [hc]
      | cons d s =>
        simp only [List.takeWhile_cons_of_neg hc, List.length_nil, List.drop_zero] at h
        obtain ⟨rfl, -⟩ := List.cons.inj h
        simp [hc]

theorem hexRun_cut (limit : Nat) (t s u : Text) (h : (hexRun limit t).2 = s ++ u) :
    hexRun limit ((hexRun limit t).1 ++ s) = ((hexRun limit t).1, s) := by
  fun_induction hexRun limit t with
  | case1 t => rfl
  | case2 n =>
    obtain ⟨rfl, -⟩ := List.append_eq_nil_iff.1 h.symm
    rfl
  | case3 n c r hc ih =>
    have := ih h
    simp [hexRun, hc, this]
  | case4 n c r hc =>
    cases s with
    | nil => rfl
    | cons d s =>
      obtain ⟨rfl, -⟩ := List.cons.inj h
      simp [hexRun, hc]

theorem octalRun_cut {maxValue value total : UInt32} {limit : Nat} {t digits s u : Text}
    (h : octalRun maxValue limit value t = (digits, total, s ++ u)) :
    octalRun maxValue limit value (digits ++ s) = (digits, total, s) := by
  fun_induction octalRun maxValue limit value t generalizing digits total
  all_goals simp only [Prod.mk.injEq] at h
  all_goals obtain ⟨rfl, rfl, hrest⟩ := h
  case case1 => rfl
  case case2 =>
    obtain ⟨rfl, -⟩ := List.append_eq_nil_iff.1 hrest.symm
    rfl
  case case3 limit value c r d hd hle digits total rest hrun ih =>
    have := ih (hrun.trans (by rw [hrest]))
    simp [octalRun, hd, hle, this]
  case case4 limit value c r d hd hle =>
    cases s with
    | nil => rfl
    | cons e s =>
      obtain ⟨rfl, -⟩ := List.cons.inj hrest
      simp [octalRun, hd, hle]
  case case5 limit value c r hd =>
    cases s with
    | nil => rfl
    | cons e s =>
      obtain ⟨rfl, -⟩ := List.cons.inj hrest
      simp [octalRun, hd]

/-! ## Numeric escapes -/

namespace NumericEscape

/-- The markers end where they ended before, also when what follows them is cut. -/
theorem moreMarkers_cut (e : NumericEscape) (t s u : Text)
    (h : t.drop (e.moreMarkers t).length = s ++ u) :
    e.moreMarkers (e.moreMarkers t ++ s) = e.moreMarkers t := by
  unfold moreMarkers at h ⊢
  by_cases hrep : e.repeatMarker = true
  · simp only [if_pos hrep] at h ⊢
    exact takeWhile_cut _ t s u h
  · simp only [if_neg hrep]

theorem read_cut {e : NumericEscape} {t lexeme s u : Text} {value : Except MalformedKind UInt32}
    (h : e.read t = ⟨lexeme, value, s ++ u⟩) : e.read (lexeme ++ s) = ⟨lexeme, value, s⟩ := by
  obtain ⟨rfl, rfl, hrest⟩ :
      (e.read t).lexeme = lexeme ∧ (e.read t).value = value ∧ (e.read t).rest = s ++ u := by
    simp only [h, and_self]
  have hrun := hexRun_cut e.maxDigits (t.drop (e.moreMarkers t).length) s u hrest
  have hmark : e.moreMarkers ((e.read t).lexeme ++ s) = e.moreMarkers t := by
    have := e.moreMarkers_cut t ((hexRun e.maxDigits (t.drop (e.moreMarkers t).length)).1 ++ s) u
      (by
        have hrun_rest : (hexRun e.maxDigits (t.drop (e.moreMarkers t).length)).2 = s ++ u := hrest
        rw [List.append_assoc, ← hrun_rest, hexRun_append])
    simpa [read] using this
  have hdrop : ((e.read t).lexeme ++ s).drop (e.moreMarkers t).length
      = (hexRun e.maxDigits (t.drop (e.moreMarkers t).length)).1 ++ s := by
    simp [read]
  unfold read at hmark hdrop ⊢
  simp only [hmark, hdrop, hrun]

end NumericEscape

/-! ## Tokens -/

namespace Token

theorem lowSurrogate?_cut {g : Grammar} {t lexeme s u : Text} {low : UInt32}
    (h : lowSurrogate? g t = some (lexeme, low, s ++ u)) :
    lowSurrogate? g (lexeme ++ s) = some (lexeme, low, s) := by
  obtain ⟨m, r, e, digits, -, rfl, he, hread, hlow⟩ := lowSurrogate?_eq_some_iff.1 h
  exact lowSurrogate?_eq_some_iff.2 ⟨m, _, e, digits, rfl, rfl, he, NumericEscape.read_cut hread, hlow⟩

/-- The high half of a pair looks as far as its low half and no further. -/
theorem ofCodeValue_cut {g : Grammar} {lexeme rest s u : Text} {value : UInt32} {tok : Token}
    (h : ofCodeValue g lexeme value rest = .ok (tok, s ++ u)) :
    ∃ x, tok.text = lexeme ++ x ∧ ofCodeValue g lexeme value (x ++ s) = .ok (tok, s) := by
  cases ofCodeValue_eq_ok_iff.1 h with
  | scalar high low char =>
    exact ⟨[], (List.append_nil _).symm, ofCodeValue_eq_ok_iff.2 (.scalar high low char)⟩
  | @pair lowLexeme _ _ _ high found char =>
    exact ⟨lowLexeme, rfl, ofCodeValue_eq_ok_iff.2 (.pair high (lowSurrogate?_cut found) char)⟩

theorem readEscape_cut {g : Grammar} {t s u : Text} {tok : Token}
    (h : readEscape g t = .ok (tok, s ++ u)) :
    ∃ x, tok.text = backslash :: x ∧ readEscape g (x ++ s) = .ok (tok, s) := by
  cases readEscape_eq_ok_iff.1 h with
  | @simple m _ _ hc => exact ⟨[m], rfl, readEscape_eq_ok_iff.2 (.simple hc)⟩
  | @numeric m r digits behind _ e value _ hsimple he hread token =>
    obtain ⟨x, htext, hof⟩ := ofCodeValue_cut token
    -- What the numeric escape left over is the low half of a pair, or nothing, and the rest.
    have hbehind : behind = (x ++ s) ++ u := by
      have happ := text_append_of_ofCodeValue token
      rw [htext, List.append_assoc, List.append_cancel_left_eq] at happ
      simpa using happ.symm
    rw [hbehind] at hread
    refine ⟨m :: (digits ++ x), htext, readEscape_eq_ok_iff.2 ?_⟩
    rw [List.cons_append, List.append_assoc]
    exact .numeric hsimple he (NumericEscape.read_cut hread) hof
  | @octal m _ _ digits _ _ _ _ hsimple hnumeric ho hd run char =>
    exact ⟨m :: digits, rfl,
      readEscape_eq_ok_iff.2 (.octal hsimple hnumeric ho hd (octalRun_cut run) char)⟩

/-- A text that is cut behind the token at its front still begins with that token. -/
theorem read_cut {g : Grammar} {c : Char} {r s u : Text} {tok : Token}
    (h : read g c r = .ok (tok, s ++ u)) :
    ∃ x, tok.text = c :: x ∧ read g c (x ++ s) = .ok (tok, s) := by
  rcases read_eq_ok_iff.1 h with ⟨rfl, hescape⟩ | ⟨hc, rfl, rfl⟩
  · obtain ⟨x, htext, hread⟩ := readEscape_cut hescape
    exact ⟨x, htext, by rw [read_backslash, hread]⟩
  · exact ⟨[], rfl, read_of_ne hc s⟩

end Token

end Unescape
