import Unescape.Proofs.Alignment

set_option autoImplicit false

/-! # A token that ends before the text does stays when the text goes on

`TokenLocality` cuts a text behind a token. Here the text goes on: a reader that has left something
unread stopped in front of it, and what follows that makes no difference (`Token.read_append`).

So what is left of a token that is cut is read to its end, if it can be read at all. Otherwise the
character that stopped the reader would have stopped it in the whole token as well
(`rest_eq_nil_of_cut`). A text in which no token of a longer text ends is at most one token
(`tokens_of_cutsFirst`). -/

namespace Unescape

variable {g : Grammar}

/-! ## Greedy runs -/

theorem hexRun_append_right (limit : Nat) (t u : Text) {d : Char} {s : Text}
    (h : (hexRun limit t).2 = d :: s) :
    hexRun limit (t ++ u) = ((hexRun limit t).1, d :: s ++ u) := by
  fun_induction hexRun limit t with
  | case1 t =>
    obtain rfl : t = d :: s := h
    rfl
  | case2 n => simp at h
  | case3 n c r hc ih => simp [hexRun, hc, ih h]
  | case4 n c r hc =>
    obtain ⟨rfl, rfl⟩ := List.cons.inj h
    simp [hexRun, hc]

theorem octalRun_append_right {maxValue value total : UInt32} {limit : Nat} {t digits s : Text}
    {d : Char} (u : Text) (h : octalRun maxValue limit value t = (digits, total, d :: s)) :
    octalRun maxValue limit value (t ++ u) = (digits, total, d :: s ++ u) := by
  fun_induction octalRun maxValue limit value t generalizing digits total
  all_goals simp only [Prod.mk.injEq, reduceCtorEq, and_false] at h
  all_goals obtain ⟨rfl, rfl, hrest⟩ := h
  case case1 => rw [octalRun, hrest]
  case case3 limit value c r d' hd hle digits total rest hrun ih =>
    have := ih (hrun.trans (by rw [hrest]))
    simp [octalRun, hd, hle, this]
  case case4 limit value c r d' hd hle =>
    obtain ⟨rfl, rfl⟩ := List.cons.inj hrest
    simp [octalRun, hd, hle]
  case case5 limit value c r hd =>
    obtain ⟨rfl, rfl⟩ := List.cons.inj hrest
    simp [octalRun, hd]

/-! ## Numeric escapes -/

namespace NumericEscape

/-- Markers in front of something else are the markers of the longer text. -/
theorem moreMarkers_append (e : NumericEscape) (t u : Text)
    (h : t.drop (e.moreMarkers t).length ≠ []) : e.moreMarkers (t ++ u) = e.moreMarkers t := by
  unfold moreMarkers at h ⊢
  split
  · rename_i hrep
    rw [if_pos hrep] at h
    have hlt : ¬ (t.takeWhile fun c => decide (c = e.marker)).length = t.length := by
      intro hlen
      rw [hlen, List.drop_length] at h
      exact h rfl
    rw [List.takeWhile_append, if_neg hlt]
  · rfl

theorem read_append {e : NumericEscape} {t lexeme s : Text} {value : Except MalformedKind UInt32}
    {d : Char} (u : Text) (h : e.read t = ⟨lexeme, value, d :: s⟩) :
    e.read (t ++ u) = ⟨lexeme, value, d :: s ++ u⟩ := by
  obtain ⟨rfl, rfl, hrest⟩ :
      (e.read t).lexeme = lexeme ∧ (e.read t).value = value ∧ (e.read t).rest = d :: s := by
    simp only [h, and_self]
  have hrun_rest : (hexRun e.maxDigits (t.drop (e.moreMarkers t).length)).2 = d :: s := hrest
  have hdrop : t.drop (e.moreMarkers t).length ≠ [] := by
    intro hnil
    have happ := hexRun_append e.maxDigits (t.drop (e.moreMarkers t).length)
    rw [hrun_rest, hnil] at happ
    simp at happ
  have hrun := hexRun_append_right e.maxDigits (t.drop (e.moreMarkers t).length) u hrun_rest
  unfold read
  simp only [e.moreMarkers_append t u hdrop,
    List.drop_append_of_le_length (List.IsPrefix.length_le (e.moreMarkers_prefix t)), hrun]

end NumericEscape

/-! ## Tokens -/

namespace Token

theorem lowSurrogate?_append {t lexeme s : Text} {low : UInt32} {d : Char} (u : Text)
    (h : lowSurrogate? g t = some (lexeme, low, d :: s)) :
    lowSurrogate? g (t ++ u) = some (lexeme, low, d :: s ++ u) := by
  obtain ⟨m, r, e, digits, rfl, rfl, he, hread, hlow⟩ := lowSurrogate?_eq_some_iff.1 h
  exact lowSurrogate?_eq_some_iff.2
    ⟨m, r ++ u, e, digits, rfl, rfl, he, NumericEscape.read_append u hread, hlow⟩

theorem ofCodeValue_append {lexeme rest s : Text} {value : UInt32} {tok : Token} {d : Char} (u : Text)
    (h : ofCodeValue g lexeme value rest = .ok (tok, d :: s)) :
    ofCodeValue g lexeme value (rest ++ u) = .ok (tok, d :: s ++ u) := by
  cases ofCodeValue_eq_ok_iff.1 h with
  | scalar high low char => exact ofCodeValue_eq_ok_iff.2 (.scalar high low char)
  | pair high found char =>
    exact ofCodeValue_eq_ok_iff.2 (.pair high (lowSurrogate?_append u found) char)

/-- A numeric escape leaves no less than its token does. -/
theorem exists_rest_of_ofCodeValue {lexeme rest s : Text} {value : UInt32} {tok : Token} {d : Char}
    (h : ofCodeValue g lexeme value rest = .ok (tok, d :: s)) : ∃ d' s', rest = d' :: s' := by
  obtain ⟨x, hx⟩ := text_of_ofCodeValue h
  have happ := text_append_of_ofCodeValue h
  rw [hx, List.append_assoc, List.append_cancel_left_eq] at happ
  cases x with
  | nil => exact ⟨d, s, happ.symm⟩
  | cons c x => exact ⟨c, x ++ d :: s, happ.symm⟩

theorem readEscape_append {t s : Text} {tok : Token} {d : Char} (u : Text)
    (h : readEscape g t = .ok (tok, d :: s)) :
    readEscape g (t ++ u) = .ok (tok, d :: s ++ u) := by
  refine readEscape_eq_ok_iff.2 ?_
  cases readEscape_eq_ok_iff.1 h with
  | simple hsimple => exact .simple hsimple
  | numeric hsimple he hread token =>
    obtain ⟨d', s', rfl⟩ := exists_rest_of_ofCodeValue token
    exact .numeric hsimple he (NumericEscape.read_append u hread) (ofCodeValue_append u token)
  | octal hsimple hnumeric ho hd run char =>
    exact .octal hsimple hnumeric ho hd (octalRun_append_right u run) char

/-- A token in front of something is the first token of every longer text. -/
theorem read_append {c : Char} {r s : Text} {tok : Token} {d : Char} (u : Text)
    (h : read g c r = .ok (tok, d :: s)) : read g c (r ++ u) = .ok (tok, d :: s ++ u) := by
  rcases read_eq_ok_iff.1 h with ⟨rfl, hescape⟩ | ⟨hc, rfl, rfl⟩
  · rw [read_backslash, readEscape_append u hescape]
  · exact read_of_ne hc _

/-- What is left of a token that is cut is read to its end. -/
theorem rest_eq_nil_of_cut {c : Char} {v q after rest : Text} {tok tok' : Token}
    (hread : read g c (v ++ q) = .ok (tok, after))
    (hcut : Text.units (c :: v) < Text.units tok.text) (hread' : read g c v = .ok (tok', rest)) :
    rest = [] := by
  cases rest with
  | nil => rfl
  | cons d s =>
    -- The token of the longer text would be the one that ends in `v`.
    have hlonger := read_append q hread'
    rw [hread] at hlonger
    simp only [Except.ok.injEq, Prod.mk.injEq] at hlonger
    obtain ⟨rfl, -⟩ := hlonger
    have htext := congrArg Text.units (text_append_of_read hread')
    rw [Text.units_append] at htext
    omega

end Token

/-! ## Tokens that are cut -/

/-- A text in which no token of a longer text ends is nothing that could be read, or one token. -/
theorem tokens_of_cutsFirst {v q : Text} (hcut : CutsFirst g v q) {tok : Token} {us : List Token}
    (htokens : (scan g (v ++ q)).tokens = tok :: us) :
    (scan g v).tokens = [] ∨ ∃ tok', (scan g v).tokens = [tok'] ∧ tok'.text = v := by
  cases v with
  | nil => exact .inl (by simp)
  | cons c v =>
    obtain ⟨c', r, after, hcr, hread, -, -⟩ := exists_read_of_tokens_eq_cons htokens
    have hlt := hcut c' r tok after hcr hread
    obtain ⟨rfl, rfl⟩ := List.cons.inj hcr
    cases hread' : Token.read g c v with
    | error f => exact .inl (by rw [scan_of_error hread'])
    | ok a =>
      obtain ⟨tok', rest⟩ := a
      obtain rfl := Token.rest_eq_nil_of_cut hread hlt hread'
      have htext := Token.text_append_of_read hread'
      rw [List.append_nil] at htext
      exact .inr ⟨tok', by rw [scan_of_ok hread']; simp [Scan.cons], htext⟩

end Unescape
