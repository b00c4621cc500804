import Unescape.Proofs.Alignment
import Unescape.Proofs.Numerals

set_option autoImplicit false

/-! # The limits of octal escapes

An octal escape has two limits, the number of its digits and the value that they spell. A digit that
follows others is read only if it keeps to both, so the digits that are read are the longest run
that does (`length_le_of_octalRun`). The first digit is read without a look at the largest value. An
escape keeps to both limits exactly if its first digit alone does (`decode_octal_longest_iff`). -/

namespace Unescape

/-! ## Reading octal digits -/

theorem toNat_of_octalDigit? {c : Char} {d : UInt32} (h : octalDigit? c = some d) :
    d.toNat = digitNat c := by
  have hc := isDigit_of_octalDigit? h
  rw [octalDigit?_of_isDigit hc] at h
  rw [← Option.some.inj h, hc.toNat_ofNat (by decide)]

/-- One more digit multiplies the value by eight and adds its own, as long as there is room for
    it. -/
theorem toNat_mul_eight_add {v d : UInt32} {c : Char} (hv : v.toNat < 0x20000000)
    (hd : octalDigit? c = some d) : (v * 8 + d).toNat = 8 * v.toNat + digitNat c := by
  have hlt := toNat_lt_of_octalDigit? hd
  rw [UInt32.toNat_add, UInt32.toNat_mul, ← toNat_of_octalDigit? hd]
  simp only [UInt32.reduceToNat]
  omega

section Run

variable {maxValue : UInt32} {limit : Nat} {value : UInt32} {t : Text}

theorem length_octalRun_le (maxValue : UInt32) (limit : Nat) (value : UInt32) (t : Text) :
    (octalRun maxValue limit value t).1.length ≤ limit := by
  fun_induction octalRun maxValue limit value t with
  | case1 => exact Nat.le_refl 0
  | case2 => exact Nat.zero_le _
  | case3 limit value c r d hd hle digits total rest hrun ih =>
    rw [hrun] at ih
    exact Nat.succ_le_succ ih
  | case4 => exact Nat.zero_le _
  | case5 => exact Nat.zero_le _

/-- The value is the number that the digits spell behind those in front of them. -/
theorem toNat_octalRun (hmax : maxValue.toNat < 0x20000000) (hvalue : value.toNat < 0x20000000) :
    (octalRun maxValue limit value t).2.1.toNat
      = numeralFrom 8 value.toNat (octalRun maxValue limit value t).1 := by
  fun_induction octalRun maxValue limit value t with
  | case1 => rfl
  | case2 => rfl
  | case3 limit value c r d hd hle digits total rest hrun ih =>
    have hnext : (value * 8 + d).toNat < 0x20000000 :=
      Nat.lt_of_le_of_lt (UInt32.le_iff_toNat_le.1 hle) hmax
    have htotal := ih hnext
    rw [hrun, toNat_mul_eight_add hvalue hd] at htotal
    exact htotal
  | case4 => rfl
  | case5 => rfl

/-- If digits are read at all, their number is not beyond the largest value. -/
theorem numeralFrom_octalRun_le (hmax : maxValue.toNat < 0x20000000)
    (hvalue : value.toNat < 0x20000000) (hne : (octalRun maxValue limit value t).1 ≠ []) :
    numeralFrom 8 value.toNat (octalRun maxValue limit value t).1 ≤ maxValue.toNat := by
  rw [← toNat_octalRun hmax hvalue]
  fun_induction octalRun maxValue limit value t with
  | case1 => exact absurd rfl hne
  | case2 => exact absurd rfl hne
  | case3 limit value c r d hd hle digits total rest hrun ih =>
    have hle' := UInt32.le_iff_toNat_le.1 hle
    rcases octalRun_value_le maxValue limit (value * 8 + d) r with heq | hlast
    · rw [hrun] at heq
      dsimp only at heq
      rw [heq]
      exact hle'
    · rw [hrun] at hlast
      exact UInt32.le_iff_toNat_le.1 hlast
  | case4 => exact absurd rfl hne
  | case5 => exact absurd rfl hne

/-- No run of digits that keeps to both limits is longer than the one that is read. -/
theorem length_le_of_octalRun (hmax : maxValue.toNat < 0x20000000) (hvalue : value.toNat < 0x20000000)
    {other s : Text} (ht : t = other ++ s) (hdigits : ∀ c ∈ other, IsDigit 8 c)
    (hlength : other.length ≤ limit) (hle : numeralFrom 8 value.toNat other ≤ maxValue.toNat) :
    other.length ≤ (octalRun maxValue limit value t).1.length := by
  fun_induction octalRun maxValue limit value t generalizing other with
  | case1 => exact hlength
  | case2 limit value =>
    obtain ⟨rfl, -⟩ := List.append_eq_nil_iff.1 ht.symm
    exact Nat.le_refl _
  | case3 limit value c r d hd hfits digits total rest hrun ih =>
    cases other with
    | nil => exact Nat.zero_le _
    | cons c' other =>
      obtain ⟨rfl, hr⟩ := List.cons.inj ht
      have hnext : (value * 8 + d).toNat < 0x20000000 :=
        Nat.lt_of_le_of_lt (UInt32.le_iff_toNat_le.1 hfits) hmax
      rw [numeralFrom_cons, ← toNat_mul_eight_add hvalue hd] at hle
      have hrest := ih hnext hr (List.forall_mem_cons.1 hdigits).2 (Nat.le_of_succ_le_succ hlength) hle
      rw [hrun] at hrest
      exact Nat.succ_le_succ hrest
  | case4 limit value c r d hd hfits =>
    cases other with
    | nil => exact Nat.le_refl _
    | cons c' other =>
      -- The digit alone is already too much, and the others only add to it.
      obtain ⟨rfl, hr⟩ := List.cons.inj ht
      rw [numeralFrom_cons, ← toNat_mul_eight_add hvalue hd] at hle
      exact absurd (UInt32.le_iff_toNat_le.2 (Nat.le_trans (le_numeralFrom (by decide) _ other) hle))
        hfits
  | case5 limit value c r hd =>
    cases other with
    | nil => exact Nat.le_refl _
    | cons c' other =>
      obtain ⟨rfl, hr⟩ := List.cons.inj ht
      have hc := (List.forall_mem_cons.1 hdigits).1
      rw [octalDigit?_of_isDigit hc] at hd
      exact absurd hd (by simp)

end Run

/-! ## The digits of an escape -/

namespace OctalEscape

variable {o : OctalEscape} {d : Char} {r : Text}

/-- A run of octal digits at the front of a text that keeps to both limits. -/
structure Allows (o : OctalEscape) (t digits : Text) : Prop where
  front : ∃ s, t = digits ++ s
  isDigit : ∀ c ∈ digits, IsDigit 8 c
  length_le : digits.length ≤ o.maxDigits
  numeral_le : numeralNat 8 digits ≤ o.maxValue.toNat

/-- The longest run of octal digits at the front of a text that keeps to both limits. -/
def IsLongest (o : OctalEscape) (t digits : Text) : Prop :=
  o.Allows t digits ∧ ∀ other, o.Allows t other → other.length ≤ digits.length

/-- The digits that an escape takes when its first digit is `d`. -/
def digits (o : OctalEscape) (d : Char) (r : Text) : Text :=
  d :: (octalRun o.maxValue (o.maxDigits - 1) (UInt32.ofNat (digitNat d)) r).1

/-- What is left behind the digits of an escape. -/
def rest (o : OctalEscape) (d : Char) (r : Text) : Text :=
  (octalRun o.maxValue (o.maxDigits - 1) (UInt32.ofNat (digitNat d)) r).2.2

theorem digits_append_rest (o : OctalEscape) (d : Char) (r : Text) :
    o.digits d r ++ o.rest d r = d :: r := by
  rw [digits, rest, List.cons_append, octalRun_append]

theorem toNat_first (hd : IsDigit 8 d) : (UInt32.ofNat (digitNat d)).toNat = digitNat d :=
  hd.toNat_ofNat (by decide)

theorem toNat_first_lt (hd : IsDigit 8 d) : (UInt32.ofNat (digitNat d)).toNat < 0x20000000 := by
  rw [toNat_first hd]
  exact Nat.lt_of_lt_of_le hd (by decide)

/-- Digits behind the first one are only taken while the number is within the limit. -/
theorem numeralFrom_first_le (hmax : o.maxValue.toNat < 0x20000000) (hd : IsDigit 8 d)
    (hne : (octalRun o.maxValue (o.maxDigits - 1) (UInt32.ofNat (digitNat d)) r).1 ≠ []) :
    numeralFrom 8 (digitNat d)
      (octalRun o.maxValue (o.maxDigits - 1) (UInt32.ofNat (digitNat d)) r).1 ≤ o.maxValue.toNat := by
  have hrun := numeralFrom_octalRun_le hmax (toNat_first_lt hd) hne
  rwa [toNat_first hd] at hrun

/-- The number of the digits is within the limit if the first digit is. -/
theorem numeralNat_digits_le_iff (hmax : o.maxValue.toNat < 0x20000000) (hd : IsDigit 8 d) :
    numeralNat 8 (o.digits d r) ≤ o.maxValue.toNat ↔ digitNat d ≤ o.maxValue.toNat := by
  rw [digits, numeralNat_cons]
  constructor
  · intro hle
    exact Nat.le_trans (le_numeralFrom (by decide) _ _) hle
  · intro hle
    by_cases hne : (octalRun o.maxValue (o.maxDigits - 1) (UInt32.ofNat (digitNat d)) r).1 = []
    · rw [hne]
      exact hle
    · exact numeralFrom_first_le hmax hd hne

/-- An escape whose first digit is beyond the largest value takes no other digit. -/
theorem digits_of_lt (hmax : o.maxValue.toNat < 0x20000000) (hd : IsDigit 8 d)
    (hlt : o.maxValue.toNat < digitNat d) : o.digits d r = [d] := by
  by_cases hne : (octalRun o.maxValue (o.maxDigits - 1) (UInt32.ofNat (digitNat d)) r).1 = []
  · rw [digits, hne]
  · have hfirst : digitNat d ≤ o.maxValue.toNat :=
      Nat.le_trans (le_numeralFrom (by decide) _ _) (numeralFrom_first_le hmax hd hne)
    exact absurd hfirst (Nat.not_le.2 hlt)

/-- The digits of an escape are the longest run that keeps to both limits exactly if the first digit
    is within the limit of the value. -/
theorem isLongest_digits_iff (hdigits : 1 ≤ o.maxDigits) (hmax : o.maxValue.toNat < 0x20000000)
    (hd : IsDigit 8 d) : o.IsLongest (d :: r) (o.digits d r) ↔ digitNat d ≤ o.maxValue.toNat := by
  rw [← numeralNat_digits_le_iff (r := r) hmax hd]
  constructor
  · intro h
    exact h.1.numeral_le
  · intro hle
    refine ⟨⟨⟨_, (digits_append_rest o d r).symm⟩, ?_, ?_, hle⟩, ?_⟩
    · intro c hc
      rcases List.mem_cons.1 hc with rfl | hc
      · exact hd
      · exact isDigit_of_mem_octalRun hc
    · have hlength := length_octalRun_le o.maxValue (o.maxDigits - 1) (UInt32.ofNat (digitNat d)) r
      rw [digits, List.length_cons]
      omega
    · rintro other ⟨⟨s, hs⟩, hother, hlength, hnumeral⟩
      cases other with
      | nil => exact Nat.zero_le _
      | cons d' other =>
        obtain ⟨rfl, hr⟩ := List.cons.inj hs
        rw [numeralNat_cons, ← toNat_first hd] at hnumeral
        exact Nat.succ_le_succ (length_le_of_octalRun hmax (toNat_first_lt hd) hr
          (List.forall_mem_cons.1 hother).2 (Nat.le_sub_of_add_le hlength) hnumeral)

end OctalEscape

/-! ## Decoding an escape -/

section Escape

variable {g : Grammar} {o : OctalEscape} {d : Char} {r : Text}

/-- An octal digit that starts no other escape starts an octal one. Where it decodes, it stands for the
    character whose number its digits spell. -/
theorem exists_of_readEscape_eq_ok (hoctal : g.octal = some o) (hmax : o.maxValue.toNat < 0x20000000)
    (hd : IsDigit 8 d) (hsimple : g.simple? d = none) (hnumeric : g.numeric? d = none) {tok : Token}
    {rest : Text} (h : Token.readEscape g (d :: r) = .ok (tok, rest)) :
    ∃ c, tok = .escape (backslash :: o.digits d r) c ∧ rest = o.rest d r ∧
      c.toNat = numeralNat 8 (o.digits d r) := by
  cases Token.readEscape_eq_ok_iff.1 h with
  | simple simple => simp [hsimple] at simple
  | numeric _ numeric => simp [hnumeric] at numeric
  | @octal _ c _ digits _ o' d' value _ _ ho hd' run char =>
    obtain rfl := Option.some.inj (hoctal.symm.trans ho)
    obtain rfl := Option.some.inj ((octalDigit?_of_isDigit hd).symm.trans hd')
    have hdigits : o.digits d r = d :: digits := by rw [OctalEscape.digits, run]
    have hrest : o.rest d r = rest := by rw [OctalEscape.rest, run]
    refine ⟨c, by rw [hdigits], hrest.symm, ?_⟩
    have htotal : (octalRun o.maxValue (o.maxDigits - 1) (UInt32.ofNat (digitNat d)) r).2.1.toNat = _ :=
      toNat_octalRun hmax (OctalEscape.toNat_first_lt hd)
    rw [run, OctalEscape.toNat_first hd, ← numeralNat_cons, ← hdigits] at htotal
    rw [← htotal, ← (CodeValue.scalar?_eq_some_iff _ _).1 char]
    rfl

/-- A decode that comes to a place and does not stop there reads a token. -/
theorem exists_read_of_not_stopped {ts : List Token} {c : Char} {u : Text}
    (hfronts : Fronts g ts (c :: u))
    (hstatus : ∀ e, (decode g (Token.textOf ts ++ c :: u) (Output.plain #[])).2 = .stopped e →
      e.span.start ≠ Text.units (Token.textOf ts)) :
    ∃ tok rest, Token.read g c u = .ok (tok, rest) := by
  cases hread : Token.read g c u with
  | ok a => exact ⟨a.1, a.2, rfl⟩
  | error f =>
    rw [decode_plain_eq, hfronts.scan_append, Scan.status_prepend, scan_of_error hread] at hstatus
    exact absurd (by simp [Scan.consumed]) (hstatus _ rfl)

/-- Behind a token that is read is a boundary. The text decodes to what is in front of the token,
    its character, and what is behind it. -/
theorem decode_of_fronts_cons {ts : List Token} {tok : Token} {c : Char} {u rest : Text}
    (hfronts : Fronts g ts (c :: u)) (hread : Token.read g c u = .ok (tok, rest)) :
    IsBoundary g (Token.textOf ts ++ c :: u) (Text.units (Token.textOf ts ++ tok.text)) ∧
    ∃ front back status,
      decode g (Token.textOf ts) (Output.plain #[]) = (⟨front, none⟩, .complete) ∧
      decode g rest (Output.plain #[]) = (⟨back, none⟩, status) ∧
      decode g (Token.textOf ts ++ c :: u) (Output.plain #[])
        = (⟨front.push tok.char ++ back, none⟩,
            status.shift (Text.units (Token.textOf ts ++ tok.text))) := by
  have htext := Token.text_append_of_read hread
  have hboth : Fronts g (ts ++ [tok]) rest := by
    refine Fronts.append ?_ ((Fronts.nil g rest).cons hread)
    rw [Token.textOf_cons, Token.textOf_nil, List.append_nil, htext]
    exact hfronts
  have hsplit : Token.textOf ts ++ c :: u = Token.textOf (ts ++ [tok]) ++ rest := by
    simp [htext]
  have hfront : Token.textOf ts ++ tok.text = Token.textOf (ts ++ [tok]) := by simp
  rw [hsplit, hfront]
  refine ⟨isBoundary_iff_fronts.2 ⟨_, rest, rfl, rfl, hboth⟩, (Token.charsOf ts).toArray, _, _, ?_,
    decode_plain_eq g rest, ?_⟩
  · rw [decode_plain_eq, hfronts.scan_textOf]
    simp [Scan.status]
  · rw [decode_plain_eq, hboth.scan_append, Scan.status_prepend, Scan.status_add]
    simp

/-- Octal escapes and their limits. Where the decoder comes to a backslash and an octal digit that
    starts no other escape, and does not stop there, it takes a run of digits and decodes it to the
    character of that number. The run is the longest one within both limits, and the number is not
    beyond the largest value, exactly if the first digit alone is not; otherwise it is the first
    digit. -/
theorem decode_octal_longest_iff (hoctal : g.octal = some o) (hdigits : 1 ≤ o.maxDigits)
    (hmax : o.maxValue.toNat < 0x20000000) (hd : IsDigit 8 d) (hsimple : g.simple? d = none)
    (hnumeric : g.numeric? d = none) {v : Text}
    (hreached : IsBoundary g (v ++ backslash :: d :: r) (Text.units v))
    (hdecodes : ∀ e, (decode g (v ++ backslash :: d :: r) (Output.plain #[])).2 = .stopped e →
      e.span.start ≠ Text.units v) :
    ∃ digits rest c,
      d :: r = digits ++ rest ∧
      IsBoundary g (v ++ backslash :: d :: r) (Text.units (v ++ backslash :: digits)) ∧
      (∃ front back status,
        decode g v (Output.plain #[]) = (⟨front, none⟩, .complete) ∧
        decode g rest (Output.plain #[]) = (⟨back, none⟩, status) ∧
        decode g (v ++ backslash :: d :: r) (Output.plain #[])
          = (⟨front.push c ++ back, none⟩, status.shift (Text.units (v ++ backslash :: digits)))) ∧
      c.toNat = numeralNat 8 digits ∧
      (o.IsLongest (d :: r) digits ↔ digitNat d ≤ o.maxValue.toNat) ∧
      (c.toNat ≤ o.maxValue.toNat ↔ digitNat d ≤ o.maxValue.toNat) ∧
      (o.maxValue.toNat < digitNat d → digits = [d]) := by
  obtain ⟨ts, u, htext, hunits, hfronts⟩ := isBoundary_iff_fronts.1 hreached
  obtain ⟨rfl, rfl⟩ := Text.append_inj_units htext hunits
  obtain ⟨tok, rest, hread⟩ := exists_read_of_not_stopped hfronts hdecodes
  have hescape := (Token.read_backslash g (d :: r)).symm.trans hread
  obtain ⟨c, rfl, rfl, hc⟩ := exists_of_readEscape_eq_ok hoctal hmax hd hsimple hnumeric hescape
  obtain ⟨hboundary, hdecode⟩ := decode_of_fronts_cons hfronts hread
  refine ⟨o.digits d r, o.rest d r, c, (o.digits_append_rest d r).symm, hboundary, hdecode, hc,
    OctalEscape.isLongest_digits_iff hdigits hmax hd, ?_, OctalEscape.digits_of_lt hmax hd⟩
  rw [hc]
  exact OctalEscape.numeralNat_digits_le_iff hmax hd

end Escape

/-- `\47` in front of two more digits, of which the first would take the number beyond the largest
    value, and of a malformed escape. -/
theorem decode_octal_longest_iff_before_fault :
    Grammar.java.octal = some OctalEscape.standard ∧ 1 ≤ OctalEscape.standard.maxDigits ∧
    OctalEscape.standard.maxValue.toNat < 0x20000000 ∧ IsDigit 8 '4' ∧
    Grammar.java.simple? '4' = none ∧ Grammar.java.numeric? '4' = none ∧
    IsBoundary Grammar.java ("a".toList ++ backslash :: '4' :: "777\\q".toList) 1 ∧
    (∀ e, (decode Grammar.java ("a".toList ++ backslash :: '4' :: "777\\q".toList)
      (Output.plain #[])).2 = .stopped e → e.span.start ≠ 1) ∧
    ∃ digits rest, ∃ c : Char, '4' :: "777\\q".toList = digits ++ rest ∧
      IsBoundary Grammar.java ("a".toList ++ backslash :: '4' :: "777\\q".toList)
        (Text.units ("a".toList ++ backslash :: digits)) ∧
      c.toNat = numeralNat 8 digits ∧
      (OctalEscape.standard.IsLongest ('4' :: "777\\q".toList) digits ↔
        digitNat '4' ≤ OctalEscape.standard.maxValue.toNat) := by
  have hdecodes : ∀ e, (decode Grammar.java ("a".toList ++ backslash :: '4' :: "777\\q".toList)
      (Output.plain #[])).2 = .stopped e → e.span.start ≠ 1 := by
    have hstatus : (decode Grammar.java ("a".toList ++ backslash :: '4' :: "777\\q".toList)
        (Output.plain #[])).2 = .stopped ⟨⟨6, 8⟩, .unknownEscape 'q'⟩ := by decide +kernel
    intro e he
    rw [hstatus] at he
    obtain rfl := Status.stopped.inj he
    decide
  have hoctal : Grammar.java.octal = some OctalEscape.standard := by decide
  have hsimple : Grammar.java.simple? '4' = none := by decide
  have hnumeric : Grammar.java.numeric? '4' = none := by decide
  have hreached : IsBoundary Grammar.java ("a".toList ++ backslash :: '4' :: "777\\q".toList) 1 := by
    decide +kernel
  obtain ⟨digits, rest, c, hsplit, hboundary, -, hc, hlongest, -⟩ :=
    decode_octal_longest_iff hoctal (by decide) (by decide) (by decide) hsimple hnumeric hreached
      hdecodes
  exact ⟨hoctal, by decide, by decide, by decide, hsimple, hnumeric, hreached, hdecodes, digits, rest,
    c, hsplit, hboundary, hc, hlongest⟩

/-- The first digit is not compared with the largest value: with three as the largest one, `\7`
    decodes to the character of number seven, though no run of digits at its place is within the
    limits but the empty one. -/
theorem decode_octal_beyond_maxValue :
    ((Grammar.empty "octal").withOctal (some ⟨3, 3⟩)).octal = some ⟨3, 3⟩ ∧
    ((Grammar.empty "octal").withOctal (some ⟨3, 3⟩)).simple? '7' = none ∧
    ((Grammar.empty "octal").withOctal (some ⟨3, 3⟩)).numeric? '7' = none ∧
    IsDigit 8 '7' ∧ IsBoundary ((Grammar.empty "octal").withOctal (some ⟨3, 3⟩)) "\\7".toList 0 ∧
    decode ((Grammar.empty "octal").withOctal (some ⟨3, 3⟩)) "\\7".toList Output.recording
      = (⟨#['\x07'], some #[0, 2]⟩, .complete) ∧
    (3 : UInt32).toNat < '\x07'.toNat ∧
    ¬ OctalEscape.IsLongest ⟨3, 3⟩ "7".toList "7".toList := by
  refine ⟨by decide, by decide, by decide, by decide, by decide +kernel, by decide +kernel,
    by decide, ?_⟩
  intro hlongest
  exact absurd hlongest.1.numeral_le (by decide)

end Unescape
