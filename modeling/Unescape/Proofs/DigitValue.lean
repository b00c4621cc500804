import Unescape.Escape.Token

set_option autoImplicit false

/-! # Values of digits

How large the value of an escape can get: a hexadecimal digit appends four bits, and octal digits
stop before the largest value. Values below the surrogates are characters of one unit
(`ofCodeValue_of_lt`). -/

namespace Unescape

/-! ## Hexadecimal digits -/

theorem toNat_lt_of_hexDigit? {c : Char} {d : UInt32} (h : hexDigit? c = some d) :
    d.toNat < 16 := by
  unfold hexDigit? at h
  repeat' split at h
  all_goals simp only [Option.some.injEq, reduceCtorEq] at h
  all_goals
    rename_i hrange
    obtain ⟨hlo, hhi⟩ := hrange
    simp only [Char.le_def, UInt32.le_iff_toNat_le] at hlo hhi
    simp only [Char.reduceVal, UInt32.reduceToNat] at hlo hhi
    rw [← h, UInt32.toNat_sub_of_le _ _
      (by simp only [UInt32.le_iff_toNat_le, UInt32.reduceToNat]; omega)]
    simp only [UInt32.reduceToNat]
    omega

/-- A hexadecimal digit multiplies the value by sixteen and adds its own, as long as the value fits
    into the upper bits. -/
theorem toNat_shiftLeft_or {v d : UInt32} (hv : v.toNat < 0x10000000) (hd : d.toNat < 16) :
    (v <<< 4 ||| d).toNat = 16 * v.toNat + d.toNat := by
  have hshift : (v <<< 4).toNat = v.toNat <<< 4 := by
    rw [UInt32.toNat_shiftLeft]
    simp only [UInt32.reduceToNat, Nat.reduceMod, Nat.shiftLeft_eq, Nat.reducePow]
    omega
  rw [UInt32.toNat_or, hshift, ← Nat.shiftLeft_add_eq_or_of_lt (by simpa using hd), Nat.shiftLeft_eq]
  omega

/-- Digits that fit behind the value that they are appended to multiply it and add up, and they take it
    to less than the next one of their number. -/
theorem toNat_foldl {ds : List UInt32} (hds : ∀ d ∈ ds, d.toNat < 16) (v : UInt32)
    (hfit : (v.toNat + 1) * Nat.pow 16 ds.length ≤ 0x100000000) :
    (ds.foldl (fun (v d : UInt32) => v <<< 4 ||| d) v).toNat
        = ds.foldl (fun (n : Nat) (d : UInt32) => 16 * n + d.toNat) v.toNat ∧
      (ds.foldl (fun (v d : UInt32) => v <<< 4 ||| d) v).toNat
        < (v.toNat + 1) * Nat.pow 16 ds.length := by
  induction ds generalizing v with
  | nil => simp
  | cons d ds ih =>
    obtain ⟨hd, hrest⟩ := List.forall_mem_cons.1 hds
    have hpos : 0 < Nat.pow 16 ds.length := Nat.pow_pos (by decide)
    have hpow : (v.toNat + 1) * Nat.pow 16 (d :: ds).length
        = (16 * (v.toNat + 1)) * Nat.pow 16 ds.length := by
      rw [List.length_cons, Nat.pow_eq, Nat.pow_succ, Nat.pow_eq, Nat.mul_comm 16, Nat.mul_assoc,
        Nat.mul_comm 16]
    rw [hpow] at hfit ⊢
    have hv : v.toNat < 0x10000000 := by
      have := Nat.le_mul_of_pos_right (16 * (v.toNat + 1)) hpos
      omega
    have hstep := toNat_shiftLeft_or hv hd
    have hle : ((v <<< 4 ||| d).toNat + 1) * Nat.pow 16 ds.length
        ≤ (16 * (v.toNat + 1)) * Nat.pow 16 ds.length := Nat.mul_le_mul_right _ (by omega)
    obtain ⟨heq, hlt⟩ := ih hrest _ (Nat.le_trans hle hfit)
    refine ⟨?_, Nat.lt_of_lt_of_le hlt hle⟩
    rw [List.foldl_cons, List.foldl_cons, heq, hstep]

/-- Up to three digits spell a value of twelve bits. -/
theorem toNat_hexValue_lt {digits : List Char} (h : digits.length ≤ 3) :
    (hexValue digits).toNat < 0x1000 := by
  have hlen : (digits.filterMap hexDigit?).length ≤ 3 :=
    Nat.le_trans (List.length_filterMap_le ..) h
  have hlt : ∀ d ∈ digits.filterMap hexDigit?, d.toNat < 16 := by
    intro d hd
    obtain ⟨c, -, hc⟩ := List.mem_filterMap.1 hd
    exact toNat_lt_of_hexDigit? hc
  have hpow : Nat.pow 16 (digits.filterMap hexDigit?).length ≤ Nat.pow 16 3 :=
    Nat.pow_le_pow_right (by decide) hlen
  have hbound := fun hfit => (toNat_foldl hlt 0 hfit).2
  simp only [UInt32.toNat_zero, Nat.zero_add, Nat.one_mul] at hbound
  exact Nat.lt_of_lt_of_le (hbound (Nat.le_trans hpow (by decide))) hpow

/-! ## Octal digits -/

theorem toNat_lt_of_octalDigit? {c : Char} {d : UInt32} (h : octalDigit? c = some d) :
    d.toNat < 8 := by
  unfold octalDigit? at h
  split at h
  · rename_i hrange
    obtain ⟨hlo, hhi⟩ := hrange
    simp only [Option.some.injEq] at h
    simp only [Char.le_def, UInt32.le_iff_toNat_le] at hlo hhi
    simp only [Char.reduceVal, UInt32.reduceToNat] at hlo hhi
    rw [← h, UInt32.toNat_sub_of_le _ _
      (by simp only [UInt32.le_iff_toNat_le, UInt32.reduceToNat]; omega)]
    simp only [UInt32.reduceToNat]
    omega
  · simp at h

/-- Octal digits that follow others never take the value beyond the largest one. -/
theorem octalRun_value_le (maxValue : UInt32) (limit : Nat) (value : UInt32) (t : Text) :
    (octalRun maxValue limit value t).2.1 = value ∨
      (octalRun maxValue limit value t).2.1 ≤ maxValue := by
  fun_induction octalRun maxValue limit value t with
  | case1 => exact .inl rfl
  | case2 => exact .inl rfl
  | case3 limit value c r d hd hle digits total rest hrun ih =>
    rw [hrun] at ih
    rcases ih with rfl | ih
    · exact .inr hle
    · exact .inr ih
  | case4 => exact .inl rfl
  | case5 => exact .inl rfl

/-! ## Surrogates and characters -/

theorem CodeValue.isHighSurrogate_iff (v : UInt32) :
    isHighSurrogate v = true ↔ 0xD800 ≤ v.toNat ∧ v.toNat ≤ 0xDBFF := by
  simp [isHighSurrogate, UInt32.le_iff_toNat_le]

theorem CodeValue.isLowSurrogate_iff (v : UInt32) :
    isLowSurrogate v = true ↔ 0xDC00 ≤ v.toNat ∧ v.toNat ≤ 0xDFFF := by
  simp [isLowSurrogate, UInt32.le_iff_toNat_le]

/-- A value below the surrogates is a character of one unit. -/
theorem exists_scalar?_of_lt {v : UInt32} (h : v.toNat < 0xD800) :
    ∃ c, CodeValue.scalar? v = some c ∧ unitsOf c = 1 := by
  have hvalid : v.isValidChar := .inl h
  refine ⟨⟨v, hvalid⟩, by simp [CodeValue.scalar?, hvalid], ?_⟩
  have hlt : v < 0x10000 := by
    simp only [UInt32.lt_iff_toNat_lt, UInt32.reduceToNat]
    omega
  simp [unitsOf, hlt]

/-- The value of a character is no surrogate. -/
theorem Token.ofCodeValue_val (g : Grammar) (lexeme : Text) (c : Char) (rest : Text) :
    ofCodeValue g lexeme c.val rest = .ok (.escape lexeme c, rest) := by
  have hvalid : c.val.toNat < 0xD800 ∨ 0xDFFF < c.val.toNat ∧ c.val.toNat < 0x110000 := c.valid
  have hhigh : ¬ CodeValue.isHighSurrogate c.val = true := by
    rw [CodeValue.isHighSurrogate_iff]
    omega
  have hlow : ¬ CodeValue.isLowSurrogate c.val = true := by
    rw [CodeValue.isLowSurrogate_iff]
    omega
  have hscalar : CodeValue.scalar? c.val = some c := (CodeValue.scalar?_eq_some_iff _ _).2 rfl
  rw [ofCodeValue, if_neg hhigh, if_neg hlow, hscalar]

/-- An escape with a value below the surrogates decodes to one unit and looks no further. -/
theorem Token.ofCodeValue_of_lt (g : Grammar) (lexeme rest : Text) {v : UInt32}
    (h : v.toNat < 0xD800) :
    ∃ c, Token.ofCodeValue g lexeme v rest = .ok (.escape lexeme c, rest) ∧ unitsOf c = 1 := by
  obtain ⟨c, hc, hunits⟩ := exists_scalar?_of_lt h
  obtain rfl := (CodeValue.scalar?_eq_some_iff v c).1 hc
  exact ⟨c, ofCodeValue_val g lexeme c rest, hunits⟩

end Unescape
