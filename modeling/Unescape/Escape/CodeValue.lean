set_option autoImplicit false

/-! # Code values

The digits of an escape spell a *code value*, a 32-bit word. Most values are Unicode scalars and
stand for a character; the surrogates `D800..DFFF` stand for half a character each, and a high one
followed by a low one make a supplementary character; every other value stands for nothing.

`combine` is the arithmetic of a surrogate pair; `scalar?_combine` says that it always gives a
character. -/

namespace Unescape

/-! ## Digits -/

/-- The value of a hexadecimal digit, in either case. -/
def hexDigit? (c : Char) : Option UInt32 :=
  if '0' ≤ c ∧ c ≤ '9' then some (c.val - 48)
  else if 'a' ≤ c ∧ c ≤ 'f' then some (c.val - 87)
  else if 'A' ≤ c ∧ c ≤ 'F' then some (c.val - 55)
  else none

/-- The value of an octal digit. -/
def octalDigit? (c : Char) : Option UInt32 :=
  if '0' ≤ c ∧ c ≤ '7' then some (c.val - 48) else none

/-- The code value that hexadecimal digits spell: each digit moves the ones before it up by four
    bits. Characters that are no digits count for nothing. -/
def hexValue (digits : List Char) : UInt32 :=
  (digits.filterMap hexDigit?).foldl (fun v d => v <<< 4 ||| d) 0

/-! ## Surrogates and scalars -/

namespace CodeValue

/-- First half of a surrogate pair. -/
def isHighSurrogate (v : UInt32) : Bool := 0xD800 ≤ v && v ≤ 0xDBFF

/-- Second half of a surrogate pair. -/
def isLowSurrogate (v : UInt32) : Bool := 0xDC00 ≤ v && v ≤ 0xDFFF

/-- The character of a code value, if the value is a Unicode scalar. -/
def scalar? (v : UInt32) : Option Char := if h : v.isValidChar then some ⟨v, h⟩ else none

/-- The code value of a high and a low surrogate together: ten bits of each. -/
def combine (high low : UInt32) : UInt32 := 0x10000 + ((high - 0xD800) <<< (10 : UInt32)) + (low - 0xDC00)

theorem scalar?_eq_some_iff (v : UInt32) (c : Char) : scalar? v = some c ↔ c.val = v := by
  unfold scalar?
  split
  · simp only [Option.some.injEq]
    constructor
    · rintro rfl; rfl
    · rintro rfl; rfl
  · rename_i h
    simp only [reduceCtorEq, false_iff]
    rintro rfl
    exact h c.valid

theorem scalar?_eq_none_iff (v : UInt32) : scalar? v = none ↔ ¬ v.isValidChar := by
  unfold scalar?
  split <;> simp_all

theorem toNat_combine (high low : UInt32) (hh : isHighSurrogate high = true)
    (hl : isLowSurrogate low = true) :
    (combine high low).toNat
      = 0x10000 + 1024 * (high.toNat - 0xD800) + (low.toNat - 0xDC00) := by
  simp only [isHighSurrogate, isLowSurrogate, Bool.and_eq_true, decide_eq_true_eq,
    UInt32.le_iff_toNat_le] at hh hl
  obtain ⟨h₁, h₂⟩ := hh
  obtain ⟨l₁, l₂⟩ := hl
  simp only [UInt32.reduceToNat] at h₁ h₂ l₁ l₂
  have hs : (high - 0xD800).toNat = high.toNat - 0xD800 :=
    UInt32.toNat_sub_of_le _ _ (by simpa [UInt32.le_iff_toNat_le] using h₁)
  have ls : (low - 0xDC00).toNat = low.toNat - 0xDC00 :=
    UInt32.toNat_sub_of_le _ _ (by simpa [UInt32.le_iff_toNat_le] using l₁)
  simp only [combine, UInt32.toNat_add, UInt32.toNat_shiftLeft, hs, ls, Nat.shiftLeft_eq]
  simp only [UInt32.reduceToNat, Nat.reduceMod, Nat.reducePow]
  omega

/-- A surrogate pair always stands for a supplementary character. -/
theorem scalar?_combine (high low : UInt32) (hh : isHighSurrogate high = true)
    (hl : isLowSurrogate low = true) :
    ∃ c, scalar? (combine high low) = some c ∧ 0x10000 ≤ c.val := by
  have hv := toNat_combine high low hh hl
  simp only [isHighSurrogate, isLowSurrogate, Bool.and_eq_true, decide_eq_true_eq,
    UInt32.le_iff_toNat_le] at hh hl
  simp only [UInt32.reduceToNat] at hh hl
  have hvalid : (combine high low).isValidChar := by
    refine Or.inr ⟨?_, ?_⟩ <;> omega
  refine ⟨⟨_, hvalid⟩, by simp [scalar?, hvalid], ?_⟩
  simp only [UInt32.le_iff_toNat_le, UInt32.reduceToNat]
  omega

end CodeValue

end Unescape
