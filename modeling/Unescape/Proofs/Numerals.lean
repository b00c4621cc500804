import Mathlib.Data.List.Basic
import Unescape.Proofs.DigitValue

set_option autoImplicit false

/-! # Numerals

What the digits of an escape mean: `numeralNat` is the number that they spell, a natural number of any
size. The decoder collects digits in 32-bit words, by shifts or by multiplication. As long as the number
fits, the word is that number (`toNat_hexValue`, `octalRun_of_numeral`). -/

namespace Unescape

/-! ## Digits -/

/-- The value of a digit, with letters of either case for the values from ten to fifteen. Of a character
    that is no digit it is sixteen. -/
def digitNat (c : Char) : Nat := "0123456789abcdef".toList.idxOf c.toLower

/-- A digit of numerals with a given base. -/
def IsDigit (base : Nat) (c : Char) : Prop := digitNat c < base

instance (base : Nat) (c : Char) : Decidable (IsDigit base c) := inferInstanceAs (Decidable (_ < _))

/-- What holds of every ASCII character, and of the others, holds of all. -/
theorem forall_char_of_ascii {p : Char → Prop} (hascii : ∀ n < 128, p (Char.ofNat n))
    (hother : ∀ c : Char, 128 ≤ c.toNat → p c) (c : Char) : p c := by
  by_cases hc : c.toNat < 128
  · have := hascii c.toNat hc
    rwa [Char.ofNat_toNat] at this
  · exact hother c (Nat.le_of_not_lt hc)

/-- Characters beyond ASCII are no digits. -/
theorem digitNat_of_le {c : Char} (h : 128 ≤ c.toNat) : digitNat c = 16 := by
  have hlower : c.toLower = c := by
    unfold Char.toLower
    split
    · rename_i hupper
      have hle := UInt32.le_iff_toNat_le.1 hupper.2
      have htoNat : c.val.toNat = c.toNat := rfl
      simp only [Char.reduceVal, UInt32.reduceToNat] at hle
      omega
    · rfl
  have hmem : c ∉ "0123456789abcdef".toList := by
    intro hc
    have hall : "0123456789abcdef".toList.all (fun d => decide (d.toNat < 128)) = true := by decide
    have hlt := of_decide_eq_true (List.all_eq_true.1 hall c hc)
    omega
  rw [digitNat, hlower, List.idxOf_eq_length hmem]
  rfl

theorem not_isDigit_of_le {base : Nat} (hbase : base ≤ 16) {c : Char} (h : 128 ≤ c.toNat) :
    ¬ IsDigit base c := by
  rw [IsDigit, digitNat_of_le h]
  omega

theorem hexDigit?_eq (c : Char) :
    hexDigit? c = if IsDigit 16 c then some (UInt32.ofNat (digitNat c)) else none := by
  revert c
  refine forall_char_of_ascii (by decide +kernel) ?_
  intro c hc
  rw [if_neg (not_isDigit_of_le (by decide) hc)]
  have htoNat : c.val.toNat = c.toNat := rfl
  unfold hexDigit?
  repeat' split
  all_goals try rfl
  all_goals
    rename_i hrange
    have hle := UInt32.le_iff_toNat_le.1 hrange.2
    simp only [Char.reduceVal, UInt32.reduceToNat] at hle
    omega

theorem octalDigit?_eq (c : Char) :
    octalDigit? c = if IsDigit 8 c then some (UInt32.ofNat (digitNat c)) else none := by
  revert c
  refine forall_char_of_ascii (by decide +kernel) ?_
  intro c hc
  rw [if_neg (not_isDigit_of_le (by decide) hc)]
  have htoNat : c.val.toNat = c.toNat := rfl
  unfold octalDigit?
  split
  · rename_i hrange
    have hle := UInt32.le_iff_toNat_le.1 hrange.2
    simp only [Char.reduceVal, UInt32.reduceToNat] at hle
    omega
  · rfl

theorem hexDigit?_of_isDigit {c : Char} (h : IsDigit 16 c) :
    hexDigit? c = some (UInt32.ofNat (digitNat c)) := by
  rw [hexDigit?_eq, if_pos h]

theorem octalDigit?_of_isDigit {c : Char} (h : IsDigit 8 c) :
    octalDigit? c = some (UInt32.ofNat (digitNat c)) := by
  rw [octalDigit?_eq, if_pos h]

theorem isSome_hexDigit?_iff (c : Char) : (hexDigit? c).isSome = true ↔ IsDigit 16 c := by
  rw [hexDigit?_eq]
  split <;> simp_all

theorem isDigit_of_octalDigit? {c : Char} {d : UInt32} (h : octalDigit? c = some d) :
    IsDigit 8 c := by
  rw [octalDigit?_eq] at h
  split at h
  · assumption
  · simp at h

theorem mem_of_isDigit_eight : ∀ c, IsDigit 8 c → c ∈ "01234567".toList :=
  forall_char_of_ascii (by decide +kernel)
    fun _ hc hdigit => absurd hdigit (not_isDigit_of_le (by decide) hc)

theorem IsDigit.toNat_ofNat {base : Nat} (hbase : base ≤ 16) {c : Char} (h : IsDigit base c) :
    (UInt32.ofNat (digitNat c)).toNat = digitNat c := by
  unfold IsDigit at h
  rw [UInt32.toNat_ofNat']
  omega

/-- No digit opens an escape. -/
theorem IsDigit.ne_backslash {base : Nat} (hbase : base ≤ 16) {c : Char} (h : IsDigit base c) :
    c ≠ backslash := by
  rintro rfl
  have hvalue : digitNat backslash = 16 := by decide
  rw [IsDigit, hvalue] at h
  omega

/-! ## Numbers -/

/-- The number that digits spell when they follow others that spell `n`. -/
def numeralFrom (base n : Nat) (digits : Text) : Nat :=
  digits.foldl (fun n c => base * n + digitNat c) n

/-- The number that digits spell. -/
def numeralNat (base : Nat) (digits : Text) : Nat := numeralFrom base 0 digits

@[simp] theorem numeralFrom_nil (base n : Nat) : numeralFrom base n [] = n := rfl

@[simp] theorem numeralFrom_cons (base n : Nat) (c : Char) (digits : Text) :
    numeralFrom base n (c :: digits) = numeralFrom base (base * n + digitNat c) digits := rfl

theorem numeralNat_cons (base : Nat) (c : Char) (digits : Text) :
    numeralNat base (c :: digits) = numeralFrom base (digitNat c) digits := by
  rw [numeralNat, numeralFrom_cons, Nat.mul_zero, Nat.zero_add]

/-- Digits never make a number smaller. -/
theorem le_numeralFrom {base : Nat} (hbase : 0 < base) (n : Nat) (digits : Text) :
    n ≤ numeralFrom base n digits := by
  induction digits generalizing n with
  | nil => exact Nat.le_refl n
  | cons c digits ih =>
    have hmul := Nat.le_mul_of_pos_left n hbase
    have hstep := ih (base * n + digitNat c)
    rw [numeralFrom_cons]
    omega

/-! ## Hexadecimal digits in a word -/

/-- Up to eight digits fit into a word. -/
theorem toNat_hexValue {digits : Text} (h : ∀ c ∈ digits, IsDigit 16 c)
    (hlen : digits.length ≤ NumericEscape.digitLimit) :
    (hexValue digits).toNat = numeralNat 16 digits := by
  have hvalues : digits.filterMap hexDigit? = digits.map fun c => UInt32.ofNat (digitNat c) :=
    List.filterMap_eq_map_iff_forall_eq_some.2 fun c hc => hexDigit?_of_isDigit (h c hc)
  have hlt : ∀ d ∈ digits.map fun c => UInt32.ofNat (digitNat c), d.toNat < 16 := by
    intro d hd
    obtain ⟨c, hc, rfl⟩ := List.mem_map.1 hd
    rw [(h c hc).toNat_ofNat (Nat.le_refl 16)]
    exact h c hc
  have hpow : Nat.pow 16 digits.length ≤ Nat.pow 16 8 := Nat.pow_le_pow_right (by decide) hlen
  rw [hexValue, hvalues, (toNat_foldl hlt 0 (by simpa using hpow)).1, List.foldl_map]
  refine List.foldl_ext _ _ _ ?_
  intro n c hc
  rw [(h c hc).toNat_ofNat (Nat.le_refl 16)]

/-! ## Runs of digits -/

/-- Digits are read as far as the limit allows, and so are the digits behind them. -/
theorem hexRun_append_of_isDigit {digits : Text} (h : ∀ c ∈ digits, IsDigit 16 c) {limit : Nat}
    (hlen : digits.length ≤ limit) (s : Text) :
    hexRun limit (digits ++ s)
      = (digits ++ (hexRun (limit - digits.length) s).1, (hexRun (limit - digits.length) s).2) := by
  induction digits generalizing limit with
  | nil => rfl
  | cons c digits ih =>
    obtain ⟨hc, hdigits⟩ := List.forall_mem_cons.1 h
    cases limit with
    | zero => simp at hlen
    | succ limit =>
      have hrun := ih hdigits (Nat.le_of_succ_le_succ hlen)
      simp [hexRun, hexDigit?_of_isDigit hc, hrun]

theorem isDigit_of_mem_hexRun {limit : Nat} {t : Text} {c : Char} (h : c ∈ (hexRun limit t).1) :
    IsDigit 16 c := by
  fun_induction hexRun limit t with
  | case1 => simp at h
  | case2 => simp at h
  | case3 n d r hd ih =>
    rcases List.mem_cons.1 h with rfl | h
    · exact (isSome_hexDigit?_iff _).1 hd
    · exact ih h
  | case4 => simp at h

/-- What is read is the longest run of digits, cut off at the limit. -/
theorem hexRun_eq (limit : Nat) (t : Text) :
    hexRun limit t = ((t.takeWhile fun c => IsDigit 16 c).take limit,
      t.drop ((t.takeWhile fun c => IsDigit 16 c).take limit).length) := by
  fun_induction hexRun limit t with
  | case1 => simp
  | case2 => simp
  | case3 limit c r hc ih =>
    have hdigit := (isSome_hexDigit?_iff c).1 hc
    simp [ih, hdigit]
  | case4 limit c r hc =>
    have hdigit : ¬ IsDigit 16 c := fun h => hc ((isSome_hexDigit?_iff c).2 h)
    simp [hdigit]

theorem isDigit_of_mem_octalRun {maxValue : UInt32} {limit : Nat} {value : UInt32} {t : Text}
    {c : Char} (h : c ∈ (octalRun maxValue limit value t).1) : IsDigit 8 c := by
  fun_induction octalRun maxValue limit value t with
  | case1 => simp at h
  | case2 => simp at h
  | case3 limit value d r w hd hle digits total rest hrun ih =>
    rw [hrun] at ih
    rcases List.mem_cons.1 h with rfl | h
    · exact isDigit_of_octalDigit? hd
    · exact ih h
  | case4 => simp at h
  | case5 => simp at h

/-- Octal digits whose number is not beyond the largest value are all read, and nothing else. -/
theorem octalRun_of_numeral {maxValue : UInt32} {digits : Text} (h : ∀ c ∈ digits, IsDigit 8 c)
    (v : UInt32) (hle : numeralFrom 8 v.toNat digits ≤ maxValue.toNat) (s : Text) :
    octalRun maxValue digits.length v (digits ++ s)
      = (digits, UInt32.ofNat (numeralFrom 8 v.toNat digits), s) := by
  induction digits generalizing v with
  | nil => simp [octalRun]
  | cons c digits ih =>
    obtain ⟨hc, hdigits⟩ := List.forall_mem_cons.1 h
    rw [numeralFrom_cons] at hle
    have hnext : 8 * v.toNat + digitNat c ≤ maxValue.toNat :=
      Nat.le_trans (le_numeralFrom (by decide) _ digits) hle
    have hmax : maxValue.toNat < 0x100000000 := maxValue.toNat_lt
    have hstep : (v * 8 + UInt32.ofNat (digitNat c)).toNat = 8 * v.toNat + digitNat c := by
      rw [UInt32.toNat_add, UInt32.toNat_mul, hc.toNat_ofNat (by decide)]
      simp only [UInt32.reduceToNat]
      omega
    have hfits : v * 8 + UInt32.ofNat (digitNat c) ≤ maxValue := by
      rw [UInt32.le_iff_toNat_le, hstep]
      exact hnext
    have hrun := ih hdigits (v * 8 + UInt32.ofNat (digitNat c)) (by rw [hstep]; exact hle)
    simp [octalRun, octalDigit?_of_isDigit hc, hfits, hrun, hstep]

end Unescape
