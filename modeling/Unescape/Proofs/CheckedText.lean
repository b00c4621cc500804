import Unescape.Mapper
import Unescape.Proofs.RangeValidation

set_option autoImplicit false

/-! # Words and slices, step by step

Offsets and byte indices are words of 64 bits, code values are words of 32, and a part of a text is cut
out between two of its bytes. Each of these steps has inputs for which it is not defined: a sum may be too
large for a word, a difference below zero, a byte inside a character. Nothing of this shows in an account
that works on numbers and lists.

Here and in the modules that build on it the mapping operations and the conversions of positions are
spelled out down to these steps, and a step outside its domain ends the computation with a `Trap`. That
no trap is met is then a theorem, and so is that nothing else has changed: each step-by-step computation
is shown to be the plain one.

This module has the scans of a text. They count units and bytes in words, so they are safe in texts
whose bytes a word can count; a text in memory is always one, for it has fewer than half as many. -/

namespace Unescape

/-- Why a step cannot be taken. -/
inductive Trap where
  /-- A sum is too large for a word. -/
  | overflow
  /-- A difference is below zero. -/
  | underflow
  /-- A slice is reversed, or it begins or ends inside a character or behind the text. -/
  | badSlice
  /-- There is no entry at an index. -/
  | badIndex
  /-- A loop is where it was a round before. -/
  | noProgress
deriving DecidableEq, Repr

/-- Computations that may meet a trap. -/
abbrev Checked := Except Trap

namespace Checked

/-! ## Arithmetic -/

/-- The sum of two words. -/
def add (a b : Nat) : Checked Nat := if a + b < offsetLimit then pure (a + b) else throw .overflow

/-- The difference of two words. -/
def sub (a b : Nat) : Checked Nat := if b ≤ a then pure (a - b) else throw .underflow

/-- The sum of two code values. -/
def addCode (v w : UInt32) : Checked UInt32 :=
  if v.toNat + w.toNat < UInt32.size then pure (v + w) else throw .overflow

/-- The difference of two code values. -/
def subCode (v w : UInt32) : Checked UInt32 := if w ≤ v then pure (v - w) else throw .underflow

theorem add_eq {a b : Nat} (h : a + b < offsetLimit) : add a b = pure (a + b) := if_pos h

theorem sub_eq {a b : Nat} (h : b ≤ a) : sub a b = pure (a - b) := if_pos h

theorem addCode_eq {v w : UInt32} (h : v.toNat + w.toNat < UInt32.size) : addCode v w = pure (v + w) :=
  if_pos h

theorem subCode_eq {v w : UInt32} (h : w ≤ v) : subCode v w = pure (v - w) := if_pos h

/-! ## Scans -/

/-- Add the length of a text in units to a count. -/
def unitsFrom (count : Nat) : Text → Checked Nat
  | [] => pure count
  | c :: r => do unitsFrom (← add count (unitsOf c)) r

/-- The byte at a unit offset, when `units` units and `byte` bytes were passed. The scan stops as soon as
    it is at the offset or beyond it. -/
def byteIndexFrom (offset units byte : Nat) : Text → Checked (Option Nat)
  | [] => pure (if units = offset then some byte else none)
  | c :: r =>
    if units = offset then pure (some byte)
    else if offset < units then pure none
    else do byteIndexFrom offset (← add units (unitsOf c)) (← add byte c.utf8Size) r

/-- The byte where the character at a unit offset begins, when `units` units and `byte` bytes were
    passed; behind the text, its end. -/
def byteFloorFrom (offset units byte : Nat) : Text → Checked Nat
  | [] => pure byte
  | c :: r => do
    let next ← add units (unitsOf c)
    if offset < next then pure byte else byteFloorFrom offset next (← add byte c.utf8Size) r

/-- Cut a text behind a number of bytes. -/
def cutAt : Text → Nat → Checked (Text × Text)
  | t, 0 => pure ([], t)
  | [], _ + 1 => throw .badSlice
  | c :: r, n + 1 =>
    if c.utf8Size ≤ n + 1 then do
      let (front, back) ← cutAt r (n + 1 - c.utf8Size)
      pure (c :: front, back)
    else throw .badSlice

/-- The part of a text between two bytes. -/
def slice (t : Text) (start stop : Nat) : Checked Text := do
  if start ≤ stop then
    let (_, back) ← cutAt t start
    let (part, _) ← cutAt back (stop - start)
    pure part
  else throw .badSlice

end Checked

/-! ## What the scans find -/

theorem unitsOf_le_utf8Size (c : Char) : unitsOf c ≤ c.utf8Size := by
  have hpos := c.utf8Size_pos
  unfold unitsOf
  split
  · exact hpos
  · rename_i hval
    have hone : c.utf8Size ≠ 1 := by
      rw [ne_eq, Char.utf8Size_eq_one_iff]
      intro hle
      exact hval (Nat.lt_of_le_of_lt hle (by decide))
    omega

theorem Text.units_le_bytes (t : Text) : units t ≤ bytes t := by
  induction t with
  | nil => exact Nat.le_refl _
  | cons c r ih =>
    rw [units_cons, bytes]
    exact Nat.add_le_add (unitsOf_le_utf8Size c) ih

theorem Text.byteIndex?_zero (t : Text) : byteIndex? t 0 = some 0 := by
  cases t <;> rfl

theorem Text.byteIndex?_nil_of_pos {n : Nat} (h : 0 < n) : byteIndex? [] n = none := by
  cases n with
  | zero => exact absurd h (Nat.lt_irrefl 0)
  | succ n => rfl

theorem Text.byteIndex?_cons_of_pos {c : Char} {r : Text} {n : Nat} (h : 0 < n) :
    byteIndex? (c :: r) n =
      if unitsOf c ≤ n then (byteIndex? r (n - unitsOf c)).map (c.utf8Size + ·) else none := by
  cases n with
  | zero => exact absurd h (Nat.lt_irrefl 0)
  | succ n =>
    simp only [byteIndex?, splitAt?]
    split
    · cases splitAt? r (n + 1 - unitsOf c) <;> rfl
    · rfl

namespace Checked

variable {t : Text} {offset units byte : Nat}

theorem unitsFrom_eq {count : Nat} (h : count + Text.units t < offsetLimit) :
    unitsFrom count t = pure (count + Text.units t) := by
  induction t generalizing count with
  | nil => rfl
  | cons c r ih =>
    rw [Text.units_cons, ← Nat.add_assoc] at h ⊢
    rw [unitsFrom, add_eq (by omega), pure_bind, ih h]

/-- Beyond the offset there is nothing left to find. -/
theorem byteIndexFrom_of_lt (h : offset < units) : byteIndexFrom offset units byte t = pure none := by
  cases t with
  | nil => rw [byteIndexFrom, if_neg (Nat.ne_of_gt h)]
  | cons c r => rw [byteIndexFrom, if_neg (Nat.ne_of_gt h), if_pos h]

theorem byteIndexFrom_eq (hunits : units + Text.units t < offsetLimit)
    (hbyte : byte + Text.bytes t < offsetLimit) (hle : units ≤ offset) :
    byteIndexFrom offset units byte t
      = pure ((Text.byteIndex? t (offset - units)).map (byte + ·)) := by
  induction t generalizing units byte with
  | nil =>
    rw [byteIndexFrom]
    rcases Nat.eq_or_lt_of_le hle with heq | hlt
    · rw [if_pos heq, heq, Nat.sub_self, Text.byteIndex?_zero]
      rfl
    · rw [if_neg (Nat.ne_of_lt hlt), Text.byteIndex?_nil_of_pos (Nat.sub_pos_of_lt hlt)]
      rfl
  | cons c r ih =>
    rw [Text.units_cons, ← Nat.add_assoc] at hunits
    rw [Text.bytes, ← Nat.add_assoc] at hbyte
    rw [byteIndexFrom]
    rcases Nat.eq_or_lt_of_le hle with heq | hlt
    · rw [if_pos heq, heq, Nat.sub_self, Text.byteIndex?_zero]
      rfl
    · rw [if_neg (Nat.ne_of_lt hlt), if_neg (Nat.not_lt_of_le hle), add_eq (by omega), pure_bind,
        add_eq (by omega), pure_bind, Text.byteIndex?_cons_of_pos (Nat.sub_pos_of_lt hlt)]
      by_cases hinside : offset < units + unitsOf c
      · rw [byteIndexFrom_of_lt hinside, if_neg (by omega)]
        rfl
      · rw [ih hunits hbyte (by omega), if_pos (by omega), Nat.sub_sub, Option.map_map]
        simp only [Function.comp_def, Nat.add_assoc]

theorem byteFloorFrom_eq (hunits : units + Text.units t < offsetLimit)
    (hbyte : byte + Text.bytes t < offsetLimit) (hle : units ≤ offset) :
    byteFloorFrom offset units byte t = pure (byte + Text.byteFloor t (offset - units)) := by
  induction t generalizing units byte with
  | nil => rfl
  | cons c r ih =>
    rw [Text.units_cons, ← Nat.add_assoc] at hunits
    rw [Text.bytes, ← Nat.add_assoc] at hbyte
    rw [byteFloorFrom, add_eq (by omega), pure_bind, Text.byteFloor, Text.takeUnits]
    by_cases hnext : offset < units + unitsOf c
    · rw [if_pos hnext, if_neg (by omega)]
      rfl
    · rw [if_neg hnext, if_pos (by omega), add_eq (by omega), pure_bind, ih hunits hbyte (by omega),
        Text.bytes, Nat.sub_sub, Nat.add_assoc, Text.byteFloor]

/-- Behind the bytes of a front a text can be cut. -/
theorem cutAt_append (p q : Text) : cutAt (p ++ q) (Text.bytes p) = pure (p, q) := by
  induction p with
  | nil =>
    cases q <;> rfl
  | cons c p ih =>
    have hpos := c.utf8Size_pos
    obtain ⟨n, hn⟩ : ∃ n, Text.bytes (c :: p) = n + 1 := Nat.exists_eq_succ_of_ne_zero (by rw [Text.bytes]; omega)
    rw [hn, List.cons_append, cutAt, ← hn, Text.bytes, if_pos (Nat.le_add_right _ _),
      Nat.add_sub_cancel_left, ih]
    rfl

/-- Between the bytes of two fronts a text can be cut out. -/
theorem slice_append (p part q : Text) :
    slice (p ++ part ++ q) (Text.bytes p) (Text.bytes (p ++ part)) = pure part := by
  rw [slice, Text.bytes_append, if_pos (Nat.le_add_right _ _), List.append_assoc, cutAt_append, pure_bind,
    Nat.add_sub_cancel_left]
  dsimp only
  rw [cutAt_append]
  rfl

/-- A slice that ends inside a character. -/
example : slice "a😀".toList 0 2 = throw .badSlice := rfl

end Checked

end Unescape
