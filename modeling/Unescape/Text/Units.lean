set_option autoImplicit false

/-! # Text measured in UTF-16 code units

A text is the list of its characters. Offsets into a text count UTF-16 code units, as editors do
for columns: a character of the basic plane is one unit wide, a supplementary one two. An offset
is a *boundary* when the text splits there without cutting a character.

`splitAt?` cuts a text at a boundary and fails everywhere else (`splitAt?_eq_some_iff`);
`takeUnits` rounds down instead (`takeUnits_append_dropUnits`, `units_takeUnits_le`). -/

namespace Unescape

/-- Text as the sequence of its characters. -/
abbrev Text := List Char

/-- Width of a character in UTF-16 code units. -/
def unitsOf (c : Char) : Nat := if c.val < 0x10000 then 1 else 2

theorem unitsOf_eq_one_or_two (c : Char) : unitsOf c = 1 ∨ unitsOf c = 2 := by
  unfold unitsOf; split <;> simp

theorem unitsOf_pos (c : Char) : 0 < unitsOf c := by
  rcases unitsOf_eq_one_or_two c with h | h <;> omega

namespace Text

/-! ## Measures -/

/-- Length of a text in UTF-16 code units. -/
def units : Text → Nat
  | [] => 0
  | c :: r => unitsOf c + units r

/-- Length of a text in UTF-8 bytes. -/
def bytes : Text → Nat
  | [] => 0
  | c :: r => c.utf8Size + bytes r

@[simp] theorem units_nil : units [] = 0 := rfl

@[simp] theorem units_cons (c : Char) (r : Text) : units (c :: r) = unitsOf c + units r := rfl

@[simp] theorem units_append (s t : Text) : units (s ++ t) = units s + units t := by
  induction s with
  | nil => simp
  | cons c r ih => simp [ih, Nat.add_assoc]

theorem units_eq_zero_iff (t : Text) : units t = 0 ↔ t = [] := by
  cases t with
  | nil => simp
  | cons c r => have := unitsOf_pos c; simp; omega

/-! ## Cutting at a boundary -/

/-- The two parts of a text at a unit offset, if the offset is a boundary of the text. -/
def splitAt? : Text → Nat → Option (Text × Text)
  | t, 0 => some ([], t)
  | [], _ + 1 => none
  | c :: r, n + 1 =>
    if unitsOf c ≤ n + 1 then
      match splitAt? r (n + 1 - unitsOf c) with
      | some (p, q) => some (c :: p, q)
      | none => none
    else none

/-- A prefix that is not empty begins with the first character. -/
theorem exists_cons_of_cons_eq_append {c : Char} {r p q : Text} {n : Nat} (h : c :: r = p ++ q)
    (hn : units p = n + 1) :
    ∃ p', p = c :: p' ∧ r = p' ++ q ∧ unitsOf c + units p' = n + 1 := by
  cases p with
  | nil => simp at hn
  | cons d p' =>
    simp only [List.cons_append, List.cons.injEq] at h
    obtain ⟨rfl, hr⟩ := h
    exact ⟨p', rfl, hr, hn⟩

/-- A cut succeeds exactly where the text has a prefix of that many units. -/
theorem splitAt?_eq_some_iff (t : Text) (n : Nat) (p q : Text) :
    splitAt? t n = some (p, q) ↔ t = p ++ q ∧ units p = n := by
  fun_induction splitAt? t n generalizing p q with
  | case1 t =>
    constructor
    · intro h; simp at h; obtain ⟨rfl, rfl⟩ := h; simp
    · rintro ⟨rfl, h⟩
      obtain rfl := (units_eq_zero_iff p).1 h
      simp
  | case2 n =>
    constructor
    · intro h; simp at h
    · rintro ⟨h, hn⟩
      obtain ⟨rfl, rfl⟩ := List.append_eq_nil_iff.1 h.symm
      simp at hn
  | case3 c r n hc p' q' hs ih =>
    constructor
    · intro h
      simp only [Option.some.injEq, Prod.mk.injEq] at h
      obtain ⟨rfl, rfl⟩ := h
      obtain ⟨hr, hu⟩ := (ih p' q').1 hs
      refine ⟨by simp [hr], ?_⟩
      simp only [units_cons]; omega
    · rintro ⟨h, hn⟩
      obtain ⟨p, rfl, hr, hu⟩ := exists_cons_of_cons_eq_append h hn
      have hrest := (ih p q).2 ⟨hr, by omega⟩
      rw [hs] at hrest
      simp only [Option.some.injEq, Prod.mk.injEq] at hrest
      simp [hrest]
  | case4 c r n hc hs ih =>
    constructor
    · intro h; simp at h
    · rintro ⟨h, hn⟩
      obtain ⟨p, rfl, hr, hu⟩ := exists_cons_of_cons_eq_append h hn
      have hrest := (ih p q).2 ⟨hr, by omega⟩
      rw [hs] at hrest
      simp at hrest
  | case5 c r n hc =>
    constructor
    · intro h; simp at h
    · rintro ⟨h, hn⟩
      obtain ⟨p, rfl, hr, hu⟩ := exists_cons_of_cons_eq_append h hn
      omega

/-- Index of the UTF-8 byte at a unit offset, if the offset is a boundary. -/
def byteIndex? (t : Text) (n : Nat) : Option Nat :=
  (splitAt? t n).map fun parts => bytes parts.1

/-! ## Rounding down to a boundary -/

/-- The longest prefix of whole characters with at most `n` units. -/
def takeUnits : Text → Nat → Text
  | [], _ => []
  | c :: r, n => if unitsOf c ≤ n then c :: takeUnits r (n - unitsOf c) else []

/-- What `takeUnits` leaves. -/
def dropUnits : Text → Nat → Text
  | [], _ => []
  | c :: r, n => if unitsOf c ≤ n then dropUnits r (n - unitsOf c) else c :: r

theorem takeUnits_append_dropUnits (t : Text) (n : Nat) :
    takeUnits t n ++ dropUnits t n = t := by
  induction t generalizing n with
  | nil => rfl
  | cons c r ih => by_cases h : unitsOf c ≤ n <;> simp [takeUnits, dropUnits, h, ih]

theorem units_takeUnits_le (t : Text) (n : Nat) : units (takeUnits t n) ≤ n := by
  induction t generalizing n with
  | nil => simp [takeUnits]
  | cons c r ih =>
    by_cases h : unitsOf c ≤ n
    · have := ih (n - unitsOf c)
      simp only [takeUnits, h, if_true, units_cons]; omega
    · simp [takeUnits, h]

/-- At a boundary rounding down changes nothing. -/
theorem takeUnits_append (p q : Text) : takeUnits (p ++ q) (units p) = p := by
  induction p with
  | nil =>
    cases q with
    | nil => rfl
    | cons c r => have := unitsOf_pos c; simp [takeUnits]; omega
  | cons c r ih => simp [takeUnits, ih]

/-- The byte index of the boundary at or before a unit offset. -/
def byteFloor (t : Text) (n : Nat) : Nat := bytes (takeUnits t n)

end Text

end Unescape
