import Unescape.Proofs.CheckedMapping
import Unescape.Proofs.PositionFloor

set_option autoImplicit false

/-! # Offsets, bytes and cuts of a text

Every offset that comes from outside is brought to a byte of a text before anything is done with it, by one
of two scans. One looks whether it is at the offset before it passes a character, and finds no byte for
an offset inside one; the other looks behind each character, and rounds down. A slice is what stands
between the bytes of two offsets.

What these find is said here by cuts of the text, without a scan: an offset has a byte if a front of the
text is that many units long, and rounding down finds the end of the longest front that fits
(`Text.prefix_takeUnits`). The scans run on words and stop as soon as they can, and they find just that
(`Text.offsets_name_cuts`). -/

namespace Unescape

/-! ## Slices by bytes -/

namespace Checked

/-- The part of a text between two offsets. The bytes of both are looked up, the second one only if there
    is a first, and bytes between which there is no part have none. -/
def slice? (t : Text) (range : Span) : Checked (Option Text) := do
  if range.stop < range.start then pure none
  else
    match ← byteIndexFrom range.start 0 0 t with
    | none => pure none
    | some start =>
      match ← byteIndexFrom range.stop 0 0 t with
      | none => pure none
      | some stop => pure (slice t start stop).toOption

end Checked

namespace Text

variable {t p : Text} {n : Nat} {range : Span}

theorem slice?_eq_none_iff :
    slice? t range = none ↔ ¬ (range.start ≤ range.stop ∧ ∃ p part q, t = p ++ part ++ q ∧
      units p = range.start ∧ units part = range.stop - range.start) := by
  rw [Option.eq_none_iff_forall_ne_some]
  constructor
  · rintro h ⟨hle, p, part, q, hcut⟩
    exact h part ((slice?_eq_some_iff _ _ _).2 ⟨hle, p, q, hcut⟩)
  · rintro h part hpart
    obtain ⟨hle, p, q, hcut⟩ := (slice?_eq_some_iff _ _ _).1 hpart
    exact h ⟨hle, p, part, q, hcut⟩

/-- The characters that fit are the longest front that does. -/
theorem prefix_takeUnits (hp : p <+: t) (hunits : units p ≤ n) : p <+: takeUnits t n := by
  obtain ⟨q, rfl⟩ := hp
  have hcut := takeUnits_append_dropUnits (p ++ q) n
  obtain ⟨w, hw, -⟩ := exists_append_of_units_le hcut.symm (units_le_units_takeUnits hunits q)
  exact ⟨w, hw.symm⟩

end Text

namespace Checked

variable {t : Text}

/-- With the bytes of both offsets in hand, and these in order, there is a part between them. -/
theorem slice?_eq (h : Text.bytes t + 1 < offsetLimit) (range : Span) :
    slice? t range = pure (Text.slice? t range) := by
  unfold slice?
  by_cases hle : range.start ≤ range.stop
  · rw [if_neg (Nat.not_lt.2 hle), byteIndexFrom_zero h, pure_bind]
    cases hslice : Text.slice? t range with
    | none =>
      have hnames : ¬ range.Names t := by simp [Span.names_iff_slice?, hslice]
      rw [Span.names_iff_exists] at hnames
      cases hstart : Text.byteIndex? t range.start with
      | none => rfl
      | some a =>
        -- With a byte at both ends the range would name a part.
        have hstop : Text.byteIndex? t range.stop = none := by
          refine Text.byteIndex?_eq_none_iff.2 fun hcut => hnames ⟨hle, ?_, hcut⟩
          obtain ⟨p, q, heq, hunits, -⟩ := Text.byteIndex?_eq_some_iff.1 hstart
          exact ⟨p, q, heq, hunits⟩
        dsimp only
        rw [byteIndexFrom_zero h, hstop]
        rfl
    | some part =>
      obtain ⟨p, q, rfl, hstart, hstop⟩ := Text.exists_byteIndex?_of_slice? hslice
      rw [hstart]
      dsimp only
      rw [byteIndexFrom_zero h, hstop, pure_bind]
      dsimp only
      rw [slice_append]
      rfl
  · rw [if_pos (Nat.lt_of_not_le hle), Text.slice?, if_neg hle]

end Checked

/-! ## What the scans find -/

/-- An offset has a byte exactly if the text can be cut there, and it is the length in bytes of what stands
    in front. Rounding down gives the length in bytes of the longest front of whole characters that has no
    more units, and the same byte where the offset has one. A slice exists exactly if the text can be cut
    in three, and it is what stands between the two cuts. The scans find all of this in every text whose
    bytes a word can count. -/
theorem Text.offsets_name_cuts (t : Text) (n : Nat) (range : Span) :
    (∀ b, byteIndex? t n = some b ↔ ∃ p q, t = p ++ q ∧ units p = n ∧ bytes p = b) ∧
    (byteIndex? t n = none ↔ ¬ ∃ p q, t = p ++ q ∧ units p = n) ∧
    (∃ p, byteFloor t n = bytes p ∧ p <+: t ∧ units p ≤ n ∧
      ∀ p', p' <+: t → units p' ≤ n → p' <+: p) ∧
    (∀ b, byteIndex? t n = some b → byteFloor t n = b) ∧
    (∀ part, slice? t range = some part ↔ range.start ≤ range.stop ∧ ∃ p q, t = p ++ part ++ q ∧
      units p = range.start ∧ units part = range.stop - range.start) ∧
    (slice? t range = none ↔ ¬ (range.start ≤ range.stop ∧ ∃ p part q, t = p ++ part ++ q ∧
      units p = range.start ∧ units part = range.stop - range.start)) ∧
    (bytes t + 1 < offsetLimit →
      Checked.unitsFrom 0 t = pure (units t) ∧
      Checked.byteIndexFrom n 0 0 t = pure (byteIndex? t n) ∧
      Checked.byteFloorFrom n 0 0 t = pure (byteFloor t n) ∧
      Checked.slice? t range = pure (slice? t range)) := by
  refine ⟨fun b => byteIndex?_eq_some_iff, byteIndex?_eq_none_iff, ?_, ?_,
    slice?_eq_some_iff t range, slice?_eq_none_iff, ?_⟩
  · exact ⟨takeUnits t n, rfl, ⟨_, takeUnits_append_dropUnits t n⟩, units_takeUnits_le t n,
      fun p' hp' hunits => prefix_takeUnits hp' hunits⟩
  · intro b hb
    obtain ⟨p, q, rfl, rfl, rfl⟩ := byteIndex?_eq_some_iff.1 hb
    exact byteFloor_append p q
  · intro hbytes
    have hunits := units_le_bytes t
    refine ⟨?_, Checked.byteIndexFrom_zero hbytes n, ?_, Checked.slice?_eq hbytes range⟩
    · rw [Checked.unitsFrom_eq (by omega), Nat.zero_add]
    · rw [Checked.byteFloorFrom_eq (by omega) (by omega) (Nat.zero_le _), Nat.zero_add, Nat.sub_zero]

/-- The offset between the halves of a character, behind one of two bytes, and a slice of that
    character. -/
theorem Text.offsets_name_cuts_inside_char :
    bytes "é😀b".toList + 1 < offsetLimit ∧
    (¬ ∃ p q, "é😀b".toList = p ++ q ∧ units p = 2) ∧
    Checked.byteIndexFrom 2 0 0 "é😀b".toList = pure none ∧
    Checked.byteFloorFrom 2 0 0 "é😀b".toList = pure 2 ∧
    Checked.slice? "é😀b".toList ⟨1, 3⟩ = pure (some ['😀']) := by
  have hsize : bytes "é😀b".toList + 1 < offsetLimit := by decide
  have hbyte : byteIndex? "é😀b".toList 2 = none := by decide
  have hfloor : byteFloor "é😀b".toList 2 = 2 := by decide
  have hslice : slice? "é😀b".toList ⟨1, 3⟩ = some ['😀'] := by decide
  obtain ⟨-, hcut, -, -, -, -, hscans⟩ := offsets_name_cuts "é😀b".toList 2 ⟨1, 3⟩
  rw [hbyte, hfloor, hslice] at hscans
  exact ⟨hsize, hcut.1 hbyte, (hscans hsize).2⟩

end Unescape
