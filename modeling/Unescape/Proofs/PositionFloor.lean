import Mathlib.Order.Bounds.Basic
import Unescape.Proofs.CheckedLines

set_option autoImplicit false

/-! # Which offset a position has

A position names a line and a column, and any column may be asked for. Its offset is the greatest one of
those that are in the line, no further on than the column and at which the text can be cut
(`LineIndex.isGreatest_positionToOffset?`). Only the lines of the text have offsets, and there are one
more of them than line feeds (`Text.length_lines`).

The lines that are found are the lines of the text (`Text.hasLine_iff`). Within a line the offset is found
by taking characters as long as they fit, and these make up the longest front that fits
(`Text.units_le_units_takeUnits`). -/

namespace Unescape

namespace Text

/-! ## The longest front that fits -/

theorem units_le_units_takeUnits {p : Text} {n : Nat} (hp : units p ≤ n) (q : Text) :
    units p ≤ units (takeUnits (p ++ q) n) := by
  induction p generalizing n with
  | nil => exact Nat.zero_le _
  | cons c p ih =>
    rw [units_cons] at hp
    have hrest : units p ≤ units (takeUnits (p ++ q) (n - unitsOf c)) := ih (by omega)
    rw [List.cons_append, takeUnits, if_pos (by omega), units_cons, units_cons]
    exact Nat.add_le_add_left hrest _

theorem units_takeUnits_mono (t : Text) {m n : Nat} (hmn : m ≤ n) :
    units (takeUnits t m) ≤ units (takeUnits t n) := by
  have h := units_le_units_takeUnits (Nat.le_trans (units_takeUnits_le t m) hmn) (dropUnits t m)
  rwa [takeUnits_append_dropUnits] at h

/-! ## All lines, and nothing but lines -/

theorem length_lines (t : Text) : (lines t).length = t.count '\n' + 1 := by
  obtain ⟨ls, b, rfl, hls, hb⟩ := exists_eq_ended_append t
  rw [lines_ended_append hls hb, List.length_append, length_endedLines, List.length_singleton,
    List.count_append, count_ended hls, List.count_eq_zero_of_not_mem hb, Nat.add_zero]

theorem firstContent_append {content back : Text} (hcontent : '\n' ∉ content)
    (hback : back = [] ∨ (content.getLast? ≠ some '\r' ∧ ∃ r, back = '\n' :: r) ∨
      ∃ r, back = '\r' :: '\n' :: r) : firstContent (content ++ back) = content := by
  rcases hback with rfl | ⟨hreturn, r, rfl⟩ | ⟨r, rfl⟩
  · rw [List.append_nil, firstContent_of_not_mem hcontent]
  · rw [firstContent_line hcontent, trimReturn, if_neg hreturn]
  · have hline : '\n' ∉ content ++ ['\r'] := by simpa using hcontent
    have hcut : content ++ '\r' :: '\n' :: r = (content ++ ['\r']) ++ '\n' :: r := by simp
    rw [hcut, firstContent_line hline, trimReturn_concat]

/-- A text that is empty or ends in a line feed is complete lines. -/
theorem exists_eq_ended {t : Text} (h : t = [] ∨ t.getLast? = some '\n') :
    ∃ ls, t = ended ls ∧ ∀ l ∈ ls, '\n' ∉ l := by
  obtain ⟨ls, b, rfl, hls, hb⟩ := exists_eq_ended_append t
  rcases List.eq_nil_or_concat b with rfl | ⟨b, c, rfl⟩
  · exact ⟨ls, List.append_nil _, hls⟩
  · rw [List.concat_eq_append] at h hb
    rcases h with h | h
    · simp at h
    · rw [← List.append_assoc, List.getLast?_concat] at h
      exact absurd (by simp [Option.some.inj h]) hb

/-- The lines that are found are the lines of the text. -/
theorem hasLine_iff {t : Text} {index start : Nat} {content : Text} :
    HasLine t index start content ↔ (lines t)[index]? = some ⟨start, content⟩ := by
  constructor
  · rintro ⟨hcontent, front, back, rfl, rfl, rfl, hfront, hback⟩
    obtain ⟨ls, rfl, hls⟩ := exists_eq_ended hfront
    rw [List.append_assoc, count_ended hls, getElem?_lines_ended_append hls,
      firstContent_append hcontent hback]
  · intro h
    obtain ⟨ls, r, rfl, hls, rfl, hline⟩ := exists_of_getElem?_lines h
    obtain ⟨rfl, rfl⟩ := Line.mk.inj hline
    exact hasLine_ended_append hls r

/-- The characters of a line that fit reach as far as any cut in the line that is no further on than the
    column. -/
theorem HasLine.isGreatest {t : Text} {index start : Nat} {content : Text}
    (hline : t.HasLine index start content) (column : Nat) :
    IsGreatest {o | (∃ v w, t = v ++ w ∧ units v = o) ∧ start ≤ o ∧ o ≤ start + column ∧
      o ≤ start + units content} (start + units (takeUnits content column)) := by
  obtain ⟨-, front, back, rfl, rfl, -⟩ := hline
  have hfits := units_takeUnits_le content column
  have hall := units_takeUnits_le_units content column
  constructor
  · refine ⟨⟨front ++ takeUnits content column, dropUnits content column ++ back, ?_, ?_⟩, ?_, ?_, ?_⟩
    · calc front ++ content ++ back
          = front ++ (takeUnits content column ++ dropUnits content column) ++ back := by
            rw [takeUnits_append_dropUnits]
        _ = front ++ takeUnits content column ++ (dropUnits content column ++ back) := by
            simp only [List.append_assoc]
    · rw [units_append]
    · omega
    · omega
    · omega
  · rintro o ⟨⟨v, w, heq, rfl⟩, hstart, hcolumn, hcontent⟩
    rw [List.append_assoc] at heq
    obtain ⟨m, rfl, hm⟩ := exists_append_of_units_le heq hstart
    rw [units_append] at hcolumn hcontent ⊢
    obtain ⟨x, rfl, -⟩ := exists_append_of_units_le hm.symm (by omega)
    have := units_le_units_takeUnits (p := m) (n := column) (by omega) x
    omega

end Text

namespace LineIndex

variable {source : Text}

/-- The positions in the lines of the text have offsets. -/
theorem positionToOffset?_eq_none_iff {p : Position} :
    (ofText source).positionToOffset? p = none ↔ source.count '\n' < p.line := by
  rw [positionToOffset?, Option.map_eq_none_iff, ofText, List.getElem?_toArray, List.getElem?_eq_none_iff,
    Text.length_lines]
  exact Nat.succ_le_iff

/-- The offset of a position is taken in the line that the position names. -/
theorem positionToOffset?_eq_some_iff {p : Position} {offset : Nat} :
    (ofText source).positionToOffset? p = some offset ↔
      ∃ start content, source.HasLine p.line start content ∧
        start + Text.units (Text.takeUnits content p.character) = offset := by
  rw [positionToOffset?, Option.map_eq_some_iff, ofText, List.getElem?_toArray]
  constructor
  · rintro ⟨⟨start, content⟩, hline, hoffset⟩
    exact ⟨start, content, Text.hasLine_iff.2 hline, hoffset⟩
  · rintro ⟨start, content, hline, hoffset⟩
    exact ⟨⟨start, content⟩, Text.hasLine_iff.1 hline, hoffset⟩

/-- A position that is no further than another one has an offset that is no further. -/
theorem exists_positionToOffset?_le {p q : Position} {b : Nat} (hpq : p ≤ q)
    (hb : (ofText source).positionToOffset? q = some b) :
    ∃ a, (ofText source).positionToOffset? p = some a ∧ a ≤ b := by
  obtain ⟨l, hl, -, hble, hposition⟩ := exists_line_of_positionToOffset? hb
  cases ha : (ofText source).positionToOffset? p with
  | none =>
    have hlines : ¬ source.count '\n' < q.line := by
      rw [← positionToOffset?_eq_none_iff, hb]
      exact nofun
    have := positionToOffset?_eq_none_iff.1 ha
    rcases Position.le_iff.1 hpq with hline | ⟨hline, -⟩ <;> omega
  | some a =>
    refine ⟨a, rfl, ?_⟩
    obtain ⟨l', hl', -, hale, hposition'⟩ := exists_line_of_positionToOffset? ha
    -- Were it further on, its position were, in a line behind that of `q` or in the same one.
    refine Nat.le_of_not_lt ?_
    intro hlt
    have hposlt := exactPosition_lt_exactPosition hlt hale
    rw [hposition, hposition', Position.lt_iff] at hposlt
    dsimp only at hposlt
    rcases Position.le_iff.1 hpq with hline | ⟨hline, hcharacter⟩
    · omega
    · rw [hline, hl] at hl'
      obtain rfl := Option.some.inj hl'
      have := Text.units_takeUnits_mono l.content hcharacter
      omega

/-- Exactly the positions in the lines of the text have an offset. It is the greatest one at which the
    text can be cut and which is in the line, no further on than the column and not behind the content of
    the line. So positions that are no further have offsets that are no further. The count of characters
    from the first byte of the line on finds these offsets. -/
theorem isGreatest_positionToOffset? (source : Text) :
    (∀ p, (ofText source).positionToOffset? p = none ↔ source.count '\n' < p.line) ∧
    (∀ p offset, (ofText source).positionToOffset? p = some offset ↔
      ∃ start content, source.HasLine p.line start content ∧
        IsGreatest {o | (∃ v w, source = v ++ w ∧ Text.units v = o) ∧ start ≤ o ∧
          o ≤ start + p.character ∧ o ≤ start + Text.units content} offset) ∧
    (∀ p q b, p ≤ q → (ofText source).positionToOffset? q = some b →
      ∃ a, (ofText source).positionToOffset? p = some a ∧ a ≤ b) ∧
    ∀ p, Checked.positionToOffset? source p = pure ((ofText source).positionToOffset? p) := by
  refine ⟨?_, ?_, ?_, Checked.positionToOffset?_eq source⟩
  · intro p
    exact positionToOffset?_eq_none_iff
  · intro p offset
    rw [positionToOffset?_eq_some_iff]
    constructor
    · rintro ⟨start, content, hline, rfl⟩
      exact ⟨start, content, hline, hline.isGreatest p.character⟩
    · rintro ⟨start, content, hline, hgreatest⟩
      exact ⟨start, content, hline, (hline.isGreatest p.character).unique hgreatest⟩
  · intro p q b hpq hb
    exact exists_positionToOffset?_le hpq hb

/-- A column inside a character, one behind the content of its line, an empty line and a line too many. -/
theorem isGreatest_positionToOffset?_empty_line :
    (ofText "a😀\r\n\n\rb".toList).positionToOffset? ⟨3, 0⟩ = none ∧
    (∃ start content, Text.HasLine "a😀\r\n\n\rb".toList 0 start content ∧
      IsGreatest {o | (∃ v w, "a😀\r\n\n\rb".toList = v ++ w ∧ Text.units v = o) ∧ start ≤ o ∧
        o ≤ start + 2 ∧ o ≤ start + Text.units content} 1) ∧
    ((⟨0, 9⟩ : Position) ≤ ⟨1, 4⟩ ∧
      (ofText "a😀\r\n\n\rb".toList).positionToOffset? ⟨1, 4⟩ = some 5 ∧
      ∃ a, (ofText "a😀\r\n\n\rb".toList).positionToOffset? ⟨0, 9⟩ = some a ∧ a ≤ 5) := by
  obtain ⟨hnone, hsome, hmono, -⟩ := isGreatest_positionToOffset? "a😀\r\n\n\rb".toList
  have hle : (⟨0, 9⟩ : Position) ≤ ⟨1, 4⟩ := Position.le_iff.2 (.inl (by decide))
  have hempty : (ofText "a😀\r\n\n\rb".toList).positionToOffset? ⟨1, 4⟩ = some 5 := by decide
  exact ⟨(hnone ⟨3, 0⟩).2 (by decide), (hsome ⟨0, 2⟩ 1).1 (by decide), hle, hempty,
    hmono ⟨0, 9⟩ ⟨1, 4⟩ 5 hle hempty⟩

end LineIndex

end Unescape
