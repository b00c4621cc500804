import Unescape.Proofs.CheckedLines

set_option autoImplicit false

/-! # Positions by counting line feeds

The position of an offset can be had without any list of lines: count the line feeds that end at or
before the offset, and take the distance from the last one (`Text.countedPosition`). This is what the
search in the starts of the lines finds, for every offset, between characters or inside one
(`LineIndex.offsetToPosition_eq_countedPosition`).

Both are read off the same description of the text. If an offset is in the line behind complete lines,
the line feeds that end at or before it are those of the complete lines, and the last of them is where
the complete lines end (`Text.countedPosition_ended_add`). -/

namespace Unescape

namespace Text

/-- The offsets behind the line feeds of a text that begins at `start`. -/
def feedEnds (start : Nat) : Text → List Nat
  | [] => []
  | c :: r =>
    if c = '\n' then (start + unitsOf c) :: feedEnds (start + unitsOf c) r
    else feedEnds (start + unitsOf c) r

/-- The position of an offset by the line feeds in front of it: how many they are, and how far the
    offset is behind the last one or, if there is none, behind the start of the text. -/
def countedPosition (t : Text) (offset : Nat) : Position :=
  let before := (feedEnds 0 t).filter (· ≤ offset)
  ⟨before.length, offset - before.getLast?.getD 0⟩

/-! ## The line feeds of a text -/

theorem feedEnds_append (start : Nat) (p q : Text) :
    feedEnds start (p ++ q) = feedEnds start p ++ feedEnds (start + units p) q := by
  induction p generalizing start with
  | nil => rfl
  | cons c p ih =>
    rw [List.cons_append, feedEnds, feedEnds, ih, units_cons, Nat.add_assoc]
    by_cases hc : c = '\n'
    · rw [if_pos hc, if_pos hc, List.cons_append]
    · rw [if_neg hc, if_neg hc]

theorem feedEnds_newline_cons (start : Nat) (t : Text) :
    feedEnds start ('\n' :: t) = (start + 1) :: feedEnds (start + 1) t := by
  rw [feedEnds, if_pos rfl, units_newline]

theorem length_feedEnds (start : Nat) (t : Text) : (feedEnds start t).length = t.count '\n' := by
  induction t generalizing start with
  | nil => rfl
  | cons c t ih =>
    rw [feedEnds]
    by_cases hc : c = '\n'
    · rw [if_pos hc, List.length_cons, ih, hc, List.count_cons_self]
    · rw [if_neg hc, ih, List.count_cons_of_ne hc]

/-- What is listed are the places behind line feeds. -/
theorem mem_feedEnds_iff {start offset : Nat} {t : Text} :
    offset ∈ feedEnds start t ↔ ∃ v w, t = v ++ '\n' :: w ∧ offset = start + units v + 1 := by
  constructor
  · intro hmem
    induction t generalizing start with
    | nil => exact absurd hmem List.not_mem_nil
    | cons c t ih =>
      have hlater : offset ∈ feedEnds (start + unitsOf c) t →
          ∃ v w, c :: t = v ++ '\n' :: w ∧ offset = start + units v + 1 := by
        intro hmem
        obtain ⟨v, w, rfl, rfl⟩ := ih hmem
        exact ⟨c :: v, w, rfl, by rw [units_cons, Nat.add_assoc start]⟩
      rw [feedEnds] at hmem
      by_cases hc : c = '\n'
      · subst hc
        rw [if_pos rfl] at hmem
        rcases List.mem_cons.1 hmem with rfl | hmem
        · exact ⟨[], t, rfl, rfl⟩
        · exact hlater hmem
      · rw [if_neg hc] at hmem
        exact hlater hmem
  · rintro ⟨v, w, rfl, rfl⟩
    rw [feedEnds_append, feedEnds_newline_cons]
    exact List.mem_append_right _ List.mem_cons_self

/-- The first line ends at the first line feed, so no later one is in it. -/
theorem units_splitLines_append_le (v w : Text) : units (splitLines (v ++ '\n' :: w)).1 ≤ units v := by
  induction v with
  | nil => exact Nat.le_of_eq (by rw [List.nil_append, splitLines_newline_cons])
  | cons c v ih =>
    rw [List.cons_append]
    by_cases hc : c = '\n'
    · rw [hc, splitLines_newline_cons]
      exact Nat.zero_le _
    · simp only [splitLines, hc, if_false, units_cons]
      exact Nat.add_le_add_left ih _

/-- The line feeds of a text end behind its first line, and in the text. -/
theorem lt_and_le_of_mem_feedEnds {start offset : Nat} {t : Text} (h : offset ∈ feedEnds start t) :
    start + units (splitLines t).1 < offset ∧ offset ≤ start + units t := by
  obtain ⟨v, w, rfl, rfl⟩ := mem_feedEnds_iff.1 h
  have hfirst := units_splitLines_append_le v w
  rw [units_append, units_cons, units_newline]
  omega

/-- The last line feed of complete lines is where they end. -/
theorem getLast?_feedEnds_ended (ls : List Text) :
    (feedEnds 0 (ended ls)).getLast?.getD 0 = units (ended ls) := by
  rcases List.eq_nil_or_concat ls with rfl | ⟨ls, l, rfl⟩
  · rfl
  · have hended : ended (ls ++ [l]) = (ended ls ++ l) ++ ['\n'] := by
      rw [ended_append, ended_cons, ended_nil, List.append_assoc]
    rw [List.concat_eq_append, hended, feedEnds_append, feedEnds_newline_cons, feedEnds,
      List.getLast?_concat, Option.getD_some, units_append _ ['\n'], units_cons, units_newline, units_nil,
      Nat.zero_add]

/-! ## Counting and searching -/

/-- Up to an offset in the line behind complete lines, the line feeds are those of the complete lines. -/
theorem countedPosition_ended_add {ls : List Text} (hls : ∀ l ∈ ls, '\n' ∉ l) {t : Text} {column : Nat}
    (hcolumn : column ≤ units (splitLines t).1) :
    countedPosition (ended ls ++ t) (units (ended ls) + column) = ⟨ls.length, column⟩ := by
  have hfront : (feedEnds 0 (ended ls)).filter (· ≤ units (ended ls) + column)
      = feedEnds 0 (ended ls) := by
    refine List.filter_eq_self.2 ?_
    intro e he
    have := (lt_and_le_of_mem_feedEnds he).2
    simp only [decide_eq_true_eq]
    omega
  have hback : (feedEnds (0 + units (ended ls)) t).filter (· ≤ units (ended ls) + column) = [] := by
    refine List.filter_eq_nil_iff.2 ?_
    intro e he
    have := (lt_and_le_of_mem_feedEnds he).1
    simp only [decide_eq_true_eq]
    omega
  unfold countedPosition
  dsimp only
  rw [feedEnds_append, List.filter_append, hfront, hback, List.append_nil, length_feedEnds,
    count_ended hls, getLast?_feedEnds_ended, Nat.add_sub_cancel_left]

end Text

namespace LineIndex

/-- Line and column of an offset of a text are those that are counted. -/
theorem exactPosition_eq_of_le {source : Text} {offset : Nat} (h : offset ≤ Text.units source) :
    (ofText source).exactPosition offset = source.countedPosition offset := by
  obtain ⟨ls, r, column, rfl, hls, rfl, hcolumn⟩ := Text.exists_ended_append_of_le h
  rw [exactPosition_ended_add hls hcolumn, Text.countedPosition_ended_add hls hcolumn]

/-- The position of an offset, an offset behind the text taken as its end, is found by counting the line
    feeds that end at or before it. So it is where the lines are found in one pass and lines and columns
    are 32-bit words. Different offsets of the text have different positions, in the same order. -/
theorem offsetToPosition_eq_countedPosition (source : Text) (hsize : Text.units source < UInt32.size) :
    (∀ offset,
      (ofText source).offsetToPosition offset
        = source.countedPosition (min offset (Text.units source)) ∧
      Checked.offsetToPosition source offset
        = pure (source.countedPosition (min offset (Text.units source)))) ∧
    ∀ a b, a < b → b ≤ Text.units source →
      (ofText source).offsetToPosition a < (ofText source).offsetToPosition b := by
  constructor
  · intro offset
    have hcounted : (ofText source).offsetToPosition offset
        = source.countedPosition (min offset (Text.units source)) := by
      rw [offsetToPosition_eq_exactPosition hsize, ← exactPosition_min,
        exactPosition_eq_of_le (Nat.min_le_right _ _)]
    exact ⟨hcounted, by rw [Checked.offsetToPosition_eq, hcounted]⟩
  · intro a b hab hb
    exact offsetToPosition_lt_offsetToPosition hsize hab hb

/-- An offset inside a character behind an empty line, and one behind the text. -/
theorem offsetToPosition_eq_countedPosition_empty_line :
    Text.units "a\r\n\n😀b\n".toList < UInt32.size ∧
    ((ofText "a\r\n\n😀b\n".toList).offsetToPosition 5 = ⟨2, 1⟩ ∧
      Checked.offsetToPosition "a\r\n\n😀b\n".toList 5 = pure ⟨2, 1⟩) ∧
    ((ofText "a\r\n\n😀b\n".toList).offsetToPosition 99 = ⟨3, 0⟩ ∧
      Checked.offsetToPosition "a\r\n\n😀b\n".toList 99 = pure ⟨3, 0⟩) ∧
    (2 < 3 ∧ 3 ≤ Text.units "a\r\n\n😀b\n".toList ∧
      (ofText "a\r\n\n😀b\n".toList).offsetToPosition 2
        < (ofText "a\r\n\n😀b\n".toList).offsetToPosition 3) := by
  have hsize : Text.units "a\r\n\n😀b\n".toList < UInt32.size := by decide
  have hinside : Text.countedPosition "a\r\n\n😀b\n".toList
      (min 5 (Text.units "a\r\n\n😀b\n".toList)) = ⟨2, 1⟩ := by decide
  have hbehind : Text.countedPosition "a\r\n\n😀b\n".toList
      (min 99 (Text.units "a\r\n\n😀b\n".toList)) = ⟨3, 0⟩ := by decide
  obtain ⟨hcount, hlt⟩ := offsetToPosition_eq_countedPosition _ hsize
  refine ⟨hsize, ?_, ?_, by decide, by decide, hlt 2 3 (by decide) (by decide)⟩
  · rw [← hinside]
    exact hcount 5
  · rw [← hbehind]
    exact hcount 99

end LineIndex

end Unescape
