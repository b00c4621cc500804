import Unescape.Proofs.LinePositions

set_option autoImplicit false

/-! # Line breaks

A text is a number of complete lines, each with the line feed behind it, and what follows them
(`exists_eq_ended_append`). Behind complete lines a text has the lines that it has on its own, further
on (`linesFrom_ended_append`), so the line and column of an offset are the number of complete lines in
front of it and the distance from there (`exactPosition_ended_add`).

From this the two directions of the conversion are compared. Different offsets have different lines or
columns, in the same order (`exactPosition_lt_exactPosition`); and where a text can be cut, line and
column lead back to the offset, unless the cut is between a carriage return and its line feed
(`positionToOffset?_exactPosition`).

A position holds line and column in 32-bit words. In a text shorter than the number of these nothing is
lost, and positions are what lines and columns are (`offsetToPosition_eq_exactPosition`); in a longer one
they begin again at zero. -/

namespace Unescape

/-- Positions in order of reading, different ones only. -/
instance : LT Position :=
  ⟨fun p q => p.line < q.line ∨ (p.line = q.line ∧ p.character < q.character)⟩

theorem Position.lt_iff {p q : Position} :
    p < q ↔ p.line < q.line ∨ (p.line = q.line ∧ p.character < q.character) := Iff.rfl

theorem Position.lt_of_le_of_ne {p q : Position} (hle : p ≤ q) (hne : p ≠ q) : p < q := by
  rcases Position.le_iff.1 hle with hline | ⟨hline, hcharacter⟩
  · exact Position.lt_iff.2 (.inl hline)
  · rcases Nat.lt_or_eq_of_le hcharacter with hlt | heq
    · exact Position.lt_iff.2 (.inr ⟨hline, hlt⟩)
    · obtain ⟨line, character⟩ := p
      obtain ⟨line', character'⟩ := q
      dsimp only at hline heq
      exact absurd (by rw [hline, heq]) hne

/-- Line and column are 32-bit words, as editors send them. -/
def Position.Fits (p : Position) : Prop := p.line < UInt32.size ∧ p.character < UInt32.size

theorem Position.wrap_of_fits {p : Position} (h : p.Fits) : p.wrap = p := by
  obtain ⟨hline, hcharacter⟩ := h
  rw [wrap, Nat.mod_eq_of_lt hline, Nat.mod_eq_of_lt hcharacter]

namespace Text

/-! ## Complete lines -/

/-- Complete lines: each stands with the line feed that ends it. -/
def ended (ls : List Text) : Text := ls.flatMap (· ++ ['\n'])

@[simp] theorem ended_nil : ended [] = [] := rfl

@[simp] theorem ended_cons (l : Text) (ls : List Text) : ended (l :: ls) = l ++ '\n' :: ended ls := by
  simp [ended]

theorem units_newline : unitsOf '\n' = 1 := by decide

/-- A text is complete lines and the beginning of a line. -/
theorem exists_eq_ended_append (t : Text) :
    ∃ ls b, t = ended ls ++ b ∧ (∀ l ∈ ls, '\n' ∉ l) ∧ '\n' ∉ b := by
  induction t with
  | nil => exact ⟨[], [], rfl, fun _ hl => absurd hl List.not_mem_nil, List.not_mem_nil⟩
  | cons c t ih =>
    obtain ⟨ls, b, rfl, hls, hb⟩ := ih
    by_cases hc : c = '\n'
    · refine ⟨[] :: ls, b, by simp [hc], ?_, hb⟩
      intro l hl
      rcases List.mem_cons.1 hl with rfl | hl
      · exact List.not_mem_nil
      · exact hls l hl
    · cases ls with
      | nil =>
        refine ⟨[], c :: b, rfl, hls, ?_⟩
        intro hmem
        rcases List.mem_cons.1 hmem with heq | hmem
        · exact hc heq.symm
        · exact hb hmem
      | cons l ls =>
        obtain ⟨hl, hls⟩ := List.forall_mem_cons.1 hls
        refine ⟨(c :: l) :: ls, b, by simp, List.forall_mem_cons.2 ⟨?_, hls⟩, hb⟩
        intro hmem
        rcases List.mem_cons.1 hmem with heq | hmem
        · exact hc heq.symm
        · exact hl hmem

theorem splitLines_append_of_not_mem {l : Text} (hl : '\n' ∉ l) (t : Text) :
    splitLines (l ++ t) = (l ++ (splitLines t).1, (splitLines t).2) := by
  induction l with
  | nil => rfl
  | cons c l ih =>
    have hc : c ≠ '\n' := fun heq => hl (heq ▸ List.mem_cons_self)
    have hl' : '\n' ∉ l := fun hmem => hl (List.mem_cons_of_mem _ hmem)
    simp [splitLines, hc, ih hl']

theorem splitLines_newline_cons (t : Text) :
    splitLines ('\n' :: t) = ([], (splitLines t).1 :: (splitLines t).2) := by
  simp [splitLines]

theorem splitLines_line {l : Text} (hl : '\n' ∉ l) (r : Text) : (splitLines (l ++ '\n' :: r)).1 = l := by
  rw [splitLines_append_of_not_mem hl, splitLines_newline_cons, List.append_nil]

/-! ## The lines of a text further on -/

/-- The lines of a text that begins at `start`. -/
def linesFrom (start : Nat) (t : Text) : List Line := placeLines start (splitLines t).1 (splitLines t).2

theorem lines_eq_linesFrom (t : Text) : lines t = linesFrom 0 t := rfl

theorem linesFrom_line (start : Nat) {l : Text} (hl : '\n' ∉ l) (t : Text) :
    linesFrom start (l ++ '\n' :: t) = ⟨start, trimReturn l⟩ :: linesFrom (start + units l + 1) t := by
  rw [linesFrom, splitLines_append_of_not_mem hl, splitLines_newline_cons, List.append_nil]
  rfl

theorem linesFrom_of_not_mem (start : Nat) {l : Text} (hl : '\n' ∉ l) :
    linesFrom start l = [⟨start, l⟩] := by
  have hsplit := splitLines_append_of_not_mem hl []
  rw [List.append_nil] at hsplit
  rw [linesFrom, hsplit]
  simp [splitLines, placeLines]

/-- Complete lines, when the first begins at `start`. -/
def endedLines (start : Nat) : List Text → List Line
  | [] => []
  | l :: ls => ⟨start, trimReturn l⟩ :: endedLines (start + units l + 1) ls

theorem length_endedLines (start : Nat) (ls : List Text) : (endedLines start ls).length = ls.length := by
  induction ls generalizing start with
  | nil => rfl
  | cons l ls ih => rw [endedLines, List.length_cons, List.length_cons, ih]

/-- A complete line starts in front of where the last one ends. -/
theorem start_lt_of_mem_endedLines {start : Nat} {ls : List Text} {line : Line}
    (h : line ∈ endedLines start ls) : line.start < start + units (ended ls) := by
  induction ls generalizing start with
  | nil => exact absurd h List.not_mem_nil
  | cons l ls ih =>
    rw [ended_cons, units_append, units_cons, units_newline]
    rcases List.mem_cons.1 h with rfl | h
    · dsimp only
      omega
    · have := ih h
      omega

theorem endedLines_concat (start : Nat) (ls : List Text) (l : Text) :
    endedLines start (ls ++ [l])
      = endedLines start ls ++ [⟨start + units (ended ls), trimReturn l⟩] := by
  induction ls generalizing start with
  | nil => rfl
  | cons l' ls ih =>
    rw [List.cons_append, endedLines, ih, endedLines, List.cons_append, ended_cons, units_append,
      units_cons, units_newline]
    simp only [Nat.add_assoc]

/-- Complete lines stand in front of the lines of what follows them. -/
theorem linesFrom_ended_append (start : Nat) {ls : List Text} (hls : ∀ l ∈ ls, '\n' ∉ l) (t : Text) :
    linesFrom start (ended ls ++ t) = endedLines start ls ++ linesFrom (start + units (ended ls)) t := by
  induction ls generalizing start with
  | nil => rfl
  | cons l ls ih =>
    obtain ⟨hl, hls⟩ := List.forall_mem_cons.1 hls
    rw [ended_cons, List.append_assoc, List.cons_append, linesFrom_line start hl, ih _ hls, endedLines,
      List.cons_append, units_append, units_cons, units_newline]
    simp only [Nat.add_assoc]

/-- What the first line of a text holds: a carriage return in front of a line feed is none of it. -/
def firstContent (t : Text) : Text := if '\n' ∈ t then trimReturn (splitLines t).1 else t

theorem trimReturn_concat (l : Text) : trimReturn (l ++ ['\r']) = l := by
  rw [trimReturn, if_pos List.getLast?_concat, List.dropLast_concat]

theorem firstContent_line {l : Text} (hl : '\n' ∉ l) (r : Text) :
    firstContent (l ++ '\n' :: r) = trimReturn l := by
  rw [firstContent, if_pos (List.mem_append_right l List.mem_cons_self), splitLines_line hl]

theorem firstContent_of_not_mem {t : Text} (ht : '\n' ∉ t) : firstContent t = t := if_neg ht

/-- The first line of a text, and where the others are. -/
theorem exists_linesFrom_eq_cons (start : Nat) (t : Text) :
    ∃ more, linesFrom start t = ⟨start, firstContent t⟩ :: more ∧
      ∀ l ∈ more, start + units (splitLines t).1 < l.start := by
  by_cases hmem : '\n' ∈ t
  · obtain ⟨l, r, rfl, hl⟩ := List.eq_append_cons_of_mem hmem
    refine ⟨linesFrom (start + units l + 1) r, ?_, ?_⟩
    · rw [linesFrom_line start hl, firstContent_line hl]
    · intro line hline
      have := le_start_of_mem_placeLines hline
      rw [splitLines_line hl]
      omega
  · exact ⟨[], by rw [linesFrom_of_not_mem start hmem, firstContent_of_not_mem hmem],
      fun _ hl => absurd hl List.not_mem_nil⟩

theorem units_splitLines_le (t : Text) : units (splitLines t).1 ≤ units t := by
  induction t with
  | nil => exact Nat.le_refl _
  | cons c t ih =>
    by_cases hc : c = '\n'
    · simp [splitLines, hc]
    · simp only [splitLines, hc, if_false, units_cons]
      omega

/-- The first line keeps what stands in front of a cut in it, unless the cut leaves a carriage return
    in front of the line feed. -/
theorem exists_firstContent_eq_append {b q : Text} (hb : '\n' ∉ b)
    (hbreak : ¬ (b.getLast? = some '\r' ∧ q.head? = some '\n')) :
    ∃ s, firstContent (b ++ q) = b ++ s := by
  unfold firstContent
  split
  · rename_i hmem
    rw [splitLines_append_of_not_mem hb, trimReturn]
    split
    · rename_i hreturn
      cases hl : (splitLines q).1 with
      | nil =>
        -- The line ends where `b` does, so the line feed is what follows `b`.
        have hq : '\n' ∈ q := (List.mem_append.1 hmem).resolve_left hb
        obtain ⟨c, r, rfl⟩ := List.exists_cons_of_ne_nil (List.ne_nil_of_mem hq)
        by_cases hc : c = '\n'
        · dsimp only at hreturn
          rw [hl, List.append_nil] at hreturn
          exact absurd ⟨hreturn, by simp [hc]⟩ hbreak
        · simp [splitLines, hc] at hl
      | cons c l => exact ⟨(c :: l).dropLast, List.dropLast_append_of_ne_nil (List.cons_ne_nil c l)⟩
    · exact ⟨_, rfl⟩
  · exact ⟨q, rfl⟩

/-- Complete lines and the line that the end of the text ends. -/
theorem lines_ended_append {ls : List Text} (hls : ∀ l ∈ ls, '\n' ∉ l) {b : Text} (hb : '\n' ∉ b) :
    lines (ended ls ++ b) = endedLines 0 ls ++ [⟨units (ended ls), b⟩] := by
  rw [lines_eq_linesFrom, linesFrom_ended_append 0 hls, linesFrom_of_not_mem _ hb, Nat.zero_add]

/-- The line behind complete lines. -/
theorem getElem?_lines_ended_append {ls : List Text} (hls : ∀ l ∈ ls, '\n' ∉ l) (t : Text) :
    (lines (ended ls ++ t))[ls.length]? = some ⟨units (ended ls), firstContent t⟩ := by
  obtain ⟨more, hfirst, -⟩ := exists_linesFrom_eq_cons (0 + units (ended ls)) t
  rw [lines_eq_linesFrom, linesFrom_ended_append 0 hls, hfirst, ← length_endedLines 0 ls,
    List.getElem?_append_right (Nat.le_refl _), Nat.sub_self, List.getElem?_cons_zero, Nat.zero_add]

/-- The lines that start at or before an offset of the line behind complete lines. -/
theorem countP_lines_ended_append {ls : List Text} (hls : ∀ l ∈ ls, '\n' ∉ l) {t : Text} {column : Nat}
    (hcolumn : column ≤ units (splitLines t).1) :
    (lines (ended ls ++ t)).countP (fun l => decide (l.start ≤ units (ended ls) + column))
      = ls.length + 1 := by
  obtain ⟨more, hfirst, hmore⟩ := exists_linesFrom_eq_cons (0 + units (ended ls)) t
  have hall : (endedLines 0 ls).countP (fun l => decide (l.start ≤ units (ended ls) + column))
      = (endedLines 0 ls).length := by
    refine List.countP_eq_length.2 ?_
    intro l hl
    have := start_lt_of_mem_endedLines hl
    simp only [decide_eq_true_eq]
    omega
  have hnone : more.countP (fun l => decide (l.start ≤ units (ended ls) + column)) = 0 := by
    refine List.countP_eq_zero.2 ?_
    intro l hl
    have := hmore l hl
    simp only [decide_eq_true_eq]
    omega
  rw [lines_eq_linesFrom, linesFrom_ended_append 0 hls, hfirst, List.countP_append, List.countP_cons, hall,
    hnone, length_endedLines]
  simp

/-- There are no more complete lines than units in them. -/
theorem length_le_units_ended (ls : List Text) : ls.length ≤ units (ended ls) := by
  induction ls with
  | nil => exact Nat.le_refl _
  | cons l ls ih =>
    simp only [ended_cons, units_append, units_cons, units_newline, List.length_cons]
    omega

/-- An offset of a text is an offset of one of its lines, the place in front of the line feed included. -/
theorem exists_ended_append_of_le {t : Text} {offset : Nat} (h : offset ≤ units t) :
    ∃ ls r column, t = ended ls ++ r ∧ (∀ l ∈ ls, '\n' ∉ l) ∧ offset = units (ended ls) + column ∧
      column ≤ units (splitLines r).1 := by
  obtain ⟨ls, b, rfl, hls, hb⟩ := exists_eq_ended_append t
  induction ls generalizing offset with
  | nil =>
    have hsplit := splitLines_append_of_not_mem hb []
    rw [List.append_nil] at hsplit
    refine ⟨[], b, offset, rfl, hls, (Nat.zero_add _).symm, ?_⟩
    simpa [hsplit, splitLines] using h
  | cons l ls ih =>
    obtain ⟨hl, hls'⟩ := List.forall_mem_cons.1 hls
    simp only [ended_cons, List.append_assoc, List.cons_append, units_append, units_cons, units_newline]
      at h
    by_cases hle : offset ≤ units l
    · refine ⟨[], ended (l :: ls) ++ b, offset, rfl, fun _ hl => absurd hl List.not_mem_nil,
        (Nat.zero_add _).symm, ?_⟩
      rw [ended_cons, List.append_assoc, splitLines_append_of_not_mem hl, units_append]
      omega
    · have hrest : offset - (units l + 1) ≤ units (ended ls ++ b) := by
        rw [units_append]
        omega
      obtain ⟨ls', r, column, ht, hls'', hoffset, hcolumn⟩ := ih hrest hls'
      refine ⟨l :: ls', r, column, ?_, List.forall_mem_cons.2 ⟨hl, hls''⟩, ?_, hcolumn⟩
      · rw [ended_cons, ended_cons, List.append_assoc, List.append_assoc, List.cons_append,
          List.cons_append, ht]
      · simp only [ended_cons, units_append, units_cons, units_newline]
        omega

end Text

namespace LineIndex

variable {source : Text}

/-! ## Line and column of an offset -/

/-- An offset behind complete lines is in the line that follows them. -/
theorem exactPosition_ended_add {ls : List Text} (hls : ∀ l ∈ ls, '\n' ∉ l) {t : Text} {column : Nat}
    (hcolumn : column ≤ Text.units (Text.splitLines t).1) :
    (ofText (Text.ended ls ++ t)).exactPosition (Text.units (Text.ended ls) + column)
      = ⟨ls.length, column⟩ := by
  have hle : Text.units (Text.ended ls) + column ≤ (ofText (Text.ended ls ++ t)).length := by
    have hfirst := Text.units_splitLines_le t
    show _ ≤ Text.units (Text.ended ls ++ t)
    rw [Text.units_append]
    omega
  have hstart : (ofText (Text.ended ls ++ t)).lines[ls.length]?
      = some ⟨Text.units (Text.ended ls), Text.firstContent t⟩ := by
    simpa [ofText] using Text.getElem?_lines_ended_append hls t
  unfold exactPosition
  dsimp only
  rw [Nat.min_eq_left hle, partitionPoint_lines_eq_countP, Text.countP_lines_ended_append hls hcolumn,
    Nat.add_sub_cancel]
  simp only [hstart, Option.map_some, Option.getD_some, Nat.add_sub_cancel_left]

/-- An offset behind the text counts as its end. -/
theorem exactPosition_min (offset : Nat) :
    (ofText source).exactPosition (min offset (Text.units source))
      = (ofText source).exactPosition offset := by
  have hclamp : min (min offset (Text.units source)) (ofText source).length
      = min offset (ofText source).length := Nat.min_eq_left (Nat.min_le_right _ _)
  unfold exactPosition
  rw [hclamp]

/-- An offset of the text is its column behind the start of its line. -/
theorem exists_line_of_offset {offset : Nat} (h : offset ≤ Text.units source) :
    ∃ l, (Text.lines source)[((ofText source).exactPosition offset).line]? = some l ∧
      l.start + ((ofText source).exactPosition offset).character = offset := by
  obtain ⟨ls, r, column, rfl, hls, rfl, hcolumn⟩ := Text.exists_ended_append_of_le h
  rw [exactPosition_ended_add hls hcolumn]
  exact ⟨_, Text.getElem?_lines_ended_append hls r, rfl⟩

/-- Different offsets have different lines or columns, in the same order. -/
theorem exactPosition_lt_exactPosition {a b : Nat} (hab : a < b) (hb : b ≤ Text.units source) :
    (ofText source).exactPosition a < (ofText source).exactPosition b := by
  refine Position.lt_of_le_of_ne (exactPosition_le_exactPosition source (Nat.le_of_lt hab)) ?_
  intro heq
  obtain ⟨l, hl, hstart⟩ := exists_line_of_offset (Nat.le_trans (Nat.le_of_lt hab) hb)
  obtain ⟨l', hl', hstart'⟩ := exists_line_of_offset hb
  rw [heq] at hl hstart
  obtain rfl := Option.some.inj (hl.symm.trans hl')
  omega

/-- In a text shorter than the number of 32-bit words, so are lines and columns. -/
theorem fits_exactPosition (hsource : Text.units source < UInt32.size) {offset : Nat}
    (h : offset ≤ Text.units source) : ((ofText source).exactPosition offset).Fits := by
  obtain ⟨ls, r, column, rfl, hls, rfl, hcolumn⟩ := Text.exists_ended_append_of_le h
  have hlines := Text.length_le_units_ended ls
  rw [exactPosition_ended_add hls hcolumn]
  constructor
  · show ls.length < UInt32.size
    omega
  · show column < UInt32.size
    omega

/-- In such a text no position is cut. -/
theorem offsetToPosition_eq_exactPosition (hsource : Text.units source < UInt32.size) (offset : Nat) :
    (ofText source).offsetToPosition offset = (ofText source).exactPosition offset := by
  rw [offsetToPosition, ← exactPosition_min]
  exact Position.wrap_of_fits (fits_exactPosition hsource (Nat.min_le_right _ _))

theorem offsetToPosition_lt_offsetToPosition (hsource : Text.units source < UInt32.size) {a b : Nat}
    (hab : a < b) (hb : b ≤ Text.units source) :
    (ofText source).offsetToPosition a < (ofText source).offsetToPosition b := by
  rw [offsetToPosition_eq_exactPosition hsource, offsetToPosition_eq_exactPosition hsource]
  exact exactPosition_lt_exactPosition hab hb

/-- A span that is not reversed has a range of positions that is not reversed. -/
theorem isForward_spanToRange (hsource : Text.units source < UInt32.size) {s : Span}
    (h : s.IsForward) : ((ofText source).spanToRange s).IsForward := by
  rw [spanToRange, offsetToPosition_eq_exactPosition hsource,
    offsetToPosition_eq_exactPosition hsource]
  exact exactPosition_le_exactPosition source h

/-! ## Back to the offset -/

/-- The column of an offset of a line is rounded down to the content of the line. -/
theorem positionToOffset?_exactPosition_ended_add {ls : List Text} (hls : ∀ l ∈ ls, '\n' ∉ l)
    {t : Text} {column : Nat} (hcolumn : column ≤ Text.units (Text.splitLines t).1) :
    (ofText (Text.ended ls ++ t)).positionToOffset?
        ((ofText (Text.ended ls ++ t)).exactPosition (Text.units (Text.ended ls) + column))
      = some (Text.units (Text.ended ls)
          + Text.units (Text.takeUnits (Text.firstContent t) column)) := by
  have hline : (ofText (Text.ended ls ++ t)).lines[ls.length]?
      = some ⟨Text.units (Text.ended ls), Text.firstContent t⟩ := by
    simpa [ofText] using Text.getElem?_lines_ended_append hls t
  rw [exactPosition_ended_add hls hcolumn, positionToOffset?, hline, Option.map_some]

/-- Where a text is cut, the line and column of the cut lead back to it, unless it is in the middle of
    a line break. -/
theorem positionToOffset?_exactPosition {p q : Text}
    (hbreak : ¬ (p.getLast? = some '\r' ∧ q.head? = some '\n')) :
    (ofText (p ++ q)).positionToOffset? ((ofText (p ++ q)).exactPosition (Text.units p))
      = some (Text.units p) := by
  obtain ⟨ls, b, rfl, hls, hb⟩ := Text.exists_eq_ended_append p
  have hcolumn : Text.units b ≤ Text.units (Text.splitLines (b ++ q)).1 := by
    rw [Text.splitLines_append_of_not_mem hb, Text.units_append]
    exact Nat.le_add_right _ _
  have hcontent : ∃ s, Text.firstContent (b ++ q) = b ++ s :=
    Text.exists_firstContent_eq_append hb fun hreturn => hbreak ⟨by simp [hreturn], hreturn.2⟩
  obtain ⟨s, hs⟩ := hcontent
  rw [List.append_assoc, Text.units_append, positionToOffset?_exactPosition_ended_add hls hcolumn, hs,
    Text.takeUnits_append]

end LineIndex

end Unescape
