import Unescape.Proofs.LineBreaks

set_option autoImplicit false

/-! # How positions round

Not every offset has a position of its own that leads back to it, and not every position is the one
of an offset. An offset inside a character or inside a line break leads back to the one before it; a
position behind the content of its line, or inside a character, to the last position in front of it
that belongs to an offset. Everywhere else the two conversions are inverse to each other
(`offsets_and_positions_round`).

Both directions are read off the same description of a text: complete lines, then the line in
question and what follows it. `HasLine` says what a line is without reference to how lines are
found. -/

namespace Unescape

namespace Text

/-! ## Offsets inside a character -/

/-- The offset is between the halves of a character of two units. -/
def IsInsideChar (t : Text) (offset : Nat) : Prop :=
  ∃ v c w, t = v ++ c :: w ∧ units v < offset ∧ offset < units v + unitsOf c

theorem takeUnits_append_cons {p : Text} {c : Char} {n : Nat} (hle : units p ≤ n)
    (hlt : n < units p + unitsOf c) (q : Text) : takeUnits (p ++ c :: q) n = p := by
  induction p generalizing n with
  | nil =>
    have hc : ¬ unitsOf c ≤ n := by
      rw [units_nil, Nat.zero_add] at hlt
      exact Nat.not_le_of_lt hlt
    rw [List.nil_append, takeUnits, if_neg hc]
  | cons d p ih =>
    rw [units_cons] at hle hlt
    rw [List.cons_append, takeUnits, if_pos (by omega), ih (by omega) (by omega)]

theorem takeUnits_of_units_le {t : Text} {n : Nat} (h : units t ≤ n) : takeUnits t n = t := by
  induction t generalizing n with
  | nil => rfl
  | cons c t ih =>
    rw [units_cons] at h
    rw [takeUnits, if_pos (by omega), ih (by omega)]

/-- What does not fit behind the characters that were taken. -/
theorem lt_units_takeUnits_add {t w : Text} {c : Char} {n : Nat} (h : dropUnits t n = c :: w) :
    n < units (takeUnits t n) + unitsOf c := by
  induction t generalizing n with
  | nil => simp [dropUnits] at h
  | cons d t ih =>
    by_cases hd : unitsOf d ≤ n
    · rw [dropUnits, if_pos hd] at h
      have hrest := ih h
      rw [takeUnits, if_pos hd, units_cons]
      omega
    · rw [dropUnits, if_neg hd] at h
      obtain ⟨rfl, -⟩ := List.cons.inj h
      rw [takeUnits, if_neg hd, units_nil]
      omega

/-- Where a text is cut, no character is. -/
theorem not_isInsideChar_append (p q : Text) : ¬ IsInsideChar (p ++ q) (units p) := by
  rintro ⟨v, c, w, heq, hlt, hgt⟩
  rcases List.append_eq_append_iff.1 heq with ⟨a, rfl, -⟩ | ⟨a, rfl, ha⟩
  · rw [units_append] at hlt
    omega
  · cases a with
    | nil =>
      rw [List.append_nil] at hlt
      exact Nat.lt_irrefl _ hlt
    | cons d a =>
      obtain ⟨rfl, -⟩ := List.cons.inj ha
      rw [units_append, units_cons] at hgt
      omega

/-- Rounding down changes nothing at the offsets of a text that are not inside a character. -/
theorem units_takeUnits_eq_iff {t : Text} {n : Nat} :
    units (takeUnits t n) = n ↔ n ≤ units t ∧ ¬ IsInsideChar t n := by
  have ht := takeUnits_append_dropUnits t n
  constructor
  · intro h
    have hcut := not_isInsideChar_append (takeUnits t n) (dropUnits t n)
    rw [ht, h] at hcut
    refine ⟨?_, hcut⟩
    rw [← h, ← ht, units_append, ht]
    exact Nat.le_add_right _ _
  · rintro ⟨hle, hinside⟩
    have hfloor := units_takeUnits_le t n
    cases hdrop : dropUnits t n with
    | nil =>
      rw [hdrop, List.append_nil] at ht
      rw [ht] at hfloor ⊢
      exact Nat.le_antisymm hfloor hle
    | cons c w =>
      rw [hdrop] at ht
      rcases Nat.lt_or_eq_of_le hfloor with hlt | heq
      · exact absurd ⟨_, c, w, ht.symm, hlt, lt_units_takeUnits_add hdrop⟩ hinside
      · exact heq

theorem units_takeUnits_le_units (t : Text) (n : Nat) : units (takeUnits t n) ≤ units t := by
  have ht := congrArg units (takeUnits_append_dropUnits t n)
  rw [units_append] at ht
  omega

/-! ## Offsets inside a line break -/

/-- The offset is between a carriage return and the line feed behind it. -/
def IsInsideBreak (t : Text) (offset : Nat) : Prop :=
  ∃ v w, t = v ++ '\r' :: '\n' :: w ∧ offset = units v + 1

/-- A cut inside a line break has the carriage return in front of it and the line feed behind it. -/
theorem isInsideBreak_append_of_getLast? {p q : Text} (hreturn : p.getLast? = some '\r')
    (hfeed : q.head? = some '\n') : IsInsideBreak (p ++ q) (units p) := by
  obtain ⟨v, rfl⟩ := List.getLast?_eq_some_iff.1 hreturn
  obtain ⟨w, rfl⟩ := List.head?_eq_some_iff.1 hfeed
  refine ⟨v, w, by simp, ?_⟩
  rw [units_append, units_cons, units_nil]
  rfl

/-! ## The lines of a text -/

/-- A line of a text: `content` begins at `start`, which is the start of the text or behind the last
    of `index` line feeds, and it has no line feed. It reaches to the end of the text or to a line
    break, a line feed or a carriage return and a line feed. -/
structure HasLine (t : Text) (index start : Nat) (content : Text) : Prop where
  no_feed : '\n' ∉ content
  exists_eq : ∃ front back, t = front ++ content ++ back ∧ units front = start ∧
    front.count '\n' = index ∧ (front = [] ∨ front.getLast? = some '\n') ∧
    (back = [] ∨ (content.getLast? ≠ some '\r' ∧ ∃ r, back = '\n' :: r) ∨
      ∃ r, back = '\r' :: '\n' :: r)

theorem ended_append (ls ls' : List Text) : ended (ls ++ ls') = ended ls ++ ended ls' :=
  List.flatMap_append

theorem count_ended {ls : List Text} (hls : ∀ l ∈ ls, '\n' ∉ l) :
    (ended ls).count '\n' = ls.length := by
  induction ls with
  | nil => rfl
  | cons l ls ih =>
    obtain ⟨hl, hls⟩ := List.forall_mem_cons.1 hls
    rw [ended_cons, List.count_append, List.count_cons_self, List.count_eq_zero_of_not_mem hl, ih hls,
      Nat.zero_add, List.length_cons]

theorem ended_eq_nil_or (ls : List Text) : ended ls = [] ∨ (ended ls).getLast? = some '\n' := by
  rcases List.eq_nil_or_concat ls with rfl | ⟨ls, l, rfl⟩
  · exact .inl rfl
  · right
    rw [List.concat_eq_append, ended_append, ended_cons, ended_nil, ← List.append_assoc]
    exact List.getLast?_concat

/-- The first line of a text, and how it ends. -/
theorem exists_firstContent_append (t : Text) :
    '\n' ∉ firstContent t ∧ ∃ back, t = firstContent t ++ back ∧
      (back = [] ∨ ((firstContent t).getLast? ≠ some '\r' ∧ ∃ r, back = '\n' :: r) ∨
        ∃ r, back = '\r' :: '\n' :: r) := by
  by_cases hmem : '\n' ∈ t
  · obtain ⟨l, r, rfl, hl⟩ := List.eq_append_cons_of_mem hmem
    rw [firstContent_line hl, trimReturn]
    split
    · rename_i hreturn
      obtain ⟨content, rfl⟩ := List.getLast?_eq_some_iff.1 hreturn
      rw [List.dropLast_concat]
      exact ⟨fun h => hl (List.mem_append_left _ h), '\r' :: '\n' :: r, by simp, .inr (.inr ⟨r, rfl⟩)⟩
    · rename_i hreturn
      exact ⟨hl, '\n' :: r, rfl, .inr (.inl ⟨hreturn, r, rfl⟩)⟩
  · rw [firstContent_of_not_mem hmem]
    exact ⟨hmem, [], (List.append_nil t).symm, .inl rfl⟩

theorem units_firstContent_le (t : Text) : units (firstContent t) ≤ units (splitLines t).1 := by
  unfold firstContent
  split
  · unfold trimReturn
    split
    · rename_i hreturn
      obtain ⟨content, hcontent⟩ := List.getLast?_eq_some_iff.1 hreturn
      rw [hcontent, List.dropLast_concat, units_append]
      exact Nat.le_add_right _ _
    · exact Nat.le_refl _
  · rename_i hmem
    have hsplit := splitLines_append_of_not_mem hmem []
    rw [List.append_nil] at hsplit
    rw [hsplit]
    exact Nat.le_of_eq (by simp [splitLines])

/-- The line behind complete lines. -/
theorem hasLine_ended_append {ls : List Text} (hls : ∀ l ∈ ls, '\n' ∉ l) (t : Text) :
    HasLine (ended ls ++ t) ls.length (units (ended ls)) (firstContent t) := by
  obtain ⟨hfeed, back, ht, hback⟩ := exists_firstContent_append t
  refine ⟨hfeed, ended ls, back, ?_, rfl, count_ended hls, ended_eq_nil_or ls, hback⟩
  rw [List.append_assoc, ← ht]

/-- A line of a text stands behind as many complete lines as its index says. -/
theorem exists_of_getElem?_lines {t : Text} {k : Nat} {l : Line} (h : (lines t)[k]? = some l) :
    ∃ ls r, t = ended ls ++ r ∧ (∀ l ∈ ls, '\n' ∉ l) ∧ ls.length = k ∧
      l = ⟨units (ended ls), firstContent r⟩ := by
  obtain ⟨ls, b, rfl, hls, hb⟩ := exists_eq_ended_append t
  have hk : k ≤ ls.length := by
    have hlt := (List.getElem?_eq_some_iff.1 h).1
    rw [lines_ended_append hls hb, List.length_append, length_endedLines] at hlt
    exact Nat.le_of_lt_succ hlt
  have hsplit : ended ls ++ b = ended (ls.take k) ++ (ended (ls.drop k) ++ b) := by
    rw [← List.append_assoc, ← ended_append, List.take_append_drop]
  have hls' : ∀ l ∈ ls.take k, '\n' ∉ l := fun l hl => hls l (List.mem_of_mem_take hl)
  have hlength : (ls.take k).length = k := List.length_take_of_le hk
  have hline := getElem?_lines_ended_append hls' (ended (ls.drop k) ++ b)
  rw [hlength, ← hsplit, h] at hline
  exact ⟨_, _, hsplit, hls', hlength, Option.some.inj hline⟩

end Text

namespace LineIndex

variable {source : Text}

/-! ## From an offset and back -/

/-- Line and column of an offset inside a character lead back to the start of the character. -/
theorem positionToOffset?_of_isInsideChar {offset : Nat} (h : source.IsInsideChar offset) :
    (ofText source).positionToOffset? ((ofText source).exactPosition offset)
      = some (offset - 1) := by
  obtain ⟨v, c, w, rfl, hlt, hgt⟩ := h
  obtain ⟨ls, b, rfl, hls, hb⟩ := Text.exists_eq_ended_append v
  have hunits : unitsOf c = 2 := by
    rcases unitsOf_eq_one_or_two c with hone | htwo
    · omega
    · exact htwo
  have hoffset : offset = Text.units (Text.ended ls) + (Text.units b + 1) := by
    rw [Text.units_append] at hlt hgt
    omega
  -- A line feed has one unit, so the character is one of the line.
  have hbc : '\n' ∉ b ++ [c] := by
    intro hmem
    rcases List.mem_append.1 hmem with hmem | hmem
    · exact hb hmem
    · obtain rfl := List.mem_singleton.1 hmem
      exact absurd hunits (by decide)
  have hcut : b ++ c :: w = (b ++ [c]) ++ w := by simp
  have hcolumn : Text.units b + 1 ≤ Text.units (Text.splitLines (b ++ c :: w)).1 := by
    rw [hcut, Text.splitLines_append_of_not_mem hbc]
    simp only [Text.units_append, Text.units_cons, hunits]
    omega
  obtain ⟨s, hs⟩ : ∃ s, Text.firstContent (b ++ c :: w) = b ++ c :: s := by
    have hbreak : ¬ ((b ++ [c]).getLast? = some '\r' ∧ w.head? = some '\n') := by
      rintro ⟨hreturn, -⟩
      rw [List.getLast?_concat] at hreturn
      obtain rfl := Option.some.inj hreturn
      exact absurd hunits (by decide)
    obtain ⟨s, hs⟩ := Text.exists_firstContent_eq_append hbc hbreak
    exact ⟨s, by rw [hcut, hs]; simp⟩
  have htake : Text.takeUnits (b ++ c :: s) (Text.units b + 1) = b :=
    Text.takeUnits_append_cons (Nat.le_succ _) (by omega) s
  rw [hoffset, List.append_assoc, positionToOffset?_exactPosition_ended_add hls hcolumn, hs, htake]
  rfl

/-- Line and column of an offset inside a line break lead back to the start of the break. -/
theorem positionToOffset?_of_isInsideBreak {offset : Nat} (h : source.IsInsideBreak offset) :
    (ofText source).positionToOffset? ((ofText source).exactPosition offset)
      = some (offset - 1) := by
  obtain ⟨v, w, rfl, rfl⟩ := h
  obtain ⟨ls, b, rfl, hls, hb⟩ := Text.exists_eq_ended_append v
  have hline : '\n' ∉ b ++ ['\r'] := by
    intro hmem
    rcases List.mem_append.1 hmem with hmem | hmem
    · exact hb hmem
    · exact absurd (List.mem_singleton.1 hmem) (by decide)
  have hcut : b ++ '\r' :: '\n' :: w = (b ++ ['\r']) ++ '\n' :: w := by simp
  have hcolumn : Text.units b + 1 ≤ Text.units (Text.splitLines (b ++ '\r' :: '\n' :: w)).1 := by
    rw [hcut, Text.splitLines_line hline, Text.units_append]
    exact Nat.le_refl _
  have hcontent : Text.firstContent (b ++ '\r' :: '\n' :: w) = b := by
    rw [hcut, Text.firstContent_line hline, Text.trimReturn_concat]
  rw [List.append_assoc, Text.units_append, Nat.add_assoc,
    positionToOffset?_exactPosition_ended_add hls hcolumn, hcontent,
    Text.takeUnits_of_units_le (Nat.le_succ _)]
  rfl

/-- Line and column of any other offset lead back to it. -/
theorem positionToOffset?_of_not_isInside {offset : Nat} (hle : offset ≤ Text.units source)
    (hchar : ¬ source.IsInsideChar offset) (hbreak : ¬ source.IsInsideBreak offset) :
    (ofText source).positionToOffset? ((ofText source).exactPosition offset) = some offset := by
  have hcut := Text.takeUnits_append_dropUnits source offset
  have hunits := Text.units_takeUnits_eq_iff.2 ⟨hle, hchar⟩
  generalize Text.takeUnits source offset = p at hcut hunits
  generalize Text.dropUnits source offset = q at hcut
  subst hcut hunits
  refine positionToOffset?_exactPosition ?_
  rintro ⟨hreturn, hfeed⟩
  exact hbreak (Text.isInsideBreak_append_of_getLast? hreturn hfeed)

/-! ## From a position and back -/

/-- A position that has an offset is in a line of the text. The position of its offset is in the
    same line, and its column is the one that is asked for, rounded down to the content of the
    line. -/
theorem exists_line_of_positionToOffset? {p : Position} {offset : Nat}
    (h : (ofText source).positionToOffset? p = some offset) :
    ∃ l, (ofText source).lines[p.line]? = some l ∧ source.HasLine p.line l.start l.content ∧
      offset ≤ Text.units source ∧
      (ofText source).exactPosition offset
        = ⟨p.line, Text.units (Text.takeUnits l.content p.character)⟩ := by
  obtain ⟨l, hl, rfl⟩ := Option.map_eq_some_iff.1 h
  have hline : (Text.lines source)[p.line]? = some l := by simpa [ofText] using hl
  obtain ⟨ls, r, rfl, hls, hlength, rfl⟩ := Text.exists_of_getElem?_lines hline
  have hcolumn : Text.units (Text.takeUnits (Text.firstContent r) p.character)
      ≤ Text.units (Text.splitLines r).1 :=
    Nat.le_trans (Text.units_takeUnits_le_units _ _) (Text.units_firstContent_le r)
  refine ⟨_, hl, hlength ▸ Text.hasLine_ended_append hls r, ?_, ?_⟩
  · have hfirst := Text.units_splitLines_le r
    rw [Text.units_append]
    exact Nat.add_le_add_left (Nat.le_trans hcolumn hfirst) _
  · rw [exactPosition_ended_add hls hcolumn, hlength]

/-- Positions and offsets are inverse up to rounding. An offset of the text leads back to itself, or
    to the one before it if it is inside a character or a line break. The position that an offset
    found for a position has is in the same line and no further on, and it is the same one exactly
    if the column is not behind the content of the line and not inside a character. -/
theorem offsets_and_positions_round (source : Text) (hsize : Text.units source < UInt32.size) :
    (∀ offset, offset ≤ Text.units source →
      (ofText source).offsetToPosition offset = (ofText source).exactPosition offset ∧
      ((ofText source).offsetToPosition offset).Fits ∧
      ((source.IsInsideChar offset ∨ source.IsInsideBreak offset) →
        (ofText source).positionToOffset? ((ofText source).offsetToPosition offset)
          = some (offset - 1)) ∧
      (¬ (source.IsInsideChar offset ∨ source.IsInsideBreak offset) →
        (ofText source).positionToOffset? ((ofText source).offsetToPosition offset)
          = some offset)) ∧
    ∀ p offset, (ofText source).positionToOffset? p = some offset →
      offset ≤ Text.units source ∧
      (ofText source).offsetToPosition offset ≤ p ∧
      ((ofText source).offsetToPosition offset).line = p.line ∧
      ∃ l, (ofText source).lines[p.line]? = some l ∧ source.HasLine p.line l.start l.content ∧
        ((ofText source).offsetToPosition offset = p ↔
          p.character ≤ Text.units l.content ∧ ¬ l.content.IsInsideChar p.character) := by
  constructor
  · intro offset hle
    rw [offsetToPosition_eq_exactPosition hsize]
    refine ⟨rfl, fits_exactPosition hsize hle, ?_, ?_⟩
    · rintro (hchar | hbreak)
      · exact positionToOffset?_of_isInsideChar hchar
      · exact positionToOffset?_of_isInsideBreak hbreak
    · intro hinside
      exact positionToOffset?_of_not_isInside hle (fun hchar => hinside (.inl hchar))
        fun hbreak => hinside (.inr hbreak)
  · rintro ⟨line, character⟩ offset hoffset
    obtain ⟨l, hl, hline, hle, hposition⟩ := exists_line_of_positionToOffset? hoffset
    rw [offsetToPosition_eq_exactPosition hsize, hposition]
    refine ⟨hle, Position.le_iff.2 (.inr ⟨rfl, Text.units_takeUnits_le _ _⟩), rfl, l, hl, hline, ?_⟩
    rw [← Text.units_takeUnits_eq_iff]
    constructor
    · intro heq
      exact congrArg Position.character heq
    · intro heq
      dsimp only at heq
      rw [heq]

/-- A character of two units in front of a line break of two characters: an offset inside each of
    them, and a column behind the content of the line. -/
theorem offsets_and_positions_round_two_breaks :
    Text.units "a😀\r\n\rb".toList < UInt32.size ∧
    (Text.IsInsideChar "a😀\r\n\rb".toList 2 ∧
      (ofText "a😀\r\n\rb".toList).positionToOffset?
        ((ofText "a😀\r\n\rb".toList).offsetToPosition 2) = some 1) ∧
    (Text.IsInsideBreak "a😀\r\n\rb".toList 4 ∧
      (ofText "a😀\r\n\rb".toList).positionToOffset?
        ((ofText "a😀\r\n\rb".toList).offsetToPosition 4) = some 3) ∧
    (ofText "a😀\r\n\rb".toList).positionToOffset? ⟨0, 9⟩ = some 3 ∧
    (ofText "a😀\r\n\rb".toList).offsetToPosition 3 ≤ ⟨0, 9⟩ ∧
    ∃ l, (ofText "a😀\r\n\rb".toList).lines[0]? = some l ∧
      Text.HasLine "a😀\r\n\rb".toList 0 l.start l.content ∧
      ((ofText "a😀\r\n\rb".toList).offsetToPosition 3 = ⟨0, 9⟩ ↔
        9 ≤ Text.units l.content ∧ ¬ l.content.IsInsideChar 9) := by
  have hsize : Text.units "a😀\r\n\rb".toList < UInt32.size := by decide
  have hchar : Text.IsInsideChar "a😀\r\n\rb".toList 2 :=
    ⟨"a".toList, '😀', "\r\n\rb".toList, by decide, by decide, by decide⟩
  have hbreak : Text.IsInsideBreak "a😀\r\n\rb".toList 4 :=
    ⟨"a😀".toList, "\rb".toList, by decide, by decide⟩
  have hoffset : (ofText "a😀\r\n\rb".toList).positionToOffset? ⟨0, 9⟩ = some 3 := by decide
  obtain ⟨hoffsets, hpositions⟩ := offsets_and_positions_round _ hsize
  obtain ⟨-, hle, -, hline⟩ := hpositions _ _ hoffset
  exact ⟨hsize, ⟨hchar, (hoffsets 2 (by decide)).2.2.1 (.inl hchar)⟩,
    ⟨hbreak, (hoffsets 4 (by decide)).2.2.1 (.inr hbreak)⟩, hoffset, hle, hline⟩

end LineIndex

end Unescape
