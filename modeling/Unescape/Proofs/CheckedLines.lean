import Unescape.Proofs.CheckedText

set_option autoImplicit false

/-! # Lines, found in one pass

The lines of a text are found in a single pass that counts units and bytes side by side. Of a line nothing
is kept but three numbers: the unit where it starts, the unit where its content ends, and the byte where it
starts. To find a column, the text is cut at that byte and its characters are counted from there on; only
the number of units tells the count where to stop, and nothing else keeps it in the line.

So the three numbers must belong together. Here the pass and the two conversions are spelled out as they
run, with the differences checked and the results cut to 32-bit words. `LinePass.behind` says what the pass
knows behind complete lines and the beginning of another one, in terms of these texts alone; each step
leads from there to the next (`LinePass.step_newline`, `LinePass.step_of_ne`), so the numbers of each line
are the bounds of what the line holds (`Checked.lineTable_eq`). No difference is below zero, the text is
never cut inside a character, and the conversions are those of the line index
(`Checked.offsetToPosition_eq`, `Checked.positionToOffset?_eq`). -/

namespace Unescape

/-- The place of a line, in units and in bytes. -/
structure LineBounds where
  /-- Offset of the first unit. -/
  start : Nat
  /-- Offset where the content ends. -/
  stop : Nat
  /-- Index of the first byte. -/
  byteStart : Nat
deriving DecidableEq, Repr

/-- The lines of a text by their bounds, and the length of the text in units. -/
structure LineTable where
  lines : Array LineBounds
  length : Nat
deriving DecidableEq, Repr

/-! ## The pass -/

/-- Where a pass over a text is. -/
structure LinePass where
  /-- The lines that have ended. -/
  found : Array LineBounds
  /-- Where the line that is being read starts. -/
  start : Nat
  byteStart : Nat
  /-- Units and bytes that were passed. -/
  offset : Nat
  byte : Nat
  /-- The character that was passed last. -/
  last? : Option Char
deriving DecidableEq, Repr

namespace LinePass

/-- Nothing was passed. -/
def initial : LinePass := ⟨#[], 0, 0, 0, 0, none⟩

/-- Where the content of a line ends that a line feed ends. -/
def stop (s : LinePass) : Checked Nat :=
  if s.last? = some '\r' then Checked.sub s.offset 1 else pure s.offset

/-- Pass a character. A line feed ends a line. -/
def step (s : LinePass) (c : Char) : Checked LinePass := do
  let found ← if c = '\n' then do pure (s.found.push ⟨s.start, ← s.stop, s.byteStart⟩) else pure s.found
  pure {
    found
    start := if c = '\n' then s.offset + 1 else s.start
    byteStart := if c = '\n' then s.byte + 1 else s.byteStart
    offset := s.offset + unitsOf c
    byte := s.byte + c.utf8Size
    last? := some c }

/-- The end of the text ends the last line. -/
def finish (s : LinePass) : LineTable := ⟨s.found.push ⟨s.start, s.offset, s.byteStart⟩, s.offset⟩

end LinePass

namespace Checked

/-- Find the lines of a text. -/
def lineTable (source : Text) : Checked LineTable := do
  return (← source.foldlM LinePass.step LinePass.initial).finish

/-- The position of an offset, in 32-bit words. -/
def offsetToPosition (source : Text) (offset : Nat) : Checked Position := do
  let table ← lineTable source
  let offset := min offset table.length
  let line := partitionPoint (·.start ≤ offset) table.lines - 1
  let column ← sub offset ((table.lines[line]?.map (·.start)).getD 0)
  return ⟨line % UInt32.size, column % UInt32.size⟩

/-- Count characters up to a column and no further, when `column` units were counted. -/
def columnFrom (wanted column : Nat) : Text → Nat
  | [] => column
  | c :: r => if wanted < column + unitsOf c then column else columnFrom wanted (column + unitsOf c) r

/-- The offset of a position. The text is counted from the first byte of the line on. -/
def positionToOffset? (source : Text) (p : Position) : Checked (Option Nat) := do
  let table ← lineTable source
  match table.lines[p.line]? with
  | none => return none
  | some l =>
    let wanted := min p.character (← sub l.stop l.start)
    match cutAt source l.byteStart with
    | .error _ => return none
    | .ok (_, rest) => return some (l.start + columnFrom wanted 0 rest)

end Checked

/-! ## What the pass finds -/

namespace Text

/-- The bounds of a line of a text. -/
def boundsOf (source : Text) (l : Line) : LineBounds :=
  ⟨l.start, l.start + units l.content, byteFloor source l.start⟩

/-- Rounding down to a front of a text needs no more than that front. -/
theorem takeUnits_append_min (p q : Text) (n : Nat) :
    takeUnits (p ++ q) (min n (units p)) = takeUnits p n := by
  induction p generalizing n with
  | nil =>
    rw [units_nil, Nat.min_zero]
    exact takeUnits_append [] q
  | cons c p ih =>
    rw [List.cons_append, takeUnits, takeUnits, units_cons]
    by_cases hc : unitsOf c ≤ n
    · have hrest : min n (unitsOf c + units p) - unitsOf c = min (n - unitsOf c) (units p) := by omega
      rw [if_pos (by omega), if_pos hc, hrest, ih]
    · rw [if_neg (by omega), if_neg hc]

theorem byteFloor_append (p q : Text) : byteFloor (p ++ q) (units p) = bytes p := by
  rw [byteFloor, takeUnits_append]

end Text

namespace LinePass

variable {source b : Text} {ls : List Text}

/-- What the pass over a text knows behind complete lines and the beginning of another one. -/
def behind (source : Text) (ls : List Text) (b : Text) : LinePass where
  found := ((Text.endedLines 0 ls).map (Text.boundsOf source)).toArray
  start := Text.units (Text.ended ls)
  byteStart := Text.bytes (Text.ended ls)
  offset := Text.units (Text.ended ls ++ b)
  byte := Text.bytes (Text.ended ls ++ b)
  last? := (Text.ended ls ++ b).getLast?

/-- The content of a line ends in front of the line break. -/
theorem stop_behind (source : Text) (ls : List Text) (b : Text) :
    (behind source ls b).stop = pure (Text.units (Text.ended ls) + Text.units (Text.trimReturn b)) := by
  have hlast : (Text.ended ls ++ b).getLast? = some '\r' ↔ b.getLast? = some '\r' := by
    rcases List.eq_nil_or_concat b with rfl | ⟨b, c, rfl⟩
    · rw [List.append_nil]
      rcases Text.ended_eq_nil_or ls with heq | heq <;> simp [heq]
    · rw [List.concat_eq_append, ← List.append_assoc, List.getLast?_concat, List.getLast?_concat]
  unfold stop behind Text.trimReturn
  dsimp only
  by_cases hreturn : b.getLast? = some '\r'
  · obtain ⟨b, rfl⟩ := List.getLast?_eq_some_iff.1 hreturn
    have hunits : Text.units (Text.ended ls ++ (b ++ ['\r']))
        = Text.units (Text.ended ls) + Text.units b + 1 := by
      rw [Text.units_append, Text.units_append, Nat.add_assoc]
      rfl
    rw [if_pos (hlast.2 hreturn), if_pos hreturn, List.dropLast_concat, hunits,
      Checked.sub_eq (Nat.le_add_left 1 _), Nat.add_sub_cancel]
  · rw [if_neg (mt hlast.1 hreturn), if_neg hreturn, Text.units_append]

/-- A character that is no line feed goes to the line that is being read. -/
theorem step_of_ne {c : Char} (hc : c ≠ '\n') :
    step (behind source ls b) c = pure (behind source ls (b ++ [c])) := by
  simp [step, hc, behind, ← List.append_assoc, Text.bytes_append, Text.bytes]

/-- A line feed completes the line. -/
theorem step_newline {t : Text} (hsource : source = Text.ended ls ++ (b ++ '\n' :: t)) :
    step (behind source ls b) '\n' = pure (behind source (ls ++ [b]) []) := by
  have hbyte : Text.byteFloor source (Text.units (Text.ended ls)) = Text.bytes (Text.ended ls) := by
    rw [hsource, Text.byteFloor_append]
  have hended : Text.ended (ls ++ [b]) = (Text.ended ls ++ b) ++ ['\n'] := by
    rw [Text.ended_append, Text.ended_cons, Text.ended_nil, List.append_assoc]
  have hsize : '\n'.utf8Size = 1 := rfl
  rw [step, stop_behind]
  simp [behind, hended, hbyte, hsize, Text.endedLines_concat, Text.boundsOf, Text.bytes_append, Text.bytes,
    Text.units_newline, Nat.add_assoc]

/-- From the beginning of a line the pass gets to the end of the text. -/
theorem foldlM_step {t : Text} (hls : ∀ l ∈ ls, '\n' ∉ l) (hb : '\n' ∉ b)
    (hsource : source = Text.ended ls ++ (b ++ t)) :
    ∃ ls' b', source = Text.ended ls' ++ b' ∧ (∀ l ∈ ls', '\n' ∉ l) ∧ '\n' ∉ b' ∧
      t.foldlM step (behind source ls b) = pure (behind source ls' b') := by
  induction t generalizing ls b with
  | nil => exact ⟨ls, b, by rw [hsource, List.append_nil], hls, hb, rfl⟩
  | cons c t ih =>
    rw [List.foldlM_cons]
    by_cases hc : c = '\n'
    · subst hc
      have hls' : ∀ l ∈ ls ++ [b], '\n' ∉ l := by
        intro l hl
        rcases List.mem_append.1 hl with hl | hl
        · exact hls l hl
        · rwa [List.mem_singleton.1 hl]
      have hsource' : source = Text.ended (ls ++ [b]) ++ ([] ++ t) := by
        rw [hsource, Text.ended_append, Text.ended_cons, Text.ended_nil]
        simp
      rw [step_newline hsource, pure_bind]
      exact ih hls' List.not_mem_nil hsource'
    · have hb' : '\n' ∉ b ++ [c] := by
        intro hmem
        rcases List.mem_append.1 hmem with hmem | hmem
        · exact hb hmem
        · exact hc (List.mem_singleton.1 hmem).symm
      rw [step_of_ne hc, pure_bind]
      exact ih hls hb' (by rw [hsource, List.append_assoc, List.singleton_append])

end LinePass

namespace Checked

variable (source : Text)

/-- The pass finds the lines of the text, each with its bounds. -/
theorem lineTable_eq :
    lineTable source
      = pure ⟨(Text.lines source).toArray.map (Text.boundsOf source), Text.units source⟩ := by
  have hinitial : LinePass.behind source [] [] = LinePass.initial := rfl
  have hnil : source = Text.ended [] ++ ([] ++ source) := rfl
  obtain ⟨ls, b, hsource, hls, hb, hpass⟩ :=
    LinePass.foldlM_step (fun _ hl => absurd hl List.not_mem_nil) List.not_mem_nil hnil
  have hlast : Text.boundsOf source ⟨Text.units (Text.ended ls), b⟩
      = ⟨Text.units (Text.ended ls), Text.units (Text.ended ls ++ b), Text.bytes (Text.ended ls)⟩ := by
    rw [Text.boundsOf, Text.units_append, hsource, Text.byteFloor_append]
  have hlines : Text.lines source = Text.endedLines 0 ls ++ [⟨Text.units (Text.ended ls), b⟩] := by
    rw [hsource, Text.lines_ended_append hls hb]
  have hlength : Text.units source = Text.units (Text.ended ls ++ b) := by rw [← hsource]
  rw [lineTable, ← hinitial, hpass, pure_bind, LinePass.finish, hlines, hlength]
  simp [LinePass.behind, hlast]

/-! ## The conversions -/

/-- Every line starts at or in front of the offsets in it, so the column is no difference below zero. -/
theorem offsetToPosition_eq (offset : Nat) :
    offsetToPosition source offset = pure ((LineIndex.ofText source).offsetToPosition offset) := by
  obtain ⟨l, hl, hstart⟩ := LineIndex.exists_line_of_offset (Nat.min_le_right offset (Text.units source))
  rw [LineIndex.exactPosition_min] at hl hstart
  have hfound : (((Text.lines source).toArray.map (Text.boundsOf source))[
      ((LineIndex.ofText source).exactPosition offset).line]?.map (·.start)).getD 0 = l.start := by
    simp [hl, Text.boundsOf]
  have hsub : sub (min offset (Text.units source)) l.start
      = pure ((LineIndex.ofText source).exactPosition offset).character := by
    rw [sub_eq (by omega), ← hstart, Nat.add_sub_cancel_left]
  have hpartition : partitionPoint (·.start ≤ min offset (Text.units source))
        ((Text.lines source).toArray.map (Text.boundsOf source)) - 1
      = ((LineIndex.ofText source).exactPosition offset).line := by
    rw [partitionPoint_map]
    rfl
  rw [offsetToPosition, lineTable_eq, pure_bind]
  dsimp only
  rw [hpartition, hfound, hsub, pure_bind]
  rfl

/-- Counting characters up to a column takes those that fit. -/
theorem columnFrom_eq {wanted column : Nat} (h : column ≤ wanted) (t : Text) :
    columnFrom wanted column t = column + Text.units (Text.takeUnits t (wanted - column)) := by
  induction t generalizing column with
  | nil => rfl
  | cons c t ih =>
    rw [columnFrom, Text.takeUnits]
    by_cases hc : wanted < column + unitsOf c
    · rw [if_pos hc, if_neg (by omega), Text.units_nil, Nat.add_zero]
    · rw [if_neg hc, if_pos (by omega), ih (by omega), Text.units_cons, Nat.sub_sub, Nat.add_assoc]

/-- The count stays in the line: the content of a line is cut out of the text at the first byte of the
    line, and the count stops at its end. -/
theorem positionToOffset?_eq (p : Position) :
    positionToOffset? source p = pure ((LineIndex.ofText source).positionToOffset? p) := by
  rw [positionToOffset?, lineTable_eq, pure_bind, LineIndex.positionToOffset?]
  dsimp only [LineIndex.ofText]
  rw [Array.getElem?_map]
  cases hline : (Text.lines source).toArray[p.line]? with
  | none => rfl
  | some l =>
    have hlines : (Text.lines source)[p.line]? = some l := by simpa using hline
    obtain ⟨ls, r, hsource, -, -, rfl⟩ := Text.exists_of_getElem?_lines hlines
    obtain ⟨-, back, hr, -⟩ := Text.exists_firstContent_append r
    have hcut : cutAt source (Text.byteFloor source (Text.units (Text.ended ls)))
        = pure (Text.ended ls, r) := by
      rw [hsource, Text.byteFloor_append, cutAt_append]
    have htake : Text.takeUnits r (min p.character (Text.units (Text.firstContent r)))
        = Text.takeUnits (Text.firstContent r) p.character := by
      have hmin := Text.takeUnits_append_min (Text.firstContent r) back p.character
      rwa [← hr] at hmin
    rw [Option.map_some, Option.map_some]
    dsimp only [Text.boundsOf]
    rw [sub_eq (Nat.le_add_right _ _), pure_bind, hcut, Nat.add_sub_cancel_left]
    show pure (some (_ + columnFrom _ 0 r)) = _
    rw [columnFrom_eq (Nat.zero_le _), Nat.zero_add, Nat.sub_zero, htake]

/-- A line that ends in a carriage return and a line feed, and a column behind its content. -/
example : positionToOffset? "é😀\r\nb".toList ⟨0, 9⟩ = pure (some 3) := rfl

end Checked

end Unescape
