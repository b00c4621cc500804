import Unescape.Proofs.TableLookup
import Unescape.Text.LineIndex

set_option autoImplicit false

/-! # Lines and columns keep the order of offsets

Lines start at ascending offsets, so the line of an offset is the number of lines that start at or
before it, less one, and lines and columns are in the order of the offsets
(`exactPosition_le_exactPosition`). -/

namespace Unescape

/-- Positions in order of reading: by line, and within a line by column. -/
instance : LE Position :=
  ⟨fun p q => p.line < q.line ∨ (p.line = q.line ∧ p.character ≤ q.character)⟩

theorem Position.le_iff {p q : Position} :
    p ≤ q ↔ p.line < q.line ∨ (p.line = q.line ∧ p.character ≤ q.character) := Iff.rfl

/-- The span does not end before it starts. -/
def Span.IsForward (s : Span) : Prop := s.start ≤ s.stop

/-- The range does not end before it starts. -/
def PositionRange.IsForward (r : PositionRange) : Prop := r.start ≤ r.stop

namespace Text

theorem le_start_of_mem_placeLines {start : Nat} {line : Text} {more : List Text} {l : Line}
    (h : l ∈ placeLines start line more) : start ≤ l.start := by
  induction more generalizing start line with
  | nil =>
    obtain rfl := List.mem_singleton.1 h
    exact Nat.le_refl _
  | cons next more ih =>
    rcases List.mem_cons.1 h with rfl | h
    · exact Nat.le_refl _
    · have := ih h
      omega

theorem pairwise_placeLines (start : Nat) (line : Text) (more : List Text) :
    (placeLines start line more).Pairwise (fun l l' => l.start ≤ l'.start) := by
  induction more generalizing start line with
  | nil => exact List.pairwise_singleton ..
  | cons next more ih =>
    refine List.pairwise_cons.2 ⟨fun l hl => ?_, ih _ next⟩
    have := le_start_of_mem_placeLines hl
    dsimp only
    omega

theorem pairwise_lines (t : Text) : (lines t).Pairwise (fun l l' => l.start ≤ l'.start) :=
  pairwise_placeLines 0 _ _

end Text

namespace LineIndex

variable (source : Text)

/-- The lines that start at or before an offset are the first ones. -/
theorem partitionPoint_lines_eq_countP (offset : Nat) :
    partitionPoint (fun l : Line => decide (l.start ≤ offset)) (ofText source).lines
      = (Text.lines source).countP (fun l => decide (l.start ≤ offset)) := by
  refine partitionPoint_eq_countP fun i j hij hj h => ?_
  rcases Nat.eq_or_lt_of_le hij with rfl | hlt
  · exact h
  · have hle := List.pairwise_iff_getElem.1 (Text.pairwise_lines source) i j
      (by simp at hj; omega) (by simpa using hj) hlt
    simp only [List.getElem_toArray, decide_eq_true_eq] at h ⊢
    omega

/-- An offset that is no further than another one has a line and column that are no further. -/
theorem exactPosition_le_exactPosition {a b : Nat} (hab : a ≤ b) :
    (ofText source).exactPosition a ≤ (ofText source).exactPosition b := by
  unfold exactPosition
  dsimp only
  rw [partitionPoint_lines_eq_countP, partitionPoint_lines_eq_countP]
  have hmin : min a (ofText source).length ≤ min b (ofText source).length := by omega
  have hcount : (Text.lines source).countP (fun l => decide (l.start ≤ min a (ofText source).length))
      ≤ (Text.lines source).countP (fun l => decide (l.start ≤ min b (ofText source).length)) := by
    refine List.countP_mono_left fun l _ h => ?_
    simp only [decide_eq_true_eq] at h ⊢
    omega
  rw [Position.le_iff]
  dsimp only
  rcases Nat.lt_or_eq_of_le (Nat.sub_le_sub_right hcount 1) with hlt | heq
  · exact .inl hlt
  · rw [heq]
    exact .inr ⟨rfl, Nat.sub_le_sub_right hmin _⟩

end LineIndex

end Unescape
