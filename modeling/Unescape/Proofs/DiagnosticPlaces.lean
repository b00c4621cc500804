import Mathlib.Data.List.Forall2
import Unescape.Diagnostic
import Unescape.Proofs.FragmentPlaces
import Unescape.Proofs.LineBreaks

set_option autoImplicit false

/-! # Diagnostics point at the malformed escape

A fragment has a diagnostic exactly if its decode was stopped, so the diagnostics of a document belong,
in their order, to the fragments that are not complete (`Document.forall₂_diagnostics`).

The range of a diagnostic starts at the position of the backslash of the malformed escape. A backslash is
no half of a line break, so the position leads back to its offset, and from the start of the fragment up
to there the document decodes completely (`Fragment.Placed.diagnosedAt`). -/

namespace Unescape

/-- The diagnostic stands at the malformed escape of the fragment: its range is not empty, fits into
    what editors send, and has the lines and columns of the escape; where the range starts, in the span of the fragment, the text has a backslash; and
    from the start of the span up to there it decodes, on its own and completely, to the decoded text
    of the fragment. -/
structure Fragment.DiagnosedAt (source : Text) (f : Fragment) (diag : Diagnostic) : Prop where
  start_lt_stop : diag.range.start < diag.range.stop
  fits : diag.range.start.Fits ∧ diag.range.stop.Fits
  exact_range : ∃ s, f.malformedSpan? = some s ∧
    diag.range.start = (LineIndex.ofText source).exactPosition s.start ∧
    diag.range.stop = (LineIndex.ofText source).exactPosition s.stop
  exists_offset : ∃ offset,
    (LineIndex.ofText source).positionToOffset? diag.range.start = some offset ∧
    f.hostSpan.start ≤ offset ∧ offset < f.hostSpan.stop ∧
    (∃ p q, source = p ++ backslash :: q ∧ Text.units p = offset) ∧
    ∃ front, Text.slice? source ⟨f.hostSpan.start, offset⟩ = some front ∧
      decode f.mapper.grammar front (Output.plain #[]) = (⟨f.decoded.toArray, none⟩, .complete)

namespace Fragment

variable {source : Text} {f : Fragment}

theorem diagnostic?_of_isComplete (h : f.isComplete = true) (ix : LineIndex) :
    f.diagnostic? ix = none := by
  unfold isComplete at h
  unfold diagnostic?
  cases hstatus : f.status with
  | complete => rfl
  | stopped e => simp [hstatus, Status.isComplete] at h

theorem exists_stopped_of_isComplete (h : f.isComplete = false) : ∃ e, f.status = .stopped e := by
  unfold isComplete at h
  cases hstatus : f.status with
  | complete => simp [hstatus, Status.isComplete] at h
  | stopped e => exact ⟨e, rfl⟩

/-- A fragment whose decode was stopped has a diagnostic, at the escape that stopped it. -/
theorem Placed.diagnosedAt (h : Placed source f) (hsize : Text.units source < UInt32.size)
    (hstopped : f.isComplete = false) :
    ∃ diag, f.diagnostic? (LineIndex.ofText source) = some diag ∧ DiagnosedAt source f diag := by
  obtain ⟨e, hstatus⟩ := exists_stopped_of_isComplete hstopped
  obtain ⟨ts, s, q, hpart, hscan, hdecoded, hspan⟩ := h.exists_of_stopped hstatus
  obtain ⟨p, r, hsource, hstart, hstop⟩ := Text.exists_of_slice?_eq_some hpart
  obtain ⟨diag, hdiag, hrange⟩ : ∃ diag, f.diagnostic? (LineIndex.ofText source) = some diag ∧
      diag.range = (LineIndex.ofText source).spanToRange (e.span.shift f.hostOffset) :=
    ⟨_, by rw [diagnostic?, hstatus], rfl⟩
  have hmalformed : f.malformedSpan? = some (e.span.shift f.hostOffset) := by
    rw [malformedSpan?, hstatus]
    rfl
  rw [hspan] at hrange hmalformed
  have hfrom := congrArg PositionRange.start hrange
  have hto := congrArg PositionRange.stop hrange
  dsimp only [LineIndex.spanToRange] at hfrom hto
  rw [LineIndex.offsetToPosition_eq_exactPosition hsize] at hfrom hto
  -- The offset of the backslash, with the text on both sides of it.
  have hcut : source = (p ++ Token.textOf ts) ++ backslash :: (s ++ q ++ r) := by simp [hsource]
  have hoffset : Text.units (p ++ Token.textOf ts) = f.hostSpan.start + Text.units (Token.textOf ts) := by
    rw [Text.units_append, hstart]
  have hpos : 0 < Text.units (backslash :: s) := Nat.add_pos_left (unitsOf_pos _) _
  have hend : f.hostSpan.start + Text.units (Token.textOf ts) + Text.units (backslash :: s)
      ≤ f.hostSpan.stop := by
    rw [hstop, Text.units_append, Text.units_append]
    omega
  have hwithin : f.hostSpan.stop ≤ Text.units source := h.isWithin_hostSpan.2.2
  have hback : (LineIndex.ofText source).positionToOffset? diag.range.start
      = some (f.hostSpan.start + Text.units (Token.textOf ts)) := by
    rw [hfrom, ← hoffset, hcut]
    refine LineIndex.positionToOffset?_exactPosition fun hbreak => ?_
    exact absurd (Option.some.inj hbreak.2) (by decide)
  refine ⟨diag, hdiag, ?_, ⟨?_, ?_⟩, ⟨_, hmalformed, hfrom, hto⟩, _, hback, Nat.le_add_right _ _,
    by omega, ⟨_, _, hcut, hoffset⟩, Token.textOf ts, ?_, ?_⟩
  · rw [hfrom, hto]
    exact LineIndex.exactPosition_lt_exactPosition (Nat.lt_add_of_pos_right hpos) (by omega)
  · rw [hfrom]
    exact LineIndex.fits_exactPosition hsize (by omega)
  · rw [hto]
    exact LineIndex.fits_exactPosition hsize (by omega)
  · exact (Text.slice?_eq_some_iff _ _ _).2 ⟨Nat.le_add_right _ _, p, backslash :: (s ++ q ++ r), hcut,
      hstart, (Nat.add_sub_cancel_left _ _).symm⟩
  · rw [decode_plain_eq, hscan, hdecoded]
    rfl

/-- Diagnostics of a list of fragments: those that are complete have none, each of the others has one. -/
theorem forall₂_filterMap_diagnostic? {ix : LineIndex} {R : Fragment → Diagnostic → Prop}
    {fs : List Fragment}
    (h : ∀ f ∈ fs, f.isComplete = false → ∃ diag, f.diagnostic? ix = some diag ∧ R f diag) :
    List.Forall₂ R (fs.filter fun f => !f.isComplete) (fs.filterMap (·.diagnostic? ix)) := by
  induction fs with
  | nil => exact .nil
  | cons f fs ih =>
    obtain ⟨hf, hfs⟩ := List.forall_mem_cons.1 h
    cases hcomplete : f.isComplete with
    | true =>
      have hnone := diagnostic?_of_isComplete hcomplete ix
      simp only [List.filter_cons, List.filterMap_cons, hcomplete, hnone]
      exact ih hfs
    | false =>
      obtain ⟨diag, hdiag, hR⟩ := hf hcomplete
      simp only [List.filter_cons, List.filterMap_cons, hcomplete, hdiag]
      exact .cons hR (ih hfs)

end Fragment

namespace Document

/-- After any requests, a document has one diagnostic for every fragment whose decode was stopped, in
    the order of the fragments, and each stands at the escape that stopped it. -/
theorem forall₂_diagnostics (source : Text) (version : Int) (requests : List Request)
    (hsize : Text.units source < UInt32.size) :
    List.Forall₂ (Fragment.DiagnosedAt source)
      ((after source version requests).fragments.filter fun f => !f.isComplete)
      (after source version requests).diagnostics := by
  have hplaced := placed_after source version requests
  unfold diagnostics
  rw [lineIndex_after]
  exact Fragment.forall₂_filterMap_diagnostic? fun f hf hstopped =>
    (hplaced f hf).diagnosedAt hsize hstopped

/-- A complete fragment, and behind a line break and a supplementary character one that is stopped by
    half of a pair of escapes. -/
theorem forall₂_diagnostics_lone_surrogate :
    Text.units "'a'\r\n'😀\\uD83D'".toList < UInt32.size ∧
    (after "'a'\r\n'😀\\uD83D'".toList 0 [.inject ⟨1, 2⟩ Grammar.java,
        .inject ⟨6, 14⟩ Grammar.java]).fragments.filter (fun f => !f.isComplete) ≠ [] ∧
    List.Forall₂ (Fragment.DiagnosedAt "'a'\r\n'😀\\uD83D'".toList)
      ((after "'a'\r\n'😀\\uD83D'".toList 0 [.inject ⟨1, 2⟩ Grammar.java,
        .inject ⟨6, 14⟩ Grammar.java]).fragments.filter fun f => !f.isComplete)
      (after "'a'\r\n'😀\\uD83D'".toList 0 [.inject ⟨1, 2⟩ Grammar.java,
        .inject ⟨6, 14⟩ Grammar.java]).diagnostics :=
  ⟨by decide, by decide +kernel, forall₂_diagnostics _ _ _ (by decide)⟩

example : (after "'a'\r\n'😀\\uD83D'".toList 0 [.inject ⟨1, 2⟩ Grammar.java,
      .inject ⟨6, 14⟩ Grammar.java]).diagnostics.map (·.range)
    = [⟨⟨1, 3⟩, ⟨1, 9⟩⟩] := by decide +kernel

end Document

end Unescape
