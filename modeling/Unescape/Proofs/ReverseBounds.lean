import Unescape.Proofs.FragmentAnswers
import Unescape.Proofs.ReverseOrder

set_option autoImplicit false

/-! # Host offsets that are mapped into the decoded text

Whether mapping from the host stays within the text decoded for a range is decided at two offsets
(`EndsInside`), and a fragment or a document, which asks for offsets of the range only, stays within the
decoded text of the fragment exactly then (`mapToDecoded_le_iff`). -/

namespace Unescape

namespace Mapper

variable {g : Grammar} {host part : Text} {range : Span}

/-- A range that names a part of the host decodes to as many units as the part does. -/
theorem exists_decodeRange_eq_ok {m : Mapper} (hm : Serves g host m)
    (hpart : Text.slice? host range = some part) :
    ∃ chars complete, (((decodeRange range).run #[]).run m).value.1 = (.ok complete, chars) ∧
      Text.units chars.toList = decodedUnits g part := by
  rw [(answers_decodeRange range #[] m hm).1, decodeFresh, hpart]
  exact ⟨_, _, rfl, rfl⟩

/-- What a fragment answers is within its decoded text if its mapper stays within it. -/
theorem hostToDecoded?_le_iff {f : Fragment} (hf : Fragment.Serves g host range f)
    (hpart : Text.slice? host range = some part) :
    (∀ offset decoded, ((Fragment.hostToDecoded? offset).run f).value.1 = some decoded →
      decoded ≤ Text.units f.decoded) ↔
      ∀ offset, toDecodedFresh g host offset range ≤ decodedUnits g part := by
  have hle := ((Text.slice?_eq_some_iff _ _ _).1 hpart).1
  simp only [Fragment.value_hostToDecoded? hf, hf.units_decoded hpart]
  constructor
  · intro h offset
    -- The offset of the range that is nearest is asked for in the document.
    have hcontains : f.contains (f.hostOffset + range.clamp offset) = true := by
      unfold Fragment.contains Fragment.hostSpan Span.touches Span.clamp
      simp only [hf.range_eq, Span.start_shift, Span.stop_shift, Bool.and_eq_true, decide_eq_true_eq]
      omega
    have hclamp : range.clamp (range.clamp offset) = range.clamp offset := by
      unfold Span.clamp
      omega
    refine h (f.hostOffset + range.clamp offset) _ ?_
    rw [if_pos hcontains, Nat.add_sub_cancel_left, toDecodedFresh_congr hclamp]
  · intro h offset decoded hanswer
    split at hanswer
    · rw [← Option.some.inj hanswer]
      exact h _
    · exact absurd hanswer (by simp)

/-- Mapping from the host stays within the text decoded for a range exactly if it does so at the end of
    the range and in front of the malformed escape, and keeps the order of host offsets exactly if it
    does so where that escape begins. If the range starts at an aligned offset, the order is kept, and
    the decoded text is not left unless the range splits a pair of escapes. -/
theorem mapToDecoded_le_iff {m : Mapper} (hm : Reachable g host m)
    (hpart : Text.slice? host range = some part) :
    ∃ chars complete, (((decodeRange range).run #[]).run m).value.1 = (.ok complete, chars) ∧
      ((∀ offset, ((mapToDecoded offset range).run m).value.1 ≤ Text.units chars.toList) ↔
        EndsInside g host range part) ∧
      (Monotone (fun offset => ((mapToDecoded offset range).run m).value.1) ↔
        OrderedAtSentinel g host range) ∧
      ((OffsetTable.build g host).status.isComplete = true ∨ IsAligned g host range.start →
        OrderedAtSentinel g host range) ∧
      (IsAligned g host range.start →
        (¬ SplitsPair g host range → EndsInside g host range part) ∧
        (CutSafe g → SplitsPair g host range → ¬ EndsInside g host range part)) ∧
      (∀ f, Fragment.Reachable g host range f →
        ((∀ offset decoded, ((Fragment.hostToDecoded? offset).run f).value.1 = some decoded →
          decoded ≤ Text.units f.decoded) ↔ EndsInside g host range part)) ∧
      (∀ d p index decoded f, Document.Reachable d →
        ((Document.positionToDecoded? p).run d).value.1 = some (index, decoded) →
        d.fragments[index]? = some f →
        f.mapper.grammar = g → f.mapper.host = host → f.range = range →
        EndsInside g host range part → decoded ≤ Text.units f.decoded) := by
  have hle := ((Text.slice?_eq_some_iff _ _ _).1 hpart).1
  have hinside := toDecodedFresh_le_iff (g := g) hpart
  obtain ⟨chars, complete, hdecode, hunits⟩ := exists_decodeRange_eq_ok hm.serves hpart
  refine ⟨chars, complete, hdecode, ?_, ?_, ?_, ?_,
    fun f hf => (hostToDecoded?_le_iff hf.serves hpart).trans hinside, ?_⟩
  · simpa only [(answers_mapToDecoded _ range m hm.serves).1, hunits] using hinside
  · simpa only [(answers_mapToDecoded _ range m hm.serves).1] using monotone_toDecodedFresh_iff hpart
  · rintro (hcomplete | hstart)
    · exact orderedAtSentinel_of_isComplete hle hcomplete
    · exact orderedAtSentinel_of_isAligned hpart hstart
  · intro hstart
    have hend := endsInside_iff_of_orderedAtSentinel hpart
      (orderedAtSentinel_of_isAligned hpart hstart)
    obtain ⟨hwhole, hsplit⟩ := toDecodedFresh_stop_of_isAligned hpart hstart
    exact ⟨fun hnot => hend.2 (hwhole hnot), fun hg hpair hinside =>
      Nat.not_le_of_lt (hsplit hg hpair) (hend.1 hinside)⟩
  · intro d p index decoded f hd hposition hindex hgrammar hhost hrange hends
    obtain ⟨f', offset, hf', hanswer⟩ := Document.exists_of_positionToDecoded? hposition
    obtain rfl := Option.some.inj (hindex.symm.trans hf')
    subst hgrammar hhost hrange
    exact (hostToDecoded?_le_iff (hd.sound.reachable_fragment hindex).serves hpart).2
      (hinside.2 hends) offset decoded hanswer

/-- A range that ends inside the first half of a pair of escapes, in front of a malformed escape: in a
    mapper that was used for another range, and in a document, at a position inside the range. -/
theorem mapToDecoded_le_iff_first_half :
    Reachable Grammar.java "a\\uD83D\\uDE00\\q".toList
        ((Request.toHost 0 ⟨1, 4⟩).perform (Mapper.new "a\\uD83D\\uDE00\\q".toList Grammar.java)) ∧
      Text.slice? "a\\uD83D\\uDE00\\q".toList ⟨0, 4⟩ = some "a\\uD".toList ∧
      IsAligned Grammar.java "a\\uD83D\\uDE00\\q".toList 0 ∧
      ¬ SplitsPair Grammar.java "a\\uD83D\\uDE00\\q".toList ⟨0, 4⟩ ∧
      EndsInside Grammar.java "a\\uD83D\\uDE00\\q".toList ⟨0, 4⟩ "a\\uD".toList ∧
      Monotone (fun offset => ((mapToDecoded offset ⟨0, 4⟩).run ((Request.toHost 0 ⟨1, 4⟩).perform
        (Mapper.new "a\\uD83D\\uDE00\\q".toList Grammar.java))).value.1) ∧
      ∃ f, (Document.Request.perform (Document.new "\"a\\uD83D\\uDE00\\q\"".toList 0)
          (.injectRange ⟨1, 16⟩ ⟨0, 4⟩ Grammar.java)).fragments[0]? = some f ∧
        ((Document.positionToDecoded? ⟨0, 3⟩).run (Document.Request.perform
          (Document.new "\"a\\uD83D\\uDE00\\q\"".toList 0)
          (.injectRange ⟨1, 16⟩ ⟨0, 4⟩ Grammar.java))).value.1 = some (0, 1) ∧
        1 ≤ Text.units f.decoded := by
  have hpart : Text.slice? "a\\uD83D\\uDE00\\q".toList ⟨0, 4⟩ = some "a\\uD".toList := by
    decide +kernel
  have hstart : IsAligned Grammar.java "a\\uD83D\\uDE00\\q".toList 0 := by decide +kernel
  have hwhole : ¬ SplitsPair Grammar.java "a\\uD83D\\uDE00\\q".toList ⟨0, 4⟩ := by decide +kernel
  obtain ⟨-, -, -, -, hmono, hordered, haligned, -, hdocument⟩ :=
    mapToDecoded_le_iff (.perform (.toHost 0 ⟨1, 4⟩) .new) hpart
  have hends := (haligned hstart).1 hwhole
  have hposition : ((Document.positionToDecoded? ⟨0, 3⟩).run (Document.Request.perform
      (Document.new "\"a\\uD83D\\uDE00\\q\"".toList 0)
      (.injectRange ⟨1, 16⟩ ⟨0, 4⟩ Grammar.java))).value.1 = some (0, 1) := by decide +kernel
  have hfragment : ((Document.Request.perform (Document.new "\"a\\uD83D\\uDE00\\q\"".toList 0)
      (.injectRange ⟨1, 16⟩ ⟨0, 4⟩ Grammar.java)).fragments[0]?).map
        (fun f => (f.mapper.grammar, f.mapper.host, f.range))
      = some (Grammar.java, "a\\uD83D\\uDE00\\q".toList, ⟨0, 4⟩) := by decide +kernel
  obtain ⟨f, hf, hgrammar, hhost, hrange⟩ := Document.exists_fragment_of_map_eq hfragment
  exact ⟨.perform _ .new, hpart, hstart, hwhole, hends, hmono.2 (hordered (.inr hstart)), f, hf,
    hposition, hdocument _ _ _ _ f (.perform _ (.new _ _)) hposition hf hgrammar hhost hrange hends⟩

/-- A range that ends behind the first half of a pair: alone that half is malformed and decodes to
    nothing, but in the literal the end of the range belongs to the second unit of the pair. -/
theorem mapToDecoded_behind_decoded :
    ∃ chars, (((decodeRange ⟨0, 6⟩).run #[]).run
        (Mapper.new "\\uD83D\\uDE00".toList Grammar.java)).value.1 = (.ok false, chars) ∧
      ¬ ∀ offset, ((mapToDecoded offset ⟨0, 6⟩).run (((decodeRange ⟨0, 6⟩).run #[]).run
        (Mapper.new "\\uD83D\\uDE00".toList Grammar.java)).value.2).value.1
          ≤ Text.units chars.toList := by
  refine ⟨#[], by decide +kernel, fun h => ?_⟩
  have hle := h 6
  revert hle
  decide +kernel

end Mapper

end Unescape
