import Unescape.Proofs.ForwardOrder
import Unescape.Proofs.FragmentAnswers
import Unescape.Proofs.LineBreaks

set_option autoImplicit false

/-! # Spans that are mapped forward stay forward

A span of decoded text is mapped end by end: to the literal by a mapper, from there to the document by a
fragment, and to lines and columns by a document. None of these steps but the first can exchange the
ends, unless the text is so long that its lines and columns do not fit into 32 bits; and the first one
does not if it keeps the order of units (`mapToHost_monotone_iff`). -/

namespace Unescape

namespace Mapper

variable {g : Grammar} {host part : Text} {range : Span}

/-- Spans stay forward exactly if the ends of each keep their order, wherever the literal stands. -/
theorem forall_isForward_iff (f : Nat → Nat) (hostOffset : Nat) :
    (∀ span : Span, span.IsForward →
        Span.IsForward ⟨hostOffset + f span.start, hostOffset + f span.stop⟩) ↔ Monotone f :=
  ⟨fun h i j hij => Nat.le_of_add_le_add_left (h ⟨i, j⟩ hij),
    fun h _ hspan => Nat.add_le_add_left (h hspan) hostOffset⟩

theorem isForward_mapSpanToHost_iff {m : Mapper} (hm : Serves g host m) :
    (∀ span : Span, span.IsForward → ((mapSpanToHost span range).run m).value.1.IsForward) ↔
      Monotone (fun i => toHostFresh g host i range) := by
  have h := forall_isForward_iff (fun i => toHostFresh g host i range) 0
  simp only [Nat.zero_add] at h
  simpa only [(answers_mapSpanToHost _ range m hm).1] using h

theorem isForward_spanToHost_iff {f : Fragment} (hf : Fragment.Serves g host range f) :
    (∀ span : Span, span.IsForward → ((Fragment.spanToHost span).run f).value.1.IsForward) ↔
      Monotone (fun i => toHostFresh g host i range) := by
  simpa only [Fragment.value_spanToHost hf] using
    forall_isForward_iff (fun i => toHostFresh g host i range) f.hostOffset

/-- In a document the span of a fragment becomes a range of positions that is as much forward, if the
    text is shorter than the number of 32-bit words. -/
theorem isForward_decodedSpanToRange? {d : Document} (hd : Document.Sound d)
    (hsize : Text.units d.lineIndex.source < UInt32.size) {index : Nat} {f : Fragment}
    (hindex : d.fragments[index]? = some f) {span : Span}
    (hspan : ((Fragment.spanToHost span).run f).value.1.IsForward) :
    ∃ r, ((Document.decodedSpanToRange? index span).run d).value.1 = some r ∧ r.IsForward := by
  obtain ⟨source, hsource⟩ := hd.lineIndex_eq
  refine ⟨_, Document.value_decodedSpanToRange? hindex span, ?_⟩
  rw [hsource] at hsize ⊢
  exact LineIndex.isForward_spanToRange hsize hspan

/-- Mapping to the host keeps the order of units, and spans of a literal or a fragment are never
    reversed, exactly if the order is kept at the malformed escape at which the literal stops; nor are
    those of a document then, if its text is shorter than the number of 32-bit words.
    That is so if there is no such escape, or if the range starts at an aligned offset. -/
theorem mapToHost_monotone_iff {m : Mapper} (hm : Reachable g host m)
    (hfit : Text.units host < offsetLimit) (hpart : Text.slice? host range = some part) :
    (Monotone (fun i => ((mapToHost i range).run m).value.1) ↔ OrderedAtFault g host range) ∧
    ((∀ span : Span, span.IsForward → ((mapSpanToHost span range).run m).value.1.IsForward) ↔
      OrderedAtFault g host range) ∧
    (∀ f, Fragment.Reachable g host range f →
      ((∀ span : Span, span.IsForward → ((Fragment.spanToHost span).run f).value.1.IsForward) ↔
        OrderedAtFault g host range)) ∧
    (∀ d index f, Document.Reachable d → Text.units d.lineIndex.source < UInt32.size →
      d.fragments[index]? = some f →
      f.mapper.grammar = g → f.mapper.host = host → f.range = range →
      OrderedAtFault g host range → ∀ span : Span, span.IsForward →
        ∃ r, ((Document.decodedSpanToRange? index span).run d).value.1 = some r ∧ r.IsForward) ∧
    ((OffsetTable.build g host).status.isComplete = true ∨ IsAligned g host range.start →
      OrderedAtFault g host range) := by
  have hle := ((Text.slice?_eq_some_iff _ _ _).1 hpart).1
  have hmono := monotone_toHostFresh_iff (g := g) hfit hpart
  refine ⟨?_, (isForward_mapSpanToHost_iff hm.serves).trans hmono,
    fun f hf => (isForward_spanToHost_iff hf.serves).trans hmono, ?_, ?_⟩
  · simpa only [(answers_mapToHost _ range m hm.serves).1] using hmono
  · intro d index f hd hsize hindex hgrammar hhost hrange hordered span hspan
    subst hgrammar hhost hrange
    have hf := (hd.sound.reachable_fragment hindex).serves
    exact isForward_decodedSpanToRange? hd.sound hsize hindex
      ((isForward_spanToHost_iff hf).2 (hmono.2 hordered) span hspan)
  · rintro (hcomplete | hstart)
    · exact orderedAtFault_of_isComplete hfit hle hcomplete
    · exact orderedAtFault_of_isAligned hfit hpart hstart

/-- A range that starts inside an octal escape of a literal without a malformed one: in a mapper that
    was used for another range, and in a document. -/
theorem mapToHost_monotone_iff_inside_octal :
    Reachable Grammar.java "\\101\\uD83D\\uDE00".toList
        ((Request.toHost 0 ⟨4, 10⟩).perform
          (Mapper.new "\\101\\uD83D\\uDE00".toList Grammar.java)) ∧
      Text.units "\\101\\uD83D\\uDE00".toList < offsetLimit ∧
      Text.slice? "\\101\\uD83D\\uDE00".toList ⟨2, 12⟩ = some "01\\uD83D\\u".toList ∧
      (OffsetTable.build Grammar.java "\\101\\uD83D\\uDE00".toList).status.isComplete = true ∧
      OrderedAtFault Grammar.java "\\101\\uD83D\\uDE00".toList ⟨2, 12⟩ ∧
      Monotone (fun i => ((mapToHost i ⟨2, 12⟩).run ((Request.toHost 0 ⟨4, 10⟩).perform
        (Mapper.new "\\101\\uD83D\\uDE00".toList Grammar.java))).value.1) ∧
      ∃ r, ((Document.decodedSpanToRange? 0 ⟨1, 3⟩).run (Document.Request.perform
          (Document.new "\"\\101\\uD83D\\uDE00\"".toList 0)
          (.injectRange ⟨1, 17⟩ ⟨2, 12⟩ Grammar.java))).value.1 = some r ∧ r.IsForward := by
  have hfit : Text.units "\\101\\uD83D\\uDE00".toList < offsetLimit := by decide +kernel
  have hpart : Text.slice? "\\101\\uD83D\\uDE00".toList ⟨2, 12⟩ = some "01\\uD83D\\u".toList := by
    decide +kernel
  have hcomplete :
      (OffsetTable.build Grammar.java "\\101\\uD83D\\uDE00".toList).status.isComplete = true := by
    decide +kernel
  obtain ⟨hmono, -, -, hdocument, hordered⟩ :=
    mapToHost_monotone_iff (.perform (.toHost 0 ⟨4, 10⟩) .new) hfit hpart
  have hends := hordered (.inl hcomplete)
  have hfragment : ((Document.Request.perform (Document.new "\"\\101\\uD83D\\uDE00\"".toList 0)
      (.injectRange ⟨1, 17⟩ ⟨2, 12⟩ Grammar.java)).fragments[0]?).map
        (fun f => (f.mapper.grammar, f.mapper.host, f.range))
      = some (Grammar.java, "\\101\\uD83D\\uDE00".toList, ⟨2, 12⟩) := by decide +kernel
  obtain ⟨f, hf, hgrammar, hhost, hrange⟩ := Document.exists_fragment_of_map_eq hfragment
  exact ⟨.perform _ .new, hfit, hpart, hcomplete, hends, hmono.2 hends,
    hdocument _ 0 f (.perform _ (.new _ _)) (by decide +kernel) hf hgrammar hhost hrange hends ⟨1, 3⟩
      (show 1 ≤ 3 by decide)⟩

/-- A range that starts inside the first of two octal escapes, in front of a malformed escape. The
    literal has its second unit at the second escape; the range on its own reads the digits of the first
    one as units, and has its third unit in front of that. -/
theorem mapToHost_not_monotone :
    Text.slice? "\\101\\101\\q".toList ⟨1, 10⟩ = some "101\\101\\q".toList ∧
      ¬ Monotone (fun i => ((mapToHost i ⟨1, 10⟩).run (((decodeRange ⟨1, 10⟩).run #[]).run
        (Mapper.new "\\101\\101\\q".toList Grammar.java)).value.2).value.1) := by
  refine ⟨by decide +kernel, fun hmono => ?_⟩
  have hle := hmono (show 1 ≤ 2 by decide)
  revert hle
  decide +kernel

end Mapper

end Unescape
