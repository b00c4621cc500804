import Unescape.Proofs.ForwardOrder
import Unescape.Proofs.FragmentPlaces
import Unescape.Proofs.LineBreaks

set_option autoImplicit false

/-! # From the decoded text to a position and back

A place between two characters of the decoded text is one between two tokens of the range. The table of the
range has it there, in both directions (`exists_cut_of_splitAt?`), and if the range is aligned, so do
lookups in the literal. The offset in the document then cuts no character, so its position leads back to
it, unless it is inside a line break; and the fragment found there is the one that was asked, unless one
in front of it has the offset as well (`positionToDecoded?_decodedSpanToRange?`). -/

namespace Unescape

/-! ## Cuts of the decoded text -/

section Cut

variable {g : Grammar} {t : Text}

/-- Where the decoded text can be cut, so can the text, and the table relates the two cuts. -/
theorem exists_cut_of_splitAt? {k : Nat} {p q : Text}
    (h : Text.splitAt? (Token.charsOf (scan g t).tokens) k = some (p, q)) :
    ∃ v w, t = v ++ w ∧ Mapper.ownEntry g t k = Text.units v ∧
      (OffsetTable.build g t).decodedIndex (Text.units v) = k := by
  obtain ⟨hchars, rfl⟩ := (Text.splitAt?_eq_some_iff _ _ _ _).1 h
  obtain ⟨us, vs, htokens, rfl, rfl⟩ := List.map_eq_append_iff.1 hchars
  have hfronts := fronts_of_tokens_eq_append htokens
  have ht : t = Token.textOf us ++ (Token.textOf vs ++ (scan g t).rest) := by
    rw [← List.append_assoc, ← Token.textOf_append, ← htokens, textOf_append_rest_scan]
  generalize Token.textOf vs ++ (scan g t).rest = w at hfronts ht
  subst ht
  exact ⟨_, w, rfl, Mapper.ownEntry_charsOf hfronts, Mapper.decodedIndex_textOf hfronts⟩

/-- All of a text is aligned in it. -/
theorem isAligned_units (g : Grammar) (t : Text) : IsAligned g t (Text.units t) := by
  cases hfault : (scan g t).fault with
  | none =>
    exact .inl ⟨(scan g t).tokens, [], (List.append_nil _).symm,
      by rw [textOf_tokens_of_complete hfault]⟩
  | some fault =>
    have hstopped : (scan g t).fault ≠ none := by
      rw [hfault]
      exact Option.some_ne_none _
    exact Mapper.isAligned_of_consumed_le hstopped (consumed_scan_le g t)

theorem isBoundary_zero (g : Grammar) (t : Text) : IsBoundary g t 0 := ⟨[], _, rfl, rfl⟩

end Cut

/-! ## Fragments -/

namespace Fragment

variable {source : Text} {f : Fragment}

/-- The fragment is one of all of its literal. -/
def IsWhole (f : Fragment) : Prop := f.range = ⟨0, f.mapper.hostLength⟩

/-- The range of the fragment starts and ends at offsets that cut no token of the literal. -/
def IsAligned (f : Fragment) : Prop :=
  Unescape.IsAligned f.mapper.grammar f.mapper.host f.range.start ∧
    Unescape.IsAligned f.mapper.grammar f.mapper.host f.range.stop

theorem IsWhole.isAligned (h : f.IsWhole) : f.IsAligned := by
  unfold IsAligned
  rw [h]
  exact ⟨.inl (isBoundary_zero _ _), isAligned_units _ _⟩

/-- A place between characters of the decoded text is mapped to one between characters of the document; and
    what a request leaves of the fragment has that offset and maps it back. -/
theorem Placed.exists_cut (h : Placed source f)
    (hf : Serves f.mapper.grammar f.mapper.host f.range f)
    (hfit : Text.units f.mapper.host < offsetLimit) (haligned : f.IsAligned) {k : Nat} {p q : Text}
    (hk : Text.splitAt? f.decoded k = some (p, q)) :
    ∃ v w, source = v ++ w ∧ ((Fragment.toHost k).run f).value.1 = Text.units v ∧
      ∀ r : Request, (r.perform f).contains (Text.units v) = true ∧
        ((hostToDecoded? (Text.units v)).run (r.perform f)).value.1 = some k := by
  obtain ⟨part, hpart, hspan, hdecoded, -⟩ := h.exists_scan
  rw [hdecoded] at hk
  obtain ⟨v, w, rfl, hentry, hindex⟩ := exists_cut_of_splitAt? hk
  obtain ⟨front, back, hsource, hstart, -⟩ := Text.exists_of_slice?_eq_some hspan
  obtain ⟨-, -, -, -, hstop⟩ := Text.exists_of_slice?_eq_some hpart
  have hle : f.range.start + Text.units v ≤ f.range.stop := by
    rw [hstop, Text.units_append]
    omega
  have hunits : Text.units (front ++ v) = f.hostOffset + (f.range.start + Text.units v) := by
    rw [Text.units_append, hstart, hostSpan, Span.start_shift]
    omega
  refine ⟨front ++ v, w ++ back, by rw [hsource]; simp, ?_, fun r => ?_⟩
  · rw [value_toHost hf, Mapper.toHostFresh_of_isAligned hfit hpart haligned.1 haligned.2, hentry, hunits]
  · obtain ⟨m, hm⟩ := exists_perform_eq f r
    have hcontains : (r.perform f).contains (Text.units (front ++ v)) = true := by
      rw [hm, hunits]
      show Span.touches ⟨f.range.start + f.hostOffset, f.range.stop + f.hostOffset⟩ _ = true
      simp only [Span.touches, Bool.and_eq_true, decide_eq_true_eq]
      omega
    refine ⟨hcontains, ?_⟩
    have hoffset : (r.perform f).hostOffset = f.hostOffset := by rw [hm]
    rw [value_hostToDecoded? (hf.perform r), if_pos hcontains, hunits, hoffset, Nat.add_sub_cancel_left,
      Mapper.toDecodedFresh_of_isAligned hpart haligned.1 haligned.2 (Nat.le_add_right _ _) hle,
      Nat.add_sub_cancel_left, hindex]

end Fragment

/-! ## Documents -/

namespace Document

variable {d : Document}

/-- Decoding all of a literal makes a fragment of all of it. -/
theorem isWhole_of_inject {contents : Span} {g : Grammar} {index : Nat}
    (h : ((inject contents g).run d).value.1 = .ok index) :
    ∃ f, ((inject contents g).run d).value.2.fragments[index]? = some f ∧ f.IsWhole := by
  rcases run_inject d contents g with ⟨-, e, hrun⟩ | ⟨f, hmade, hrun⟩
  · rw [hrun] at h
    exact absurd h (by simp)
  · rw [hrun] at h ⊢
    obtain rfl := Except.ok.inj h
    obtain ⟨literal, hslice, hnew⟩ := exists_of_made? hmade
    obtain ⟨mapper, part, hserves, -, rfl⟩ := Fragment.exists_of_new hnew
    obtain ⟨-, -, -, -, hstop⟩ := Text.exists_of_slice?_eq_some hslice
    refine ⟨_, List.getElem?_concat_length, ?_⟩
    show (⟨0, contents.stop - contents.start⟩ : Span) = ⟨0, Text.units mapper.host⟩
    rw [hserves.host_eq, hstop, Nat.add_sub_cancel_left]

/-- Line and column of a cut are looked up in the first fragment there. The cut is found again unless it is
    inside a line break. -/
theorem value_positionToDecoded?_of_cut {v w : Text} (hsource : d.lineIndex = LineIndex.ofText (v ++ w))
    (hbreak : ¬ ['\r', '\n'] <:+: v ++ w) {i decoded : Nat} {f : Fragment}
    (hf : d.fragments[i]? = some f) (hcontains : f.contains (Text.units v) = true)
    (hfirst : ∀ j f', j < i → d.fragments[j]? = some f' → f'.contains (Text.units v) = false)
    (hdecoded : ((Fragment.hostToDecoded? (Text.units v)).run f).value.1 = some decoded) :
    ((positionToDecoded? (d.lineIndex.exactPosition (Text.units v))).run d).value.1
      = some (i, decoded) := by
  have hoffset : d.lineIndex.positionToOffset? (d.lineIndex.exactPosition (Text.units v))
      = some (Text.units v) := by
    rw [hsource]
    refine LineIndex.positionToOffset?_exactPosition ?_
    rintro ⟨hreturn, hfeed⟩
    obtain ⟨v', rfl⟩ := List.getLast?_eq_some_iff.1 hreturn
    obtain ⟨w', rfl⟩ := List.head?_eq_some_iff.1 hfeed
    exact hbreak ⟨v', w', by simp⟩
  have hat : d.fragmentAt? (Text.units v) = some i :=
    fragmentAt?_eq_some_iff.2 ⟨⟨f, hf, hcontains⟩, hfirst⟩
  rw [value_positionToDecoded?, hoffset, Option.bind_some, hat, Option.bind_some, hf, Option.bind_some,
    hdecoded, Option.map_some]

/-- The way through positions and back leads from a place between characters of the decoded text of a
    fragment to the same place of the same fragment, unless a fragment in front of it is found at the
    position. The fragment is one of all of its literal, or of a range of it that starts and ends
    at boundaries, and the text has no line break of two characters. -/
theorem positionToDecoded?_decodedSpanToRange? (source : Text) (version : Int)
    (requests : List Request) (hsize : Text.units source < UInt32.size)
    (hbreak : ¬ ['\r', '\n'] <:+: source) {i k : Nat} {f : Fragment}
    (hf : (after source version requests).fragments[i]? = some f)
    (hrange : f.IsWhole ∨ (IsBoundary f.mapper.grammar f.mapper.host f.range.start ∧
      IsBoundary f.mapper.grammar f.mapper.host f.range.stop))
    {p q : Text} (hk : Text.splitAt? f.decoded k = some (p, q))
    (hfirst : ∀ j f', j < i → (after source version requests).fragments[j]? = some f' →
      f'.contains ((Fragment.toHost k).run f).value.1 = false) :
    ∃ r d', ((decodedSpanToRange? i ⟨k, k⟩).run (after source version requests)).value = (some r, d') ∧
      r.start = (LineIndex.ofText source).exactPosition ((Fragment.toHost k).run f).value.1 ∧
      r.start.Fits ∧ ((positionToDecoded? r.start).run d').value.1 = some (i, k) := by
  have hmem := List.mem_of_getElem? hf
  have hplaced := placed_after source version requests f hmem
  have hserves := ((reachable_after source version requests).sound.reachable_fragment hf).serves
  have haligned : f.IsAligned := by
    rcases hrange with hwhole | ⟨hstart, hstop⟩
    · exact hwhole.isAligned
    · exact ⟨.inl hstart, .inl hstop⟩
  have hfit : Text.units f.mapper.host < offsetLimit := by
    have hwithin : f.hostOffset + Text.units f.mapper.host ≤ Text.units source :=
      (Text.isWithin_of_slice? hplaced.literal_eq).2.2
    have hlimit : UInt32.size < offsetLimit := by decide
    omega
  obtain ⟨v, w, rfl, hto, hback⟩ := hplaced.exists_cut hserves hfit haligned hk
  obtain ⟨hcontains, hdecoded⟩ := hback (.spanToHost ⟨k, k⟩)
  have hspan : ((Fragment.spanToHost ⟨k, k⟩).run f).value.1 = ⟨Text.units v, Text.units v⟩ := by
    rw [Fragment.value_spanToHost hserves, ← Fragment.value_toHost hserves, hto]
  have hrun := run_decodedSpanToRange? hf ⟨k, k⟩
  rw [hspan] at hrun
  have hlength := (List.getElem?_eq_some_iff.1 hf).1
  have hexact : (after (v ++ w) version requests).lineIndex.offsetToPosition (Text.units v)
      = (after (v ++ w) version requests).lineIndex.exactPosition (Text.units v) := by
    rw [lineIndex_after]
    exact LineIndex.offsetToPosition_eq_exactPosition hsize _
  refine ⟨_, _, hrun, ?_, ?_, ?_⟩
  · show LineIndex.offsetToPosition _ (Text.units v) = _
    rw [hto, hexact, lineIndex_after]
  · show Position.Fits (LineIndex.offsetToPosition _ (Text.units v))
    rw [hexact, lineIndex_after]
    refine LineIndex.fits_exactPosition hsize ?_
    rw [Text.units_append]
    exact Nat.le_add_right _ _
  · show ((positionToDecoded? (LineIndex.offsetToPosition _ (Text.units v))).run _).value.1 = _
    rw [hexact]
    -- Only the fragment that was asked has changed.
    have hself := List.getElem?_set_self (a := (Fragment.Request.spanToHost ⟨k, k⟩).perform f) hlength
    refine value_positionToDecoded?_of_cut ?_ hbreak hself hcontains ?_ hdecoded
    · exact lineIndex_after _ version requests
    · intro j f' hj hf'
      rw [List.getElem?_set_ne (Nat.ne_of_gt hj)] at hf'
      rw [← hto]
      exact hfirst j f' hj hf'

/-- In the second of two fragments, the end of a decoded text that a malformed escape stopped. -/
theorem positionToDecoded?_decodedSpanToRange?_before_fault :
    Text.units "'a'\n'😀\\uD83D\\uDE00\\q'".toList < UInt32.size ∧
    ¬ ['\r', '\n'] <:+: "'a'\n'😀\\uD83D\\uDE00\\q'".toList ∧
    ∃ f, (after "'a'\n'😀\\uD83D\\uDE00\\q'".toList 0 [.inject ⟨1, 2⟩ Grammar.java,
        .inject ⟨5, 21⟩ Grammar.java]).fragments[1]? = some f ∧ f.IsWhole ∧
      Text.splitAt? f.decoded 4 = some ("😀😀".toList, []) ∧
      (∀ j f', j < 1 → (after "'a'\n'😀\\uD83D\\uDE00\\q'".toList 0 [.inject ⟨1, 2⟩ Grammar.java,
        .inject ⟨5, 21⟩ Grammar.java]).fragments[j]? = some f' →
        f'.contains ((Fragment.toHost 4).run f).value.1 = false) ∧
      ∃ r d', ((decodedSpanToRange? 1 ⟨4, 4⟩).run
          (after "'a'\n'😀\\uD83D\\uDE00\\q'".toList 0 [.inject ⟨1, 2⟩ Grammar.java,
        .inject ⟨5, 21⟩ Grammar.java])).value = (some r, d') ∧
        r.start = (LineIndex.ofText "'a'\n'😀\\uD83D\\uDE00\\q'".toList).exactPosition
          ((Fragment.toHost 4).run f).value.1 ∧
        r.start.Fits ∧ ((positionToDecoded? r.start).run d').value.1 = some (1, 4) := by
  have hmade : ((inject ⟨5, 21⟩ Grammar.java).run (after "'a'\n'😀\\uD83D\\uDE00\\q'".toList 0
      [.inject ⟨1, 2⟩ Grammar.java])).value.1 = .ok 1 := by decide +kernel
  have hdata : ((after "'a'\n'😀\\uD83D\\uDE00\\q'".toList 0 [.inject ⟨1, 2⟩ Grammar.java,
        .inject ⟨5, 21⟩ Grammar.java]).fragments[1]?).map
      (fun f => (Text.splitAt? f.decoded 4, ((Fragment.toHost 4).run f).value.1))
      = some (some ("😀😀".toList, []), 19) := by decide +kernel
  obtain ⟨f, hf, hwhole⟩ := isWhole_of_inject hmade
  replace hf : (after "'a'\n'😀\\uD83D\\uDE00\\q'".toList 0 [.inject ⟨1, 2⟩ Grammar.java,
      .inject ⟨5, 21⟩ Grammar.java]).fragments[1]? = some f := hf
  rw [hf] at hdata
  obtain ⟨hk, hto⟩ := Prod.mk.inj (Option.some.inj hdata)
  have hfirst : ∀ j f', j < 1 → (after "'a'\n'😀\\uD83D\\uDE00\\q'".toList 0 [.inject ⟨1, 2⟩ Grammar.java,
        .inject ⟨5, 21⟩ Grammar.java]).fragments[j]? = some f' →
      f'.contains ((Fragment.toHost 4).run f).value.1 = false := by
    intro j f' hj hf'
    obtain rfl : j = 0 := Nat.lt_one_iff.1 hj
    have hnot : ((after "'a'\n'😀\\uD83D\\uDE00\\q'".toList 0 [.inject ⟨1, 2⟩ Grammar.java,
        .inject ⟨5, 21⟩ Grammar.java]).fragments[0]?).map
        (·.contains 19) = some false := by decide +kernel
    rw [hf'] at hnot
    rw [hto]
    exact Option.some.inj hnot
  have hbreak : ¬ ['\r', '\n'] <:+: "'a'\n'😀\\uD83D\\uDE00\\q'".toList := by decide +kernel
  exact ⟨by decide +kernel, hbreak, f, hf, hwhole, hk, hfirst,
    positionToDecoded?_decodedSpanToRange? _ _ _ (by decide +kernel) hbreak hf (.inl hwhole) hk hfirst⟩

end Document

end Unescape
