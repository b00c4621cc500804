import Unescape.Proofs.CutEscape
import Unescape.Proofs.RangeLookup

set_option autoImplicit false

/-! # Mapping in a range that ends inside an escape

The end of a range may cut an escape of the literal. What is left of the escape in the range is
malformed, or it decodes to a character of its own, and the table of the literal knows nothing of
that character.

In a grammar that is `CutSafe` the two tables still agree as far as a lookup can see. Where the rest
of the escape is malformed, the decoded text ends in front of it, at a unit that the literal has as
well. Otherwise the rest and the whole escape decode to one unit each. The next unit of the literal
then lies behind the range, and clamping it to the range gives the end of the decoded text
(`mappedEntry_of_cutSafe`). -/

namespace Unescape

variable {g : Grammar} {part q : Text}

/-- A token that is cut is an escape, and the cut leaves its backslash. -/
theorem exists_readEscape_of_cutsFirst {v : Text} (hv : v ≠ []) (hcut : CutsFirst g v q)
    {tok : Token} {us : List Token} (htokens : (scan g (v ++ q)).tokens = tok :: us) :
    ∃ v' w after, v = backslash :: v' ∧ w ≠ [] ∧ q = w ++ after ∧
      Token.readEscape g (v' ++ (w ++ after)) = .ok (tok, after) ∧
      tok.text = backslash :: (v' ++ w) := by
  obtain ⟨c, r, after, hcr, hread, -, -⟩ := exists_read_of_tokens_eq_cons htokens
  have hlt := hcut c r tok after hcr hread
  obtain ⟨c', v', rfl⟩ := List.exists_cons_of_ne_nil hv
  obtain ⟨rfl, rfl⟩ := List.cons.inj hcr
  have htext := Token.text_append_of_read hread
  obtain ⟨w, hw, rfl⟩ :=
    Text.exists_append_of_units_le (p := c' :: v') htext.symm (Nat.le_of_lt hlt)
  have hw_ne : w ≠ [] := by
    rintro rfl
    rw [hw, List.append_nil] at hlt
    exact Nat.lt_irrefl _ hlt
  rcases Token.read_eq_ok_iff.1 hread with ⟨rfl, hescape⟩ | ⟨-, rfl, -⟩
  · exact ⟨v', w, after, rfl, hw_ne, rfl, hescape, hw⟩
  · -- A plain character cannot be cut.
    simp only [Token.text, Text.units_cons, Text.units_nil] at hlt
    omega

namespace Mapper

/-- The end of a range is no unit of a character that a cut escape decodes to. -/
theorem mappedEntry_of_cutsFirst (hg : CutSafe g) {v : Text} (hv : v ≠ []) (hcut : CutsFirst g v q)
    {tok : Token} {us : List Token} (htokens : (scan g (v ++ q)).tokens = tok :: us) {j : Nat}
    (hj : j ≤ Text.units (Token.charsOf (scan g v).tokens)) :
    mappedEntry g v q j = ownEntry g v j := by
  obtain ⟨v, w, after, rfl, hw, rfl, hread, htext⟩ :=
    exists_readEscape_of_cutsFirst hv hcut htokens
  cases j with
  | zero => rw [mappedEntry_zero, ownEntry_zero]
  | succ j =>
    have hread_v := Token.read_backslash g v
    rcases Token.readEscape_of_cut hg hread htext hw with ⟨f, hf⟩ | ⟨c, hc, hunits, hunits'⟩
    · -- What is left of the escape decodes to nothing.
      rw [scan_of_error (hread_v.trans hf)] at hj
      simp at hj
    · -- It decodes to one unit, so only the end of the range is left, which the next unit of the
      -- literal is clamped to.
      rw [scan_of_ok (hread_v.trans hc)] at hj
      obtain rfl : j = 0 := by
        simp [Scan.cons, Token.char, hunits] at hj
        omega
      have hown : (scan g (backslash :: v)).entries[1]? = some (Text.units (backslash :: v)) := by
        rw [scan_of_ok (hread_v.trans hc)]
        simp [Scan.entries, Scan.cons, Scan.consumed, Token.offsetsOf, Token.offsets, Token.text,
          hunits]
      have hwhole : (scan g (backslash :: v ++ (w ++ after))).entries[1]?
          = some (Text.units tok.text) := by
        have hfronts : Fronts g [tok] after :=
          .cons (c := backslash) (r := v ++ (w ++ after)) ((Token.read_backslash ..).trans hread)
            (.nil g after)
        obtain ⟨es, hes⟩ := (scan g after).exists_entries_eq_cons
        have hget := hfronts.getElem?_entries_add 0
        simpa [hes, hunits', htext] using hget
      have hle : Text.units (backslash :: v) ≤ Text.units tok.text := by
        rw [htext, ← List.cons_append, Text.units_append]
        omega
      unfold mappedEntry entryIn ownEntry
      rw [hown, hwhole]
      split
      · exact Nat.min_eq_left hle
      · exact Nat.min_self _

/-- Wherever a range ends, the decoded text of the range is mapped by its own table. -/
theorem mappedEntry_of_cutSafe (hg : CutSafe g) {i : Nat}
    (hi : i ≤ (OffsetTable.build g part).decodedLength) :
    mappedEntry g part q i = ownEntry g part i := by
  obtain ⟨ms, v, rfl, hfronts, hcut⟩ := exists_fronts_append g part q
  refine mappedEntry_of_fronts hfronts fun j hj => ?_
  have hj_le : j ≤ Text.units (Token.charsOf (scan g v).tokens) := by
    rw [decodedLength_build, hfronts v q rfl, Scan.tokens_prepend, Token.charsOf_append,
      Text.units_append, hj] at hi
    exact Nat.le_of_add_le_add_left hi
  -- Nothing is left behind the tokens, or a piece of what could not be decoded, or of a token.
  by_cases hv : v = []
  · rw [hv]
    exact mappedEntry_nil g q j
  · cases htokens : (scan g (v ++ q)).tokens with
    | nil =>
      have hfault := fault_ne_none_of_tokens_eq_nil (List.append_ne_nil_of_left_ne_nil hv q) htokens
      exact mappedEntry_of_tokens_eq_nil htokens hfault j
    | cons tok us => exact mappedEntry_of_cutsFirst hg hv hcut htokens hj_le

variable {host : Text} {range : Span}

/-- In a grammar that is safe to cut, a range that starts at an aligned offset is mapped by its own
    table wherever it ends. -/
theorem value_mapToHost_of_cutSafe {m : Mapper} (hm : Serves g host m) (hg : CutSafe g)
    (hfit : Text.units host < offsetLimit) (hpart : Text.slice? host range = some part)
    (hstart : IsAligned g host range.start) {i : Nat}
    (hi : i ≤ (OffsetTable.build g part).decodedLength) :
    ((mapToHost i range).run m).value.1 = range.start + ownEntry g part i := by
  rw [(answers_mapToHost i range m hm).1]
  exact toHostFresh_of_isAligned_start hfit hpart hstart
    fun _ _ _ _ _ => mappedEntry_of_cutSafe hg hi

/-- In the built-in grammars a range may end inside an escape, and the decoded text of the range is
    still mapped to where it comes from. -/
theorem mapToHost_of_builtin {m : Mapper} (hg : g = Grammar.java ∨ g = Grammar.proto)
    (hm : Reachable g host m) (hfit : Text.units host < offsetLimit)
    (hpart : Text.slice? host range = some part) (hstart : IsAligned g host range.start) {i : Nat}
    (hi : i ≤ (OffsetTable.build g part).decodedLength) :
    ∃ o, (OffsetTable.build g part).get? i = some o ∧
      ((mapToHost i range).run m).value.1 = range.start + o := by
  have hsafe : CutSafe g := by
    rcases hg with rfl | rfl
    · exact cutSafe_java
    · exact cutSafe_proto
  exact ⟨ownEntry g part i, get?_eq_some_ownEntry hi,
    value_mapToHost_of_cutSafe hm.serves hsafe hfit hpart hstart hi⟩

/-- A range that ends inside an octal escape, in a mapper that has decoded it; the last digit is
    behind the range. -/
theorem mapToHost_of_builtin_octal :
    Reachable Grammar.proto "a\\101z".toList
        ((Request.decode ⟨1, 4⟩ #[]).perform (Mapper.new "a\\101z".toList Grammar.proto)) ∧
      Text.units "a\\101z".toList < offsetLimit ∧
      Text.slice? "a\\101z".toList ⟨1, 4⟩ = some "\\10".toList ∧
      IsAligned Grammar.proto "a\\101z".toList 1 ∧
      1 ≤ (OffsetTable.build Grammar.proto "\\10".toList).decodedLength ∧
    ∃ o, (OffsetTable.build Grammar.proto "\\10".toList).get? 1 = some o ∧
      ((mapToHost 1 ⟨1, 4⟩).run ((Request.decode ⟨1, 4⟩ #[]).perform
        (Mapper.new "a\\101z".toList Grammar.proto))).value.1 = 1 + o :=
  ⟨.perform _ .new, by decide +kernel, by decide +kernel, by decide +kernel, by decide +kernel,
    mapToHost_of_builtin (.inr rfl) (.perform _ .new) (by decide +kernel) (by decide +kernel)
      (by decide +kernel) (by decide +kernel)⟩

end Mapper

end Unescape
