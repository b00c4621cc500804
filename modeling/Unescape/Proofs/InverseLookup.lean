import Mathlib.Order.Bounds.Defs
import Unescape.Proofs.ReverseOrder
import Unescape.Proofs.TableShape

set_option autoImplicit false

/-! # The two lookups of a table undo each other

`OffsetTable.get?` leads from a unit of the decoded text to the host, and `OffsetTable.decodedIndex` leads
back. A host offset need not be an entry, and an entry may stand twice in the table, so the way back
takes the greatest entry that does not exceed the offset, and the first place where that entry stands
(`isLeast_decodedIndex`).

From a unit to the host and back leads to that unit again. The one exception is the second half of a
supplementary character that a single escape stands for: it has the entry of the first half, and it is
the first half that is found (`decodedIndex_inverts_get?`). -/

namespace Unescape

/-! ## Where an entry stands first -/

/-- In an ascending list an entry stands first behind all smaller ones. -/
theorem isLeast_countP {l : List Nat} (hl : l.Pairwise (· ≤ ·)) {top : Nat} (htop : top ∈ l) :
    IsLeast {i | l[i]? = some top} (l.countP (· < top)) := by
  have hlt : ∀ a b, a ≤ b → decide (b < top) = true → decide (a < top) = true := by
    intro a b hab hb
    simp only [decide_eq_true_eq] at hb ⊢
    omega
  have hcount := fun i hi => getElem_of_lt_countP hl hlt i hi
  -- No smaller entry stands at or behind the first place of `top`.
  have hle : ∀ i, l[i]? = some top → l.countP (· < top) ≤ i := by
    intro i hi
    obtain ⟨hlen, hget⟩ := List.getElem?_eq_some_iff.1 hi
    refine Nat.le_of_not_lt ?_
    intro hbelow
    have := (hcount i hlen).1 hbelow
    simp [hget] at this
  obtain ⟨i, hlen, hget⟩ := List.mem_iff_getElem.1 htop
  have hfirst := hle i (by rw [List.getElem?_eq_getElem hlen, hget])
  have hlen' : l.countP (· < top) < l.length := Nat.lt_of_le_of_lt hfirst hlen
  refine ⟨?_, hle⟩
  have hge : top ≤ l[l.countP (· < top)] := by
    have hnot := mt (hcount _ hlen').2 (Nat.lt_irrefl _)
    simpa using hnot
  have hle' : l[l.countP (· < top)] ≤ l[i] := by
    exact hl.rel_get_of_le (show (⟨_, hlen'⟩ : Fin l.length) ≤ ⟨i, hlen⟩ from hfirst)
  show l[l.countP (· < top)]? = some top
  rw [List.getElem?_eq_getElem hlen', Nat.le_antisymm (hle'.trans (Nat.le_of_eq hget)) hge]

section Table

variable (g : Grammar) (t : Text)

/-- The index of a host offset is the first one of the greatest entry that does not exceed it. -/
theorem isLeast_decodedIndex (host : Nat) :
    ∃ top, IsGreatest {e | (∃ i, (OffsetTable.build g t).get? i = some e) ∧ e ≤ host} top ∧
      IsLeast {i | (OffsetTable.build g t).get? i = some top}
        ((OffsetTable.build g t).decodedIndex host) := by
  obtain ⟨top, htop⟩ := exists_isFloor (scan g t).zero_mem_entries host
  refine ⟨top, ⟨⟨?_, htop.le⟩, ?_⟩, ?_⟩
  · obtain ⟨i, hi⟩ := List.mem_iff_getElem?.1 htop.mem
    exact ⟨i, by rw [get?_build, hi]⟩
  · rintro e ⟨⟨i, hi⟩, hle⟩
    rw [get?_build] at hi
    exact htop.le_of_mem e (List.mem_of_getElem? hi) hle
  · rw [decodedIndex_build_eq_countP g t htop]
    simp only [get?_build]
    exact isLeast_countP (pairwise_entries g t) htop.mem

/-- Going to the host and back leads to the first unit with the same entry. -/
theorem isLeast_decodedIndex_of_get? {i e : Nat} (hi : (OffsetTable.build g t).get? i = some e) :
    IsLeast {j | (OffsetTable.build g t).get? j = some e} ((OffsetTable.build g t).decodedIndex e) := by
  obtain ⟨top, ⟨⟨-, hle⟩, hgreatest⟩, hleast⟩ := isLeast_decodedIndex g t e
  obtain rfl : top = e := Nat.le_antisymm hle (hgreatest ⟨⟨i, hi⟩, Nat.le_refl _⟩)
  exact hleast

/-- Every unit has an entry, and so has the end of the decoded text. -/
theorem exists_get?_build {i : Nat} (hi : i ≤ (OffsetTable.build g t).decodedLength) :
    ∃ e, (OffsetTable.build g t).get? i = some e := by
  rw [decodedLength_build] at hi
  have hlen : i < (scan g t).entries.length := by
    rw [length_entries]
    omega
  exact ⟨_, (get?_build g t i).trans (List.getElem?_eq_getElem hlen)⟩

theorem decodedIndex_build_of_consumed_le {host : Nat} (h : (OffsetTable.build g t).consumed ≤ host) :
    (OffsetTable.build g t).decodedIndex host = (OffsetTable.build g t).decodedLength := by
  rw [consumed_build] at h
  -- The sentinel is the greatest entry of all, and it stands behind the units.
  have htop : IsFloor (scan g t).entries host (scan g t).consumed :=
    ⟨List.mem_append_right _ (List.mem_singleton_self _), h,
      fun e he _ => le_consumed_of_mem_entries g t he⟩
  have hunits : (Token.offsetsOf 0 (scan g t).tokens).countP (· < (scan g t).consumed)
      = (Token.offsetsOf 0 (scan g t).tokens).length := by
    refine List.countP_eq_length.2 ?_
    intro e he
    have := (Token.mem_offsetsOf (proper_tokens g t) he).2
    rw [Nat.zero_add] at this
    exact decide_eq_true this
  rw [decodedIndex_build_eq_countP g t htop, Scan.entries, List.countP_append, hunits,
    Token.length_offsetsOf (proper_tokens g t), decodedLength_build]
  simp

end Table

/-! ## Units that share an escape -/

/-- An escape has no more than two units: no unit is the second half of one and the first half of the
    next. -/
theorem Token.not_sharesEscape_succ {ts : List Token} {i : Nat} (h : SharesEscape ts i) :
    ¬ SharesEscape ts (i + 1) := by
  rintro ⟨front', lexeme', c', back', hts', -, hi'⟩
  obtain ⟨front, lexeme, c, back, hts, hunits, hi⟩ := h
  rw [hts] at hts'
  rcases List.append_eq_append_iff.1 hts' with ⟨mid, rfl, hmid⟩ | ⟨mid, rfl, hmid⟩
  · -- The escape of the units `i` and `i + 1` stands in front of the other one.
    rw [charsOf_append, Text.units_append] at hi'
    cases mid with
    | nil =>
      rw [charsOf_nil, Text.units_nil] at hi'
      omega
    | cons tok mid =>
      obtain ⟨rfl, -⟩ := List.cons.inj hmid
      rw [charsOf_cons, Text.units_cons, char, hunits] at hi'
      omega
  · rw [charsOf_append, Text.units_append] at hi
    omega

section Units

variable {g : Grammar} {t : Text} {i : Nat}

/-- A unit that shares no escape with the one in front of it has an entry of its own. -/
theorem lt_of_get?_of_not_sharesEscape (h : ∀ k, SharesEscape g t k → i ≠ k + 1) {j a b : Nat} (hji : j < i)
    (ha : (OffsetTable.build g t).get? j = some a) (hb : (OffsetTable.build g t).get? i = some b) :
    a < b := by
  have hrecords := recordsOffsets_entries g t
  simp only [get?_build, ← List.getElem?_toArray] at ha hb
  obtain ⟨k, rfl⟩ := Nat.exists_eq_add_of_lt hji
  obtain ⟨m, hm⟩ : ∃ m, (scan g t).entries.toArray[j + k]? = some m := by
    have hlen := (Array.getElem?_eq_some_iff.1 hb).1
    exact ⟨_, Array.getElem?_eq_getElem (Nat.lt_of_succ_lt hlen)⟩
  have hle := hrecords.mono j (j + k) a m (Nat.le_add_right j k) ha hm
  have hle' := hrecords.mono (j + k) (j + k + 1) m b (Nat.le_succ _) hm hb
  have hne := mt (hrecords.eq_succ_iff (j + k) m b hm hb).1 fun hshares => h (j + k) hshares rfl
  omega

theorem decodedIndex_of_not_sharesEscape (h : ∀ k, SharesEscape g t k → i ≠ k + 1) {e : Nat}
    (he : (OffsetTable.build g t).get? i = some e) : (OffsetTable.build g t).decodedIndex e = i := by
  obtain ⟨hmem, hle⟩ := isLeast_decodedIndex_of_get? g t he
  refine Nat.le_antisymm (hle he) (Nat.le_of_not_lt fun hlt => ?_)
  exact Nat.lt_irrefl e (lt_of_get?_of_not_sharesEscape h hlt hmem he)

/-- The second half of a supplementary character of one escape has the entry of the first half. -/
theorem exists_get?_of_sharesEscape (h : SharesEscape g t i) :
    ∃ e, (OffsetTable.build g t).get? i = some e ∧ (OffsetTable.build g t).get? (i + 1) = some e := by
  have hle : i + 1 ≤ (OffsetTable.build g t).decodedLength := by
    obtain ⟨front, lexeme, c, back, htokens, hunits, rfl⟩ := h
    rw [decodedLength_build, htokens, Token.charsOf_append, Token.charsOf_cons, Text.units_append,
      Text.units_cons, Token.char, hunits]
    omega
  obtain ⟨a, ha⟩ := exists_get?_build g t (Nat.le_of_succ_le hle)
  obtain ⟨b, hb⟩ := exists_get?_build g t hle
  refine ⟨a, ha, hb.trans (congrArg some ?_)⟩
  simp only [get?_build, ← List.getElem?_toArray] at ha hb
  exact (((recordsOffsets_entries g t).eq_succ_iff i a b ha hb).2 h).symm

end Units

/-- Looking up a host offset finds the first unit with the greatest entry that does not exceed it. So the
    answer is in the decoded text, keeps the order of host offsets, and is the end of the decoded text
    from where decoding ended on; and it leads from the entry of a unit back to the unit, or to the
    first half where the unit is the second half of a character that one escape stands for. -/
theorem decodedIndex_inverts_get? (g : Grammar) (t : Text) :
    (∀ host, ∃ top,
      IsGreatest {e | (∃ i, (OffsetTable.build g t).get? i = some e) ∧ e ≤ host} top ∧
      IsLeast {i | (OffsetTable.build g t).get? i = some top}
        ((OffsetTable.build g t).decodedIndex host)) ∧
    (∀ host, (OffsetTable.build g t).decodedIndex host ≤ (OffsetTable.build g t).decodedLength) ∧
    Monotone (OffsetTable.build g t).decodedIndex ∧
    (∀ host, (OffsetTable.build g t).consumed ≤ host →
      (OffsetTable.build g t).decodedIndex host = (OffsetTable.build g t).decodedLength) ∧
    (∀ i, i ≤ (OffsetTable.build g t).decodedLength → (∀ k, SharesEscape g t k → i ≠ k + 1) →
      ∃ e, (OffsetTable.build g t).get? i = some e ∧ (OffsetTable.build g t).decodedIndex e = i) ∧
    (∀ k, SharesEscape g t k →
      ∃ e, (OffsetTable.build g t).get? (k + 1) = some e ∧
        (OffsetTable.build g t).decodedIndex e = k) := by
  refine ⟨isLeast_decodedIndex g t, ?_, ?_, ?_, ?_, ?_⟩
  · intro host
    rw [decodedLength_build, ← Mapper.decodedUnits_eq]
    exact decodedIndex_build_le g t host
  · intro a b hab
    exact decodedIndex_build_mono g t hab
  · intro host hhost
    exact decodedIndex_build_of_consumed_le g t hhost
  · intro i hi hunit
    obtain ⟨e, he⟩ := exists_get?_build g t hi
    exact ⟨e, he, decodedIndex_of_not_sharesEscape hunit he⟩
  · intro k hshares
    obtain ⟨e, hfirst, hsecond⟩ := exists_get?_of_sharesEscape hshares
    refine ⟨e, hsecond, decodedIndex_of_not_sharesEscape (fun j hj hjk => ?_) hfirst⟩
    subst hjk
    exact Token.not_sharesEscape_succ hj hshares

/-- A character of two units written as it is, as two escapes and as one. -/
example :
    let table := OffsetTable.build Grammar.proto "😀\\uD83D\\uDE00\\U0001F600".toList
    table.offsets = #[0, 1, 2, 8, 14, 14, 24] ∧
      (List.range 26).map table.decodedIndex
        = [0, 1] ++ List.replicate 6 2 ++ List.replicate 6 3 ++ List.replicate 10 4 ++ [6, 6] := by
  decide +kernel

end Unescape
