import Mathlib.Data.List.Pairwise
import Unescape.Proofs.TableEntries

set_option autoImplicit false

/-! # From a host offset to a decoded unit

`OffsetTable.decodedIndex` searches the ascending entries of a table twice: for the last entry at or
before a host offset, and then for the first entry with that value. So its answer is the number of
entries below the greatest entry that does not exceed the host offset (`decodedIndex_eq_countP`).

From this follow the two comparisons that mapping needs. A table that continues another one answers
as that one does, moved by the number of entries in front (`decodedIndex_append_map`), and two tables
that agree up to some offset answer alike below it (`decodedIndex_append_of_lt`). -/

namespace Unescape

/-! ## Partition points count -/

variable {α : Type}

theorem partitionPoint_eq_countP {p : α → Bool} {l : List α}
    (hp : IsPartitioned p l.toArray) : partitionPoint p l.toArray = l.countP p := by
  have hle : partitionPoint p l.toArray ≤ l.length := by simpa using partitionPoint_le p l.toArray
  have hfront : (l.take (partitionPoint p l.toArray)).countP p = partitionPoint p l.toArray := by
    refine (List.countP_eq_length.2 fun a ha => ?_).trans (List.length_take_of_le hle)
    obtain ⟨i, hi, rfl⟩ := List.mem_take_iff_getElem.1 ha
    have := (lt_partitionPoint_iff hp i (by simp; omega)).1 (by omega)
    simpa using this
  have hback : (l.drop (partitionPoint p l.toArray)).countP p = 0 := by
    refine List.countP_eq_zero.2 fun a ha => ?_
    obtain ⟨i, hi, rfl⟩ := List.mem_drop_iff_getElem.1 ha
    intro hpa
    have := (lt_partitionPoint_iff hp (partitionPoint p l.toArray + i) (by simp; omega)).2
      (by simpa using hpa)
    omega
  calc partitionPoint p l.toArray
      = (l.take (partitionPoint p l.toArray)).countP p
          + (l.drop (partitionPoint p l.toArray)).countP p := by rw [hfront, hback, Nat.add_zero]
    _ = l.countP p := by rw [← List.countP_append, List.take_append_drop]

theorem isPartitioned_of_pairwise {l : List Nat} (hl : l.Pairwise (· ≤ ·)) {p : Nat → Bool}
    (hp : ∀ a b, a ≤ b → p b = true → p a = true) : IsPartitioned p l.toArray := by
  intro i j hij hj hpj
  rw [List.size_toArray] at hj
  have hle := hl.rel_get_of_le (show (⟨i, by omega⟩ : Fin l.length) ≤ ⟨j, hj⟩ from hij)
  exact hp _ _ hle hpj

/-- The number of entries that satisfy a downward closed property, and where they stand. -/
theorem getElem_of_lt_countP {l : List Nat} (hl : l.Pairwise (· ≤ ·)) {p : Nat → Bool}
    (hp : ∀ a b, a ≤ b → p b = true → p a = true) (i : Nat) (hi : i < l.length) :
    i < l.countP p ↔ p l[i] = true := by
  have hpart := isPartitioned_of_pairwise hl hp
  rw [← partitionPoint_eq_countP hpart]
  exact lt_partitionPoint_iff hpart i (by simpa using hi)

/-! ## The index of a host offset -/

/-- `top` is the greatest entry that does not exceed `host`. -/
structure IsFloor (l : List Nat) (host top : Nat) : Prop where
  mem : top ∈ l
  le : top ≤ host
  le_of_mem : ∀ e ∈ l, e ≤ host → e ≤ top

/-- A table that begins with the first unit has an entry at or before every host offset. -/
theorem exists_isFloor {l : List Nat} (h0 : 0 ∈ l) (host : Nat) : ∃ top, IsFloor l host top := by
  induction host with
  | zero => exact ⟨0, h0, Nat.le_refl _, fun e _ he => he⟩
  | succ host ih =>
    by_cases hmem : host + 1 ∈ l
    · exact ⟨host + 1, hmem, Nat.le_refl _, fun e _ he => he⟩
    · obtain ⟨top, htop⟩ := ih
      refine ⟨top, htop.mem, Nat.le_succ_of_le htop.le, fun e he hle => htop.le_of_mem e he ?_⟩
      have hne : e ≠ host + 1 := fun heq => hmem (heq ▸ he)
      omega

/-- The index of a host offset is the number of entries below the last one at or before it. -/
theorem decodedIndex_eq_countP {l : List Nat} (hl : l.Pairwise (· ≤ ·)) {host top : Nat}
    (htop : IsFloor l host top) (status : Status) :
    OffsetTable.decodedIndex ⟨l.toArray, status⟩ host = l.countP (· < top) := by
  have hle : ∀ a b, a ≤ b → decide (b ≤ host) = true → decide (a ≤ host) = true := by
    intro a b hab hb
    simp only [decide_eq_true_eq] at hb ⊢
    omega
  have hlt : ∀ a b, a ≤ b → decide (b < top) = true → decide (a < top) = true := by
    intro a b hab hb
    simp only [decide_eq_true_eq] at hb ⊢
    omega
  have hcount := partitionPoint_eq_countP (isPartitioned_of_pairwise hl hle)
  have hpos : 0 < l.countP (· ≤ host) :=
    List.countP_pos_iff.2 ⟨top, htop.mem, by simpa using htop.le⟩
  unfold OffsetTable.decodedIndex
  rw [hcount]
  split
  · omega
  · rename_i last hlast
    have hlen : last < l.length := by
      have := l.countP_le_length (p := (· ≤ host))
      omega
    -- The last entry at or before the host offset is the greatest of them.
    have hentry : l[last] = top := by
      have hlast_le : l[last] ≤ host := by
        have := (getElem_of_lt_countP hl hle last hlen).1 (by omega)
        simpa using this
      refine Nat.le_antisymm (htop.le_of_mem _ (List.getElem_mem _) hlast_le) ?_
      obtain ⟨i, hi, hget⟩ := List.mem_iff_getElem.1 htop.mem
      have hi' : i < l.countP (· ≤ host) :=
        (getElem_of_lt_countP hl hle i hi).2 (by simpa [hget] using htop.le)
      have hlast_le : i ≤ last := by omega
      rw [← hget]
      exact hl.rel_get_of_le (show (⟨i, hi⟩ : Fin l.length) ≤ ⟨last, hlen⟩ from hlast_le)
    have hget : (l.toArray[last]?).getD 0 = top := by simp [hlen, hentry]
    rw [hget]
    exact partitionPoint_eq_countP (isPartitioned_of_pairwise hl hlt)

/-! ## Comparing tables -/

/-- Entries in front, all below `start`, move the answers of a table that begins at `start`. -/
theorem decodedIndex_append_map {front l : List Nat} {start : Nat} (h0 : 0 ∈ l)
    (hl : l.Pairwise (· ≤ ·)) (hall : (front ++ l.map (· + start)).Pairwise (· ≤ ·))
    (hfront : ∀ e ∈ front, e < start) (host : Nat) (status status' : Status) :
    OffsetTable.decodedIndex ⟨(front ++ l.map (· + start)).toArray, status⟩ (start + host)
      = front.length + OffsetTable.decodedIndex ⟨l.toArray, status'⟩ host := by
  obtain ⟨top, htop⟩ := exists_isFloor h0 host
  have htop' : IsFloor (front ++ l.map (· + start)) (start + host) (top + start) := by
    refine ⟨?_, ?_, fun e he hle => ?_⟩
    · exact List.mem_append_right _ (List.mem_map_of_mem htop.mem)
    · have := htop.le
      omega
    · rcases List.mem_append.1 he with he | he
      · have := hfront e he
        omega
      · obtain ⟨e', he', rfl⟩ := List.mem_map.1 he
        have := htop.le_of_mem e' he' (by omega)
        omega
  have hcount : front.countP (· < top + start) = front.length :=
    List.countP_eq_length.2 fun e he => by
      have := hfront e he
      simp only [decide_eq_true_eq]
      omega
  rw [decodedIndex_eq_countP hall htop', decodedIndex_eq_countP hl htop, List.countP_append, hcount,
    List.countP_map]
  congr 2
  funext e
  simp

/-- Tables with the same front part answer alike below everything that follows it. -/
theorem decodedIndex_append_of_lt {front l l' : List Nat} {stop host : Nat} (h0 : 0 ∈ front)
    (hl : (front ++ l).Pairwise (· ≤ ·)) (hl' : (front ++ l').Pairwise (· ≤ ·))
    (hstop : ∀ e ∈ l, stop ≤ e) (hstop' : ∀ e ∈ l', stop ≤ e) (hhost : host < stop)
    (status status' : Status) :
    OffsetTable.decodedIndex ⟨(front ++ l).toArray, status⟩ host
      = OffsetTable.decodedIndex ⟨(front ++ l').toArray, status'⟩ host := by
  obtain ⟨top, htop⟩ := exists_isFloor h0 host
  have hfloor : ∀ r : List Nat, (∀ e ∈ r, stop ≤ e) → IsFloor (front ++ r) host top := by
    refine fun r hr => ⟨List.mem_append_left _ htop.mem, htop.le, fun e he hle => ?_⟩
    rcases List.mem_append.1 he with he | he
    · exact htop.le_of_mem e he hle
    · have := hr e he
      omega
  have hnone : ∀ r : List Nat, (∀ e ∈ r, stop ≤ e) → r.countP (· < top) = 0 := by
    refine fun r hr => List.countP_eq_zero.2 fun e he => ?_
    have := hr e he
    have := htop.le
    simp only [decide_eq_true_eq]
    omega
  rw [decodedIndex_eq_countP hl (hfloor l hstop), decodedIndex_eq_countP hl' (hfloor l' hstop'),
    List.countP_append, List.countP_append, hnone l hstop, hnone l' hstop']

/-- At the first offset behind a front part the answer is the length of that part. -/
theorem decodedIndex_append_of_eq {front l : List Nat} {stop : Nat}
    (hl : (front ++ l).Pairwise (· ≤ ·)) (hfront : ∀ e ∈ front, e < stop)
    (hmem : stop ∈ l) (hstop : ∀ e ∈ l, stop ≤ e) (status : Status) :
    OffsetTable.decodedIndex ⟨(front ++ l).toArray, status⟩ stop = front.length := by
  have htop : IsFloor (front ++ l) stop stop :=
    ⟨List.mem_append_right _ hmem, Nat.le_refl _, fun e _ he => he⟩
  have hcount : front.countP (· < stop) = front.length :=
    List.countP_eq_length.2 fun e he => by simpa using hfront e he
  have hnone : l.countP (· < stop) = 0 :=
    List.countP_eq_zero.2 fun e he => by simpa using hstop e he
  rw [decodedIndex_eq_countP hl htop, List.countP_append, hcount, hnone, Nat.add_zero]

end Unescape
