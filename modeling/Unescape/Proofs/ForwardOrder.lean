import Mathlib.Data.Nat.Basic
import Mathlib.Order.Monotone.Defs
import Unescape.Proofs.AlignedRange
import Unescape.Proofs.TableShape
import Unescape.Proofs.TokenExtension

set_option autoImplicit false

/-! # The order of mapped units

Both tables that a lookup may use ascend, and bringing what was found into the range keeps the order.
So the order of two units can only be lost between the last unit that the table of the literal answers
for and the first one behind it, for which the range is decoded on its own (`OrderedAtFault`,
`monotone_toHostFresh_iff`).

There it is kept in a range that starts at an aligned offset (`orderedAtFault_of_isAligned`). In a range
that starts inside an escape the two tables read different tokens, and the range on its own may have
its next unit in front of where the literal had its last one. -/

namespace Unescape

namespace Mapper

variable {g : Grammar} {host part q : Text} {range : Span}

/-! ## Lookups in order -/

/-- A lookup ends no further than another one. Where nothing is found, that is behind everything. -/
def NoFurther (found found' : Option Nat) : Prop := ∀ b ∈ found', ∃ a ∈ found, a ≤ b

theorem noFurther_entries (g : Grammar) (t : Text) {i j : Nat} (hij : i ≤ j) :
    NoFurther (scan g t).entries[i]? (scan g t).entries[j]? := by
  intro b hb
  have hj := (List.getElem?_eq_some_iff.1 hb).1
  have ha := List.getElem?_eq_getElem (Nat.lt_of_le_of_lt hij hj)
  exact ⟨_, ha, entries_mono g t hij ha hb⟩

theorem NoFurther.map_add {found found' : Option Nat} (h : NoFurther found found') (start : Nat) :
    NoFurther (found.map (start + ·)) (found'.map (start + ·)) := by
  intro _ hmap
  obtain ⟨b, hb, rfl⟩ := Option.map_eq_some_iff.1 hmap
  obtain ⟨a, ha, hle⟩ := h b hb
  exact ⟨start + a, Option.mem_map_of_mem _ ha, Nat.add_le_add_left hle start⟩

/-- The offset of a range that a lookup is brought to. -/
def bringInto (range : Span) : Option Nat → Nat
  | some found => if found ≤ range.stop then max found range.start else range.stop
  | none => range.stop

theorem toHostFresh_eq_bringInto (g : Grammar) (host : Text) (i : Nat) (range : Span) :
    toHostFresh g host i range = bringInto range (lookupFresh g host i range) := by
  unfold toHostFresh bringInto
  cases lookupFresh g host i range <;> rfl

theorem NoFurther.bringInto_le {found found' : Option Nat} (h : NoFurther found found')
    (hle : range.start ≤ range.stop) : bringInto range found ≤ bringInto range found' := by
  cases found' with
  | none =>
    cases found with
    | none => exact Nat.le_refl _
    | some a =>
      simp only [bringInto]
      split <;> omega
  | some b =>
    obtain ⟨a, rfl, hab⟩ := h b rfl
    simp only [bringInto]
    split <;> split <;> omega

/-! ## From one table to the other -/

/-- The last unit that a literal decodes in front of its malformed escape, if it belongs to the range, is
    mapped no further than the unit that follows it. -/
def OrderedAtFault (g : Grammar) (host : Text) (range : Span) : Prop :=
  ∀ i, i + decodedUnits g (Text.takeUnits host range.start) + 1
      = (OffsetTable.build g host).decodedLength →
    toHostFresh g host i range ≤ toHostFresh g host (i + 1) range

instance (g : Grammar) (host : Text) (range : Span) : Decidable (OrderedAtFault g host range) :=
  decidable_of_iff (∀ i, i < (OffsetTable.build g host).decodedLength →
      i + decodedUnits g (Text.takeUnits host range.start) + 1
        = (OffsetTable.build g host).decodedLength →
      toHostFresh g host i range ≤ toHostFresh g host (i + 1) range)
    ⟨fun h i hi => h i (by omega) hi, fun h i _ => h i⟩

theorem toHostFresh_le_of_covers (hfit : Text.units host < offsetLimit)
    (hle : range.start ≤ range.stop) {i j : Nat} (hij : i ≤ j)
    (hi : Covers g host (i + decodedUnits g (Text.takeUnits host range.start)))
    (hj : Covers g host (j + decodedUnits g (Text.takeUnits host range.start))) :
    toHostFresh g host i range ≤ toHostFresh g host j range := by
  rw [toHostFresh_eq_bringInto, toHostFresh_eq_bringInto, lookupFresh_of_covers hfit hi,
    lookupFresh_of_covers hfit hj, get?_build, get?_build]
  exact (noFurther_entries g host (Nat.add_le_add_right hij _)).bringInto_le hle

theorem toHostFresh_le_of_not_covers (hfit : Text.units host < offsetLimit)
    (hpart : Text.slice? host range = some part) {i j : Nat} (hij : i ≤ j)
    (hi : ¬ Covers g host (i + decodedUnits g (Text.takeUnits host range.start)))
    (hj : ¬ Covers g host (j + decodedUnits g (Text.takeUnits host range.start))) :
    toHostFresh g host i range ≤ toHostFresh g host j range := by
  have hle := ((Text.slice?_eq_some_iff _ _ _).1 hpart).1
  rw [toHostFresh_eq_bringInto, toHostFresh_eq_bringInto, lookupFresh_of_not_covers hfit hpart hi,
    lookupFresh_of_not_covers hfit hpart hj, get?_build, get?_build]
  exact ((noFurther_entries g part hij).map_add range.start).bringInto_le hle

/-- Mapping keeps the order of all units if it keeps that of the two at the malformed escape. -/
theorem monotone_toHostFresh_iff (hfit : Text.units host < offsetLimit)
    (hpart : Text.slice? host range = some part) :
    Monotone (fun i => toHostFresh g host i range) ↔ OrderedAtFault g host range := by
  have hle := ((Text.slice?_eq_some_iff _ _ _).1 hpart).1
  constructor
  · exact fun hmono i _ => hmono (Nat.le_succ i)
  · intro hordered i j hij
    by_cases hj : Covers g host (j + decodedUnits g (Text.takeUnits host range.start))
    · have hi : Covers g host (i + decodedUnits g (Text.takeUnits host range.start)) :=
        hj.imp id fun hlt => by omega
      exact toHostFresh_le_of_covers hfit hle hij hi hj
    · by_cases hi : Covers g host (i + decodedUnits g (Text.takeUnits host range.start))
      · -- The last unit of the one table and the first one of the other lie between the two.
        obtain ⟨hincomplete, hlen⟩ := not_or.1 hj
        have hlt := hi.resolve_left hincomplete
        obtain ⟨k, hk⟩ : ∃ k, k + decodedUnits g (Text.takeUnits host range.start) + 1
            = (OffsetTable.build g host).decodedLength :=
          ⟨(OffsetTable.build g host).decodedLength - 1
            - decodedUnits g (Text.takeUnits host range.start), by omega⟩
        calc toHostFresh g host i range
            ≤ toHostFresh g host k range :=
              toHostFresh_le_of_covers hfit hle (by omega) hi (.inr (by omega))
          _ ≤ toHostFresh g host (k + 1) range := hordered k hk
          _ ≤ toHostFresh g host j range :=
              toHostFresh_le_of_not_covers hfit hpart (by omega)
                (not_or.2 ⟨hincomplete, by omega⟩) hj
      · exact toHostFresh_le_of_not_covers hfit hpart hij hi hj

/-- In a literal without a malformed escape only one table is used. -/
theorem orderedAtFault_of_isComplete (hfit : Text.units host < offsetLimit)
    (hle : range.start ≤ range.stop)
    (hcomplete : (OffsetTable.build g host).status.isComplete = true) :
    OrderedAtFault g host range :=
  fun i _ => toHostFresh_le_of_covers hfit hle (Nat.le_succ i) (.inl hcomplete) (.inl hcomplete)

/-! ## Ranges that start at an aligned offset -/

theorem ownEntry_mono (g : Grammar) (t : Text) {i j : Nat} (hij : i ≤ j) :
    ownEntry g t i ≤ ownEntry g t j := by
  have hbound : ∀ o ∈ (scan g t).entries, o ≤ Text.units t := fun o ho =>
    Nat.le_trans (le_consumed_of_mem_entries g t ho) (consumed_scan_le g t)
  unfold ownEntry
  cases hj : (scan g t).entries[j]? with
  | none =>
    cases hi : (scan g t).entries[i]? with
    | none => exact Nat.le_refl _
    | some a => exact hbound a (List.mem_of_getElem? hi)
  | some b =>
    obtain ⟨a, ha, hle⟩ := noFurther_entries g t hij b hj
    rw [ha]
    exact hle

theorem ownEntry_add {ms : List Token} {v : Text} (hfronts : Fronts g ms v) (k : Nat) :
    ownEntry g (Token.textOf ms ++ v) (Text.units (Token.charsOf ms) + k)
      = Text.units (Token.textOf ms) + ownEntry g v k := by
  unfold ownEntry
  rw [hfronts.getElem?_entries_add, Text.units_append]
  cases (scan g v).entries[k]? <;> rfl

/-- The first unit behind tokens at the front of a text is where these end. -/
theorem ownEntry_charsOf {ts : List Token} {u : Text} (hfronts : Fronts g ts u) :
    ownEntry g (Token.textOf ts ++ u) (Text.units (Token.charsOf ts)) = Text.units (Token.textOf ts) := by
  have hentry := ownEntry_add hfronts 0
  rwa [ownEntry_zero, Nat.add_zero, Nat.add_zero] at hentry

theorem mappedEntry_le (g : Grammar) (part q : Text) (i : Nat) :
    mappedEntry g part q i ≤ Text.units part := by
  unfold mappedEntry
  cases entryIn g part q i with
  | none => exact Nat.le_refl _
  | some o => exact Nat.min_le_left _ _

theorem mappedEntry_of_covers {i : Nat} (h : Covers g (part ++ q) i) :
    mappedEntry g part q i
      = ((scan g (part ++ q)).entries[i]?).elim (Text.units part) (min (Text.units part)) := by
  rw [mappedEntry, entryIn, if_pos h]

theorem mappedEntry_of_not_covers {i : Nat} (h : ¬ Covers g (part ++ q) i) :
    mappedEntry g part q i = ownEntry g part i := by
  rw [mappedEntry, entryIn, if_neg h, elim_min_entries]

theorem mappedEntry_le_of_covers {i j : Nat} (hij : i ≤ j) (hi : Covers g (part ++ q) i)
    (hj : Covers g (part ++ q) j) : mappedEntry g part q i ≤ mappedEntry g part q j := by
  rw [mappedEntry_of_covers hi, mappedEntry_of_covers hj]
  cases hb : (scan g (part ++ q)).entries[j]? with
  | none =>
    rw [← mappedEntry_of_covers hi]
    exact mappedEntry_le g part q i
  | some b =>
    obtain ⟨a, ha, hle⟩ := noFurther_entries g (part ++ q) hij b hb
    rw [ha, Option.elim_some, Option.elim_some]
    omega

/-- Behind the place where the decode of a text stopped, every offset is aligned. -/
theorem isAligned_of_consumed_le {t : Text} {offset : Nat} (hfault : (scan g t).fault ≠ none)
    (h : (scan g t).consumed ≤ offset) : IsAligned g t offset := by
  rcases Nat.eq_or_lt_of_le h with rfl | hlt
  · exact .inl ⟨(scan g t).tokens, [], (List.append_nil _).symm, rfl⟩
  · exact .inr (stopsBefore_iff.2 ⟨hfault, hlt⟩)

/-- A token that is cut has no third unit in the range. -/
theorem ownEntry_of_cutsFirst {v : Text} (hcut : CutsFirst g v q) {tok : Token} {us : List Token}
    (htokens : (scan g (v ++ q)).tokens = tok :: us) {j : Nat} (hj : 2 ≤ j) :
    ownEntry g v j = Text.units v := by
  unfold ownEntry
  cases hentry : (scan g v).entries[j]? with
  | none => rfl
  | some o =>
    rcases tokens_of_cutsFirst hcut htokens with hnil | ⟨tok', htok', htext⟩
    · have hlen := (List.getElem?_eq_some_iff.1 hentry).1
      rw [length_entries, hnil] at hlen
      simp only [Token.charsOf_nil, Text.units_nil] at hlen
      omega
    · -- Only the sentinel can stand so far behind in the table, and it is the end of the text.
      have hlen := (List.getElem?_eq_some_iff.1 hentry).1
      have hunits := unitsOf_eq_one_or_two tok'.char
      have hproper := proper_tokens g v tok' (by simp [htok'])
      have hlength := Token.length_offsets hproper 0
      rw [length_entries, htok'] at hlen
      simp only [Token.charsOf_cons, Token.charsOf_nil, Text.units_cons, Text.units_nil] at hlen
      rw [Scan.entries, htok'] at hentry
      simp only [Token.offsetsOf, List.append_nil, Scan.consumed, htok', Token.textOf_cons,
        Token.textOf_nil, htext] at hentry
      rw [List.getElem?_append_right (by omega), hlength] at hentry
      obtain ⟨hlt, rfl⟩ := List.getElem?_eq_some_iff.1 hentry
      simp

/-- Behind the tokens that end in the range, a unit that the literal has is mapped no further than the
    next one that the range has. -/
theorem mappedEntry_le_ownEntry_succ {ms : List Token} {v : Text} (hfronts : Fronts g ms (v ++ q))
    (hcut : CutsFirst g v q) {tok : Token} {us : List Token}
    (htokens : (scan g (v ++ q)).tokens = tok :: us) (k : Nat) :
    mappedEntry g (Token.textOf ms ++ v) q (Text.units (Token.charsOf ms) + k)
      ≤ ownEntry g (Token.textOf ms ++ v) (Text.units (Token.charsOf ms) + k + 1) := by
  cases k with
  | zero =>
    -- The unit is the first one of the token that is cut, and begins where that does.
    rw [mappedEntry_of_fronts hfronts fun j hj => by
      obtain rfl : j = 0 := by omega
      rw [mappedEntry_zero, ownEntry_zero]]
    exact ownEntry_mono g _ (Nat.le_succ _)
  | succ k =>
    -- The unit that follows is behind all that is left of the token.
    rw [Nat.add_assoc _ (k + 1) 1, ownEntry_add hfronts.left,
      ownEntry_of_cutsFirst hcut htokens (Nat.le_add_left 2 k), ← Text.units_append]
    exact mappedEntry_le g _ q _

/-- Behind a boundary, the last unit that the literal decodes is mapped no further than the unit that
    follows it. -/
theorem mappedEntry_le_succ {i : Nat}
    (hi : i + 1 = Text.units (Token.charsOf (scan g (part ++ q)).tokens)) :
    mappedEntry g part q i ≤ mappedEntry g part q (i + 1) := by
  have hcovers : Covers g (part ++ q) i := covers_iff.2 (.inr (by omega))
  by_cases hsucc : Covers g (part ++ q) (i + 1)
  · exact mappedEntry_le_of_covers (Nat.le_succ i) hcovers hsucc
  · rw [mappedEntry_of_not_covers hsucc]
    have hfault : (scan g (part ++ q)).fault ≠ none := fun hnone => hsucc (covers_iff.2 (.inl hnone))
    by_cases hstop : (scan g (part ++ q)).consumed ≤ Text.units part
    · -- The escape at which the literal stopped begins in the range.
      rw [mappedEntry_of_isAligned (isAligned_of_consumed_le hfault hstop)]
      exact ownEntry_mono g part (Nat.le_succ i)
    · -- It begins behind the range, so the range ends inside a token.
      obtain ⟨ms, v, rfl, hfronts, hcut⟩ := exists_fronts_append g part q
      rw [List.append_assoc, hfronts.scan_append] at hi hstop
      rw [Scan.consumed_prepend, Text.units_append] at hstop
      cases htokens : (scan g (v ++ q)).tokens with
      | nil =>
        simp only [Scan.consumed, htokens, Token.textOf_nil, Text.units_nil] at hstop
        omega
      | cons tok us =>
        have hunits := unitsOf_pos tok.char
        simp only [Scan.tokens_prepend, htokens, Token.charsOf_append, Token.charsOf_cons,
          Text.units_append, Text.units_cons] at hi
        obtain ⟨k, rfl⟩ : ∃ k, i = Text.units (Token.charsOf ms) + k :=
          ⟨i - Text.units (Token.charsOf ms), by omega⟩
        exact mappedEntry_le_ownEntry_succ hfronts hcut htokens k

/-- In a range that starts at an aligned offset the order is kept, wherever the range ends. -/
theorem orderedAtFault_of_isAligned (hfit : Text.units host < offsetLimit)
    (hpart : Text.slice? host range = some part) (hstart : IsAligned g host range.start) :
    OrderedAtFault g host range := by
  intro i hi
  rcases hstart with hboundary | hstopped
  · obtain ⟨ts, q, rfl, hfronts, hstart, -⟩ := exists_fronts_of_isBoundary hpart hboundary
    rw [toHostFresh_of_fronts hfronts hpart hstart hfit, toHostFresh_of_fronts hfronts hpart hstart hfit]
    rw [hstart, decodedUnits_takeUnits_of_fronts hfronts, decodedLength_build, hfronts.scan_append,
      Scan.tokens_prepend, Token.charsOf_append, Text.units_append] at hi
    exact Nat.add_le_add_left (mappedEntry_le_succ (by omega)) _
  · rw [toHostFresh_of_stopsBefore hpart hstopped hfit, toHostFresh_of_stopsBefore hpart hstopped hfit]
    exact Nat.add_le_add_left (ownEntry_mono g part (Nat.le_succ i)) _

end Mapper

end Unescape
