import Unescape.Proofs.Alignment
import Unescape.Proofs.MapperAnswers

set_option autoImplicit false

/-! # Lookups in a range

A mapper looks a range up in the table of the whole literal, shifted by the baseline of the range,
and behind the first malformed escape of the literal in a table of the range alone. `Covers` says
which of the two is used.

If the range starts at a boundary, the table of the literal goes on there as the table of the text
from the boundary on does, so a lookup compares that text with its front part, the range (`entryIn`,
`lookupFresh_of_fronts`). If the range starts where the literal has no tokens, only the table of the
range is used (`lookupFresh_of_stopsBefore`).

`mappedEntry` is what mapping makes of a lookup, and `ownEntry` what it would make of the table of the
range. Tokens that lie in the range as a whole are the same in both, so the two need to be compared
only where the range ends (`mappedEntry_of_fronts`).

Offsets are words. Where a sum of offsets could leave them, a literal is taken to be no longer than
the largest word, as every literal in memory is. -/

namespace Unescape

/-- Tokens at the front of a text were read. -/
theorem Fronts.proper {g : Grammar} {ts : List Token} {u : Text} (h : Fronts g ts u) :
    ∀ tok ∈ ts, tok.Proper := by
  have := proper_tokens g (Token.textOf ts)
  rwa [h.scan_textOf] at this

theorem Fronts.length_offsetsOf {g : Grammar} {ts : List Token} {u : Text} (h : Fronts g ts u) :
    (Token.offsetsOf 0 ts).length = Text.units (Token.charsOf ts) :=
  Token.length_offsetsOf h.proper 0

theorem Fronts.lt_of_mem_offsetsOf {g : Grammar} {ts : List Token} {u : Text}
    (h : Fronts g ts u) : ∀ e ∈ Token.offsetsOf 0 ts, e < Text.units (Token.textOf ts) := by
  intro e he
  have := (Token.mem_offsetsOf h.proper he).2
  omega

/-- Behind the entries of the tokens at its front, a text has those of what follows them. -/
theorem Fronts.getElem?_entries_add {g : Grammar} {ts : List Token} {u : Text} (h : Fronts g ts u)
    (j : Nat) :
    (scan g (Token.textOf ts ++ u)).entries[Text.units (Token.charsOf ts) + j]?
      = ((scan g u).entries[j]?).map (Text.units (Token.textOf ts) + ·) := by
  have hlen := h.length_offsetsOf
  rw [h.scan_append, Scan.entries_prepend, List.getElem?_append_right (by omega), hlen,
    Nat.add_sub_cancel_left, List.getElem?_map]
  simp only [Nat.add_comm]

theorem Fronts.getElem?_entries_of_lt {g : Grammar} {ts : List Token} {u : Text}
    (h : Fronts g ts u) {i : Nat} (hi : i < Text.units (Token.charsOf ts)) :
    (scan g (Token.textOf ts ++ u)).entries[i]? = (Token.offsetsOf 0 ts)[i]? := by
  rw [h.scan_append, Scan.entries_prepend, List.getElem?_append_left (by rwa [h.length_offsetsOf])]

/-- A slice stands between a text in front, which ends where the span starts, and a text behind. -/
theorem Text.exists_of_slice?_eq_some {t part : Text} {range : Span}
    (h : Text.slice? t range = some part) :
    ∃ p q, t = p ++ (part ++ q) ∧ Text.units p = range.start ∧
      range.stop = range.start + Text.units part := by
  obtain ⟨hle, p, q, ht, hp, hm⟩ := (Text.slice?_eq_some_iff t range part).1 h
  exact ⟨p, q, by rw [ht, List.append_assoc], hp, by omega⟩

namespace Mapper

variable {g : Grammar} {host part q : Text} {ts : List Token} {range : Span}

/-! ## Decoded lengths -/

theorem decodedUnits_eq (g : Grammar) (t : Text) :
    decodedUnits g t = Text.units (Token.charsOf (scan g t).tokens) := by
  rw [decodedUnits, decode_plain_eq]

theorem decodedUnits_le (g : Grammar) (t : Text) : decodedUnits g t ≤ Text.units t := by
  have hle := Token.units_charsOf_le (proper_tokens g t)
  have hconsumed := consumed_scan_le g t
  rw [decodedUnits_eq]
  unfold Scan.consumed at hconsumed
  omega

theorem entries_getElem?_eq_none {t : Text} {i : Nat} (h : Text.units t < i) :
    (scan g t).entries[i]? = none := by
  have hle := decodedUnits_le g t
  rw [decodedUnits_eq] at hle
  rw [List.getElem?_eq_none_iff, length_entries]
  omega

/-- The baseline of a boundary is the decoded length of the tokens in front of it. -/
theorem decodedUnits_takeUnits_of_fronts {u : Text} (hfronts : Fronts g ts u) :
    decodedUnits g (Text.takeUnits (Token.textOf ts ++ u) (Text.units (Token.textOf ts)))
      = Text.units (Token.charsOf ts) := by
  rw [Text.takeUnits_append, decodedUnits_eq, hfronts.scan_textOf]

theorem le_decodedLength_of_get? {t : Text} {i o : Nat}
    (h : (OffsetTable.build g t).get? i = some o) : i ≤ (OffsetTable.build g t).decodedLength := by
  rw [get?_build] at h
  have hlt := (List.getElem?_eq_some_iff.1 h).1
  rw [length_entries] at hlt
  rw [decodedLength_build]
  omega

/-! ## Which table is used -/

/-- The table of a text is used for a unit: decoding the text did not stop in front of it. -/
def Covers (g : Grammar) (t : Text) (index : Nat) : Prop :=
  (OffsetTable.build g t).status.isComplete = true ∨ index < (OffsetTable.build g t).decodedLength

instance (g : Grammar) (t : Text) (index : Nat) : Decidable (Covers g t index) :=
  inferInstanceAs (Decidable (_ ∨ _))

theorem covers_iff {t : Text} {index : Nat} :
    Covers g t index ↔
      (scan g t).fault = none ∨ index < Text.units (Token.charsOf (scan g t).tokens) := by
  rw [Covers, isComplete_build, decodedLength_build, Option.isNone_iff_eq_none]

theorem covers_add_iff {u : Text} (hfronts : Fronts g ts u) (i : Nat) :
    Covers g (Token.textOf ts ++ u) (Text.units (Token.charsOf ts) + i) ↔ Covers g u i := by
  rw [covers_iff, covers_iff, hfronts.scan_append, Scan.fault_prepend, Scan.tokens_prepend,
    Token.charsOf_append, Text.units_append]
  exact or_congr Iff.rfl (Nat.add_lt_add_iff_left)

theorem lookupFresh_of_covers (hfit : Text.units host < offsetLimit) {i : Nat}
    (hcovers : Covers g host (i + decodedUnits g (Text.takeUnits host range.start))) :
    lookupFresh g host i range = (OffsetTable.build g host).get?
      (i + decodedUnits g (Text.takeUnits host range.start)) := by
  unfold lookupFresh addOffset?
  by_cases hlt : i + decodedUnits g (Text.takeUnits host range.start) < offsetLimit
  · simp only [if_pos hlt]
    exact if_pos (by simpa [Covers] using hcovers)
  · rw [if_neg hlt, get?_build, entries_getElem?_eq_none (by omega)]

theorem lookupFresh_of_not_covers (hfit : Text.units host < offsetLimit)
    (hpart : Text.slice? host range = some part) {i : Nat}
    (hcovers : ¬ Covers g host (i + decodedUnits g (Text.takeUnits host range.start))) :
    lookupFresh g host i range = ((OffsetTable.build g part).get? i).map (range.start + ·) := by
  unfold lookupFresh addOffset?
  by_cases hlt : i + decodedUnits g (Text.takeUnits host range.start) < offsetLimit
  · simp only [if_pos hlt]
    rw [if_neg (by simpa [Covers] using hcovers), hpart]
  · -- The sum of the offsets is no offset, and the table has no entry there.
    obtain ⟨p, q, rfl, hp, -⟩ := Text.exists_of_slice?_eq_some hpart
    have hle := decodedUnits_le g p
    rw [← hp, Text.takeUnits_append] at hlt
    rw [Text.units_append, Text.units_append] at hfit
    simp only [← hp, Text.takeUnits_append, if_neg hlt]
    rw [get?_build, entries_getElem?_eq_none (by omega), Option.map_none]

/-- In a range behind the place where the literal stopped, its table is not used: the baseline is no
    less than the decoded length. -/
theorem not_covers_of_stopsBefore (hpart : Text.slice? host range = some part)
    (hstart : StopsBefore g host range.start) (i : Nat) :
    ¬ Covers g host (i + decodedUnits g (Text.takeUnits host range.start)) := by
  obtain ⟨hfault, hlt⟩ := stopsBefore_iff.1 hstart
  obtain ⟨p, q, rfl, hp, -⟩ := Text.exists_of_slice?_eq_some hpart
  -- The text in front of the range has all the tokens of the literal.
  obtain ⟨ts, v, htokens, hv, hfronts⟩ :=
    exists_fronts_of_consumed_le (g := g) (p := p) (r := part ++ q) (by omega)
  rw [covers_iff, ← hp, Text.takeUnits_append, decodedUnits_eq, htokens, hv, hfronts v _ rfl,
    Scan.tokens_prepend, Token.charsOf_append, Text.units_append]
  rintro (hnone | hlt)
  · rw [hv] at hfault
    exact hfault hnone
  · omega

/-! ## Lookups -/

/-- The entry that answers for a unit of `part`, where the literal goes on with `q`: that of `part`
    and `q` together, except behind the place where decoding these stops. -/
def entryIn (g : Grammar) (part q : Text) (offset : Nat) : Option Nat :=
  if Covers g (part ++ q) offset then (scan g (part ++ q)).entries[offset]?
  else (scan g part).entries[offset]?

/-- In a range that starts at a boundary the baseline and the entries in front of it cancel. -/
theorem lookupFresh_of_fronts (hfronts : Fronts g ts (part ++ q))
    (hpart : Text.slice? (Token.textOf ts ++ (part ++ q)) range = some part)
    (hstart : range.start = Text.units (Token.textOf ts))
    (hfit : Text.units (Token.textOf ts ++ (part ++ q)) < offsetLimit) (i : Nat) :
    lookupFresh g (Token.textOf ts ++ (part ++ q)) i range
      = (entryIn g part q i).map (range.start + ·) := by
  have hbase : i + decodedUnits g (Text.takeUnits (Token.textOf ts ++ (part ++ q)) range.start)
      = Text.units (Token.charsOf ts) + i := by
    rw [hstart, decodedUnits_takeUnits_of_fronts hfronts, Nat.add_comm]
  unfold entryIn
  split
  · rename_i hcovers
    rw [lookupFresh_of_covers hfit (by rw [hbase]; exact (covers_add_iff hfronts i).2 hcovers), hbase,
      get?_build, hfronts.getElem?_entries_add, hstart]
  · rename_i hcovers
    rw [lookupFresh_of_not_covers hfit hpart
      (by rw [hbase]; exact fun h => hcovers ((covers_add_iff hfronts i).1 h)), get?_build]

/-- In a range behind the place where the literal stopped, the table of the range answers. -/
theorem lookupFresh_of_stopsBefore (hpart : Text.slice? host range = some part)
    (hstart : StopsBefore g host range.start) (hfit : Text.units host < offsetLimit) (i : Nat) :
    lookupFresh g host i range = ((scan g part).entries[i]?).map (range.start + ·) := by
  rw [lookupFresh_of_not_covers hfit hpart (not_covers_of_stopsBefore hpart hstart i), get?_build]

/-! ## Entries of a range -/

/-- Where a unit of `part` is mapped to, counted from the start of `part`: what is found for it is
    clamped to `part`. -/
def mappedEntry (g : Grammar) (part q : Text) (i : Nat) : Nat :=
  (entryIn g part q i).elim (Text.units part) (min (Text.units part))

/-- Where the table of a text alone has a unit, and the end of the text for the units that it does
    not have. -/
def ownEntry (g : Grammar) (t : Text) (i : Nat) : Nat := ((scan g t).entries[i]?).getD (Text.units t)

theorem ownEntry_zero (g : Grammar) (t : Text) : ownEntry g t 0 = 0 := by
  obtain ⟨es, hes⟩ := (scan g t).exists_entries_eq_cons
  simp [ownEntry, hes]

theorem mappedEntry_zero (g : Grammar) (part q : Text) : mappedEntry g part q 0 = 0 := by
  obtain ⟨es, hes⟩ := (scan g part).exists_entries_eq_cons
  obtain ⟨es', hes'⟩ := (scan g (part ++ q)).exists_entries_eq_cons
  unfold mappedEntry entryIn
  rw [hes, hes']
  split <;> simp

/-- The entries of a table do not leave its text, so clamping them to it changes nothing. -/
theorem elim_min_entries (g : Grammar) (t : Text) (i : Nat) :
    ((scan g t).entries[i]?).elim (Text.units t) (min (Text.units t)) = ownEntry g t i := by
  unfold ownEntry
  cases h : (scan g t).entries[i]? with
  | none => rfl
  | some o =>
    have hle := le_consumed_of_mem_entries g t (List.mem_of_getElem? h)
    have := consumed_scan_le g t
    simp only [Option.elim_some, Option.getD_some]
    omega

/-- Where nothing of a range is left, everything is mapped to its end. -/
theorem mappedEntry_nil (g : Grammar) (q : Text) (i : Nat) :
    mappedEntry g [] q i = ownEntry g [] i := by
  have hown : ownEntry g [] i = 0 := by
    cases i <;> simp [ownEntry, Scan.entries, Scan.consumed, Token.offsetsOf]
  rw [hown]
  unfold mappedEntry
  cases entryIn g [] q i <;> simp

/-- Where nothing could be decoded, the table of the range is used. -/
theorem mappedEntry_of_tokens_eq_nil (htokens : (scan g (part ++ q)).tokens = [])
    (hfault : (scan g (part ++ q)).fault ≠ none) (i : Nat) :
    mappedEntry g part q i = ownEntry g part i := by
  have hcovers : ¬ Covers g (part ++ q) i := by
    rw [covers_iff, htokens]
    simp [hfault]
  rw [← elim_min_entries, mappedEntry, entryIn, if_neg hcovers]

section Remainder

variable {ms : List Token} {v : Text}

theorem entryIn_add (hfronts : Fronts g ms (v ++ q)) (j : Nat) :
    entryIn g (Token.textOf ms ++ v) q (Text.units (Token.charsOf ms) + j)
      = (entryIn g v q j).map (Text.units (Token.textOf ms) + ·) := by
  unfold entryIn
  rw [List.append_assoc, hfronts.getElem?_entries_add, hfronts.left.getElem?_entries_add]
  simp only [covers_add_iff hfronts]
  split <;> rfl

/-- A range that begins with whole tokens is mapped by its own table if what is left behind these
    is. -/
theorem mappedEntry_of_fronts (hfronts : Fronts g ms (v ++ q)) {i : Nat}
    (hleft : ∀ j, i = Text.units (Token.charsOf ms) + j → mappedEntry g v q j = ownEntry g v j) :
    mappedEntry g (Token.textOf ms ++ v) q i = ownEntry g (Token.textOf ms ++ v) i := by
  have hown := hfronts.left
  by_cases hi : i < Text.units (Token.charsOf ms)
  · -- A unit of the tokens has the same entry in both tables.
    have hsame : (scan g (Token.textOf ms ++ v ++ q)).entries[i]?
        = (scan g (Token.textOf ms ++ v)).entries[i]? := by
      rw [List.append_assoc, hfronts.getElem?_entries_of_lt hi, hown.getElem?_entries_of_lt hi]
    rw [← elim_min_entries, mappedEntry, entryIn, hsame, ite_self]
  · obtain ⟨j, rfl⟩ := Nat.exists_eq_add_of_le (Nat.le_of_not_lt hi)
    -- Clamping commutes with moving everything behind the tokens.
    have hj := hleft j rfl
    unfold mappedEntry ownEntry at hj ⊢
    rw [entryIn_add hfronts, hown.getElem?_entries_add, Text.units_append]
    cases hfound : entryIn g v q j <;> cases hentry : (scan g v).entries[j]? <;>
      simp only [hfound, hentry, Option.map_none, Option.map_some, Option.elim_none,
        Option.elim_some, Option.getD_none, Option.getD_some] at hj ⊢ <;>
      omega

end Remainder

/-- The units of the decoded text and its end are entries of the table. -/
theorem get?_eq_some_ownEntry {t : Text} {i : Nat}
    (hi : i ≤ (OffsetTable.build g t).decodedLength) :
    (OffsetTable.build g t).get? i = some (ownEntry g t i) := by
  rw [decodedLength_build] at hi
  have hlt : i < (scan g t).entries.length := by
    rw [length_entries]
    omega
  rw [get?_build, ownEntry, List.getElem?_eq_getElem hlt, Option.getD_some]

theorem ownEntry_of_lt {t : Text} {i : Nat} (hi : (OffsetTable.build g t).decodedLength < i) :
    ownEntry g t i = Text.units t := by
  rw [decodedLength_build] at hi
  have hnone : (scan g t).entries[i]? = none := by
    rw [List.getElem?_eq_none_iff, length_entries]
    omega
  rw [ownEntry, hnone, Option.getD_none]

/-! ## Mapping to the host -/

/-- A range that starts at a boundary stands behind tokens of the literal. -/
theorem exists_fronts_of_isBoundary (hpart : Text.slice? host range = some part)
    (hstart : IsBoundary g host range.start) :
    ∃ ts q, host = Token.textOf ts ++ (part ++ q) ∧ Fronts g ts (part ++ q) ∧
      range.start = Text.units (Token.textOf ts) ∧
      range.stop = Text.units (Token.textOf ts) + Text.units part := by
  obtain ⟨p, q, rfl, hp, hstop⟩ := Text.exists_of_slice?_eq_some hpart
  obtain ⟨ts, u, hu, hts, hfronts⟩ := isBoundary_iff_fronts.1 hstart
  obtain ⟨rfl, rfl⟩ := Text.append_inj_units hu (hp.trans hts)
  exact ⟨ts, q, rfl, hfronts, hts, by rw [hstop, hts]⟩

/-- Mapping brings what was found into the range. -/
theorem toHostFresh_of_fronts (hfronts : Fronts g ts (part ++ q))
    (hpart : Text.slice? (Token.textOf ts ++ (part ++ q)) range = some part)
    (hstart : range.start = Text.units (Token.textOf ts))
    (hfit : Text.units (Token.textOf ts ++ (part ++ q)) < offsetLimit) (i : Nat) :
    toHostFresh g (Token.textOf ts ++ (part ++ q)) i range
      = range.start + mappedEntry g part q i := by
  obtain ⟨-, -, -, -, hstop⟩ := Text.exists_of_slice?_eq_some hpart
  unfold toHostFresh mappedEntry
  rw [lookupFresh_of_fronts hfronts hpart hstart hfit]
  cases entryIn g part q i with
  | none => exact hstop
  | some o =>
    simp only [Option.map_some, Option.elim_some]
    split <;> omega

theorem toHostFresh_of_stopsBefore (hpart : Text.slice? host range = some part)
    (hstart : StopsBefore g host range.start) (hfit : Text.units host < offsetLimit) (i : Nat) :
    toHostFresh g host i range = range.start + ownEntry g part i := by
  obtain ⟨-, -, -, -, hstop⟩ := Text.exists_of_slice?_eq_some hpart
  unfold toHostFresh
  rw [lookupFresh_of_stopsBefore hpart hstart hfit, ← elim_min_entries]
  cases (scan g part).entries[i]? with
  | none => exact hstop
  | some o =>
    simp only [Option.map_some, Option.elim_some]
    split <;> omega

/-- A range that starts at an aligned offset is mapped by its own table where its entries are those
    that the literal has there. -/
theorem toHostFresh_of_isAligned_start (hfit : Text.units host < offsetLimit)
    (hpart : Text.slice? host range = some part) (hstart : IsAligned g host range.start) {i : Nat}
    (hsame : ∀ ts q, host = Token.textOf ts ++ (part ++ q) → Fronts g ts (part ++ q) →
      range.stop = Text.units (Token.textOf ts) + Text.units part →
      mappedEntry g part q i = ownEntry g part i) :
    toHostFresh g host i range = range.start + ownEntry g part i := by
  rcases hstart with hboundary | hstopped
  · obtain ⟨ts, q, rfl, hfronts, hstart_eq, hstop_eq⟩ := exists_fronts_of_isBoundary hpart hboundary
    rw [toHostFresh_of_fronts hfronts hpart hstart_eq hfit, hsame ts q rfl hfronts hstop_eq]
  · exact toHostFresh_of_stopsBefore hpart hstopped hfit i

end Mapper

end Unescape
