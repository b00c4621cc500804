import Unescape.Proofs.TableEntries

set_option autoImplicit false

/-! # Offsets that cut no token

A range of a literal is cut out at two offsets. An offset is *aligned* if no token of the literal is
cut there: it is a boundary, or it lies behind the malformed escape at which the decode of the
literal stopped, where the literal has no tokens.

A text that is cut off somewhere keeps the tokens that end before the cut (`exists_fronts_append`).
What is left of it then is a piece of a single token, or a piece of what could not be decoded; if the
cut is aligned, it is nothing or the latter (`eq_nil_or_stopped_of_isAligned`). -/

namespace Unescape

/-- Of two splits of a text, the one whose front is no longer splits the front of the other. -/
theorem Text.exists_append_of_units_le {p p' q q' : Text} (h : p ++ q = p' ++ q')
    (hle : Text.units p ≤ Text.units p') : ∃ w, p' = p ++ w ∧ q = w ++ q' := by
  rcases List.append_eq_append_iff.1 h with hw | ⟨w, rfl, rfl⟩
  · exact hw
  · rw [Text.units_append] at hle
    obtain rfl : w = [] := (Text.units_eq_zero_iff w).1 (by omega)
    exact ⟨[], by simp, rfl⟩

theorem Text.append_inj_units {p p' q q' : Text} (h : p ++ q = p' ++ q')
    (hu : Text.units p = Text.units p') : p = p' ∧ q = q' := by
  obtain ⟨w, rfl, rfl⟩ := Text.exists_append_of_units_le h (by omega)
  rw [Text.units_append] at hu
  obtain rfl : w = [] := (Text.units_eq_zero_iff w).1 (by omega)
  exact ⟨by simp, rfl⟩

/-! ## Alignment -/

/-- The decode of a text stopped at a malformed escape that begins before an offset. -/
def StopsBefore (g : Grammar) (t : Text) (offset : Nat) : Prop :=
  (OffsetTable.build g t).status.isComplete = false ∧ (OffsetTable.build g t).consumed < offset

/-- An offset that is a boundary or lies behind the place where the decode stopped; that place itself
    is a boundary. -/
def IsAligned (g : Grammar) (t : Text) (offset : Nat) : Prop :=
  IsBoundary g t offset ∨ StopsBefore g t offset

instance (g : Grammar) (t : Text) (offset : Nat) : Decidable (StopsBefore g t offset) :=
  inferInstanceAs (Decidable (_ ∧ _))

instance (g : Grammar) (t : Text) (offset : Nat) : Decidable (IsAligned g t offset) :=
  inferInstanceAs (Decidable (_ ∨ _))

theorem stopsBefore_iff {g : Grammar} {t : Text} {offset : Nat} :
    StopsBefore g t offset ↔ (scan g t).fault ≠ none ∧ (scan g t).consumed < offset := by
  rw [StopsBefore, isComplete_build, consumed_build]
  cases (scan g t).fault <;> simp

variable {g : Grammar} {ts : List Token} {u : Text}

/-- Behind tokens at the front of a text, boundaries are those of what follows. -/
theorem Fronts.isBoundary_add_iff (h : Fronts g ts u) (p : Nat) :
    IsBoundary g (Token.textOf ts ++ u) (Text.units (Token.textOf ts) + p) ↔ IsBoundary g u p := by
  unfold IsBoundary
  rw [h.scan_append, Scan.tokens_prepend]
  constructor
  · rintro ⟨ts', us', htokens, hp⟩
    rcases List.append_eq_append_iff.1 htokens with ⟨ms, rfl, hms⟩ | ⟨ds, rfl, hds⟩
    · refine ⟨ms, us', hms, ?_⟩
      rw [Token.textOf_append, Text.units_append] at hp
      omega
    · refine ⟨[], _, rfl, ?_⟩
      rw [Token.textOf_append, Text.units_append] at hp
      simp only [Token.textOf_nil, Text.units_nil]
      omega
  · rintro ⟨ms, us, hms, rfl⟩
    exact ⟨ts ++ ms, us, by rw [hms, List.append_assoc], by simp⟩

theorem Fronts.stopsBefore_add_iff (h : Fronts g ts u) (p : Nat) :
    StopsBefore g (Token.textOf ts ++ u) (Text.units (Token.textOf ts) + p)
      ↔ StopsBefore g u p := by
  rw [stopsBefore_iff, stopsBefore_iff, h.scan_append, Scan.fault_prepend, Scan.consumed_prepend]
  constructor <;> rintro ⟨hf, hlt⟩ <;> exact ⟨hf, by omega⟩

theorem Fronts.isAligned_add_iff (h : Fronts g ts u) (p : Nat) :
    IsAligned g (Token.textOf ts ++ u) (Text.units (Token.textOf ts) + p) ↔ IsAligned g u p :=
  or_congr (h.isBoundary_add_iff p) (h.stopsBefore_add_iff p)

/-! ## Cutting a text off -/

/-- No token that is read at the front of `v ++ q` ends within `v`. -/
def CutsFirst (g : Grammar) (v q : Text) : Prop :=
  ∀ c r tok after, v ++ q = c :: r → Token.read g c r = .ok (tok, after) →
    Text.units v < Text.units tok.text

theorem CutsFirst.units_lt {v q : Text} (hcut : CutsFirst g v q) {tok : Token} {us : List Token}
    (htokens : (scan g (v ++ q)).tokens = tok :: us) : Text.units v < Text.units tok.text := by
  obtain ⟨c, r, after, hcr, hread, -, -⟩ := exists_read_of_tokens_eq_cons htokens
  exact hcut c r tok after hcr hread

/-- A text that is cut off has the tokens that end before the cut, and then a piece in which no
    token ends. -/
theorem exists_fronts_append (g : Grammar) (part q : Text) :
    ∃ ts v, part = Token.textOf ts ++ v ∧ Fronts g ts (v ++ q) ∧ CutsFirst g v q := by
  generalize hu : part ++ q = u
  fun_induction scan g u generalizing part with
  | case1 => exact ⟨[], part, rfl, .nil g _, fun c r _ _ hcr => by rw [hu] at hcr; simp at hcr⟩
  | case2 c r f herr =>
    refine ⟨[], part, rfl, .nil g _, fun c' r' tok after hcr hread => ?_⟩
    obtain ⟨rfl, rfl⟩ := List.cons.inj (hu.symm.trans hcr)
    rw [herr] at hread
    exact absurd hread (by simp)
  | case3 c r tok rest hread hlen ih =>
    by_cases hfits : Text.units tok.text ≤ Text.units part
    · -- The first token lies within the part, so the part goes on behind it.
      have htext : tok.text ++ rest = part ++ q := by rw [hu, Token.text_append_of_read hread]
      obtain ⟨part', rfl, hrest⟩ := Text.exists_append_of_units_le htext hfits
      obtain ⟨ts, v, rfl, hfronts, hcut⟩ := ih part' hrest.symm
      refine ⟨tok :: ts, v, by simp, .cons (c := c) (r := r) ?_ hfronts, hcut⟩
      rw [hread, hrest, List.append_assoc]
    · refine ⟨[], part, rfl, .nil g _, fun c' r' tok' after hcr hread' => ?_⟩
      obtain ⟨rfl, rfl⟩ := List.cons.inj (hu.symm.trans hcr)
      rw [hread] at hread'
      simp only [Except.ok.injEq, Prod.mk.injEq] at hread'
      obtain ⟨rfl, -⟩ := hread'
      omega

/-- A text that is cut off behind the place where its decode stopped has all the tokens. -/
theorem exists_fronts_of_consumed_le {p r : Text} (h : (scan g (p ++ r)).consumed ≤ Text.units p) :
    ∃ ts v, (scan g (p ++ r)).tokens = ts ∧ p = Token.textOf ts ++ v ∧ Fronts g ts (v ++ r) := by
  have htext := textOf_append_rest_scan g (p ++ r)
  have hfronts := fronts_of_tokens_eq_append (List.append_nil (scan g (p ++ r)).tokens).symm
  unfold Scan.consumed at h
  generalize (scan g (p ++ r)).tokens = ts at h htext hfronts
  generalize (scan g (p ++ r)).rest = rest at htext hfronts
  rw [Token.textOf_nil, List.nil_append] at hfronts
  obtain ⟨v, hp, hrest⟩ := Text.exists_append_of_units_le htext h
  exact ⟨ts, v, rfl, hp, hrest ▸ hfronts⟩

/-- At an aligned cut nothing is left but, it may be, a piece of what could not be decoded. -/
theorem eq_nil_or_stopped_of_isAligned {v q : Text} (hcut : CutsFirst g v q)
    (h : IsAligned g (v ++ q) (Text.units v)) :
    v = [] ∨ ((scan g (v ++ q)).tokens = [] ∧ (scan g (v ++ q)).fault ≠ none) := by
  cases htokens : (scan g (v ++ q)).tokens with
  | nil =>
    rcases h with ⟨ts, us, hts, hp⟩ | h
    · rw [htokens] at hts
      obtain ⟨rfl, -⟩ := List.append_eq_nil_iff.1 hts.symm
      exact .inl ((Text.units_eq_zero_iff v).1 hp)
    · exact .inr ⟨rfl, (stopsBefore_iff.1 h).1⟩
  | cons tok us =>
    have hlt := hcut.units_lt htokens
    rcases h with ⟨ts, us', hts, hp⟩ | h
    · rw [htokens] at hts
      cases ts with
      | nil => exact .inl ((Text.units_eq_zero_iff v).1 hp)
      | cons tok' ts =>
        obtain ⟨rfl, -⟩ := List.cons.inj hts
        simp only [Token.textOf_cons, Text.units_append] at hp
        omega
    · have hlt' := (stopsBefore_iff.1 h).2
      simp only [Scan.consumed, htokens, Token.textOf_cons, Text.units_append] at hlt'
      omega

end Unescape
