import Unescape.Proofs.CutEscape
import Unescape.Proofs.Numerals
import Unescape.Proofs.PresetFallback

set_option autoImplicit false

/-! # Grammars as they are built

A grammar starts as an empty one, as a built-in one or as what settings ask for, and is then changed one
step at a time. The steps that touch its numeric escapes put one at the end in place of an earlier one
with the same marker, and the constructors bring its digit counts into order. So no two numeric escapes
of a grammar that is built have one marker, and none has more digits than a code value holds
(`Grammar.IsBuilt.areSound`).

That bound is what makes the shifts of the decoder exact: `Grammar.IsBuilt.numeric_exact` says which
digits are read, and that their value is the number that they spell. -/

namespace Unescape

/-! ## Numbers of digits -/

namespace NumericEscape

/-- The numeric escapes that the constructors make, with any numbers of digits. -/
inductive IsMade : NumericEscape → Prop
  | fixed (marker : Char) (digits : Nat) : IsMade (fixed marker digits)
  | between (marker : Char) (fewest most : Nat) : IsMade (between marker fewest most)
  | repeatable {e : NumericEscape} (h : IsMade e) : IsMade e.repeatable

/-- The numbers of digits are in order, and a code value holds them all. -/
def IsBounded (e : NumericEscape) : Prop :=
  1 ≤ e.minDigits ∧ e.minDigits ≤ e.maxDigits ∧ e.maxDigits ≤ 8

instance : DecidablePred IsBounded := fun _ => inferInstanceAs (Decidable (_ ∧ _ ∧ _))

theorem isBounded_between (marker : Char) (fewest most : Nat) :
    (between marker fewest most).IsBounded := by
  simp only [IsBounded, between, digitLimit]
  omega

theorem IsMade.isBounded {e : NumericEscape} (h : e.IsMade) : e.IsBounded := by
  induction h with
  | fixed marker digits => exact isBounded_between ..
  | between marker fewest most => exact isBounded_between ..
  | repeatable _ ih => exact ih

/-! ## Digits that are read -/

/-- The digits that an escape takes: the longest run behind its markers, cut off at the most that it may
    have. -/
def digits (e : NumericEscape) (t : Text) : Text :=
  ((t.drop (e.moreMarkers t).length).takeWhile fun c => IsDigit 16 c).take e.maxDigits

theorem hexRun_digits (e : NumericEscape) (t : Text) :
    hexRun e.maxDigits (t.drop (e.moreMarkers t).length)
      = (e.digits t, (t.drop (e.moreMarkers t).length).drop (e.digits t).length) :=
  hexRun_eq ..

theorem read_eq_digits (e : NumericEscape) (t : Text) :
    e.read t = ⟨e.moreMarkers t ++ e.digits t,
      if (e.digits t).length < e.minDigits then
        .error (.missingDigits e.marker e.minDigits (e.digits t).length)
      else .ok (hexValue (e.digits t)),
      (t.drop (e.moreMarkers t).length).drop (e.digits t).length⟩ :=
  read_eq rfl (e.hexRun_digits t)

namespace IsBounded

variable {e : NumericEscape} (t : Text)

theorem toNat_hexValue_digits (h : e.IsBounded) :
    (hexValue (e.digits t)).toNat = numeralNat 16 (e.digits t) := by
  refine toNat_hexValue ?_ (Nat.le_trans (List.length_take_le ..) h.2.2)
  intro c hc
  have hmem : c ∈ (hexRun e.maxDigits (t.drop (e.moreMarkers t).length)).1 := by
    rw [e.hexRun_digits t]
    exact hc
  exact isDigit_of_mem_hexRun hmem

theorem value_read_eq_ok_iff (h : e.IsBounded) (v : UInt32) :
    (e.read t).value = .ok v ↔
      e.minDigits ≤ (e.digits t).length ∧ v.toNat = numeralNat 16 (e.digits t) := by
  rw [read_eq_digits, ← h.toNat_hexValue_digits t, UInt32.toNat_inj]
  by_cases hfew : (e.digits t).length < e.minDigits
  · simp [hfew, Nat.not_le.2 hfew]
  · simp [hfew, Nat.not_lt.1 hfew, eq_comm]

end IsBounded

theorem value_read_eq_error_iff (e : NumericEscape) (t : Text) (kind : MalformedKind) :
    (e.read t).value = .error kind ↔
      (e.digits t).length < e.minDigits ∧
        kind = .missingDigits e.marker e.minDigits (e.digits t).length := by
  rw [read_eq_digits]
  by_cases hfew : (e.digits t).length < e.minDigits
  · simp [hfew, eq_comm]
  · simp [hfew]

/-! ## The numeric escapes of a grammar -/

/-- Markers are distinct, and digit counts are bounded. -/
structure AreSound (es : List NumericEscape) : Prop where
  nodup : (es.map marker).Nodup
  isBounded : ∀ e ∈ es, e.IsBounded

theorem areSound_nil : AreSound [] := ⟨List.nodup_nil, by simp⟩

/-- An escape at the end, in place of one with the same marker. -/
theorem AreSound.replace {es : List NumericEscape} (h : AreSound es) {e : NumericEscape}
    (he : e.IsBounded) : AreSound (es.filter (fun n => n.marker ≠ e.marker) ++ [e]) := by
  refine ⟨?_, ?_⟩
  · rw [List.map_append, List.nodup_append]
    refine ⟨(List.filter_sublist.map marker).nodup h.nodup, by simp, ?_⟩
    intro c hc d hd
    obtain ⟨n, hn, rfl⟩ := List.mem_map.1 hc
    rw [List.map_singleton, List.mem_singleton] at hd
    rw [hd]
    exact of_decide_eq_true (List.mem_filter.1 hn).2
  · intro n hn
    rcases List.mem_append.1 hn with hn | hn
    · exact h.isBounded n (List.mem_filter.1 hn).1
    · rw [List.mem_singleton.1 hn]
      exact he

end NumericEscape

open NumericEscape (AreSound)

/-! ## Settings -/

/-- The numeric escapes of settings replace each other like those of any other step. -/
theorem Grammar.areSound_addNumeric {g : Grammar} (hg : AreSound g.numeric)
    (escapes : List NumericSettings) : AreSound (g.addNumeric escapes).value.numeric := by
  refine Logged.value_foldlM_rel (fun g h : Grammar => AreSound g.numeric → AreSound h.numeric)
    (fun _ h => h) (fun _ _ _ hg hh h => hh (hg h)) ?_ escapes g hg
  intro g n hg
  cases singleChar? n.marker with
  | some marker =>
    have hbounded : (n.escape marker).IsBounded :=
      NumericEscape.isBounded_between marker n.fewest n.most
    simp only [apply_ite Logged.value, Logged.value_bind, Logged.value_pure, ite_self]
    exact hg.replace hbounded
  | none => exact hg

theorem GrammarSettings.areSound_overlay (s : GrammarSettings) {base : Grammar}
    (hbase : AreSound base.numeric) : AreSound (s.overlay base).value.numeric := by
  obtain ⟨_, hremove⟩ := base.differsInSimple_removeMarkers (s.remove.getD [])
  obtain ⟨_, hadd⟩ := (base.removeMarkers (s.remove.getD [])).value.differsInSimple_addSimple
    (s.escapes.getD SortedMap.empty).entries
  rw [value_overlay]
  refine Grammar.areSound_addNumeric ?_ _
  rw [hadd, hremove]
  exact hbase

namespace Grammar

theorem areSound_java : AreSound java.numeric := ⟨by decide +kernel, by decide +kernel⟩

theorem areSound_proto : AreSound proto.numeric := ⟨by decide +kernel, by decide +kernel⟩

theorem areSound_builtin? {name : String} {g : Grammar} (h : builtin? name = some g) :
    AreSound g.numeric := by
  unfold builtin? at h
  split at h
  · exact Option.some.inj h ▸ areSound_java
  · split at h
    · exact Option.some.inj h ▸ areSound_proto
    · exact absurd h (by simp)

end Grammar

/-- Settings are laid over some built-in grammar, whichever way the preset goes. -/
theorem Settings.areSound_build (s : Settings) : AreSound s.build.value.numeric := by
  rcases s.isKnown_or_exists with hknown | ⟨name, hpreset, hname⟩
  · obtain ⟨base, hbase, -, hbuild⟩ := build_of_isKnown hknown
    rw [hbuild]
    exact s.entries.areSound_overlay (Grammar.areSound_builtin? hbase)
  · rw [(build_of_not_mem hpreset hname).2]
    exact s.entries.areSound_overlay Grammar.areSound_java

/-! ## Building -/

namespace Grammar

/-- The grammars that come from an empty one, a built-in one or settings by steps that change one. Both
    ways to build a grammar from settings give the same one, if they give any. -/
inductive IsBuilt : Grammar → Prop
  | empty (name : String) : IsBuilt (empty name)
  | builtin {name : String} {g : Grammar} (h : builtin? name = some g) : IsBuilt g
  | settings (s : Settings) : IsBuilt s.build.value
  | withSimple {g : Grammar} (h : IsBuilt g) (marker decoded : Char) :
    IsBuilt (g.withSimple marker decoded)
  | withSimples {g : Grammar} (h : IsBuilt g) (escapes : List (Char × Char)) :
    IsBuilt (g.withSimples escapes)
  | withoutSimple {g : Grammar} (h : IsBuilt g) (marker : Char) : IsBuilt (g.withoutSimple marker)
  | withNumeric {g : Grammar} (h : IsBuilt g) {e : NumericEscape} (he : e.IsMade) :
    IsBuilt (g.withNumeric e)
  | withOctal {g : Grammar} (h : IsBuilt g) (octal : Option OctalEscape) : IsBuilt (g.withOctal octal)
  | withOneLine {g : Grammar} (h : IsBuilt g) (oneLine : Bool) : IsBuilt (g.withOneLine oneLine)

/-- The numeric escapes of a grammar that is built have distinct markers and bounded digit counts. -/
theorem IsBuilt.areSound {g : Grammar} (h : g.IsBuilt) : AreSound g.numeric := by
  induction h with
  | empty name => exact NumericEscape.areSound_nil
  | builtin h => exact areSound_builtin? h
  | settings s => exact s.areSound_build
  | withNumeric _ he ih => exact ih.replace he.isBounded
  -- No other step touches a numeric escape.
  | withSimple _ _ _ ih => exact ih
  | withSimples _ _ ih => exact ih
  | withoutSimple _ _ ih => exact ih
  | withOctal _ _ ih => exact ih
  | withOneLine _ _ ih => exact ih

/-- In a grammar that is built no two numeric escapes have one marker, and each has between one and
    eight digits, in order. So the shifts never lose a bit: behind its markers an escape takes the
    longest run of digits, cut off at the most it may have; with fewer digits than it needs it is
    refused, and only then; else its value is the number that they spell. -/
theorem IsBuilt.numeric_exact {g : Grammar} (h : g.IsBuilt) :
    (g.numeric.map NumericEscape.marker).Nodup ∧
    (∀ e ∈ g.numeric, 1 ≤ e.minDigits ∧ e.minDigits ≤ e.maxDigits ∧ e.maxDigits ≤ 8) ∧
    ∀ e ∈ g.numeric, ∀ t : Text,
      let markers := if e.repeatMarker then t.takeWhile (· = e.marker) else []
      let behind := t.drop markers.length
      let digits := (behind.takeWhile fun c => IsDigit 16 c).take e.maxDigits
      (e.read t).lexeme = markers ++ digits ∧
      (e.read t).rest = behind.drop digits.length ∧
      (∀ v, (e.read t).value = .ok v ↔
        e.minDigits ≤ digits.length ∧ v.toNat = numeralNat 16 digits) ∧
      (∀ kind, (e.read t).value = .error kind ↔
        digits.length < e.minDigits ∧
          kind = .missingDigits e.marker e.minDigits digits.length) := by
  have hsound := h.areSound
  refine ⟨hsound.nodup, hsound.isBounded, ?_⟩
  intro e he t markers behind digits
  refine ⟨?_, ?_, (hsound.isBounded e he).value_read_eq_ok_iff t, e.value_read_eq_error_iff t⟩
  · rw [e.read_eq_digits]
    rfl
  · rw [e.read_eq_digits]
    rfl

/-- All bits of a code value, with bounds on the digits that no escape can have, behind a marker that is
    given twice: the ninth digit is not read. -/
theorem IsBuilt.numeric_exact_all_bits :
    let g := (proto.withNumeric (NumericEscape.between 'x' 20 18446744073709551615).repeatable)
    let e : NumericEscape := ⟨'x', 8, 8, true⟩
    g.IsBuilt ∧ e ∈ g.numeric ∧ (g.numeric.map NumericEscape.marker).Nodup ∧
      (e.read ("xfFfFfFfF0".toList)).lexeme = "xfFfFfFfF".toList ∧
      (e.read ("xfFfFfFfF0".toList)).value = .ok 0xFFFFFFFF ∧
      (e.read ("xfFfFfFf".toList)).value = .error (.missingDigits 'x' 8 7) := by
  intro g e
  have hproto : proto.IsBuilt := .builtin (show builtin? "proto" = some proto by rfl)
  have hbuilt : g.IsBuilt := .withNumeric hproto (.repeatable (.between ..))
  have he : e ∈ g.numeric := by decide +kernel
  obtain ⟨hnodup, -, hread⟩ := hbuilt.numeric_exact
  obtain ⟨hlexeme, -, hvalue, -⟩ := hread e he "xfFfFfFfF0".toList
  obtain ⟨-, -, -, herror⟩ := hread e he "xfFfFfFf".toList
  exact ⟨hbuilt, he, hnodup, hlexeme.trans (by decide +kernel), (hvalue _).2 (by decide +kernel),
    (herror _).2 (by decide +kernel)⟩

end Grammar

end Unescape
