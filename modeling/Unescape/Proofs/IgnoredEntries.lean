import Unescape.Proofs.PresetFallback

set_option autoImplicit false

/-! # Entries that are left out

An entry of the settings that names no single character where one is needed decides nothing and is
reported. Removals, simple and numeric escapes each have a step of their own for this; what the steps
have in common is `Logged.LeavesOut`: an entry that is not kept only causes its report, and an entry
that is kept causes no such report. So a run over the kept entries alone is the run over all of them
without the reports (`LeavesOut.foldlM_filter`), and the reports are those of the other entries, in
order (`LeavesOut.leftOut_foldlM`). -/

namespace Unescape

/-! ## Reports on entries that are left out -/

theorem isPrefixOf_toList_append {p l : String} (h : p.toList.length ≤ l.toList.length) (r : String) :
    p.toList.isPrefixOf (l ++ r).toList = p.toList.isPrefixOf l.toList := by
  rw [String.toList_append, Bool.eq_iff_iff, List.isPrefixOf_iff_prefix, List.isPrefixOf_iff_prefix]
  constructor
  · intro hp
    exact List.prefix_of_prefix_length_le hp (List.prefix_append ..) h
  · intro hp
    exact hp.trans (List.prefix_append ..)

/-- Of all messages just those on entries that are left out begin with *ignoring*. -/
theorem Event.isIgnored_eq (e : Event) :
    e.isIgnored = "ignoring ".toList.isPrefixOf e.message.toList := by
  unfold message isIgnored Error.message
  cases e
  all_goals dsimp only
  case indexing | settingsNotParsed => decide +kernel
  case malformed =>
    rw [isPrefixOf_toList_append (by decide +kernel)]
    decide +kernel
  all_goals
    simp only [String.append_assoc]
    rw [isPrefixOf_toList_append (by decide +kernel)]
    decide +kernel

namespace Logged

variable {α β σ τ : Type}

/-- A result without the reports on entries that are left out. -/
def quiet (x : Logged α) : Logged α := ⟨x.value, x.events.filter fun e => !e.isIgnored⟩

/-- The reports on entries that are left out. -/
def leftOut (x : Logged α) : List Event := x.events.filter Event.isIgnored

@[simp] theorem quiet_pure (a : α) : (pure a : Logged α).quiet = pure a := rfl

@[simp] theorem leftOut_pure (a : α) : (pure a : Logged α).leftOut = [] := rfl

theorem quiet_bind (x : Logged α) (f : α → Logged β) :
    (x >>= f).quiet = x.quiet >>= fun a => (f a).quiet :=
  ext_iff.2 ⟨rfl, List.filter_append ..⟩

theorem leftOut_bind (x : Logged α) (f : α → Logged β) :
    (x >>= f).leftOut = x.leftOut ++ (f x.value).leftOut :=
  List.filter_append ..

/-- Where nothing is left out, nothing is taken away. -/
theorem quiet_of_leftOut {x : Logged α} (h : x.leftOut = []) : x.quiet = x := by
  have hevents : x.events.filter (fun e => !e.isIgnored) = x.events := by
    refine List.filter_eq_self.2 ?_
    intro e he
    have hnot := List.filter_eq_nil_iff.1 h e he
    simpa using hnot
  exact ext_iff.2 ⟨rfl, hevents⟩

/-- A step that only reports the entries that it does not keep, and nothing like it on the others. -/
structure LeavesOut (step : σ → τ → Logged σ) (keep : τ → Bool) (report : τ → Event) : Prop where
  kept : ∀ s x, keep x = true → (step s x).leftOut = []
  dropped : ∀ s x, keep x = false → step s x = (do emit (report x); pure s)
  isIgnored : ∀ x, (report x).isIgnored = true

namespace LeavesOut

variable {step : σ → τ → Logged σ} {keep : τ → Bool} {report : τ → Event}

theorem quiet_dropped (h : LeavesOut step keep report) {s : σ} {x : τ} (hx : keep x = false) :
    (step s x).quiet = pure s := by
  rw [h.dropped s x hx]
  simp [quiet, h.isIgnored, ext_iff]

theorem leftOut_dropped (h : LeavesOut step keep report) {s : σ} {x : τ} (hx : keep x = false) :
    (step s x).leftOut = [report x] := by
  rw [h.dropped s x hx]
  simp [leftOut, h.isIgnored]

/-- Entries that are not kept can be taken away before; then there are no reports on them. -/
theorem foldlM_filter (h : LeavesOut step keep report) (xs : List τ) (s : σ) :
    (xs.filter keep).foldlM step s = (xs.foldlM step s).quiet := by
  induction xs generalizing s with
  | nil => rfl
  | cons x xs ih =>
    rw [List.foldlM_cons, quiet_bind]
    cases hx : keep x with
    | true =>
      rw [List.filter_cons_of_pos hx, List.foldlM_cons, quiet_of_leftOut (h.kept s x hx)]
      exact bind_congr fun s' => ih s'
    | false =>
      rw [List.filter_cons_of_neg (by simp [hx]), h.quiet_dropped hx, pure_bind, ih]

/-- Every entry that is not kept is reported once, in the order of the entries. -/
theorem leftOut_foldlM (h : LeavesOut step keep report) (xs : List τ) (s : σ) :
    (xs.foldlM step s).leftOut = (xs.filter fun x => !keep x).map report := by
  induction xs generalizing s with
  | nil => rfl
  | cons x xs ih =>
    rw [List.foldlM_cons, leftOut_bind, ih]
    cases hx : keep x with
    | true => simp [h.kept s x hx, hx]
    | false => simp [h.leftOut_dropped hx, hx]

theorem foldlM (h : LeavesOut step keep report) (xs : List τ) (s : σ) :
    (xs.filter keep).foldlM step s = (xs.foldlM step s).quiet ∧
      (xs.foldlM step s).leftOut = (xs.filter fun x => !keep x).map report :=
  ⟨h.foldlM_filter xs s, h.leftOut_foldlM xs s⟩

end LeavesOut

end Logged

/-! ## Single characters -/

/-- A string that is one character. -/
def IsSingle (s : String) : Prop := s.length = 1

instance : DecidablePred IsSingle := fun s => inferInstanceAs (Decidable (s.length = 1))

theorem exists_singleChar?_of_isSingle {s : String} (h : IsSingle s) : ∃ c, singleChar? s = some c := by
  rw [IsSingle, ← String.length_toList, List.length_eq_one_iff] at h
  obtain ⟨c, hc⟩ := h
  exact ⟨c, by simp [singleChar?, hc]⟩

theorem singleChar?_of_not_isSingle {s : String} (h : ¬ IsSingle s) : singleChar? s = none := by
  cases hs : singleChar? s with
  | none => rfl
  | some c => exact absurd (by simp [IsSingle, singleChar?_eq_some_iff.1 hs]) h

/-! ## The three kinds of entries -/

namespace Grammar

variable (g : Grammar)

theorem removeMarkers_leavesOut (markers : List String) :
    g.removeMarkers (markers.filter fun m => IsSingle m) = (g.removeMarkers markers).quiet ∧
      (g.removeMarkers markers).leftOut
        = (markers.filter fun m => !decide (IsSingle m)).map .ignoredRemoval := by
  refine Logged.LeavesOut.foldlM ⟨?_, ?_, fun _ => rfl⟩ markers g
  · intro g marker hmarker
    obtain ⟨c, hc⟩ := exists_singleChar?_of_isSingle (of_decide_eq_true hmarker)
    simp only [hc, Logged.leftOut_pure]
  · intro g marker hmarker
    rw [singleChar?_of_not_isSingle (of_decide_eq_false hmarker)]

theorem addSimple_leavesOut (escapes : List (String × String)) :
    g.addSimple (escapes.filter fun e => IsSingle e.1 ∧ IsSingle e.2) = (g.addSimple escapes).quiet ∧
      (g.addSimple escapes).leftOut
        = (escapes.filter fun e => !decide (IsSingle e.1 ∧ IsSingle e.2)).map
            fun e => .ignoredSimple e.1 e.2 := by
  refine Logged.LeavesOut.foldlM ⟨?_, ?_, fun _ => rfl⟩ escapes g
  · intro g e he
    obtain ⟨hmarker, hdecoded⟩ := of_decide_eq_true he
    obtain ⟨c, hc⟩ := exists_singleChar?_of_isSingle hmarker
    obtain ⟨d, hd⟩ := exists_singleChar?_of_isSingle hdecoded
    simp only [hc, hd, Logged.leftOut_pure]
  · intro g e he
    rcases Decidable.not_and_iff_not_or_not.1 (of_decide_eq_false he) with hmarker | hdecoded
    · rw [singleChar?_of_not_isSingle hmarker]
    · rw [singleChar?_of_not_isSingle hdecoded]
      cases singleChar? e.1 <;> rfl

theorem addNumeric_leavesOut (escapes : List NumericSettings) :
    g.addNumeric (escapes.filter fun n => IsSingle n.marker) = (g.addNumeric escapes).quiet ∧
      (g.addNumeric escapes).leftOut
        = (escapes.filter fun n => !decide (IsSingle n.marker)).map
            fun n => .ignoredNumeric n.marker := by
  refine Logged.LeavesOut.foldlM ⟨?_, ?_, fun _ => rfl⟩ escapes g
  · intro g n hn
    obtain ⟨c, hc⟩ := exists_singleChar?_of_isSingle (of_decide_eq_true hn)
    -- Digits that are cut off are reported, but not as an entry that is left out.
    simp only [hc]
    split <;> rfl
  · intro g n hn
    rw [singleChar?_of_not_isSingle (of_decide_eq_false hn)]

end Grammar

/-! ## Settings without the entries that are left out -/

namespace GrammarSettings

variable (s : GrammarSettings)

/-- Markers to remove that are no single character. -/
def droppedRemovals : List String := (s.remove.getD []).filter fun m => !decide (IsSingle m)

/-- Simple escapes whose marker or value is no single character. -/
def droppedEscapes : List (String × String) :=
  (s.escapes.getD SortedMap.empty).entries.filter fun e => !decide (IsSingle e.1 ∧ IsSingle e.2)

/-- Numeric escapes whose marker is no single character. -/
def droppedNumeric : List NumericSettings :=
  (s.numeric.getD []).filter fun n => !decide (IsSingle n.marker)

/-- The settings without all these. -/
def pruned : GrammarSettings :=
  { s with
    remove := s.remove.map fun ms => ms.filter fun m => IsSingle m
    escapes := s.escapes.map fun m => m.filter fun e => IsSingle e.1 ∧ IsSingle e.2
    numeric := s.numeric.map fun ns => ns.filter fun n => IsSingle n.marker }

theorem pruned_getD :
    s.pruned.remove.getD [] = (s.remove.getD []).filter (fun m => IsSingle m) ∧
      (s.pruned.escapes.getD SortedMap.empty).entries
        = (s.escapes.getD SortedMap.empty).entries.filter (fun e => IsSingle e.1 ∧ IsSingle e.2) ∧
      s.pruned.numeric.getD [] = (s.numeric.getD []).filter (fun n => IsSingle n.marker) := by
  obtain ⟨preset, oneLine, escapes, remove, octal, numeric⟩ := s
  refine ⟨?_, ?_, ?_⟩
  · cases remove <;> rfl
  · cases escapes <;> rfl
  · cases numeric <;> rfl

/-- Without the entries that are left out the same grammar comes out, and all other reports. -/
theorem overlay_pruned (base : Grammar) : s.pruned.overlay base = (s.overlay base).quiet := by
  obtain ⟨hremove, hescapes, hnumeric⟩ := s.pruned_getD
  unfold overlay
  rw [hremove, hescapes, hnumeric]
  simp only [Logged.quiet_bind, (Grammar.removeMarkers_leavesOut _ _).1,
    (Grammar.addSimple_leavesOut _ _).1, (Grammar.addNumeric_leavesOut _ _).1, Logged.quiet_pure]
  rfl

/-- Each entry that is left out is reported once: removals first, then simple escapes, then numeric
    ones. -/
theorem leftOut_overlay (base : Grammar) :
    (s.overlay base).leftOut
      = s.droppedRemovals.map .ignoredRemoval
        ++ (s.droppedEscapes.map fun e => .ignoredSimple e.1 e.2)
        ++ s.droppedNumeric.map fun n => .ignoredNumeric n.marker := by
  unfold overlay
  simp only [Logged.leftOut_bind, (Grammar.removeMarkers_leavesOut _ _).2,
    (Grammar.addSimple_leavesOut _ _).2, (Grammar.addNumeric_leavesOut _ _).2, Logged.leftOut_pure,
    List.append_nil, List.append_assoc]
  rfl

/-- What is taken away from a map is in the order of the keys, as what is left is. -/
theorem ascending_droppedEscapes : s.droppedEscapes.Pairwise fun e f => e.1 < f.1 :=
  (s.escapes.getD SortedMap.empty).ascending.filter _

end GrammarSettings

namespace Settings

/-- The settings without the entries that are left out. -/
def pruned (s : Settings) : Settings := ⟨s.grammar.map GrammarSettings.pruned⟩

theorem entries_pruned (s : Settings) : s.pruned.entries = s.entries.pruned := by
  obtain ⟨grammar⟩ := s
  cases grammar <;> rfl

/-- Entries that name no single character where one is needed change nothing, and each is reported.
    Settings without them give the same grammar, with all other reports and none on entries that are
    left out. With them there is one such report for each: on removals, on simple escapes by key, on
    numeric escapes, each in the order of the entries. -/
theorem build_pruned (s : Settings)
    (hknown : ∀ name ∈ s.preset?, name ∈ ["java", "proto", "protobuf"]) :
    s.pruned.build.value = s.build.value ∧
    s.pruned.tryBuild.value = s.tryBuild.value ∧
    s.pruned.build.events = (s.build.events.filter fun e => !e.isIgnored) ∧
    s.build.events.filter Event.isIgnored
      = s.entries.droppedRemovals.map .ignoredRemoval
        ++ (s.entries.droppedEscapes.map fun e => .ignoredSimple e.1 e.2)
        ++ (s.entries.droppedNumeric.map fun n => .ignoredNumeric n.marker) ∧
    s.entries.droppedEscapes.Pairwise fun e f => e.1 < f.1 := by
  have hpreset : s.pruned.preset? = s.preset? := by
    rw [preset?, entries_pruned]
    rfl
  have hknown' : s.pruned.IsKnown := by
    rw [IsKnown, hpreset]
    exact hknown
  obtain ⟨base, hbase, htry, hbuild⟩ := build_of_isKnown hknown
  obtain ⟨base', hbase', htry', hbuild'⟩ := build_of_isKnown hknown'
  obtain rfl : base = base' := by
    rw [entries_pruned] at hbase'
    exact Option.some.inj (hbase.symm.trans hbase')
  rw [entries_pruned, GrammarSettings.overlay_pruned] at htry' hbuild'
  rw [htry', hbuild', htry, hbuild]
  exact ⟨rfl, rfl, rfl, s.entries.leftOut_overlay base, s.entries.ascending_droppedEscapes⟩

theorem build_pruned_mixed :
    (∀ name ∈ mixed.preset?, name ∈ ["java", "proto", "protobuf"]) ∧
    mixed.pruned.build.value = mixed.build.value ∧
    mixed.pruned.build.events = [.cappedDigits 'u' 12] ∧
    mixed.build.events.filter Event.isIgnored
      = [.ignoredRemoval "bc", .ignoredSimple "q" "?!", .ignoredSimple "xy" "z",
        .ignoredNumeric "uu"] := by
  have hknown : ∀ name ∈ mixed.preset?, name ∈ ["java", "proto", "protobuf"] := by
    decide +kernel
  obtain ⟨hvalue, -, hquiet, hreports, -⟩ := build_pruned mixed hknown
  exact ⟨hknown, hvalue, hquiet.trans (by decide +kernel), hreports.trans (by decide +kernel)⟩

end Settings

end Unescape
