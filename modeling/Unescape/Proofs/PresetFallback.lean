import Unescape.Proofs.OverlaidGrammar

set_option autoImplicit false

/-! # Presets that do not exist

Settings may name a built-in grammar that does not exist. `Settings.tryBuild` refuses those, and only
those, with the name in its error. `Settings.build` gives up the name alone: it reports it and builds
what the same settings give without it. Everywhere else the two agree, in the grammar and in what they
report.

Both are settled by what settings with a preset that exists are built to
(`Settings.build_of_isKnown`): the default preset is one of them. -/

namespace Unescape

/-! ## Names of presets -/

/-- The names that a preset can have. -/
def Grammar.presetNames : List String := ["java", "proto", "protobuf"]

theorem Grammar.builtin?_eq_none_iff (name : String) : builtin? name = none ↔ name ∉ presetNames := by
  unfold builtin? presetNames
  split <;> simp_all

theorem Grammar.exists_builtin?_of_mem {name : String} (h : name ∈ presetNames) :
    ∃ base, builtin? name = some base := by
  cases hbuiltin : builtin? name with
  | none => exact absurd h ((builtin?_eq_none_iff name).1 hbuiltin)
  | some base => exact ⟨base, rfl⟩

namespace Settings

variable {s : Settings}

/-- The preset that settings name, if they name one. -/
def preset? (s : Settings) : Option String := s.entries.preset

/-- Settings that name no preset that does not exist. -/
def IsKnown (s : Settings) : Prop := ∀ name ∈ s.preset?, name ∈ Grammar.presetNames

/-- The same settings without a name of a preset. -/
def withoutPreset (s : Settings) : Settings :=
  ⟨s.grammar.map fun gs => { gs with preset := none }⟩

theorem isKnown_or_exists (s : Settings) :
    s.IsKnown ∨ ∃ name, s.preset? = some name ∧ name ∉ Grammar.presetNames := by
  unfold IsKnown
  cases s.preset? with
  | none => exact .inl fun name hname => absurd hname (Option.not_mem_none name)
  | some name =>
    by_cases hname : name ∈ Grammar.presetNames
    · exact .inl fun _ h => Option.some.inj h ▸ hname
    · exact .inr ⟨name, rfl, hname⟩

theorem isKnown_withoutPreset (s : Settings) : s.withoutPreset.IsKnown := by
  obtain ⟨grammar⟩ := s
  cases grammar <;> exact fun name hname => absurd hname (Option.not_mem_none name)

/-- What is laid over a grammar does not depend on the preset. -/
theorem overlay_withoutPreset (s : Settings) (base : Grammar) :
    s.withoutPreset.entries.overlay base = s.entries.overlay base := by
  obtain ⟨grammar⟩ := s
  cases grammar <;> rfl

/-! ## Presets that exist -/

theorem exists_builtin?_of_isKnown (h : s.IsKnown) :
    ∃ base, Grammar.builtin? (s.entries.preset.getD "java") = some base := by
  cases hpreset : s.entries.preset with
  | none => exact ⟨_, Grammar.builtin?_defaultName⟩
  | some name => exact Grammar.exists_builtin?_of_mem (h name hpreset)

/-- Settings with a preset that exists, or without one, are built to the overlay over it, in both
    ways. -/
theorem build_of_isKnown (h : s.IsKnown) :
    ∃ base, Grammar.builtin? (s.entries.preset.getD "java") = some base ∧
      s.tryBuild = Except.ok <$> s.entries.overlay base ∧ s.build = s.entries.overlay base := by
  obtain ⟨base, hbase⟩ := exists_builtin?_of_isKnown h
  have htry := tryBuild_eq hbase
  refine ⟨base, hbase, htry, ?_⟩
  rw [build_of_tryBuild (value_tryBuild hbase), htry, Logged.events_map]

/-- Without a preset the entries are laid over the default one. -/
theorem build_withoutPreset (s : Settings) :
    s.withoutPreset.build = s.entries.overlay Grammar.java := by
  obtain ⟨base, hbase, -, hbuild⟩ := build_of_isKnown (isKnown_withoutPreset s)
  have hpreset : s.withoutPreset.entries.preset = none := by
    obtain ⟨grammar⟩ := s
    cases grammar <;> rfl
  rw [hpreset] at hbase
  obtain rfl := Option.some.inj (Grammar.builtin?_defaultName.symm.trans hbase)
  rw [hbuild, overlay_withoutPreset]

/-! ## Presets that do not exist -/

/-- A preset that does not exist is refused by one way to build a grammar, and reported by the
    other. -/
theorem build_of_not_mem {name : String} (hpreset : s.preset? = some name)
    (hname : name ∉ Grammar.presetNames) :
    s.tryBuild = pure (.error (.unknownPreset name)) ∧
      s.build = (do emit (.fallbackPreset name); s.entries.overlay Grammar.java) := by
  obtain ⟨grammar⟩ := s
  cases grammar with
  | none => exact absurd hpreset (Option.not_mem_none name)
  | some gs =>
    have hgs : gs.preset = some name := hpreset
    have htry : tryBuild ⟨some gs⟩ = pure (.error (.unknownPreset name)) := by
      simp only [tryBuild, hgs, Option.getD_some, (Grammar.builtin?_eq_none_iff name).2 hname]
    refine ⟨htry, ?_⟩
    unfold build
    simp only [htry, pure_bind, hgs, Option.getD_some]
    rfl

/-- Only a preset that does not exist makes building fail, and the error names it. -/
theorem value_tryBuild_eq_error_iff (s : Settings) (e : Error) :
    s.tryBuild.value = .error e ↔
      ∃ name, s.preset? = some name ∧ name ∉ Grammar.presetNames ∧ e = .unknownPreset name := by
  constructor
  · intro he
    rcases s.isKnown_or_exists with hknown | ⟨name, hpreset, hname⟩
    · obtain ⟨base, -, htry, -⟩ := build_of_isKnown hknown
      rw [htry, Logged.value_map] at he
      exact absurd he (by simp)
    · rw [(build_of_not_mem hpreset hname).1, Logged.value_pure] at he
      exact ⟨name, hpreset, hname, (Except.error.inj he).symm⟩
  · rintro ⟨name, hpreset, hname, rfl⟩
    rw [(build_of_not_mem hpreset hname).1, Logged.value_pure]

/-- A preset that does not exist costs only the preset. Where one is named, and nowhere else, one way
    to build a grammar fails, with an error that names it; the other then gives what the settings
    give without it, and reports it before all else. In every other case both give the same grammar
    and report the same. -/
theorem build_costs_only_preset (s : Settings) :
    (∀ e, s.tryBuild.value = .error e ↔
      ∃ name, s.preset? = some name ∧ name ∉ ["java", "proto", "protobuf"] ∧
        e = .unknownPreset name) ∧
    (∀ name, s.tryBuild.value = .error (.unknownPreset name) →
      s.build.value = s.withoutPreset.build.value ∧
        s.build.events = .fallbackPreset name :: s.withoutPreset.build.events) ∧
    (∀ g, s.tryBuild.value = .ok g → s.build.value = g ∧ s.build.events = s.tryBuild.events) := by
  refine ⟨s.value_tryBuild_eq_error_iff, ?_, ?_⟩
  · intro name herror
    obtain ⟨_, hpreset, hname, heq⟩ := (s.value_tryBuild_eq_error_iff _).1 herror
    obtain rfl := Error.unknownPreset.inj heq
    rw [(build_of_not_mem hpreset hname).2, build_withoutPreset]
    exact ⟨rfl, rfl⟩
  · intro g hg
    rw [build_of_tryBuild hg]
    exact ⟨rfl, rfl⟩

/-- Entries beside a preset that does not exist are kept. -/
example :
    let s : Settings := ⟨some { (default : GrammarSettings) with
      preset := some "cobol", remove := some ["s"] }⟩
    s.build.value = Grammar.java.withoutSimple 's' ∧ s.build.events = [.fallbackPreset "cobol"] := by
  decide +kernel

end Settings

end Unescape
