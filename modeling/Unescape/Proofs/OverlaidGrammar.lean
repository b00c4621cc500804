import Unescape.Settings.Overlay

set_option autoImplicit false

/-! # The grammar that settings ask for

The entries of settings are laid over a built-in grammar one after another. Each entry decides what
is looked up under its own marker and leaves the rest alone, and an entry that is left out decides
nothing. So a lookup in the grammar that comes out is answered by the last entry that decides it,
and by the built-in grammar if there is none (`Logged.value_foldlM_last`). `Grammar.IsOverlay` puts
together what that means for each part of a grammar; both ways to build one lead to it
(`Settings.tryBuild_isOverlay`). -/

namespace Unescape

/-! ## Maps in the order of their keys -/

namespace SortedMap

variable {α β γ : Type}

/-- No key has two entries, so the last entry with a key is the one that is looked up. -/
theorem findSome?_reverse_entries [DecidableEq α] [LT α] [Std.Irrefl (α := α) (· < ·)]
    (m : SortedMap α β) (k : α) (f : β → Option γ) :
    (m.entries.reverse.findSome? fun e => if e.1 = k then f e.2 else none) = (m.get? k).bind f := by
  obtain ⟨es, hm⟩ := m
  simp only [get?]
  induction es with
  | nil => rfl
  | cons e r ih =>
    obtain ⟨he, hr⟩ := List.pairwise_cons.1 hm
    rw [List.reverse_cons, List.findSome?_append, ih hr, find?]
    by_cases hk : e.1 = k
    · -- Behind an entry with the key there is none with the same one.
      have hrest : find? k r = none := by
        rw [← Option.not_isSome_iff_eq_none, isSome_find?_iff]
        intro hmem
        obtain ⟨e', he', hk'⟩ := List.mem_map.1 hmem
        have hlt := he e' he'
        rw [hk, hk'] at hlt
        exact Std.Irrefl.irrefl k hlt
      simp [hk, hrest]
    · simp [hk]

end SortedMap

/-! ## Entries one after another -/

namespace Logged

variable {σ τ δ : Type} {step : σ → τ → Logged σ}

/-- If each step answers a lookup by what it says about it, or else leaves the answer as it was, the
    steps together answer it by what the last one says that says anything. -/
theorem value_foldlM_last (look : σ → δ) (said : τ → Option δ)
    (hstep : ∀ s x, look (step s x).value = (said x).getD (look s)) (xs : List τ) (s : σ) :
    look (xs.foldlM step s).value = (xs.reverse.findSome? said).getD (look s) := by
  induction xs generalizing s with
  | nil => rfl
  | cons x xs ih =>
    rw [List.foldlM_cons, value_bind, ih, hstep, List.reverse_cons, List.findSome?_append]
    cases xs.reverse.findSome? said with
    | none => simp
    | some d => rfl

/-- The same for a lookup that may find nothing. -/
theorem value_foldlM_last? (look : σ → Option δ) (said : τ → Option δ)
    (hstep : ∀ s x, look (step s x).value = (said x).or (look s)) (xs : List τ) (s : σ) :
    look (xs.foldlM step s).value = (xs.reverse.findSome? said).or (look s) := by
  rw [value_foldlM_last look (Option.map some ∘ said), ← List.map_findSome?]
  · cases xs.reverse.findSome? said <;> rfl
  · intro s x
    rw [hstep, Function.comp_apply]
    cases said x <;> rfl

/-- A relation to the start that each step keeps is kept by the steps together. -/
theorem value_foldlM_rel (R : σ → σ → Prop) (hrefl : ∀ s, R s s)
    (htrans : ∀ s t u, R s t → R t u → R s u) (hstep : ∀ s x, R s (step s x).value) (xs : List τ)
    (s : σ) : R s (xs.foldlM step s).value := by
  induction xs generalizing s with
  | nil => exact hrefl s
  | cons x xs ih => exact htrans _ _ _ (hstep s x) (ih (step s x).value)

end Logged

theorem findSome?_ite_some {α β : Type} (p : α → Prop) [DecidablePred p] (f : α → β) (l : List α) :
    (l.findSome? fun x => if p x then some (f x) else none) = (l.find? fun x => p x).map f := by
  induction l with
  | nil => rfl
  | cons x l ih =>
    by_cases hx : p x
    · simp [hx]
    · simp [hx, ih]

theorem singleChar?_eq_some_iff {s : String} {c : Char} : singleChar? s = some c ↔ s = c.toString := by
  rw [← String.toList_inj, Char.toString, String.toList_singleton, singleChar?]
  split
  · rename_i d hd
    rw [hd, Option.some.injEq, List.cons.injEq]
    exact (and_iff_left rfl).symm
  · rename_i hne
    constructor
    · intro h
      exact absurd h (by simp)
    · intro h
      exact absurd h (hne c)

theorem toString_ne_of_singleChar?_eq_none {s : String} (h : singleChar? s = none) (c : Char) :
    s ≠ c.toString := by
  intro hs
  rw [singleChar?_eq_some_iff.2 hs] at h
  exact absurd h (by simp)

namespace Grammar

variable (g : Grammar)

/-- A marker that is removed stands for nothing. -/
theorem simple?_removeMarkers (markers : List String) (c : Char) :
    (g.removeMarkers markers).value.simple? c
      = if c.toString ∈ markers then none else g.simple? c := by
  refine (Logged.value_foldlM_last (fun g : Grammar => g.simple? c)
    (fun marker => if marker = c.toString then some none else none) ?_ markers g).trans ?_
  · intro g marker
    cases hmarker : singleChar? marker with
    | some d =>
      obtain rfl := singleChar?_eq_some_iff.1 hmarker
      show (g.withoutSimple d).simple? c = _
      rw [simple?_withoutSimple]
      by_cases h : c = d
      · simp [h]
      · simp [h, Ne.symm h]
    | none =>
      rw [if_neg (toString_ne_of_singleChar?_eq_none hmarker c)]
      rfl
  · rw [findSome?_ite_some]
    cases hfind : markers.reverse.find? fun marker => marker = c.toString with
    | some marker =>
      have hmarker := List.find?_some hfind
      have hmem := List.mem_reverse.1 (List.mem_of_find?_eq_some hfind)
      rw [of_decide_eq_true hmarker] at hmem
      rw [if_pos hmem]
      rfl
    | none =>
      have hmem : c.toString ∉ markers := by
        intro hmem
        exact List.find?_eq_none.1 hfind _ (List.mem_reverse.2 hmem) (decide_eq_true rfl)
      rw [if_neg hmem]
      rfl

/-- A simple escape that is added stands for its character, unless a later one has its marker. -/
theorem simple?_addSimple (escapes : List (String × String)) (c : Char) :
    (g.addSimple escapes).value.simple? c
      = (escapes.reverse.findSome? fun e =>
          if e.1 = c.toString then singleChar? e.2 else none).or (g.simple? c) := by
  refine Logged.value_foldlM_last? (fun g : Grammar => g.simple? c) _ ?_ escapes g
  intro g e
  cases hmarker : singleChar? e.1 with
  | some d =>
    have hd := singleChar?_eq_some_iff.1 hmarker
    cases hdecoded : singleChar? e.2 with
    | some decoded =>
      show (g.withSimple d decoded).simple? c = _
      rw [simple?_withSimple]
      by_cases h : c = d
      · simp [h, hd]
      · simp [h, hd, Ne.symm h]
    | none =>
      show g.simple? c = _
      rw [ite_self]
      rfl
  | none =>
    show g.simple? c = _
    rw [if_neg (toString_ne_of_singleChar?_eq_none hmarker c)]
    rfl

/-- A numeric escape that is added is found under its marker, unless a later one has the same. -/
theorem numeric?_addNumeric (escapes : List NumericSettings) (c : Char) :
    (g.addNumeric escapes).value.numeric? c
      = ((escapes.reverse.find? fun e => e.marker = c.toString).map fun e => e.escape c).or
          (g.numeric? c) := by
  rw [← findSome?_ite_some]
  refine Logged.value_foldlM_last? (fun g : Grammar => g.numeric? c) _ ?_ escapes g
  intro g e
  cases hmarker : singleChar? e.marker with
  | some d =>
    have hd := singleChar?_eq_some_iff.1 hmarker
    simp only [apply_ite Logged.value, Logged.value_bind, Logged.value_pure, ite_self]
    rw [numeric?_withNumeric]
    have hmarker' : (e.escape d).marker = d := rfl
    by_cases h : c = d
    · simp [h, hd, hmarker']
    · simp [h, hd, hmarker', Ne.symm h]
  | none =>
    show g.numeric? c = _
    rw [if_neg (toString_ne_of_singleChar?_eq_none hmarker c)]
    rfl

/-- The grammars differ in their simple escapes only. -/
def DiffersInSimple (g h : Grammar) : Prop := ∃ simple, h = { g with simple := simple }

/-- The grammars differ in their numeric escapes only. -/
def DiffersInNumeric (g h : Grammar) : Prop := ∃ numeric, h = { g with numeric := numeric }

theorem DiffersInSimple.trans (g h k : Grammar) (hg : DiffersInSimple g h) (hh : DiffersInSimple h k) :
    DiffersInSimple g k := by
  obtain ⟨_, rfl⟩ := hg
  obtain ⟨simple, rfl⟩ := hh
  exact ⟨simple, rfl⟩

theorem DiffersInNumeric.trans (g h k : Grammar) (hg : DiffersInNumeric g h)
    (hh : DiffersInNumeric h k) : DiffersInNumeric g k := by
  obtain ⟨_, rfl⟩ := hg
  obtain ⟨numeric, rfl⟩ := hh
  exact ⟨numeric, rfl⟩

theorem differsInSimple_removeMarkers (markers : List String) :
    DiffersInSimple g (g.removeMarkers markers).value := by
  refine Logged.value_foldlM_rel _ (fun g => ⟨g.simple, rfl⟩) DiffersInSimple.trans ?_ markers g
  intro g marker
  cases singleChar? marker with
  | some c => exact ⟨_, rfl⟩
  | none => exact ⟨_, rfl⟩

theorem differsInSimple_addSimple (escapes : List (String × String)) :
    DiffersInSimple g (g.addSimple escapes).value := by
  refine Logged.value_foldlM_rel _ (fun g => ⟨g.simple, rfl⟩) DiffersInSimple.trans ?_ escapes g
  intro g e
  cases singleChar? e.1 with
  | some marker => cases singleChar? e.2 <;> exact ⟨_, rfl⟩
  | none => exact ⟨_, rfl⟩

theorem differsInNumeric_addNumeric (escapes : List NumericSettings) :
    DiffersInNumeric g (g.addNumeric escapes).value := by
  refine Logged.value_foldlM_rel _ (fun g => ⟨g.numeric, rfl⟩) DiffersInNumeric.trans ?_ escapes g
  intro g e
  cases singleChar? e.marker with
  | some marker =>
    simp only [apply_ite Logged.value, Logged.value_bind, Logged.value_pure, ite_self]
    exact ⟨_, rfl⟩
  | none => exact ⟨_, rfl⟩

end Grammar

/-! ## All entries -/

/-- `g` is `base` with the entries of settings laid over it: every lookup is answered by the entry
    that makes sense for it, if there is one, and by `base` otherwise. -/
structure Grammar.IsOverlay (s : GrammarSettings) (base g : Grammar) : Prop where
  name : g.name = base.name
  /-- A simple escape that is added counts, else a removal, else what `base` has. -/
  simple : ∀ c, g.simple? c =
    ((s.escapes.bind (·.get? c.toString)).bind singleChar?).or
      (if c.toString ∈ s.remove.getD [] then none else base.simple? c)
  /-- The last numeric escape for a marker counts. -/
  numeric : ∀ c, g.numeric? c =
    match (s.numeric.getD []).reverse.find? fun n => n.marker = c.toString with
    | none => base.numeric? c
    | some n =>
      let fewest := (n.minDigits.or n.digits).getD 4
      let most := min (max 1 ((n.maxDigits.or n.digits).getD fewest)) 8
      some ⟨c, min (max 1 fewest) most, most, n.repeatMarker.getD false⟩
  octal : g.octal =
    match s.octal with
    | none => base.octal
    | some o =>
      if o.enabled = some false then none
      else
        let old := base.octal.getD OctalEscape.standard
        some ⟨max (o.maxDigits.getD old.maxDigits) 1, o.maxValue.getD old.maxValue⟩
  oneLine : g.oneLine = s.oneLine.getD base.oneLine

namespace GrammarSettings

variable {s : GrammarSettings}

/-- What the simple escapes of settings say about a marker. -/
theorem findSome?_escapes (s : GrammarSettings) (k : String) :
    ((s.escapes.getD SortedMap.empty).entries.reverse.findSome? fun e =>
        if e.1 = k then singleChar? e.2 else none)
      = (s.escapes.bind (·.get? k)).bind singleChar? := by
  cases h : s.escapes with
  | none => rfl
  | some m => exact SortedMap.findSome?_reverse_entries m k singleChar?

/-- Removals and simple escapes change the simple escapes only, and each looks after its marker. -/
theorem exists_simple (s : GrammarSettings) (base : Grammar) :
    ∃ simple,
      ((base.removeMarkers (s.remove.getD [])).value.addSimple
          (s.escapes.getD SortedMap.empty).entries).value = { base with simple := simple } ∧
      ∀ c, simple.get? c =
        ((s.escapes.bind (·.get? c.toString)).bind singleChar?).or
          (if c.toString ∈ s.remove.getD [] then none else base.simple? c) := by
  obtain ⟨simple, hadd⟩ := (base.removeMarkers (s.remove.getD [])).value.differsInSimple_addSimple
    (s.escapes.getD SortedMap.empty).entries
  obtain ⟨_, hremove⟩ := base.differsInSimple_removeMarkers (s.remove.getD [])
  refine ⟨simple, ?_, ?_⟩
  · rw [hadd, hremove]
  · intro c
    have hlookup := (base.removeMarkers (s.remove.getD [])).value.simple?_addSimple
      (s.escapes.getD SortedMap.empty).entries c
    rw [hadd, findSome?_escapes, base.simple?_removeMarkers] at hlookup
    exact hlookup

/-- The octal escape over the one of the base. -/
def octalOver (s : GrammarSettings) (base : Option OctalEscape) : Option OctalEscape :=
  match s.octal with
  | none => base
  | some o => o.overlay base

/-- The stages of an overlay, with those that set a single field written as an update of it. -/
theorem value_overlay (s : GrammarSettings) (base : Grammar) :
    (s.overlay base).value =
      let named := ((base.removeMarkers (s.remove.getD [])).value.addSimple
        (s.escapes.getD SortedMap.empty).entries).value
      let full := (Grammar.addNumeric { named with octal := s.octalOver named.octal }
        (s.numeric.getD [])).value
      { full with oneLine := s.oneLine.getD full.oneLine } := by
  obtain ⟨preset, oneLine, escapes, remove, octal, numeric⟩ := s
  cases octal <;> cases oneLine <;> rfl

theorem isOverlay_overlay (s : GrammarSettings) (base : Grammar) :
    Grammar.IsOverlay s base (s.overlay base).value := by
  obtain ⟨simple, hsimple, hget⟩ := s.exists_simple base
  obtain ⟨numeric, hnumeric⟩ := Grammar.differsInNumeric_addNumeric
    { base with simple := simple, octal := s.octalOver base.octal } (s.numeric.getD [])
  have hfind := Grammar.numeric?_addNumeric
    { base with simple := simple, octal := s.octalOver base.octal } (s.numeric.getD [])
  rw [hnumeric] at hfind
  simp only [value_overlay, hsimple, hnumeric]
  refine ⟨rfl, hget, ?_, ?_, rfl⟩
  · intro c
    refine (hfind c).trans ?_
    cases (s.numeric.getD []).reverse.find? fun n => n.marker = c.toString <;> rfl
  · show s.octalOver base.octal = _
    unfold octalOver
    cases s.octal <;> rfl

end GrammarSettings

/-! ## Grammars from settings -/

namespace Settings

variable {s : Settings} {base : Grammar}

/-- What settings lay over a grammar. Without a section for the grammar it is nothing. -/
def entries (s : Settings) : GrammarSettings := s.grammar.getD default

/-- Whether or not the shortcut for a preset without entries is taken, the grammar is the overlay,
    and so is what is reported. -/
theorem tryBuild_eq (hpreset : Grammar.builtin? (s.entries.preset.getD "java") = some base) :
    s.tryBuild = Except.ok <$> s.entries.overlay base := by
  obtain ⟨grammar⟩ := s
  cases grammar with
  | none =>
    obtain rfl := Option.some.inj (Grammar.builtin?_defaultName.symm.trans hpreset)
    have hoverlay : (default : GrammarSettings).overlay Grammar.java = pure Grammar.java :=
      GrammarSettings.overlay_of_isUnmodified rfl Grammar.java
    show _ = Except.ok <$> (default : GrammarSettings).overlay Grammar.java
    rw [hoverlay]
    rfl
  | some gs =>
    have hbuiltin : Grammar.builtin? (gs.preset.getD Grammar.defaultName) = some base := hpreset
    show (tryBuild ⟨some gs⟩) = Except.ok <$> gs.overlay base
    simp only [tryBuild, hbuiltin]
    split
    · rename_i hunmodified
      rw [GrammarSettings.overlay_of_isUnmodified hunmodified]
      rfl
    · rfl

theorem value_tryBuild (hpreset : Grammar.builtin? (s.entries.preset.getD "java") = some base) :
    s.tryBuild.value = .ok (s.entries.overlay base).value := by
  rw [tryBuild_eq hpreset, Logged.value_map]

/-- Where one way to build a grammar gives one, the other gives the same and reports the same. -/
theorem build_of_tryBuild {g : Grammar} (h : s.tryBuild.value = .ok g) :
    s.build = ⟨g, s.tryBuild.events⟩ := by
  refine Logged.ext_iff.2 ⟨?_, ?_⟩
  · simp only [build, Logged.value_bind, h, Logged.value_pure]
  · simp only [build, Logged.events_bind, h, Logged.events_pure, List.append_nil]

theorem value_build_of_tryBuild {g : Grammar} (h : s.tryBuild.value = .ok g) : s.build.value = g := by
  rw [build_of_tryBuild h]

/-- Settings that name a built-in grammar, or none, give the overlay of their entries over it, and
    both ways to build a grammar agree. -/
theorem tryBuild_isOverlay (hpreset : Grammar.builtin? (s.entries.preset.getD "java") = some base) :
    ∃ g, s.tryBuild.value = .ok g ∧ s.build.value = g ∧ Grammar.IsOverlay s.entries base g := by
  have hvalue := value_tryBuild hpreset
  exact ⟨_, hvalue, value_build_of_tryBuild hvalue, s.entries.isOverlay_overlay base⟩

end Settings

/-- Every kind of entry at once: a marker that is removed and added again, one that is removed only,
    entries whose marker or value is no single character, a numeric marker given twice, and bounds
    beyond what is allowed. -/
def Settings.mixed : Settings where
  grammar := some {
    preset := some "protobuf"
    oneLine := some false
    escapes := some (SortedMap.ofList [("n", "N"), ("q", "?!"), ("xy", "z")])
    remove := some ["n", "a", "bc"]
    octal := some ⟨none, some 0, none⟩
    numeric := some [⟨"u", some 2, none, none, none⟩, ⟨"uu", some 6, none, none, none⟩,
      ⟨"u", none, some 3, some 12, some true⟩] }

theorem Settings.tryBuild_isOverlay_mixed :
    Grammar.builtin? (Settings.mixed.entries.preset.getD "java") = some Grammar.proto ∧
    ∃ g, Settings.mixed.tryBuild.value = .ok g ∧ Settings.mixed.build.value = g ∧
      g.name = "proto" ∧ g.simple? 'n' = some 'N' ∧ g.simple? 'a' = none ∧ g.simple? 'q' = none ∧
      g.simple? 't' = some '\t' ∧ g.numeric? 'u' = some ⟨'u', 3, 8, true⟩ ∧
      g.numeric? 'x' = some ⟨'x', 1, 2, false⟩ ∧ g.octal = some ⟨1, 255⟩ ∧ g.oneLine = false := by
  have hpreset : Grammar.builtin? (Settings.mixed.entries.preset.getD "java")
      = some Grammar.proto := by decide +kernel
  obtain ⟨g, htry, hbuild, hover⟩ := tryBuild_isOverlay hpreset
  refine ⟨hpreset, g, htry, hbuild, hover.name.trans (by decide +kernel),
    (hover.simple 'n').trans (by decide +kernel), (hover.simple 'a').trans (by decide +kernel),
    (hover.simple 'q').trans (by decide +kernel), (hover.simple 't').trans (by decide +kernel),
    (hover.numeric 'u').trans (by decide +kernel), (hover.numeric 'x').trans (by decide +kernel),
    hover.octal.trans (by decide +kernel), hover.oneLine⟩

end Unescape
