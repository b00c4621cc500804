import Unescape.Event
import Unescape.Settings.Basic

set_option autoImplicit false

/-! # Grammars from settings

A grammar is built by laying the entries of settings over a built-in grammar: markers to remove
first, then simple escapes, the octal escape, numeric escapes, and the one-line flag. An entry that
names no single character where one is needed is left out and reported.

`Settings.tryBuild` refuses a preset that does not exist; `Settings.build` reports it and starts
from the default one. -/

namespace Unescape

/-- The only character of a string. -/
def singleChar? (s : String) : Option Char :=
  match s.toList with
  | [c] => some c
  | _ => none

/-! ## Entries -/

/-- The simple escapes less those of some markers. -/
def Grammar.removeMarkers (g : Grammar) (markers : List String) : Logged Grammar :=
  markers.foldlM (fun g marker =>
    match singleChar? marker with
    | some c => pure (g.withoutSimple c)
    | none => do
      emit (.ignoredRemoval marker)
      pure g) g

/-- The simple escapes with more of them, a later one over an earlier one. -/
def Grammar.addSimple (g : Grammar) (escapes : List (String × String)) : Logged Grammar :=
  escapes.foldlM (fun g entry =>
    match singleChar? entry.1, singleChar? entry.2 with
    | some marker, some decoded => pure (g.withSimple marker decoded)
    | _, _ => do
      emit (.ignoredSimple entry.1 entry.2)
      pure g) g

namespace OctalSettings

/-- The octal escape that settings ask for, where `base` is the one of the preset. What is not said
    is taken from there, or from the standard form. At least one digit is read. -/
def overlay (s : OctalSettings) (base : Option OctalEscape) : Option OctalEscape :=
  if s.enabled = some false then none
  else
    let base := base.getD OctalEscape.standard
    some ⟨max (s.maxDigits.getD base.maxDigits) 1, s.maxValue.getD base.maxValue⟩

end OctalSettings

namespace NumericSettings

/-- Fewest digits asked for: the bound itself, else the digit count, else four. -/
def fewest (s : NumericSettings) : Nat := (s.minDigits.or s.digits).getD 4

/-- Most digits asked for: the bound itself, else the digit count, else the fewest. -/
def most (s : NumericSettings) : Nat := (s.maxDigits.or s.digits).getD s.fewest

/-- The numeric escape that settings ask for with a given marker. -/
def escape (s : NumericSettings) (marker : Char) : NumericEscape :=
  { NumericEscape.between marker s.fewest s.most with
    repeatMarker := s.repeatMarker.getD false }

end NumericSettings

/-- The numeric escapes with more of them. Digits beyond what a code value holds are cut off and
    reported. -/
def Grammar.addNumeric (g : Grammar) (escapes : List NumericSettings) : Logged Grammar :=
  escapes.foldlM (fun g entry =>
    match singleChar? entry.marker with
    | some marker => do
      if entry.most > NumericEscape.digitLimit then emit (.cappedDigits marker entry.most)
      pure (g.withNumeric (entry.escape marker))
    | none => do
      emit (.ignoredNumeric entry.marker)
      pure g) g

/-! ## Grammars -/

namespace GrammarSettings

/-- Lay the entries of settings over a grammar. -/
def overlay (s : GrammarSettings) (base : Grammar) : Logged Grammar := do
  let g ← base.removeMarkers (s.remove.getD [])
  let g ← g.addSimple (s.escapes.getD SortedMap.empty).entries
  let g := match s.octal with
    | some octal => g.withOctal (octal.overlay g.octal)
    | none => g
  let g ← g.addNumeric (s.numeric.getD [])
  return match s.oneLine with
    | some oneLine => g.withOneLine oneLine
    | none => g

/-- Whether the settings have no entries to lay over a grammar. -/
def isUnmodified (s : GrammarSettings) : Bool :=
  s.oneLine.isNone && s.escapes.isNone && s.remove.isNone && s.octal.isNone && s.numeric.isNone

/-- Without entries the grammar stays as it is, and nothing is reported. -/
theorem overlay_of_isUnmodified {s : GrammarSettings} (h : s.isUnmodified = true)
    (base : Grammar) : s.overlay base = pure base := by
  obtain ⟨preset, oneLine, escapes, remove, octal, numeric⟩ := s
  simp only [isUnmodified, Bool.and_eq_true, Option.isNone_iff_eq_none] at h
  obtain ⟨⟨⟨⟨rfl, rfl⟩, rfl⟩, rfl⟩, rfl⟩ := h
  rfl

end GrammarSettings

namespace Settings

/-- The grammar of settings, unless they name a preset that does not exist. -/
def tryBuild (s : Settings) : Logged (Except Error Grammar) := do
  match s.grammar with
  | none => return .ok Grammar.java
  | some gs =>
    let name := gs.preset.getD Grammar.defaultName
    match Grammar.builtin? name with
    | none => return .error (.unknownPreset name)
    | some preset =>
      -- A preset without entries is handed out as it is.
      if gs.isUnmodified then return .ok preset else return .ok (← gs.overlay preset)

/-- The grammar of settings. A preset that does not exist is reported, and costs only itself: the
    entries are laid over the default preset. -/
def build (s : Settings) : Logged Grammar := do
  match ← s.tryBuild with
  | .ok g => return g
  | .error _ =>
    match s.grammar with
    | none => return Grammar.java
    | some gs =>
      emit (.fallbackPreset (gs.preset.getD Grammar.defaultName))
      gs.overlay Grammar.java

end Settings

end Unescape
