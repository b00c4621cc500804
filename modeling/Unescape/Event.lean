import Unescape.Error
import Unescape.Escape.Malformed
import Unescape.Grammar.Builtin

set_option autoImplicit false

/-! # Events

Operations report what happened on the way as *events*: building a table, stopping at a malformed
escape, ignoring an entry of the settings. A result that comes with its events is `Logged`; a
computation of several steps reports the events of the steps in order. -/

namespace Unescape

/-- How much an event matters. -/
inductive Level where
  | trace
  | debug
  | warn
deriving DecidableEq, Repr

/-- What was reported. -/
inductive Event where
  /-- The offset table of a literal is being built. -/
  | indexing (grammar : String) (length : Nat)
  /-- Decoding a range stopped at a malformed escape. -/
  | malformed (kind : MalformedKind) (grammar : String) (span : Span)
  /-- A settings file could not be parsed and counts as empty. -/
  | settingsNotParsed
  /-- A marker to remove is not a single character. -/
  | ignoredRemoval (marker : String)
  /-- A simple escape whose marker or value is not a single character. -/
  | ignoredSimple (marker decoded : String)
  /-- A numeric escape whose marker is not a single character. -/
  | ignoredNumeric (marker : String)
  /-- A numeric escape asks for more digits than a code value holds. -/
  | cappedDigits (marker : Char) (digits : Nat)
  /-- A preset does not exist and the default one takes its place. -/
  | fallbackPreset (name : String)
deriving DecidableEq, Repr

namespace Event

/-- Warnings are about settings; the rest is for those who look at decoding itself. -/
def level : Event → Level
  | indexing .. => .trace
  | malformed .. => .debug
  | _ => .warn

/-- The sentence shown for an event. -/
def message : Event → String
  | indexing .. => "indexing literal"
  | malformed kind _ _ => "malformed escape: " ++ kind.message
  | settingsNotParsed => "failed to parse settings"
  | ignoredRemoval marker =>
    "ignoring escape marker to remove '" ++ marker ++ "': not a single character"
  | ignoredSimple marker decoded =>
    "ignoring escape '" ++ marker ++ "' = '" ++ decoded ++
      "': marker and value must be single characters"
  | ignoredNumeric marker =>
    "ignoring numeric escape '" ++ marker ++ "': marker must be a single character"
  | cappedDigits marker digits =>
    "numeric escape '" ++ marker.toString ++ "' allows " ++ toString digits ++
      " digits; capping at " ++ toString NumericEscape.digitLimit
  | fallbackPreset name =>
    (Error.unknownPreset name).message ++ "; using the '" ++ Grammar.defaultName ++ "' grammar"

/-- The named values shown behind the message. -/
def fields : Event → List (String × String)
  | indexing grammar length => [("grammar", grammar), ("len", toString length)]
  | malformed _ grammar span =>
    [("grammar", grammar), ("start", toString span.start), ("end", toString span.stop)]
  | _ => []

/-- Whether the event reports an entry of the settings that was left out. -/
def isIgnored : Event → Bool
  | ignoredRemoval _ | ignoredSimple .. | ignoredNumeric _ => true
  | _ => false

end Event

/-- The name of a level at the front of a line. -/
def Level.label : Level → String
  | trace => "TRACE"
  | debug => "DEBUG"
  | warn => "WARN"

/-- An event as a line of a log: level, message, then each field. -/
def Event.line (e : Event) : String :=
  e.fields.foldl (fun line f => line ++ " " ++ f.1 ++ "=" ++ f.2)
    (e.level.label ++ " " ++ e.message)

/-! ## Results with events -/

/-- A result and what was reported on the way to it. -/
structure Logged (α : Type) where
  value : α
  events : List Event
deriving DecidableEq, Repr

namespace Logged

variable {α β : Type}

/-- Go on with the result, and report in order. -/
def andThen (x : Logged α) (f : α → Logged β) : Logged β :=
  let y := f x.value
  ⟨y.value, x.events ++ y.events⟩

instance : Monad Logged where
  pure a := ⟨a, []⟩
  bind := andThen

@[simp] theorem value_pure (a : α) : (pure a : Logged α).value = a := rfl

@[simp] theorem events_pure (a : α) : (pure a : Logged α).events = [] := rfl

@[simp] theorem value_bind (x : Logged α) (f : α → Logged β) :
    (x >>= f).value = (f x.value).value := rfl

@[simp] theorem events_bind (x : Logged α) (f : α → Logged β) :
    (x >>= f).events = x.events ++ (f x.value).events := rfl

theorem ext_iff {x y : Logged α} : x = y ↔ x.value = y.value ∧ x.events = y.events := by
  obtain ⟨a, as⟩ := x
  obtain ⟨b, bs⟩ := y
  simp

instance : LawfulMonad Logged :=
  LawfulMonad.mk' Logged
    (fun x => ext_iff.2 ⟨rfl, List.append_nil _⟩)
    (fun _ _ => ext_iff.2 ⟨rfl, List.nil_append _⟩)
    (fun _ _ _ => ext_iff.2 ⟨rfl, List.append_assoc ..⟩)

@[simp] theorem value_map (f : α → β) (x : Logged α) : (f <$> x).value = f x.value := rfl

@[simp] theorem events_map (f : α → β) (x : Logged α) : (f <$> x).events = x.events :=
  List.append_nil _

end Logged

/-- Report one event. -/
def emit (e : Event) : Logged Unit := ⟨(), [e]⟩

@[simp] theorem value_emit (e : Event) : (emit e).value = () := rfl

@[simp] theorem events_emit (e : Event) : (emit e).events = [e] := rfl

end Unescape
