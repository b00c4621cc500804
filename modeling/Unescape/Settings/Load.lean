import Unescape.Event
import Unescape.Settings.Basic

set_option autoImplicit false

/-! # Settings from a file

What the text of a settings file says is decided by a *reader* of its format. Loading is the same with
each of them: `Settings.tryLoad` says what is wrong with a file; `Settings.load` always answers with
settings, and reports a file that the reader does not accept. -/

namespace Unescape

namespace Settings

/-- The name under which a directory keeps its settings. -/
def fileName : String := "settings.toml"

/-- A reader of a format of settings: what a text says, if it is accepted. -/
abbrev Reader := String → Option Settings

/-- The settings in a file, given its bytes if it can be read. -/
def tryLoad (reader : Reader) (file : Option ByteArray) : Except Error Settings :=
  match file.bind String.fromUTF8? with
  | none => .error .unreadableSettings
  | some text =>
    match reader text with
    | some settings => .ok settings
    | none => .error .malformedSettings

/-- The settings in a file, or empty ones. A file that is not accepted is reported; one that does not
    exist or is no text is not. -/
def load (reader : Reader) (file : Option ByteArray) : Logged Settings := do
  match tryLoad reader file with
  | .ok settings => return settings
  | .error .unreadableSettings => return empty
  | .error _ =>
    emit .settingsNotParsed
    return empty

end Settings

end Unescape
