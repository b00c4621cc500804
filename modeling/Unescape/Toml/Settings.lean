import Unescape.Settings.Load
import Unescape.Toml.Document

set_option autoImplicit false

/-! # Settings in TOML

The reader of settings that runs. A settings file is a TOML document with a table `grammar`. Keys that
are not known are passed over, whatever they hold; a known key must hold a value of its type, or the
file as a whole is not accepted.

Nothing is proved of this reader: what is said about loading and finding settings holds of every
`Settings.Reader`. -/

namespace Unescape

open Toml (Value Entries)

/-! ## Records

A record is a table, or an array of the values of its fields in their order. -/

/-- A value that can be read as a record. -/
inductive Record where
  | named (entries : Entries)
  | positional (items : List Value)

namespace Record

/-- The key under which a date stands when it is read as a table. -/
def dateTimeKey : String := "$__toml_private_datetime"

/-- The record that a value is. A date is a table with its text as the only entry. -/
def ofValue? : Value → Option Record
  | .table _ es => some (named es)
  | .array items => some (positional items)
  | .tables items => some (positional (items.map (Value.table .header)))
  | .dateTime d => some (named [(dateTimeKey, .string (String.ofList d.text))])
  | _ => none

/-- The values of the fields of a record. An array must have one for every field; more are passed
    over. -/
def fields? (names : List String) : Record → Option (List (Option Value))
  | named es => some (names.map (Entries.get? es))
  | positional items =>
    if names.length ≤ items.length then some ((items.take names.length).map some) else none

end Record

/-! ## Values of a type -/

namespace Read

variable {α : Type}

/-- A string and nothing else. -/
def string : Value → Option String
  | .string s => some s
  | _ => none

/-- A truth value and nothing else. -/
def boolean : Value → Option Bool
  | .boolean b => some b
  | _ => none

/-- A count is an integer that is not negative. -/
def count : Value → Option Nat
  | .integer n => n.toNat?
  | _ => none

/-- A code value is a count of 32 bits. -/
def codeValue (v : Value) : Option UInt32 := do
  let n ← count v
  if n < UInt32.size then some (UInt32.ofNat n) else none

/-- A list of values of one type. -/
def list (read : Value → Option α) : Value → Option (List α)
  | .array items => items.mapM read
  | .tables items => (items.map (Value.table .header)).mapM read
  | _ => none

/-- A table of strings. -/
def strings (v : Value) : Option (SortedMap String String) := do
  match ← Record.ofValue? v with
  | .named es => return SortedMap.ofList (← es.mapM fun e => return (e.1, ← string e.2))
  | .positional _ => none

/-- A field that may be left out, though not hold anything else. -/
def optional (read : Value → Option α) : Option Value → Option (Option α)
  | none => some none
  | some v => (read v).map some

end Read

/-! ## Settings -/

namespace OctalSettings

/-- Every field may be left out. -/
def ofValue? (v : Value) : Option OctalSettings := do
  match ← (← Record.ofValue? v).fields? ["enabled", "max_digits", "max_value"] with
  | [enabled, maxDigits, maxValue] =>
    return {
      enabled := ← Read.optional Read.boolean enabled
      maxDigits := ← Read.optional Read.count maxDigits
      maxValue := ← Read.optional Read.codeValue maxValue }
  | _ => none

end OctalSettings

namespace NumericSettings

/-- The marker is the one field that may not be left out. -/
def ofValue? (v : Value) : Option NumericSettings := do
  match ← (← Record.ofValue? v).fields?
      ["marker", "digits", "min_digits", "max_digits", "repeat_marker"] with
  | [marker, digits, minDigits, maxDigits, repeatMarker] =>
    return {
      marker := ← Read.string (← marker)
      digits := ← Read.optional Read.count digits
      minDigits := ← Read.optional Read.count minDigits
      maxDigits := ← Read.optional Read.count maxDigits
      repeatMarker := ← Read.optional Read.boolean repeatMarker }
  | _ => none

end NumericSettings

namespace GrammarSettings

/-- Every field may be left out. -/
def ofValue? (v : Value) : Option GrammarSettings := do
  match ← (← Record.ofValue? v).fields?
      ["preset", "one_line", "escapes", "remove", "octal", "numeric"] with
  | [preset, oneLine, escapes, remove, octal, numeric] =>
    return {
      preset := ← Read.optional Read.string preset
      oneLine := ← Read.optional Read.boolean oneLine
      escapes := ← Read.optional Read.strings escapes
      remove := ← Read.optional (Read.list Read.string) remove
      octal := ← Read.optional OctalSettings.ofValue? octal
      numeric := ← Read.optional (Read.list NumericSettings.ofValue?) numeric }
  | _ => none

end GrammarSettings

namespace Toml

/-- The settings in the text of a TOML document. -/
def settings? : Settings.Reader := fun s => do
  let es ← parse? s.toList
  return ⟨← Read.optional GrammarSettings.ofValue? (es.get? "grammar")⟩

end Toml

end Unescape
