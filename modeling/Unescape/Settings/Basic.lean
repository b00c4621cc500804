import Unescape.SortedMap

set_option autoImplicit false

/-! # Settings

What a settings file can say about an escape grammar: the built-in grammar to start from, and
entries laid over it. Every entry is optional, and values are kept as they were written; which of
them make sense is decided when a grammar is built. -/

namespace Unescape

/-- What settings say about octal escapes. -/
structure OctalSettings where
  /-- False takes octal escapes away, whatever else is said. -/
  enabled : Option Bool
  maxDigits : Option Nat
  maxValue : Option UInt32
deriving DecidableEq, Repr, Inhabited

/-- One numeric escape to add, or to put over one with the same marker. -/
structure NumericSettings where
  marker : String
  /-- A digit count that stands in for both bounds. -/
  digits : Option Nat
  minDigits : Option Nat
  maxDigits : Option Nat
  repeatMarker : Option Bool
deriving DecidableEq, Repr, Inhabited

/-- A built-in grammar and the entries laid over it. -/
structure GrammarSettings where
  /-- Name of the built-in grammar. -/
  preset : Option String
  oneLine : Option Bool
  /-- Simple escapes to add or to replace, from marker to decoded character. -/
  escapes : Option (SortedMap String String)
  /-- Markers of simple escapes to take away. -/
  remove : Option (List String)
  octal : Option OctalSettings
  numeric : Option (List NumericSettings)
deriving DecidableEq, Repr, Inhabited

/-- The settings of a directory. -/
structure Settings where
  grammar : Option GrammarSettings
deriving DecidableEq, Repr

namespace Settings

/-- Settings that say nothing. -/
def empty : Settings := ⟨none⟩

instance : Inhabited Settings := ⟨empty⟩

end Settings

end Unescape
