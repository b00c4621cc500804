import Unescape.SortedMap

set_option autoImplicit false

/-! # Escape grammars

A grammar is a table that says which backslash escapes a kind of literal accepts. There are three
forms of escape: a *simple* one stands for one character; a *numeric* one is a marker letter and
hexadecimal digits of a code point; an *octal* one has its digits directly behind the backslash.
The decoder consults the table and knows no escape of its own. -/

namespace Unescape

/-! ## Numeric escapes -/

/-- A marker letter followed by hexadecimal digits. -/
structure NumericEscape where
  /-- The letter behind the backslash. -/
  marker : Char
  /-- Fewest digits accepted. -/
  minDigits : Nat
  /-- Most digits read. -/
  maxDigits : Nat
  /-- Whether the marker may stand several times before the digits. -/
  repeatMarker : Bool
deriving DecidableEq, Repr, Inhabited

namespace NumericEscape

/-- As many hexadecimal digits as a 32-bit code value holds. -/
def digitLimit : Nat := 8

/-- An escape of `minDigits` to `maxDigits` digits, both brought into the range that a code value
    allows: the most digits first, into `1..digitLimit`, then the fewest, into `1..maxDigits`. -/
def between (marker : Char) (minDigits maxDigits : Nat) : NumericEscape :=
  let most := min (max 1 maxDigits) digitLimit
  { marker := marker
    minDigits := min (max 1 minDigits) most
    maxDigits := most
    repeatMarker := false }

/-- An escape of exactly `digits` digits. -/
def fixed (marker : Char) (digits : Nat) : NumericEscape := between marker digits digits

/-- The same escape with a marker that may repeat. -/
def repeatable (e : NumericEscape) : NumericEscape := { e with repeatMarker := true }

end NumericEscape

/-! ## Octal escapes -/

/-- Octal digits directly behind the backslash. -/
structure OctalEscape where
  /-- Most digits read. -/
  maxDigits : Nat
  /-- A digit that would take the value beyond this ends the escape before it. -/
  maxValue : UInt32
deriving DecidableEq, Repr, Inhabited

/-- The customary form: up to three digits, up to the value of `\377`. -/
def OctalEscape.standard : OctalEscape := ⟨3, 255⟩

/-! ## Grammars -/

/-- The escapes of one kind of literal. -/
structure Grammar where
  /-- Name of the kind, shown in events. -/
  name : String
  /-- What each single-letter escape stands for. -/
  simple : SortedMap Char Char
  /-- Numeric escapes, in the order in which they were added. -/
  numeric : List NumericEscape
  /-- The octal escape, if the kind has one. -/
  octal : Option OctalEscape
  /-- Whether decoded text of this kind is taken to be a single line. A property of the kind,
      never computed from a text. -/
  oneLine : Bool
deriving DecidableEq, Repr

namespace Grammar

/-- The grammar without escapes: a backslash is always an error. -/
def empty (name : String) : Grammar :=
  { name := name, simple := SortedMap.empty, numeric := [], octal := none, oneLine := true }

instance : Inhabited Grammar := ⟨empty ""⟩

/-- The character that the simple escape with marker `c` stands for. -/
def simple? (g : Grammar) (c : Char) : Option Char := g.simple.get? c

/-- The numeric escape with marker `c`. -/
def numeric? (g : Grammar) (c : Char) : Option NumericEscape :=
  g.numeric.find? fun e => e.marker = c

/-! ## Building grammars -/

/-- Let `\marker` stand for `decoded`, whatever it stood for before. -/
def withSimple (g : Grammar) (marker decoded : Char) : Grammar :=
  { g with simple := g.simple.insert marker decoded }

/-- Several simple escapes at once; the later of two with one marker wins. -/
def withSimples (g : Grammar) (escapes : List (Char × Char)) : Grammar :=
  { g with simple := g.simple.insertMany escapes }

/-- Drop the simple escape of a marker. -/
def withoutSimple (g : Grammar) (marker : Char) : Grammar :=
  { g with simple := g.simple.erase marker }

/-- Add a numeric escape at the end, and drop an earlier one with the same marker. -/
def withNumeric (g : Grammar) (e : NumericEscape) : Grammar :=
  { g with numeric := g.numeric.filter (fun n => n.marker ≠ e.marker) ++ [e] }

/-- Set the octal escape, or take it away. -/
def withOctal (g : Grammar) (octal : Option OctalEscape) : Grammar := { g with octal := octal }

/-- Say whether decoded text is a single line. -/
def withOneLine (g : Grammar) (oneLine : Bool) : Grammar := { g with oneLine := oneLine }

theorem simple?_withSimple (g : Grammar) (marker decoded c : Char) :
    (g.withSimple marker decoded).simple? c = if c = marker then some decoded else g.simple? c :=
  SortedMap.get?_insert ..

theorem simple?_withoutSimple (g : Grammar) (marker c : Char) :
    (g.withoutSimple marker).simple? c = if c = marker then none else g.simple? c :=
  SortedMap.get?_erase ..

theorem numeric?_withNumeric (g : Grammar) (e : NumericEscape) (c : Char) :
    (g.withNumeric e).numeric? c = if c = e.marker then some e else g.numeric? c := by
  simp only [numeric?, withNumeric, List.find?_append, List.find?_filter]
  by_cases h : c = e.marker
  · subst h
    have hnone : (g.numeric.find? fun _ => false) = none := by simp
    simp [hnone]
  · have h' : ¬ e.marker = c := fun he => h he.symm
    simp only [h, if_false, List.find?_cons, h', decide_false, List.find?_nil, Option.or_none]
    congr 1
    funext n
    by_cases hn : n.marker = c <;> simp_all

end Grammar

end Unescape
