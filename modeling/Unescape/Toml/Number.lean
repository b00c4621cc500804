import Unescape.Escape.CodeValue
import Unescape.Toml.DateTime

set_option autoImplicit false

/-! # Numbers of a TOML document

Integers are signed 64-bit words, in decimal notation or, without a sign, in notation to the base
16, 8 or 2. Floats are kept as they are written: settings have none, but one that is too large for a
double is an error of the document. Digits may be grouped by single underscores. -/

namespace Unescape

namespace Toml

open Reader

/-! ## Digits -/

/-- Digits of a kind, one at least, with single underscores between them. The underscores are left
    out of what is read. -/
def groupedDigits (isDigit : Char → Bool) : Reader Text := do
  let first ← satisfy isDigit
  let more ← many (satisfy isDigit <|> (char '_' *> satisfy isDigit))
  return first :: more

/-- Decimal digits that begin with a zero only if there is no other digit. -/
def decimalDigits : Reader Text :=
  (char '0' *> pure ['0']) <|> groupedDigits Char.isDigit

/-- A sign, if there is one: whether it is a minus. -/
def sign : Reader Bool := (char '-' *> pure true) <|> (char '+' *> pure false) <|> pure false

/-- The value of digits to a base. -/
def valueToBase (base : Nat) (ds : Text) : Nat :=
  (ds.filterMap hexDigit?).foldl (fun n d => base * n + d.toNat) 0

/-! ## Integers -/

/-- A signed 64-bit word. -/
def word (n : Int) : Reader Int :=
  if Int64.minValue.toInt ≤ n ∧ n ≤ Int64.maxValue.toInt then return n else failure

/-- A decimal integer. -/
def decimalInteger : Reader Int := do
  let negative ← sign
  let n : Int := decimalValue (← decimalDigits)
  word (if negative then -n else n)

/-- An integer to another base, behind a zero and a letter. -/
def basedInteger (letter : Char) (base : Nat) (isDigit : Char → Bool) : Reader Int := do
  literal ['0', letter]
  word (valueToBase base (← groupedDigits isDigit))

/-- An integer in any of the four notations. -/
def integer : Reader Int :=
  basedInteger 'x' 16 (fun c => (hexDigit? c).isSome)
  <|> basedInteger 'o' 8 (fun c => (octalDigit? c).isSome)
  <|> basedInteger 'b' 2 (fun c => c == '0' || c == '1')
  <|> decimalInteger

/-! ## Floats -/

/-- A decimal number in scientific notation: `digits · 10 ^ exponent`. -/
structure Scientific where
  negative : Bool
  digits : Nat
  exponent : Int
deriving DecidableEq, Repr

/-- The least number that is rounded to infinity: half a step above the largest double. -/
def overflowBound : Nat := Nat.pow 2 1024 - Nat.pow 2 970

/-- Whether a number is too large for a double. The size of the number is estimated first, so that
    no huge power is ever computed. -/
def Scientific.overflows (s : Scientific) : Bool :=
  if s.digits = 0 then false
  else
    let magnitude : Int := (Nat.toDigits 10 s.digits).length + s.exponent
    if magnitude > 400 then true
    else if magnitude < 300 then false
    else if 0 ≤ s.exponent then overflowBound ≤ s.digits * Nat.pow 10 s.exponent.toNat
    else overflowBound * Nat.pow 10 s.exponent.natAbs ≤ s.digits

/-- A float, as a number or as one of the special values. -/
inductive FloatLiteral where
  | scientific (s : Scientific)
  | infinite (negative : Bool)
  | notANumber (negative : Bool)
deriving DecidableEq, Repr

/-- The exponent of a float. -/
def exponent : Reader Int := do
  let _ ← satisfy fun c => c == 'e' || c == 'E'
  let negative ← sign
  let n : Int := decimalValue (← groupedDigits Char.isDigit)
  return if negative then -n else n

/-- The digits behind the point of a float. -/
def fractionDigits : Reader Text := char '.' *> groupedDigits Char.isDigit

/-- A float has a fraction, an exponent, or both. One that is too large is refused, though not its
    negative. -/
def scientific : Reader FloatLiteral := do
  let negative ← sign
  let whole ← decimalDigits
  let fraction := (← optional? fractionDigits).getD []
  let shift ← if fraction.isEmpty then exponent else (·.getD 0) <$> optional? exponent
  let s : Scientific := ⟨negative, decimalValue (whole ++ fraction), shift - fraction.length⟩
  if !negative && s.overflows then failure else return .scientific s

/-- Infinity and the value that is no number, with or without a sign. -/
def specialFloat : Reader FloatLiteral := do
  let negative ← sign
  (literal ['i', 'n', 'f'] *> pure (.infinite negative))
    <|> (literal ['n', 'a', 'n'] *> pure (.notANumber negative))

/-- A float of either kind. -/
def float : Reader FloatLiteral := scientific <|> specialFloat

end Toml

end Unescape
