import Unescape.Toml.Reader

set_option autoImplicit false

/-! # Dates and times of a TOML document

A value may be a date, a time of day, or both, then with or without an offset from universal time.
Settings have no use for one, but a document that holds one must still be read, and one with an
impossible date must be refused. -/

namespace Unescape

namespace Toml

open Reader

/-- A day of the calendar. -/
structure Date where
  year : Nat
  month : Nat
  day : Nat
deriving DecidableEq, Repr

/-- A time of day. -/
structure Time where
  hour : Nat
  minute : Nat
  second : Nat
  nanosecond : Nat
deriving DecidableEq, Repr

/-- Distance from universal time. -/
inductive Offset where
  | universal
  | minutes (n : Int)
deriving DecidableEq, Repr

/-- A date, a time, or both with or without an offset. -/
structure DateTime where
  date : Option Date
  time : Option Time
  offset : Option Offset
deriving DecidableEq, Repr

/-! ## Calendar -/

/-- Every fourth year, except full centuries that 400 does not divide. -/
def isLeapYear (year : Nat) : Bool := year % 4 == 0 && (year % 100 != 0 || year % 400 == 0)

/-- Number of days of a month. -/
def daysInMonth (year month : Nat) : Nat :=
  if month = 2 then (if isLeapYear year then 29 else 28)
  else if month = 4 ∨ month = 6 ∨ month = 9 ∨ month = 11 then 30
  else 31

/-! ## Reading -/

/-- Value of a run of decimal digits. -/
def decimalValue (ds : Text) : Nat := ds.foldl (fun n c => 10 * n + (c.toNat - '0'.toNat)) 0

/-- A number of exactly `digits` decimal digits, between two bounds. -/
def boundedNumber (digits least most : Nat) : Reader Nat := do
  let n := decimalValue (← count Char.isDigit digits)
  if least ≤ n ∧ n ≤ most then return n else failure

/-- A day that the calendar has. -/
def date : Reader Date := do
  let year ← boundedNumber 4 0 9999
  char '-'
  let month ← boundedNumber 2 1 12
  char '-'
  let day ← boundedNumber 2 1 31
  if day ≤ daysInMonth year month then return ⟨year, month, day⟩ else failure

/-- A fraction of a second in nanoseconds; digits behind the ninth are dropped. -/
def fraction : Reader Nat := do
  char '.'
  let ds := (← takeWhile1 Char.isDigit).take 9
  return decimalValue ds * Nat.pow 10 (9 - ds.length)

/-- A time of day; a minute may have a leap second. -/
def time : Reader Time := do
  let hour ← boundedNumber 2 0 23
  char ':'
  let minute ← boundedNumber 2 0 59
  char ':'
  let second ← boundedNumber 2 0 60
  let nanosecond := (← optional? fraction).getD 0
  return ⟨hour, minute, second, nanosecond⟩

/-- The distance from universal time, as a letter or as hours and minutes. -/
def offset : Reader Offset :=
  ((char 'Z' <|> char 'z') *> pure Offset.universal) <|> do
    let sign ← (char '+' *> pure (1 : Int)) <|> (char '-' *> pure (-1))
    let hours ← boundedNumber 2 0 23
    char ':'
    let minutes ← boundedNumber 2 0 59
    return .minutes (sign * (60 * hours + minutes))

/-- The time of a date, behind a letter or a space. -/
def timeOfDate : Reader (Time × Option Offset) := do
  let _ ← satisfy fun c => c == 'T' || c == 't' || c == ' '
  let t ← time
  let o ← optional? offset
  return (t, o)

/-- A date, a date with a time, or a time. -/
def dateTime : Reader DateTime :=
  (do
    let d ← date
    match ← optional? timeOfDate with
    | some (t, o) => return ⟨some d, some t, o⟩
    | none => return ⟨some d, none, none⟩)
  <|> (do return ⟨none, some (← time), none⟩)

/-! ## Printing -/

/-- A number in decimal digits, with leading zeros up to `width` digits. -/
def paddedDecimal (width n : Nat) : Text :=
  let ds := Nat.toDigits 10 n
  List.replicate (width - ds.length) '0' ++ ds

/-- Year, month and day. -/
def Date.text (d : Date) : Text :=
  paddedDecimal 4 d.year ++ '-' :: paddedDecimal 2 d.month ++ '-' :: paddedDecimal 2 d.day

/-- A fraction is printed without zeros at its end. -/
def Time.text (t : Time) : Text :=
  let seconds := paddedDecimal 2 t.hour ++ ':' :: paddedDecimal 2 t.minute ++
    ':' :: paddedDecimal 2 t.second
  if t.nanosecond = 0 then seconds
  else seconds ++ '.' :: ((paddedDecimal 9 t.nanosecond).reverse.dropWhile (· == '0')).reverse

/-- A letter, or a sign with hours and minutes. -/
def Offset.text : Offset → Text
  | universal => ['Z']
  | minutes n =>
    (if n < 0 then '-' else '+') :: paddedDecimal 2 (n.natAbs / 60) ++
      ':' :: paddedDecimal 2 (n.natAbs % 60)

/-- A date and its time are joined by a letter. -/
def DateTime.text (dt : DateTime) : Text :=
  let date := match dt.date with
    | some d => d.text
    | none => []
  let time := match dt.time with
    | some t => t.text
    | none => []
  let offset := match dt.offset with
    | some o => o.text
    | none => []
  date ++ (if dt.date.isSome && dt.time.isSome then ['T'] else []) ++ time ++ offset

end Toml

end Unescape
