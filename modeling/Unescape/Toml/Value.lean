import Unescape.Toml.Number

set_option autoImplicit false

/-! # Values and tables of a TOML document

A document is a table, and every statement in it adds an entry somewhere. Where an entry may be
added depends on how the tables on the way came about, so a table remembers its `Origin`: a table
that was spelled out is closed to dotted keys from elsewhere, one between braces is closed for
good, and one that exists only because something was put into it can still be spelled out. -/

namespace Unescape

namespace Toml

/-- How a table came about. -/
inductive Origin where
  /-- Spelled out by a header of its own; also the document itself and every table of an array of
      tables. -/
  | header
  /-- Named on the way in the header of a table within it. -/
  | implied
  /-- Named on the way in a dotted key. -/
  | dotted
  /-- Written between braces. -/
  | braces
deriving DecidableEq, Repr

/-- A value of a document. -/
inductive Value where
  | string (s : String)
  | integer (n : Int)
  | float (literal : FloatLiteral)
  | boolean (b : Bool)
  | dateTime (d : DateTime)
  /-- Values between brackets. -/
  | array (items : List Value)
  | table (origin : Origin) (entries : List (String × Value))
  /-- An array of tables, each with a header of its own. -/
  | tables (items : List (List (String × Value)))
deriving Repr

/-- The entries of a table, in the order in which they were added, one per key. -/
abbrev Entries := List (String × Value)

namespace Entries

/-- The value of a key. -/
def get? (es : Entries) (key : String) : Option Value := List.lookup key es

/-- Replace the value of a key, or add the entry at the end. -/
def put (key : String) (v : Value) : Entries → Entries
  | [] => [(key, v)]
  | (k, w) :: es => if k = key then (key, v) :: es else (k, w) :: put key v es

/-- Change the table at the end of a path. A table that is missing on the way is made, with origin
    `made`; an array of tables stands for its last table. The way is barred by a value that is no
    table, and by a table whose origin is not `open?`. -/
def updateAt (made : Origin) (open? : Origin → Bool) (change : Origin → Entries → Option Entries) :
    List String → Origin → Entries → Option Entries
  | [], origin, es => change origin es
  | key :: path, _, es =>
    match get? es key with
    | none => do
      let sub ← updateAt made open? change path made []
      return put key (.table made sub) es
    | some (.table origin sub) =>
      if open? origin then do
        let sub ← updateAt made open? change path origin sub
        return put key (.table origin sub) es
      else none
    | some (.tables items) =>
      match items.getLast? with
      | some last => do
        let last ← updateAt made open? change path .header last
        return put key (.tables (items.dropLast ++ [last])) es
      | none => none
    | some _ => none

/-- Add an entry under a dotted key, given as the path to a table and the key in it. The tables on
    the way must all be dotted ones or, if the path is empty, the table must not be one. The key must
    be new. -/
def assign (path : List String) (key : String) (v : Value) (origin : Origin) (es : Entries) :
    Option Entries :=
  updateAt .dotted (fun o => o == .implied || o == .dotted)
    (fun o es =>
      if (o == .dotted) == path.isEmpty then none
      else
        match get? es key with
        | none => some (put key v es)
        | some _ => none)
    path origin es

/-- Change the table at the end of a path of a header. -/
def updateHeader (path : List String) (change : Entries → Option Entries) (es : Entries) :
    Option Entries :=
  updateAt .implied (fun o => o != .braces) (fun _ es => change es) path .header es

/-- Spell out a table. It must be new, or exist only by way of tables within it. -/
def openTable (path : List String) (key : String) (es : Entries) : Option Entries :=
  updateHeader path
    (fun es =>
      match get? es key with
      | none => some (put key (.table .header []) es)
      | some (.table .implied sub) => some (put key (.table .header sub) es)
      | some _ => none)
    es

/-- Add a table to an array of tables, which is made if there is none. -/
def appendTable (path : List String) (key : String) (es : Entries) : Option Entries :=
  updateHeader path
    (fun es =>
      match get? es key with
      | none => some (put key (.tables [[]]) es)
      | some (.tables items) => some (put key (.tables (items ++ [[]])) es)
      | some _ => none)
    es

end Entries

end Toml

end Unescape
