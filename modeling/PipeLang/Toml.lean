/-!
# TOML values

The values of a TOML document, and how its tables grow while it is read. A table that a header names may
not be named by a header again; a table written in braces is closed; a table that only stands on the way to
another may still be named once; and one made by a dotted key is extended by dotted keys alone.
-/

namespace PipeLang

/-- How a table came about, which decides what may still be added to it. -/
inductive Toml.Standing where
  /-- Named by a header. -/
  | named
  /-- On the way to a table that a header names. -/
  | implied
  /-- On the way to a value that a dotted key names. -/
  | dotted
  /-- Written in braces. -/
  | closed
  deriving DecidableEq, Repr

/-- A value of a TOML document. -/
inductive Toml where
  | text (value : String)
  | integer (value : Int)
  | float (value : Float)
  | bool (value : Bool)
  /-- A date, a time, or both, as it is spelled. -/
  | moment (spelling : String)
  /-- An array; `grows` when headers in double brackets add tables to it. -/
  | array (grows : Bool) (items : List Toml)
  | table (standing : Toml.Standing) (entries : List (String × Toml))

namespace Toml

/-- The entries of a table, in the order in which their keys first came up. -/
abbrev Entries := List (String × Toml)

/-- The key under which a date or time, seen as a table, has its text. -/
def momentKey : String := "$__toml_private_datetime"

/-- The entries of a value that can be seen as a table. A date or time is one with a single entry, its text. -/
def entries? : Toml → Option Entries
  | table _ entries => some entries
  | moment spelling => some [(momentKey, .text spelling)]
  | _ => none

namespace Entries

/-- Puts a value in the place of the one under a key, or at the end. -/
def set (key : String) (value : Toml) : Entries → Entries
  | [] => [(key, value)]
  | (k, v) :: rest => if k = key then (key, value) :: rest else (k, v) :: set key value rest

/-- Changes the table that keys lead to; tables missing on the way are made, and of a growing array the last
table is taken. -/
def within (change : Entries → Option Entries) : List String → Entries → Option Entries
  | [], es => change es
  | key :: keys, es =>
    match es.lookup key with
    | none => do
      return es.set key (.table .implied (← within change keys []))
    | some (.table .closed _) => none
    | some (.table standing inner) => do
      return es.set key (.table standing (← within change keys inner))
    | some (.array true items) =>
      match items.getLast? with
      | some (.table standing inner) => do
        return es.set key (.array true (items.dropLast ++ [.table standing (← within change keys inner)]))
      | _ => none
    | some _ => none

/-- Opens the table under a key for a header. -/
def openTable (key : String) (es : Entries) : Option Entries :=
  match es.lookup key with
  | none => some (es.set key (.table .named []))
  | some (.table .implied inner) => some (es.set key (.table .named inner))
  | some _ => none

/-- Adds an empty table to the growing array under a key. -/
def pushTable (key : String) (es : Entries) : Option Entries :=
  match es.lookup key with
  | none => some (es.set key (.array true [.table .named []]))
  | some (.array true items) => some (es.set key (.array true (items ++ [.table .named []])))
  | some _ => none

/-- Adds a value under the last of some keys. The table that gets it is the first one when there is a single
key, and otherwise has to come from dotted keys, which `extensible` says. -/
def define (extensible : Bool) (value : Toml) : String → List String → Entries → Option Entries
  | key, [], es =>
    if extensible && (es.lookup key).isNone then some (es.set key value) else none
  | key, next :: keys, es =>
    match es.lookup key with
    | none => do
      return es.set key (.table .dotted (← define true value next keys []))
    | some (.table .dotted inner) => do
      return es.set key (.table .dotted (← define true value next keys inner))
    | some (.table .implied inner) => do
      return es.set key (.table .implied (← define false value next keys inner))
    | some (.array true items) =>
      match items.getLast? with
      | some (.table standing inner) => do
        return es.set key (.array true (items.dropLast ++ [.table standing (← define false value next keys inner)]))
      | _ => none
    | some _ => none

end Entries

end Toml

end PipeLang
