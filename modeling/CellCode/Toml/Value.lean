import CellCode.Decimal.Shortest
import CellCode.Text.Quoted
import CellCode.Toml.Moment

/-!
# Values of a configuration file

A table is a list of keys with their values in the order in which the keys were first
written. `Table.alter?` is the one way into a nested table: it follows a path of keys, makes
the tables that are missing, and enters an array of tables at its last element.
-/

namespace CellCode.Toml

/-- A value of a configuration file. -/
inductive Value
  | text (s : String)
  | integer (v : Int)
  | number (x : Float)
  | boolean (b : Bool)
  | moment (m : Moment)
  | array (items : List Value)
  | table (members : List (String × Value))

/-- Keys and values, in the order of their first appearance. -/
abbrev Table := List (String × Value)

/-- A value that other values are part of. -/
def Value.isCompound : Value → Bool
  | .array _ => true
  | .table _ => true
  | _ => false

namespace Table

/-- The value of a key. -/
def get? (t : Table) (key : String) : Option Value := t.lookup key

/-- Replaces the value of a key, or adds the key behind the others. -/
def set : Table → String → Value → Table
  | [], key, value => [(key, value)]
  | (k, v) :: rest, key, value =>
    if k = key then (k, value) :: rest else (k, v) :: set rest key value

/-- Applies `f` to the table at the end of a path. Tables on the way that are missing are made;
    an array is entered at its last item. There is no result where another value is in the way
    or `f` gives none. -/
def alter? (f : Table → Option Table) : (path : List String) → Table → Option Table
  | [], t => f t
  | key :: path, t =>
    match t.get? key with
    | none => (alter? f path []).map fun inner => t.set key (.table inner)
    | some (.table inner) => (alter? f path inner).map fun inner => t.set key (.table inner)
    | some (.array items) =>
      match items.getLast? with
      | some (.table inner) =>
        (alter? f path inner).map fun inner => t.set key (.array (items.dropLast ++ [.table inner]))
      | _ => none
    | some _ => none

/-- Gives a new key its value. -/
def insertNew? (key : String) (value : Value) (t : Table) : Option Table :=
  if (t.get? key).isSome then none else some (t.set key value)

/-- Adds an empty table to the array under a key, which starts with it if it is missing. -/
def appendTable? (key : String) (t : Table) : Option Table :=
  match t.get? key with
  | none => some (t.set key (.array [.table []]))
  | some (.array items) => some (t.set key (.array (items ++ [.table []])))
  | some _ => none

end Table

mutual

/-- How messages show a value. -/
def Value.display : Value → String
  | .text s => Text.quoted s
  | .integer v => toString v
  | .number x => Decimal.text x
  | .boolean b => if b then "True" else "False"
  | .moment m => m.text
  | .array items => "[" ++ ", ".intercalate (displayItems items) ++ "]"
  | .table members => "\x7b" ++ ", ".intercalate (displayMembers members) ++ "\x7d"

/-- How messages show the items of an array. -/
def displayItems : List Value → List String
  | [] => []
  | item :: items => item.display :: displayItems items

/-- How messages show the members of a table. -/
def displayMembers : List (String × Value) → List String
  | [] => []
  | (key, value) :: members => (Text.quoted key ++ ": " ++ value.display) :: displayMembers members

end

end CellCode.Toml
