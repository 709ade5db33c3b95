import CellCode.Text.Quoted

/-!
# JSON values

The values of JSON and their text. An object keeps its members in the order in which their
names first came, and a name that comes again replaces the value. Numbers keep their text,
since nothing here computes with them.

`Json.render` writes one member or item to a line, each level two spaces further in, and all
characters beyond ASCII as escapes of UTF-16 units.
-/

namespace CellCode

/-- A JSON value. -/
inductive Json
  | null
  | bool (value : Bool)
  | number (text : String)
  | string (value : String)
  | array (items : List Json)
  | object (members : List (String × Json))

namespace Json

/-- Adds a member; a name that is there already keeps its place and takes the new value. -/
def insertMember (members : List (String × Json)) (name : String) (value : Json) :
    List (String × Json) :=
  if members.any (·.1 == name) then
    members.map fun member => if member.1 == name then (name, value) else member
  else members ++ [(name, value)]

/-! ## Strings -/

/-- The escape of one UTF-16 unit. -/
def unitEscape (unit : Nat) : List Char := '\\' :: 'u' :: Text.hexDigits 4 unit

/-- One character inside a string. -/
def escapedChar (c : Char) : List Char :=
  if c == '"' then ['\\', '"']
  else if c == '\\' then ['\\', '\\']
  else if c == '\n' then ['\\', 'n']
  else if c == '\r' then ['\\', 'r']
  else if c == '\t' then ['\\', 't']
  else if c.toNat == 8 then ['\\', 'b']
  else if c.toNat == 12 then ['\\', 'f']
  else if 0x20 ≤ c.toNat && c.toNat < 0x7f then [c]
  else if c.toNat < 0x10000 then unitEscape c.toNat
  else
    let rest := c.toNat - 0x10000
    unitEscape (0xD800 + rest / 0x400) ++ unitEscape (0xDC00 + rest % 0x400)

/-- The string between quotation marks, in ASCII. -/
def quoted (s : String) : String := String.ofList ('"' :: s.toList.flatMap escapedChar ++ ['"'])

/-! ## Values -/

/-- How far each level is set in. -/
def indentStep : String := "  "

mutual

/-- The text of a value whose lines after the first are set in by `pad`. -/
def renderIn (pad : String) : Json → String
  | null => "null"
  | bool true => "true"
  | bool false => "false"
  | number text => text
  | string s => quoted s
  | array [] => "[]"
  | array (item :: items) =>
    let inner := pad ++ indentStep
    "[\n" ++ inner ++ renderIn inner item ++ renderItems inner items ++ "\n" ++ pad ++ "]"
  | object [] => "\x7b\x7d"
  | object ((name, value) :: members) =>
    let inner := pad ++ indentStep
    "\x7b\n" ++ inner ++ quoted name ++ ": " ++ renderIn inner value ++
      renderMembers inner members ++ "\n" ++ pad ++ "\x7d"

/-- The items after the first, each on its line. -/
def renderItems (pad : String) : List Json → String
  | [] => ""
  | item :: items => ",\n" ++ pad ++ renderIn pad item ++ renderItems pad items

/-- The members after the first, each on its line. -/
def renderMembers (pad : String) : List (String × Json) → String
  | [] => ""
  | (name, value) :: members =>
    ",\n" ++ pad ++ quoted name ++ ": " ++ renderIn pad value ++ renderMembers pad members

end

/-- The text of a value. -/
def render (value : Json) : String := renderIn "" value

end Json

end CellCode
