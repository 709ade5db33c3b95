import CellCode.Text.Blank
import CellCode.Toml.Parser

/-!
# Settings

Settings have defaults, then the values of the section of the settings file in the order in
which the file gives them, then those of the environment. The first value that cannot be
understood is the error.
-/

namespace CellCode

/-- How much is logged, most first. -/
inductive LogLevel
  | debug
  | info
  | warning
  | error
  | critical
  deriving DecidableEq, Repr

/-- The name of a level. -/
def LogLevel.name : LogLevel → String
  | debug => "DEBUG"
  | info => "INFO"
  | warning => "WARNING"
  | error => "ERROR"
  | critical => "CRITICAL"

/-- All levels. -/
def LogLevel.all : List LogLevel := [debug, info, warning, error, critical]

/-- The settings of the program. -/
structure Settings where
  /-- Whether listings show the code of a cell only once. -/
  collapse : Bool := true
  logLevel : LogLevel := .warning
  /-- Whether assembling writes a debug map beside the container. -/
  debugMap : Bool := false
  deriving DecidableEq, Repr

namespace Settings

/-- Settings that cannot be understood. A value is kept as messages show it. -/
inductive Error
  | malformedFile (path : String)
  | sectionNotTable (path : String)
  | unknownKey (key : String)
  | invalidBoolean (key : String) (shown : String)
  | invalidLevel (key : String) (shown : String)
  deriving DecidableEq, Repr

/-- The name of the settings file. -/
def fileName : String := "cellasm.toml"

/-- The name of the section of the settings file. -/
def sectionName : String := "cellasm"

/-- The wording of an error. -/
def Error.message : Error → String
  | malformedFile path => path ++ ": TOML error"
  | sectionNotTable path => path ++ ": [" ++ sectionName ++ "] must be a table"
  | unknownKey key => "unknown setting in " ++ fileName ++ ": " ++ key
  | invalidBoolean key shown => "invalid boolean for " ++ key ++ ": " ++ shown
  | invalidLevel key shown => "invalid log level for " ++ key ++ ": " ++ shown

/-! ## Values -/

/-- A letter in upper case, as far as the names of levels need it: the ASCII letters and the
    dotless i, whose capital is the plain one. -/
def upperChar (c : Char) : Char := if c.toNat = 0x131 then 'I' else c.toUpper

/-- The truth value that a word stands for, in any case and with blanks around it. -/
def boolean? (text : String) : Option Bool :=
  let word := String.ofList ((Text.trim text.toList).map Char.toLower)
  if ["1", "true", "yes", "on"].contains word then some true
  else if ["0", "false", "no", "off"].contains word then some false
  else none

/-- The level with a name, in any case and with blanks around it. -/
def level? (text : String) : Option LogLevel :=
  let word := String.ofList ((Text.trim text.toList).map upperChar)
  LogLevel.all.find? fun level => level.name = word

/-- The word that a value of the settings file writes, if it may be a word at all. -/
def word? : Toml.Value → Option String
  | .text s => some s
  | .integer v => some (toString v)
  | _ => none

/-- A truth value in the settings file. -/
def booleanOf (key : String) (value : Toml.Value) : Except Error Bool :=
  match value with
  | .boolean b => .ok b
  | value =>
    match word? value >>= boolean? with
    | some b => .ok b
    | none => .error (.invalidBoolean key value.display)

/-- A level in the settings file. -/
def levelOf (key : String) (value : Toml.Value) : Except Error LogLevel :=
  match word? value >>= level? with
  | some level => .ok level
  | none => .error (.invalidLevel key value.display)

/-! ## Sources -/

/-- Settings with one value of the settings file. -/
def withMember (s : Settings) (member : String × Toml.Value) : Except Error Settings := do
  let (key, value) := member
  if key = "collapse" then return { s with collapse := ← booleanOf key value }
  else if key = "log_level" then return { s with logLevel := ← levelOf key value }
  else if key = "debug_map" then return { s with debugMap := ← booleanOf key value }
  else throw (.unknownKey key)

/-- The section of a settings file. -/
def fileSection (path text : String) : Except Error Toml.Table :=
  match Toml.parse? text with
  | none => .error (.malformedFile path)
  | some table =>
    match table.get? sectionName with
    | none => .ok []
    | some (.table members) => .ok members
    | some _ => .error (.sectionNotTable path)

/-- Settings with the values of the environment. -/
def withEnvironment (s : Settings) (environment : String → Option String) :
    Except Error Settings := do
  let collapseKey := "CELLASM_COLLAPSE"
  let s ← match environment collapseKey with
    | none => pure s
    | some text => do pure { s with collapse := ← booleanOf collapseKey (.text text) }
  let levelKey := "CELLASM_LOG_LEVEL"
  match environment levelKey with
  | none => return s
  | some text => return { s with logLevel := ← levelOf levelKey (.text text) }

/-- The settings of a directory, from the text of its settings file, if it has one, and from
    the environment. -/
def load (path : String) (text : Option String) (environment : String → Option String) :
    Except Error Settings := do
  let members ← match text with
    | none => pure []
    | some text => fileSection path text
  let s ← members.foldlM withMember {}
  s.withEnvironment environment

end Settings

end CellCode
