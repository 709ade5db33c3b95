import CellCode.Text.Digit

/-!
# Options and operands

How a list of arguments is taken apart. An argument that starts with a dash is an option if
it has the name of one, alone or with a value behind an equals sign, if it is the start of
exactly one long name, or if it is a short name with its value, or with more short names,
directly behind it. Negative numbers, a single dash and arguments with a space are operands.
Behind `--` everything is an operand.
-/

namespace CellCode.CommandLine

/-- What an option is for. -/
inductive Key
  | help
  | verbose
  | root
  | state
  | full
  | output
  | debugMap
  deriving DecidableEq, Repr

/-- An option: its names with their dashes, and whether a value belongs to it. -/
structure Spec where
  key : Key
  names : List String
  takesValue : Bool
  deriving DecidableEq, Repr

/-- An argument as it was understood. -/
inductive Word
  | operand (text : String)
  /-- The mark behind which there are only operands. -/
  | mark
  /-- An option with its value; the value is empty where none belongs to it. -/
  | option (key : Key) (value : String)
  /-- An option whose value is the next argument. -/
  | wanting (key : Key)
  deriving DecidableEq, Repr

/-- The option with this name. -/
def find? (specs : List Spec) (name : String) : Option Spec :=
  specs.find? fun spec => spec.names.contains name

/-- A text before and behind its first equals sign. -/
def splitEquals (text : String) : String × Option String :=
  let cs := text.toList
  match cs.dropWhile (· != '=') with
  | [] => (text, none)
  | _ :: value => (String.ofList (cs.takeWhile (· != '=')), some (String.ofList value))

/-- A whole or fractional negative number in plain digits. -/
def isNegativeNumber (text : String) : Bool :=
  match text.toList with
  | '-' :: cs =>
    let cs := if cs.getLast? = some '\n' then cs.dropLast else cs
    let rest := cs.dropWhile Text.isDecimal
    match rest with
    | [] => !cs.isEmpty
    | '.' :: places => !places.isEmpty && places.all Text.isDecimal
    | _ => false
  | _ => false

/-- An option whose name is complete, with the value that is joined to it, if any. -/
def complete? (spec : Spec) : Option String → Option (List Word)
  | none => some [if spec.takesValue then .wanting spec.key else .option spec.key ""]
  | some value => if spec.takesValue then some [.option spec.key value] else none

/-- A short option with more characters directly behind it: its value, or more short options. -/
def joined? (specs : List Spec) (spec : Spec) (tail : List Char) : Option (List Word) :=
  match tail with
  | [] => complete? spec none
  | c :: rest =>
    if spec.takesValue then some [.option spec.key (String.ofList tail)]
    else do
      let next ← find? specs (String.ofList ['-', c])
      return .option spec.key "" :: (← joined? specs next rest)

/-- The options of which a long name starts with this. -/
def starting (specs : List Spec) (start : String) : List Spec :=
  specs.flatMap fun spec =>
    (spec.names.filter fun name => start.toList.isPrefixOf name.toList).map fun _ => spec

/-- An argument that has the form of an option but not the name of one: an operand, if it is a
    negative number or holds a space. -/
def unnamed? (text : String) : Option (List Word) :=
  if isNegativeNumber text || text.toList.contains ' ' then some [.operand text] else none

/-- What an argument means. Some are no option and cannot be an operand either. -/
def words? (specs : List Spec) (text : String) : Option (List Word) :=
  match text.toList with
  | [] => some [.operand text]
  | ['-'] => some [.operand text]
  | ['-', '-'] => some [.mark]
  | '-' :: second :: tail =>
    let (name, value) := splitEquals text
    match find? specs text, find? specs name with
    | some spec, _ => complete? spec none
    | none, some spec => complete? spec value
    | none, none =>
      if second = '-' then
        match starting specs name with
        | [] => unnamed? text
        | [spec] => complete? spec value
        | _ => none
      else
        match find? specs (String.ofList ['-', second]) with
        | some spec => joined? specs spec tail
        | none => unnamed? text
  | _ => some [.operand text]

/-- What the arguments mean, one after another. -/
def allWords? (specs : List Spec) : List String → Option (List Word)
  | [] => some []
  | text :: rest => do
    match ← words? specs text with
    | [.mark] => return .mark :: rest.map .operand
    | words => return words ++ (← allWords? specs rest)

/-- Operands in order, and options with their values, last one first. -/
structure Arguments where
  operands : List String
  options : List (Key × String)
  deriving DecidableEq, Repr

namespace Arguments

/-- The value of an option that was given; the last one counts. -/
def value? (a : Arguments) (key : Key) : Option String := a.options.lookup key

/-- All values that an option was given. -/
def values (a : Arguments) (key : Key) : List String :=
  (a.options.filter fun option => option.1 = key).map (·.2)

/-- Whether an option was given. -/
def has (a : Arguments) (key : Key) : Bool := (a.value? key).isSome

end Arguments

/-- Sorts words into operands, of which there may be `count`, and options. A mark at the very
    end is accepted only behind an operand. -/
def sort? (count : Nat) : (afterOperand : Bool) → Arguments → List Word → Option Arguments
  | _, a, [] => some a
  | afterOperand, a, [.mark] => if afterOperand then some a else none
  | _, a, .mark :: rest => sort? count false a rest
  | _, a, .operand text :: rest =>
    if a.operands.length < count then
      sort? count true { a with operands := a.operands ++ [text] } rest
    else none
  | _, a, .option key value :: rest =>
    if key = .help then some { a with options := [(.help, value)] }
    else sort? count false { a with options := (key, value) :: a.options } rest
  | _, a, .wanting key :: .operand value :: rest =>
    sort? count false { a with options := (key, value) :: a.options } rest
  | _, _, .wanting _ :: _ => none

end CellCode.CommandLine
