import CellCode.CommandLine.Option

/-!
# Commands

The commands of the program and how arguments name them. Options in front of the command
belong to the program, those behind it to the command.
-/

namespace CellCode.CommandLine

/-- What the program is asked to do. -/
inductive Command
  /-- Show the cells of a container. -/
  | dump (container : String)
  /-- Write one reference of a root as a container of its own. -/
  | extract (index : Int) (container output : String) (root : Int)
  /-- Show the listing of bits in hexadecimal. -/
  | fragment (bits : String)
  /-- Show the listing of the code in a container. -/
  | text (container : String) (state full : Bool)
  /-- Assemble a listing into a container, and its debug map. -/
  | assemble (source output : String) (debugMap : Option String)
  deriving DecidableEq, Repr

/-- What arguments ask for. -/
inductive Request
  | help
  | run (command : Command) (verbose : Bool)
  deriving DecidableEq, Repr

/-- The option that every command has. -/
def helpSpec : Spec := ⟨.help, ["-h", "--help"], false⟩

/-- The options of the program. -/
def programSpecs : List Spec := [helpSpec, ⟨.verbose, ["-v", "--verbose"], false⟩]

/-- The operands and options of a command, taken from its arguments. -/
def arguments? (specs : List Spec) (count : Nat) (args : List String) : Option Arguments :=
  allWords? (helpSpec :: specs) args >>= sort? count false ⟨[], []⟩

/-- The command with this name. Help takes the place of a command that is not complete. -/
def command? (name : String) (args : List String) : Option (Option Command) := do
  let named (specs : List Spec) (count : Nat) (make : Arguments → Option Command) := do
    let a ← arguments? specs count args
    if a.has .help then return none else return some (← make a)
  match name with
  | "dump" => named [] 1 fun a => do
    let [container] := a.operands | none
    return .dump container
  | "extract" => named [⟨.root, ["--root"], true⟩] 3 fun a => do
    let [index, container, output] := a.operands | none
    let roots ← (a.values .root).mapM Text.decimalInt?
    return .extract (← Text.decimalInt? index) container output (roots.headD 0)
  | "fragment" => named [] 1 fun a => do
    let [bits] := a.operands | none
    return .fragment bits
  | "text" =>
    named [⟨.state, ["--stateinit"], false⟩, ⟨.full, ["--full"], false⟩] 1 fun a => do
      let [container] := a.operands | none
      return .text container (a.has .state) (a.has .full)
  | "assemble" =>
    named [⟨.output, ["-o", "--output"], true⟩, ⟨.debugMap, ["--dbgmap"], true⟩] 1 fun a => do
      let [source] := a.operands | none
      return .assemble source (← a.value? .output) (a.value? .debugMap)
  | _ => none

/-- What the arguments of the program ask for; nothing, if they are used wrongly. -/
def request? (verbose : Bool) : List String → Option Request
  | [] => none
  | text :: rest => do
    match ← words? programSpecs text with
    | [.operand name] =>
      match ← command? name rest with
      | none => return .help
      | some command => return .run command verbose
    | words =>
      if words.contains .mark then none
      else if words.contains (.option .help "") then return .help
      else request? true rest

end CellCode.CommandLine
