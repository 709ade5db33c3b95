import CellCode.CommandLine.Run

/-!
# The program

Runs the commands on the files of the working directory.
-/

namespace CellCode.CommandLine

/-- How the program is used. -/
def usage : String :=
  "usage: cellasm [-h] [-v] COMMAND ...\n\n" ++
  "  dump BOC                            print a container as a tree of bitstrings\n" ++
  "  extract INDEX BOC OUTPUT [--root N] save one reference of a root as a new container\n" ++
  "  fragment BITS                       disassemble a hex bitstring\n" ++
  "  text BOC [--stateinit] [--full]     disassemble the code in a container\n" ++
  "  assemble SOURCE -o OUTPUT [--dbgmap FILE]\n" ++
  "                                      assemble a listing into a container\n"

/-- The cause of an error of the system, for the file of this name. -/
def FileError.ofSystem (name : String) : IO.Error → FileError
  | .noFileOrDirectory _ code details => ⟨code.toNat, details, name⟩
  | .inappropriateType _ code details => ⟨code.toNat, details, name⟩
  | .permissionDenied _ code details => ⟨code.toNat, details, name⟩
  | .invalidArgument _ code details => ⟨code.toNat, details, name⟩
  | .resourceExhausted _ code details => ⟨code.toNat, details, name⟩
  | .alreadyExists _ code details => ⟨code.toNat, details, name⟩
  | .otherError code details => ⟨code.toNat, details, name⟩
  | .resourceBusy code details => ⟨code.toNat, details, name⟩
  | e => ⟨5, toString e, name⟩

/-- A system call, with its error as a value. -/
def guarded {α : Type} (name : String) (action : IO α) : IO (Except FileError α) := do
  match ← action.toBaseIO with
  | .ok a => return .ok a
  | .error e => return .error (FileError.ofSystem name e)

/-- The bytes of a file. -/
def readBytes (name : String) : IO (List UInt8) := do
  let handle ← IO.FS.Handle.mk name .read
  return (← handle.readBinToEnd).toList

instance : Files IO where
  isFile name := do
    match ← (readBytes name).toBaseIO with
    | .ok _ => return true
    | .error _ => return false
  read name := guarded name (readBytes name)
  write name content := guarded name (IO.FS.writeBinFile name ⟨content.toArray⟩)

end CellCode.CommandLine

open CellCode.CommandLine in
/-- Runs the program with its arguments and the variables that it looks at. -/
def main (args : List String) : IO UInt32 := do
  let directory := toString (← IO.currentDir)
  let collapse ← IO.getEnv "CELLASM_COLLAPSE"
  let level ← IO.getEnv "CELLASM_LOG_LEVEL"
  let environment (name : String) : Option String :=
    if name = "CELLASM_COLLAPSE" then collapse
    else if name = "CELLASM_LOG_LEVEL" then level
    else none
  let outcome : Outcome ← run ⟨directory, environment⟩ args
  IO.print outcome.output
  match outcome with
  | .misuse => IO.eprint usage
  | .help => IO.print usage
  | .failed e => if !e.isReported then IO.eprintln e.message
  | .done _ => pure ()
  return outcome.exitCode.toUInt32
