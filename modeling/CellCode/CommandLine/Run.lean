import CellCode.Cell.Dump
import CellCode.CommandLine.Command
import CellCode.CommandLine.Files
import CellCode.Listing.Assemble
import CellCode.Listing.Disassemble
import CellCode.Settings

/-!
# Running commands

A command reads at most one file, computes, prints, and writes what it made. Settings are
loaded before the command looks at any file. A container is written before its debug map, so
it stays where it is if the map cannot be written.
-/

namespace CellCode.CommandLine

/-- Why a command failed. -/
inductive Failure
  | settings (error : Settings.Error)
  | file (error : FileError)
  /-- A text file whose bytes are not UTF-8. -/
  | notText (name : String)
  | container (error : ContainerError)
  | disassemble (error : Listing.DisassembleError)
  | assemble (error : Listing.AssembleError)
  deriving DecidableEq

namespace Failure

/-- The wording of a failure. -/
def message : Failure → String
  | settings e => e.message
  | file e => e.message
  | notText name => "not a UTF-8 text: " ++ Text.quoted name
  | container e => e.message
  | disassemble e => e.message
  | assemble e => e.message

/-- Whether the program itself reports the failure. Bytes that are no text, a jump table that has no
    width to print it with, and a reference that is too deep end the program where they are met. -/
def isReported : Failure → Bool
  | notText _ => false
  | disassemble (.print .noKeyWidth) => false
  | assemble (.cell (.referenceTooDeep _)) | assemble (.pack (.cell (.referenceTooDeep _))) => false
  | _ => true

end Failure

/-- How a run of the program ended. -/
inductive Outcome
  /-- The arguments were used wrongly. -/
  | misuse
  | help
  | done (output : String)
  | failed (failure : Failure)
  deriving DecidableEq

namespace Outcome

/-- The exit code of the program. -/
def exitCode : Outcome → UInt8
  | misuse => 2
  | help => 0
  | done _ => 0
  | failed _ => 1

/-- What the program prints. -/
def output : Outcome → String
  | done text => text
  | failed e => if e.isReported then "FATAL ERROR\n" ++ e.message ++ "\n" else ""
  | misuse => ""
  | help => ""

end Outcome

/-- Where the program runs. -/
structure Surroundings where
  /-- The full name of the working directory. -/
  directory : String
  environment : String → Option String

/-! ## Texts -/

/-- The text that bytes write in UTF-8. -/
def decode? (bytes : List UInt8) : Option String := String.fromUTF8? ⟨bytes.toArray⟩

/-- The bytes of a text in UTF-8. -/
def encode (text : String) : List UInt8 := text.toUTF8.toList

/-- A text in which every line ends in a line feed alone. -/
def unifyLineEnds : List Char → List Char
  | '\r' :: '\n' :: rest => '\n' :: unifyLineEnds rest
  | '\r' :: rest => '\n' :: unifyLineEnds rest
  | c :: rest => c :: unifyLineEnds rest
  | [] => []

/-- The last part of a name. -/
def baseName (name : String) : String :=
  String.ofList (name.toList.reverse.takeWhile (· != '/')).reverse

/-- The full name of a file in a folder. -/
def join (folder name : String) : String :=
  if folder.toList.getLast? = some '/' then folder ++ name else folder ++ "/" ++ name

/-- The roots of a container with the cells below them. -/
def rootsText (roots : List Cell) : String :=
  let heading := toString roots.length ++ (if 1 < roots.length then " roots" else " root") ++
    " in total\n"
  let entryText (entry : Cell × Nat) : String :=
    "root " ++ toString entry.2 ++ ": (" ++ toString entry.1.distinctCount ++ " unique):\n" ++
      entry.1.dump ""
  if roots.isEmpty then "empty\n" else heading ++ String.join (roots.zipIdx.map entryText)

/-! ## Commands -/

section

variable {m : Type → Type} [Monad m] [Files m]

/-- A computation that may fail. -/
def attempt {ε α : Type} (wrap : ε → Failure) : Except ε α → ExceptT Failure m α
  | .ok a => pure a
  | .error e => throw (wrap e)

/-- The content of a file. -/
def readFile (name : String) : ExceptT Failure m (List UInt8) := do
  attempt .file (← (Files.read name : m _))

/-- Gives a file its content. -/
def writeFile (name : String) (content : List UInt8) : ExceptT Failure m Unit := do
  attempt .file (← (Files.write name content : m _))

/-- The text of a file. -/
def readText (name : String) : ExceptT Failure m String := do
  match decode? (← readFile name) with
  | some text => return text
  | none => throw (.notText name)

/-- The settings of the working directory. -/
def loadSettings (s : Surroundings) : ExceptT Failure m Settings := do
  let present ← (Files.isFile Settings.fileName : m Bool)
  let text ← if present then some <$> readText Settings.fileName else pure none
  attempt .settings (Settings.load (join s.directory Settings.fileName) text s.environment)

/-- Runs a command; the result is what it prints. -/
def Command.run (settings : Settings) : Command → ExceptT Failure m String
  | .dump container => do
    let roots ← attempt .container (Container.read (← readFile container))
    return rootsText roots
  | .extract index container output root => do
    writeFile output (← attempt .container (Container.extract (← readFile container) index root))
    return ""
  | .fragment bits => attempt .disassemble (Listing.disassembleFragment bits)
  | .text container state full => do
    let bytes ← readFile container
    if (← attempt .container (Container.read bytes)).isEmpty then return "boc is empty\n"
    let collapse := settings.collapse && !full
    attempt .disassemble (Listing.disassembleContainer bytes state collapse)
  | .assemble source output debugMap => do
    let listing := String.ofList (unifyLineEnds (← readText source).toList)
    let (cell, map) ← attempt .assemble (Listing.assemble listing (baseName source))
    writeFile output (← attempt .container (Container.write [cell] true))
    match debugMap <|> (if settings.debugMap then some (output ++ ".dbg.json") else none) with
    | none => return ""
    | some name =>
      writeFile name (encode map.toJson)
      return ""

/-- Runs the program with its arguments. -/
def run (s : Surroundings) (args : List String) : m Outcome := do
  match request? false args with
  | none => return .misuse
  | some .help => return .help
  | some (.run command _) =>
    match ← (loadSettings s >>= fun settings => command.run settings).run with
    | .ok text => return .done text
    | .error e => return .failed e

end

end CellCode.CommandLine
