import CellCode.Text.Quoted

/-!
# Files

What the commands need of files, as a class of monads: the program runs in `IO`, and
`Directory` is a directory tree as a plain value, in which the same commands can be run and
reasoned about.
-/

namespace CellCode.CommandLine

/-- A file operation that failed: number and text of the cause, and the name of the file. -/
structure FileError where
  code : Nat
  cause : String
  name : String
  deriving DecidableEq, Repr

namespace FileError

/-- There is nothing of this name. -/
def missing (name : String) : FileError := ⟨2, "No such file or directory", name⟩

/-- A folder on the way to the name is a file. -/
def notFolder (name : String) : FileError := ⟨20, "Not a directory", name⟩

/-- The name is that of a folder. -/
def isFolder (name : String) : FileError := ⟨21, "Is a directory", name⟩

/-- The wording of an error. -/
def message (e : FileError) : String :=
  "[Errno " ++ toString e.code ++ "] " ++ e.cause ++ ": " ++ Text.quoted e.name

end FileError

/-- Monads in which files can be read and written. -/
class Files (m : Type → Type) where
  /-- Whether there is a file of this name. -/
  isFile : String → m Bool
  /-- The content of a file. -/
  read : String → m (Except FileError (List UInt8))
  /-- Gives a file its content; the file is made if it is missing. -/
  write : String → List UInt8 → m (Except FileError Unit)

/-! ## Directories as values -/

/-- Where a file is, one folder after another. -/
abbrev Path := List String

/-- The files of a directory tree. A folder is there if a file is in it. -/
structure Directory where
  files : List (Path × List UInt8)
  deriving DecidableEq, Repr

/-- What a name leads to. -/
inductive Place
  | file (path : Path) (content : List UInt8)
  | folder (path : Path)
  /-- Nothing, in a folder that is there. -/
  | vacant (path : Path)
  deriving DecidableEq, Repr

namespace Directory

/-- Whether a path is that of a folder. -/
def isFolder (d : Directory) (path : Path) : Bool :=
  path.isEmpty || d.files.any fun (file, _) => path.isPrefixOf file && path != file

/-- What is at a path in a folder that is there. -/
def place (d : Directory) (path : Path) : Place :=
  match d.files.lookup path with
  | some content => .file path content
  | none => if d.isFolder path then .folder path else .vacant path

/-- Follows the parts of a name. A part that is empty or a point stays in the folder, two points
    lead to the folder around it, and outside of the tree nothing is found. -/
def follow (d : Directory) (name : String) : Place → List String → Except FileError Place
  | place, [] => .ok place
  | .folder path, part :: parts =>
    if part = "" ∨ part = "." then d.follow name (.folder path) parts
    else if part = ".." then
      if path.isEmpty then .error (.missing name) else d.follow name (.folder path.dropLast) parts
    else d.follow name (d.place (path ++ [part])) parts
  | .file .., _ :: _ => .error (.notFolder name)
  | .vacant _, _ :: _ => .error (.missing name)

/-- What a name leads to. -/
def find (d : Directory) (name : String) : Except FileError Place :=
  match name.toList with
  | [] => .error (.missing name)
  | '/' :: rest => if rest.all (· == '/') then .ok (.folder []) else .error (.missing name)
  | _ => d.follow name (.folder []) (name.splitOn "/")

/-- The content of the file of this name. -/
def read (d : Directory) (name : String) : Except FileError (List UInt8) := do
  match ← d.find name with
  | .file _ content => return content
  | .folder _ => throw (.isFolder name)
  | .vacant _ => throw (.missing name)

/-- The files with the content of one of them set. -/
def setFile : List (Path × List UInt8) → Path → List UInt8 → List (Path × List UInt8)
  | [], path, content => [(path, content)]
  | (p, old) :: rest, path, content =>
    if p = path then (p, content) :: rest else (p, old) :: setFile rest path content

/-- The directory with the content of one file set. -/
def set (d : Directory) (path : Path) (content : List UInt8) : Directory :=
  ⟨setFile d.files path content⟩

/-- The directory after a file was written. A new file cannot have a name that ends like the
    name of a folder. -/
def write (d : Directory) (name : String) (content : List UInt8) :
    Except FileError Directory := do
  let trimmed := (name.toList.reverse.dropWhile (· == '/')).reverse
  match d.find (String.ofList trimmed) with
  | .ok (.vacant _) => if trimmed.length < name.length then throw (.isFolder name)
  | _ => pure ()
  match ← d.find name with
  | .file path _ => return d.set path content
  | .folder _ => throw (.isFolder name)
  | .vacant path => return d.set path content

end Directory

instance : Files (StateM Directory) where
  isFile name := return match (← get).find name with
    | .ok (.file ..) => true
    | _ => false
  read name := return (← get).read name
  write name content := do
    match (← get).write name content with
    | .error e => return .error e
    | .ok d =>
      MonadState.set d
      return .ok ()

end CellCode.CommandLine
