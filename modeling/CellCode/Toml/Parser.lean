import CellCode.Toml.Scalar

/-!
# Reading configuration files

A file is a sequence of lines: a key with its value, the header of a table, the header of an
array of tables, or nothing. Keys may be paths.

Which tables a line may still change is kept as sets of paths. A table with a header of its
own is *closed*: no second header may name it, and no path from outside may reach into it.
The tables on a path in front of a value are closed by the next header. An array or table
written as a value is *frozen* with all that is in it. A further element of an array of tables
opens all paths under it again.
-/

namespace CellCode.Toml

/-! ## Keys -/

/-- A character of a key without quotation marks. -/
def isKeyChar (c : Char) : Bool :=
  c.isAlpha || c.isDigit || c == '-' || c == '_'

/-- One part of a path. -/
def keyPart? (cs : List Char) : Option (String × List Char) :=
  let bare := cs.takeWhile isKeyChar
  if bare.isEmpty then line? cs else some (String.ofList bare, cs.dropWhile isKeyChar)

/-- A path of at most `count` parts with points between them, and what follows it and the
    blanks behind it. -/
def keyPath? : (count : Nat) → Reader (List String)
  | 0, _ => none
  | count + 1, cs => do
    let (part, rest) ← keyPart? cs
    match rest.dropWhile isSpace with
    | '.' :: rest =>
      let (path, rest) ← keyPath? count (rest.dropWhile isSpace)
      return (part :: path, rest)
    | rest => return ([part], rest)

/-- A path of keys. -/
def key? (cs : List Char) : Option (List String × List Char) := keyPath? (cs.length + 1) cs

/-! ## Values -/

/-- What follows blanks, line ends and comments. -/
def afterFiller? : (inComment : Bool) → List Char → Option (List Char)
  | _, [] => some []
  | true, c :: rest =>
    if c = '\n' then afterFiller? false rest
    else if isPlain c then afterFiller? true rest else none
  | false, c :: rest =>
    if isSpace c || c == '\n' then afterFiller? false rest
    else if c = '#' then afterFiller? true rest else some (c :: rest)

/-- A path that starts with one of the given paths. -/
def isUnder (paths : List (List String)) (path : List String) : Bool :=
  paths.any fun p => p.isPrefixOf path

/-- Gives the key at the end of a path its value. -/
def insertAt? (path : List String) (value : Value) (t : Table) : Option Table :=
  match path.getLast? with
  | none => none
  | some key => t.alter? (·.insertNew? key value) path.dropLast

/-- Adds a path to the frozen ones if its value has parts. -/
def freeze (path : List String) (value : Value) (frozen : List (List String)) :
    List (List String) :=
  if value.isCompound then path :: frozen else frozen

mutual

/-- A value at the front of the text, nested at most `depth` deep. -/
def value? : (depth : Nat) → Reader Value
  | 0, _ => none
  | depth + 1, '[' :: rest => do
    match ← afterFiller? false rest with
    | ']' :: rest => return (.array [], rest)
    | rest =>
      let (items, rest) ← items? depth rest
      return (.array items, rest)
  | depth + 1, '\x7b' :: rest =>
    match rest.dropWhile isSpace with
    | '\x7d' :: rest => some (.table [], rest)
    | rest => do
      let (members, rest) ← members? depth [] [] rest
      return (.table members, rest)
  | _ + 1, cs =>
    match cs with
    | '"' :: _ => (string? cs).map fun (s, rest) => (.text s, rest)
    | '\'' :: _ => (string? cs).map fun (s, rest) => (.text s, rest)
    | _ => scalar? cs

/-- The items of an array up to its end; a comma may follow the last one. -/
def items? : (depth : Nat) → Reader (List Value)
  | 0, _ => none
  | depth + 1, cs => do
    let (item, rest) ← value? depth cs
    match ← afterFiller? false rest with
    | ']' :: rest => return ([item], rest)
    | ',' :: rest =>
      match ← afterFiller? false rest with
      | ']' :: rest => return ([item], rest)
      | rest =>
        let (items, rest) ← items? depth rest
        return (item :: items, rest)
    | _ => none

/-- The members of a table written as a value, after those that were read before. -/
def members? : (depth : Nat) → (frozen : List (List String)) → Table → Reader Table
  | 0, _, _, _ => none
  | depth + 1, frozen, before, cs => do
    let (path, rest) ← key? cs
    let (value, rest) ← value? depth ((← afterChar? '=' rest).dropWhile isSpace)
    guard (!isUnder frozen path)
    let members ← insertAt? path value before
    match rest.dropWhile isSpace with
    | '\x7d' :: rest => return (members, rest)
    | ',' :: rest => members? depth (freeze path value frozen) members (rest.dropWhile isSpace)
    | _ => none

end

/-! ## Documents -/

/-- What has been read of a file. -/
structure Document where
  root : Table
  /-- The table that the last header names. -/
  header : List String
  closed : List (List String)
  /-- The paths that the next header closes. -/
  closing : List (List String)
  frozen : List (List String)

namespace Document

/-- A file with nothing in it. -/
def empty : Document := ⟨[], [], [], [], []⟩

/-- Closes the paths that were waiting for the next header. -/
def closePending (d : Document) : Document :=
  { d with closed := d.closing ++ d.closed, closing := [] }

/-- The header of a table. -/
def openTable? (d : Document) (path : List String) : Option Document := do
  let d := d.closePending
  guard (!d.closed.contains path && !isUnder d.frozen path)
  return { d with
    root := ← d.root.alter? some path
    header := path
    closed := path :: d.closed }

/-- The header of one more element of an array of tables. -/
def openElement? (d : Document) (path : List String) : Option Document := do
  let d := d.closePending
  guard !isUnder d.frozen path
  let others (paths : List (List String)) := paths.filter fun p => !path.isPrefixOf p
  let key ← path.getLast?
  return { d with
    root := ← d.root.alter? (·.appendTable? key) path.dropLast
    header := path
    closed := path :: others d.closed
    frozen := others d.frozen }

/-- The tables on a path in front of its last key, outermost first. -/
def containers (path : List String) : List (List String) :=
  (List.range (path.length - 1)).map fun i => path.take (i + 1)

/-- A key, relative to the current table, and its value. -/
def assign? (d : Document) (path : List String) (value : Value) : Option Document := do
  let within := (containers path).map (d.header ++ ·)
  guard (within.all fun p => !d.closed.contains p)
  let target := d.header ++ path
  guard !isUnder d.frozen target.dropLast
  return { d with
    root := ← insertAt? target value d.root
    closing := within ++ d.closing
    frozen := freeze target value d.frozen }

end Document

/-- The next line, if nothing but blanks and a comment is left of this one. -/
def nextLine? (cs : List Char) : Option (List Char) :=
  let cs := cs.dropWhile isSpace
  let afterComment := match cs with
    | '#' :: rest =>
      if (rest.takeWhile (· != '\n')).all isPlain then some (rest.dropWhile (· != '\n')) else none
    | cs => some cs
  match afterComment with
  | some [] => some []
  | some ('\n' :: rest) => some rest
  | _ => none

/-- One line of a file, without the blanks in front of it. -/
def statement? (d : Document) (cs : List Char) : Option (Document × List Char) :=
  match cs with
  | '[' :: '[' :: rest => do
    let (path, rest) ← key? (rest.dropWhile isSpace)
    let d ← d.openElement? path
    return (d, ← afterWord? "]]" rest)
  | '[' :: rest => do
    let (path, rest) ← key? (rest.dropWhile isSpace)
    let d ← d.openTable? path
    return (d, ← afterWord? "]" rest)
  | c :: _ =>
    if isKeyChar c || c == '"' || c == '\'' then do
      let (path, rest) ← key? cs
      let (value, rest) ← value? (cs.length + 1) ((← afterChar? '=' rest).dropWhile isSpace)
      return (← d.assign? path value, rest)
    else some (d, cs)
  | [] => some (d, [])

/-- The lines of a file, at most `count` of them. -/
def statements? : (count : Nat) → Document → List Char → Option Document
  | _, d, [] => some d
  | 0, _, _ => none
  | count + 1, d, cs => do
    let (d, rest) ← statement? d (cs.dropWhile isSpace)
    statements? count d (← nextLine? rest)

/-- A text in which every line ends in a line feed alone. -/
def unifyLineEnds : List Char → List Char
  | '\r' :: '\n' :: rest => '\n' :: unifyLineEnds rest
  | c :: rest => c :: unifyLineEnds rest
  | [] => []

/-- The table that a file writes. -/
def parse? (text : String) : Option Table :=
  let cs := unifyLineEnds text.toList
  (statements? (cs.length + 1) .empty cs).map (·.root)

end CellCode.Toml
