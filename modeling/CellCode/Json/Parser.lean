import CellCode.Json.Basic

/-!
# Reading JSON

A recursive reader over the characters of the text. Each value takes at least one character,
so the length of the text bounds the depth of the recursion, and `Json.parse?` starts the
reader with that bound.

Besides the values of the standard, the names of the three numbers that are not finite are
read. A unit of a surrogate pair that stands alone is read as a replacement character.
-/

namespace CellCode.Json

/-- The blanks that may stand between tokens. -/
def isBlank (c : Char) : Bool := c == ' ' || c == '\t' || c == '\n' || c == '\r'

/-- The text from the next token on. -/
def skipBlanks (cs : List Char) : List Char := cs.dropWhile isBlank

/-! ## Strings -/

/-- The value of an ASCII hexadecimal digit. -/
def hexValue? (c : Char) : Option Nat :=
  if c.isDigit then some (c.toNat - '0'.toNat)
  else if 'a' ≤ c ∧ c ≤ 'f' then some (c.toNat - 'a'.toNat + 10)
  else if 'A' ≤ c ∧ c ≤ 'F' then some (c.toNat - 'A'.toNat + 10)
  else none

/-- The value of four hexadecimal digits. -/
def unit? (a b c d : Char) : Option Nat := do
  return 4096 * (← hexValue? a) + 256 * (← hexValue? b) + 16 * (← hexValue? c) + (← hexValue? d)

/-- A unit that starts a surrogate pair. -/
def isHighSurrogate (unit : Nat) : Bool := 0xD800 ≤ unit && unit < 0xDC00

/-- A unit that ends a surrogate pair. -/
def isLowSurrogate (unit : Nat) : Bool := 0xDC00 ≤ unit && unit < 0xE000

/-- The character of a unit that stands alone. -/
def charOfUnit (unit : Nat) : Char :=
  if isHighSurrogate unit || isLowSurrogate unit then Char.ofNat 0xFFFD else Char.ofNat unit

/-- The character that a single-letter escape stands for. -/
def simpleEscape? : Char → Option Char
  | '"' => some '"'
  | '\\' => some '\\'
  | '/' => some '/'
  | 'b' => some (Char.ofNat 8)
  | 'f' => some (Char.ofNat 12)
  | 'n' => some '\n'
  | 'r' => some '\r'
  | 't' => some '\t'
  | _ => none

/-- The rest of a string, up to its closing quotation mark, and what follows it. -/
def stringBody : List Char → Option (List Char × List Char)
  | [] => none
  | '"' :: rest => some ([], rest)
  | '\\' :: 'u' :: a :: b :: c :: d :: '\\' :: 'u' :: e :: f :: g :: h :: rest => do
    let first ← unit? a b c d
    let paired := do
      let second ← unit? e f g h
      guard (isHighSurrogate first && isLowSurrogate second)
      return Char.ofNat (0x10000 + 0x400 * (first - 0xD800) + (second - 0xDC00))
    match paired with
    | some char =>
      let (chars, rest) ← stringBody rest
      return (char :: chars, rest)
    | none =>
      let (chars, rest) ← stringBody ('\\' :: 'u' :: e :: f :: g :: h :: rest)
      return (charOfUnit first :: chars, rest)
  | '\\' :: 'u' :: a :: b :: c :: d :: rest => do
    let unit ← unit? a b c d
    let (chars, rest) ← stringBody rest
    return (charOfUnit unit :: chars, rest)
  | '\\' :: c :: rest => do
    let char ← simpleEscape? c
    let (chars, rest) ← stringBody rest
    return (char :: chars, rest)
  | c :: rest => do
    guard (0x20 ≤ c.toNat && c != '\\')
    let (chars, rest) ← stringBody rest
    return (c :: chars, rest)

/-! ## Numbers -/

/-- The digits at the front, at least one. -/
def digits? (cs : List Char) : Option (List Char × List Char) :=
  let front := cs.takeWhile Char.isDigit
  if front.isEmpty then none else some (front, cs.dropWhile Char.isDigit)

/-- The whole part of a number: a single zero, or digits that do not start with one. -/
def wholePart? : List Char → Option (List Char × List Char)
  | '0' :: rest => some (['0'], rest)
  | cs => digits? cs

/-- The digits after a point, if there are any. -/
def fraction (cs : List Char) : List Char × List Char :=
  match cs with
  | '.' :: rest =>
    match digits? rest with
    | some (digits, rest) => ('.' :: digits, rest)
    | none => ([], cs)
  | _ => ([], cs)

/-- The exponent, if there is one. -/
def exponent (cs : List Char) : List Char × List Char :=
  match cs with
  | mark :: rest =>
    if mark == 'e' || mark == 'E' then
      let (sign, rest) := match rest with
        | '+' :: rest => (['+'], rest)
        | '-' :: rest => (['-'], rest)
        | _ => ([], rest)
      match digits? rest with
      | some (digits, rest) => (mark :: sign ++ digits, rest)
      | none => ([], cs)
    else ([], cs)
  | [] => ([], cs)

/-- A number at the front of the text. -/
def number? (cs : List Char) : Option (Json × List Char) := do
  let (sign, cs) := match cs with
    | '-' :: rest => (['-'], rest)
    | _ => ([], cs)
  let (whole, cs) ← wholePart? cs
  let (frac, cs) := fraction cs
  let (exp, cs) := exponent cs
  return (.number (String.ofList (sign ++ whole ++ frac ++ exp)), cs)

/-! ## Values -/

/-- What follows `word`, if the text starts with it. -/
def afterWord? (word : String) (cs : List Char) : Option (List Char) :=
  if word.toList.isPrefixOf cs then some (cs.drop word.length) else none

/-- The words that are values. -/
def wordValues : List (String × Json) :=
  [("null", .null), ("true", .bool true), ("false", .bool false), ("NaN", .number "NaN"),
    ("Infinity", .number "Infinity"), ("-Infinity", .number "-Infinity")]

/-- A value that is neither string, array nor object. -/
def scalar? (cs : List Char) : Option (Json × List Char) :=
  match wordValues.findSome? fun (word, value) => (afterWord? word cs).map (value, ·) with
  | some result => some result
  | none => number? cs

mutual

/-- A value at the front of the text, nested at most `depth` deep. -/
def value? : (depth : Nat) → List Char → Option (Json × List Char)
  | 0, _ => none
  | _ + 1, '"' :: rest => do
    let (chars, rest) ← stringBody rest
    return (.string (String.ofList chars), rest)
  | depth + 1, '[' :: rest =>
    match skipBlanks rest with
    | ']' :: rest => some (.array [], rest)
    | rest => do
      let (items, rest) ← items? depth rest
      return (.array items, rest)
  | depth + 1, '\x7b' :: rest =>
    match skipBlanks rest with
    | '\x7d' :: rest => some (.object [], rest)
    | rest => do
      let (members, rest) ← members? depth [] rest
      return (.object members, rest)
  | _ + 1, cs => scalar? cs

/-- The items of an array up to its end. -/
def items? : (depth : Nat) → List Char → Option (List Json × List Char)
  | 0, _ => none
  | depth + 1, cs => do
    let (item, rest) ← value? depth cs
    match skipBlanks rest with
    | ']' :: rest => return ([item], rest)
    | ',' :: rest =>
      let (items, rest) ← items? depth (skipBlanks rest)
      return (item :: items, rest)
    | _ => none

/-- The members of an object up to its end, after those that were read before. -/
def members? : (depth : Nat) → List (String × Json) → List Char →
    Option (List (String × Json) × List Char)
  | 0, _, _ => none
  | depth + 1, before, '"' :: rest => do
    let (chars, rest) ← stringBody rest
    let ':' :: rest := skipBlanks rest | none
    let (value, rest) ← value? depth (skipBlanks rest)
    let members := insertMember before (String.ofList chars) value
    match skipBlanks rest with
    | '\x7d' :: rest => return (members, rest)
    | ',' :: rest => members? depth members (skipBlanks rest)
    | _ => none
  | _ + 1, _, _ => none

end

/-- The value that a text writes, with blanks around it. -/
def parse? (text : String) : Option Json := do
  let cs := text.toList
  let (value, rest) ← value? (cs.length + 1) (skipBlanks cs)
  if (skipBlanks rest).isEmpty then some value else none

end CellCode.Json
