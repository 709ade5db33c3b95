import CellCode.Decimal.Nearest
import CellCode.Toml.Value

/-!
# Reading strings, numbers and dates

Readers take the characters from where a value starts and give the value and the characters
behind it, or nothing where no such value stands there.
-/

namespace CellCode.Toml

/-- A reader of something at the front of a text. -/
abbrev Reader (α : Type) := List Char → Option (α × List Char)

/-- The blanks within a line. -/
def isSpace (c : Char) : Bool := c == ' ' || c == '\t'

/-- A character that may stand in a line of text: no control character but the tab. -/
def isPlain (c : Char) : Bool := (0x20 ≤ c.toNat && c.toNat != 0x7f) || c == '\t'

/-- The value of an ASCII digit in some base up to sixteen. -/
def digit? (base : Nat) (c : Char) : Option Nat :=
  let value? :=
    if c.isDigit then some (c.toNat - '0'.toNat)
    else if 'a' ≤ c ∧ c ≤ 'f' then some (c.toNat - 'a'.toNat + 10)
    else if 'A' ≤ c ∧ c ≤ 'F' then some (c.toNat - 'A'.toNat + 10)
    else none
  value?.filter (· < base)

/-- The number that digits write. -/
def ofDigits (base : Nat) (digits : List Nat) : Nat := digits.foldl (fun n d => base * n + d) 0

/-! ## Strings -/

/-- The character with the code point that hexadecimal digits write, unless it is a surrogate
    or too large. -/
def charOfHex? (cs : List Char) : Option Char := do
  let n := ofDigits 16 (← cs.mapM (digit? 16))
  if n.isValidChar then some (Char.ofNat n) else none

/-- A code point of so many hexadecimal digits. -/
def codePoint? (count : Nat) (cs : List Char) : Option (Char × List Char) :=
  if count ≤ cs.length then (charOfHex? (cs.take count)).map (·, cs.drop count) else none

/-- The character that a single-letter escape stands for. -/
def simpleEscape? : Char → Option Char
  | 'b' => some (Char.ofNat 8)
  | 't' => some '\t'
  | 'n' => some '\n'
  | 'f' => some (Char.ofNat 12)
  | 'r' => some '\r'
  | '"' => some '"'
  | '\\' => some '\\'
  | _ => none

/-- An escape behind its backslash. -/
def escape? : Reader Char
  | 'u' :: rest => codePoint? 4 rest
  | 'U' :: rest => codePoint? 8 rest
  | c :: rest => (simpleEscape? c).map (·, rest)
  | [] => none

/-- What follows the blanks that a backslash at the end of a line joins: the rest of that line,
    which is blank, and all blank lines behind it. -/
def afterLineEnd? (cs : List Char) : Option (List Char) :=
  match cs.dropWhile isSpace with
  | '\n' :: rest => some (rest.dropWhile fun c => isSpace c || c == '\n')
  | _ => none

theorem length_dropWhile_le (p : Char → Bool) (cs : List Char) :
    (cs.dropWhile p).length ≤ cs.length :=
  (List.dropWhile_sublist p).length_le

theorem length_codePoint {count : Nat} {cs rest : List Char} {c : Char}
    (h : codePoint? count cs = some (c, rest)) : rest.length ≤ cs.length := by
  unfold codePoint? at h
  split at h
  · obtain ⟨_, _, hr⟩ := Option.map_eq_some_iff.1 h
    cases hr
    rw [List.length_drop]
    omega
  · cases h

theorem length_escape {cs rest : List Char} {c : Char} (h : escape? cs = some (c, rest)) :
    rest.length < cs.length := by
  unfold escape? at h
  split at h
  · exact Nat.lt_succ_of_le (length_codePoint h)
  · exact Nat.lt_succ_of_le (length_codePoint h)
  · obtain ⟨_, _, hr⟩ := Option.map_eq_some_iff.1 h
    cases hr
    exact Nat.lt_succ_self _
  · cases h

theorem length_afterLineEnd {cs rest : List Char} (h : afterLineEnd? cs = some rest) :
    rest.length < cs.length := by
  unfold afterLineEnd? at h
  split at h
  · rename_i tail heq
    have outer := length_dropWhile_le isSpace cs
    have inner := length_dropWhile_le (fun c => isSpace c || c == '\n') tail
    rw [heq] at outer
    simp at h outer
    rw [← h]
    omega
  · simp at h

/-- The characters up to the closing quotation mark. -/
def basicBody (cs : List Char) : Option (List Char × List Char) :=
  match cs with
  | [] => none
  | '"' :: rest => some ([], rest)
  | '\\' :: rest =>
    match h : escape? rest with
    | none => none
    | some (c, tail) =>
      have := length_escape h
      (basicBody tail).map fun (chars, rest) => (c :: chars, rest)
  | c :: rest =>
    if isPlain c then (basicBody rest).map fun (chars, rest) => (c :: chars, rest) else none
termination_by cs.length

/-- The characters up to three quotation marks. -/
def multilineBody (cs : List Char) : Option (List Char × List Char) :=
  match cs with
  | [] => none
  | '"' :: '"' :: '"' :: rest => some ([], rest)
  | '\\' :: rest =>
    match h : afterLineEnd? rest with
    | some tail =>
      have := length_afterLineEnd h
      multilineBody tail
    | none =>
      match h : escape? rest with
      | none => none
      | some (c, tail) =>
        have := length_escape h
        (multilineBody tail).map fun (chars, rest) => (c :: chars, rest)
  | c :: rest =>
    if isPlain c || c == '\n' then
      (multilineBody rest).map fun (chars, rest) => (c :: chars, rest)
    else none
termination_by cs.length

/-- The characters up to three apostrophes. -/
def multilineLiteralBody : Reader (List Char)
  | '\'' :: '\'' :: '\'' :: rest => some ([], rest)
  | c :: rest =>
    if isPlain c || c == '\n' then
      (multilineLiteralBody rest).map fun (chars, rest) => (c :: chars, rest)
    else none
  | [] => none

/-- The characters up to the closing apostrophe. -/
def literalBody : Reader (List Char)
  | '\'' :: rest => some ([], rest)
  | c :: rest =>
    if isPlain c then (literalBody rest).map fun (chars, rest) => (c :: chars, rest) else none
  | [] => none

/-- A string on one line. -/
def line? : Reader String
  | '"' :: rest => (basicBody rest).map fun (chars, rest) => (String.ofList chars, rest)
  | '\'' :: rest => (literalBody rest).map fun (chars, rest) => (String.ofList chars, rest)
  | _ => none

/-- Adds the marks, at most two, that stand directly behind the three closing ones. -/
def withTrailingMarks (mark : Char) : List Char × List Char → String × List Char
  | (chars, rest) =>
    let extra := min 2 (rest.takeWhile (· == mark)).length
    (String.ofList (chars ++ List.replicate extra mark), rest.drop extra)

/-- A text without the line end that it may start with. -/
def dropLineEnd : List Char → List Char
  | '\n' :: rest => rest
  | cs => cs

/-- A string of any form. -/
def string? : Reader String
  | '"' :: '"' :: '"' :: rest => (multilineBody (dropLineEnd rest)).map (withTrailingMarks '"')
  | '\'' :: '\'' :: '\'' :: rest =>
    (multilineLiteralBody (dropLineEnd rest)).map (withTrailingMarks '\'')
  | cs => line? cs

/-! ## Numbers -/

/-- Digits, single underscores between them allowed. -/
def moreDigits (base : Nat) : List Char → List Nat × List Char
  | [] => ([], [])
  | '_' :: c :: rest =>
    match digit? base c with
    | some d => let (ds, rest) := moreDigits base rest; (d :: ds, rest)
    | none => ([], '_' :: c :: rest)
  | c :: rest =>
    match digit? base c with
    | some d => let (ds, rest) := moreDigits base rest; (d :: ds, rest)
    | none => ([], c :: rest)

/-- At least one digit. -/
def digits? (base : Nat) : Reader (List Nat)
  | [] => none
  | c :: rest => do
    let d ← digit? base c
    let (ds, rest) := moreDigits base rest
    return (d :: ds, rest)

/-- A whole number in base sixteen, two or eight, behind its mark. -/
def based? : Reader Nat
  | '0' :: mark :: rest => do
    let base ← if mark = 'x' then some 16 else if mark = 'b' then some 2
      else if mark = 'o' then some 8 else none
    let (digits, rest) ← digits? base rest
    return (ofDigits base digits, rest)
  | _ => none

/-- A sign: whether it is negative, and what follows. -/
def sign : List Char → Bool × List Char
  | '-' :: rest => (true, rest)
  | '+' :: rest => (false, rest)
  | cs => (false, cs)

/-- The whole part of a decimal number: a single zero, or digits that do not start with one. -/
def wholePart? : Reader (List Nat)
  | '0' :: rest => some ([0], rest)
  | cs => digits? 10 cs

/-- The digits behind a point. -/
def fraction? : Reader (List Nat)
  | '.' :: rest => digits? 10 rest
  | _ => none

/-- An exponent. -/
def exponent? : Reader Int
  | mark :: rest => do
    guard (mark = 'e' ∨ mark = 'E')
    let (negative, rest) := sign rest
    let (digits, rest) ← digits? 10 rest
    let e : Int := ofDigits 10 digits
    return (if negative then -e else e, rest)
  | [] => none

/-- A number with a sign in base ten: whole, unless it has a fraction or an exponent. -/
def decimal? (cs : List Char) : Option (Value × List Char) := do
  let (negative, cs) := sign cs
  let (whole, cs) ← wholePart? cs
  let fraction := fraction? cs
  let cs := (fraction.map (·.2)).getD cs
  let exponent := exponent? cs
  let cs := (exponent.map (·.2)).getD cs
  if fraction.isNone && exponent.isNone then
    let v : Int := ofDigits 10 whole
    return (.integer (if negative then -v else v), cs)
  else
    let places := (fraction.map (·.1)).getD []
    let e := (exponent.map (·.1)).getD 0
    let x := Decimal.nearest (ofDigits 10 (whole ++ places)) (e - places.length)
    return (.number (if negative then -x else x), cs)

/-- What follows `word`, if the text starts with it. -/
def afterWord? (word : String) (cs : List Char) : Option (List Char) :=
  if word.toList.isPrefixOf cs then some (cs.drop word.length) else none

/-- The numbers that are no finite number, with a sign or without. -/
def special? (cs : List Char) : Option (Value × List Char) :=
  let (negative, cs) := sign cs
  match afterWord? "inf" cs, afterWord? "nan" cs with
  | some rest, _ => some (.number (if negative then -1 / 0 else 1 / 0), rest)
  | _, some rest => some (.number (0 / 0), rest)
  | none, none => none

/-! ## Dates and times -/

/-- A fixed number of decimal digits whose value lies between two bounds. -/
def fixedDigits? (count low high : Nat) (cs : List Char) : Option (Nat × List Char) := do
  guard (count ≤ cs.length)
  let n := ofDigits 10 (← (cs.take count).mapM (digit? 10))
  if low ≤ n ∧ n ≤ high then some (n, cs.drop count) else none

/-- What follows a given character. -/
def afterChar? (c : Char) : List Char → Option (List Char)
  | d :: rest => if d = c then some rest else none
  | [] => none

/-- A day as year, month and day. -/
def date? (cs : List Char) : Option (Date × List Char) := do
  let (year, cs) ← fixedDigits? 4 0 9999 cs
  let (month, cs) ← fixedDigits? 2 1 12 (← afterChar? '-' cs)
  let (day, cs) ← fixedDigits? 2 1 31 (← afterChar? '-' cs)
  return (⟨year, month, day⟩, cs)

/-- The microseconds behind a point; digits behind the sixth have no effect. -/
def microseconds? (cs : List Char) : Option (Nat × List Char) := do
  let cs ← afterChar? '.' cs
  let digits := cs.takeWhile Char.isDigit
  guard (!digits.isEmpty)
  let values ← ((digits ++ List.replicate 6 '0').take 6).mapM (digit? 10)
  return (ofDigits 10 values, cs.drop digits.length)

/-- A time of day. -/
def time? (cs : List Char) : Option (Time × List Char) := do
  let (hour, cs) ← fixedDigits? 2 0 23 cs
  let (minute, cs) ← fixedDigits? 2 0 59 (← afterChar? ':' cs)
  let (second, cs) ← fixedDigits? 2 0 59 (← afterChar? ':' cs)
  let (microsecond, cs) := (microseconds? cs).getD (0, cs)
  return (⟨hour, minute, second, microsecond⟩, cs)

/-- A distance from universal time, in minutes. -/
def offset? : Reader Int
  | 'Z' :: rest => some (0, rest)
  | 'z' :: rest => some (0, rest)
  | mark :: rest => do
    guard (mark = '+' ∨ mark = '-')
    let (hours, rest) ← fixedDigits? 2 0 23 rest
    let (minutes, rest) ← fixedDigits? 2 0 59 (← afterChar? ':' rest)
    let distance : Int := 60 * hours + minutes
    return (if mark = '-' then -distance else distance, rest)
  | [] => none

/-- The time of day behind a date, after one of its separators. -/
def dayTime? : Reader Time
  | c :: rest => if c = 'T' ∨ c = 't' ∨ c = ' ' then time? rest else none
  | [] => none

/-- A date or time. -/
def moment? (cs : List Char) : Option (Moment × List Char) :=
  match date? cs with
  | none => (time? cs).map fun (t, rest) => (.time t, rest)
  | some (d, cs) =>
    match dayTime? cs with
    | none => some (.date d, cs)
    | some (t, cs) =>
      match offset? cs with
      | none => some (.instant d t none, cs)
      | some (offset, cs) => some (.instant d t (some offset), cs)

/-- A moment whose date exists. -/
def Moment.isValid : Moment → Bool
  | .date d => d.isValid
  | .time _ => true
  | .instant d _ _ => d.isValid

/-- A value that is neither string, array nor table. -/
def scalar? (cs : List Char) : Option (Value × List Char) :=
  match afterWord? "true" cs, afterWord? "false" cs with
  | some rest, _ => some (.boolean true, rest)
  | _, some rest => some (.boolean false, rest)
  | none, none =>
    match moment? cs with
    | some (m, rest) => if m.isValid then some (.moment m, rest) else none
    | none =>
      match based? cs with
      | some (n, rest) => some (.integer n, rest)
      | none => decimal? cs <|> special? cs

end CellCode.Toml
