import CellCode.Text.Digit

/-!
# Tokens of a listing

A listing is read as a sequence of tokens. Tokens need no blanks between them: each takes as
many characters as it can. Comments run from two semicolons to the end of the line. Reading
stops at a character that starts no token, which is kept as the token `unknown`.
-/

namespace CellCode.Listing

/-- A token. -/
inductive Token
  /-- The name of an instruction. -/
  | mnemonic (name : String)
  /-- A whole number. -/
  | integer (value : Int)
  /-- A place on the stack. -/
  | stack (index : Nat)
  /-- A control register. -/
  | control (index : Nat)
  /-- Bits in hexadecimal, as they were written. -/
  | literal (text : String)
  /-- The word that introduces raw bits. -/
  | blob
  /-- The word that introduces a cell. -/
  | cell
  /-- The word that introduces a dictionary. -/
  | dict
  /-- An opening brace. -/
  | opening
  /-- A closing brace. -/
  | closing
  | comma
  | arrow
  /-- A character that starts no token. -/
  | unknown
  deriving DecidableEq, Repr

/-- A token and the line on which it stands. -/
structure Lexeme where
  line : Nat
  token : Token
  deriving DecidableEq, Repr

/-! ## Single tokens -/

/-- A character that starts the name of an instruction. -/
def startsName (c : Char) : Bool := 'A' ≤ c && c ≤ 'Z'

/-- A character that continues the name of an instruction. -/
def continuesName (c : Char) : Bool := startsName c || c.isDigit || c == '_'

/-- An ASCII hexadecimal digit. -/
def isHexDigit (c : Char) : Bool :=
  c.isDigit || ('a' ≤ c && c ≤ 'f') || ('A' ≤ c && c ≤ 'F')

/-- A blank between tokens. -/
def isSpace (c : Char) : Bool :=
  c == ' ' || c == '\t' || c == '\n' || c == '\r' || c == Char.ofNat 12

/-- Hexadecimal digits at the front, and a tag mark behind them. -/
def hexFront (cs : List Char) : List Char × List Char :=
  let digits := cs.takeWhile isHexDigit
  match cs.dropWhile isHexDigit with
  | '_' :: rest => (digits ++ ['_'], rest)
  | rest => (digits, rest)

/-- Bits behind the `x` that introduces them: in braces, or else as many digits as follow. -/
def literalToken (cs : List Char) : Token × List Char :=
  let bare := hexFront cs
  let plain := (Token.literal (String.ofList ('x' :: bare.1)), bare.2)
  match cs with
  | '\x7b' :: inner =>
    let braced := hexFront inner
    match braced.2 with
    | '\x7d' :: rest =>
      (.literal (String.ofList ('x' :: '\x7b' :: braced.1 ++ ['\x7d'])), rest)
    | _ => plain
  | _ => plain

/-- A number behind its sign. -/
def integerToken (negative : Bool) (cs : List Char) : Token × List Char :=
  match Text.decimalNat? (cs.takeWhile Char.isDigit) with
  | none => (.unknown, [])
  | some n => (.integer (if negative then -n else n), cs.dropWhile Char.isDigit)

/-- A register behind the letter that introduces it. -/
def registerToken (register : Nat → Token) (cs : List Char) : Token × List Char :=
  match Text.decimalNat? (cs.takeWhile Text.isDecimal) with
  | none => (.unknown, [])
  | some n => (register n, cs.dropWhile Text.isDecimal)

/-- The words that start with a point, without it. -/
def words : List (String × Token) := [("blob", .blob), ("cell", .cell), ("dict", .dict)]

/-- A word behind its point. -/
def wordToken (cs : List Char) : Token × List Char :=
  match words.find? fun (word, _) => word.toList.isPrefixOf cs with
  | none => (.unknown, [])
  | some (word, token) => (token, cs.drop word.length)

/-- The token that starts with `c`, and the text behind it. -/
def tokenAt (c : Char) (cs : List Char) : Token × List Char :=
  if startsName c then
    (.mnemonic (String.ofList (c :: cs.takeWhile continuesName)), cs.dropWhile continuesName)
  else if c.isDigit then integerToken false (c :: cs)
  else
    match c with
    | '+' => integerToken false cs
    | '-' => integerToken true cs
    | 's' => registerToken .stack cs
    | 'c' => registerToken .control cs
    | 'x' => literalToken cs
    | '.' => wordToken cs
    | '\x7b' => (.opening, cs)
    | '\x7d' => (.closing, cs)
    | ',' => (.comma, cs)
    | '=' =>
      match cs with
      | '>' :: rest => (.arrow, rest)
      | _ => (.unknown, [])
    | _ => (.unknown, [])

/-! ## A token takes at least its first character -/

theorem length_dropWhile_le {α : Type} (p : α → Bool) (xs : List α) :
    (xs.dropWhile p).length ≤ xs.length :=
  (List.dropWhile_suffix p).length_le

theorem length_hexFront_le (cs : List Char) : (hexFront cs).2.length ≤ cs.length := by
  have h := length_dropWhile_le isHexDigit cs
  unfold hexFront
  split
  · rename_i rest hr
    rw [hr] at h
    simp at h ⊢
    omega
  · exact h

theorem length_literalToken_le (cs : List Char) : (literalToken cs).2.length ≤ cs.length := by
  have hplain := length_hexFront_le cs
  unfold literalToken
  split
  · rename_i inner
    have h := length_hexFront_le inner
    dsimp only
    split
    · rename_i rest hr
      rw [hr] at h
      simp at h ⊢
      omega
    · exact hplain
  · exact hplain

theorem length_integerToken_lt (negative : Bool) (c : Char) (cs : List Char) (h : c.isDigit) :
    (integerToken negative (c :: cs)).2.length ≤ cs.length := by
  unfold integerToken
  split
  · simp
  · simpa [List.dropWhile_cons, h] using length_dropWhile_le Char.isDigit cs

theorem length_integerToken_le (negative : Bool) (cs : List Char) :
    (integerToken negative cs).2.length ≤ cs.length := by
  unfold integerToken
  split
  · simp
  · exact length_dropWhile_le _ _

theorem length_registerToken_le (register : Nat → Token) (cs : List Char) :
    (registerToken register cs).2.length ≤ cs.length := by
  unfold registerToken
  split
  · simp
  · exact length_dropWhile_le _ _

theorem length_wordToken_le (cs : List Char) : (wordToken cs).2.length ≤ cs.length := by
  unfold wordToken
  split
  · simp
  · simp

/-- What follows a token is shorter than what the token starts. -/
theorem length_tokenAt_le (c : Char) (cs : List Char) : (tokenAt c cs).2.length ≤ cs.length := by
  unfold tokenAt
  split
  · exact length_dropWhile_le _ _
  · split
    · rename_i h
      exact length_integerToken_lt false c cs h
    · split
      · exact length_integerToken_le _ _
      · exact length_integerToken_le _ _
      · exact length_registerToken_le _ _
      · exact length_registerToken_le _ _
      · exact length_literalToken_le _
      · exact length_wordToken_le _
      · exact Nat.le_refl _
      · exact Nat.le_refl _
      · exact Nat.le_refl _
      · split <;> simp
      · simp

/-! ## All tokens -/

/-- The tokens of a text whose first character stands on `line`. -/
def lexFrom (line : Nat) (cs : List Char) : List Lexeme :=
  match cs with
  | [] => []
  | c :: rest =>
    if isSpace c then lexFrom (if c = '\n' then line + 1 else line) rest
    else if c = ';' ∧ rest.head? = some ';' then lexFrom line (rest.dropWhile (· ≠ '\n'))
    else
      let found := tokenAt c rest
      ⟨line, found.1⟩ :: if found.1 = .unknown then [] else lexFrom line found.2
termination_by cs.length
decreasing_by
  · simp
  · have := length_dropWhile_le (fun x => decide (x ≠ '\n')) rest
    simp only [List.length_cons]
    omega
  · have := length_tokenAt_le c rest
    simp only [List.length_cons]
    omega

/-- The tokens of a text. -/
def lex (text : String) : List Lexeme := lexFrom 1 text.toList

end CellCode.Listing
