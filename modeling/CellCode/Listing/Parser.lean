import CellCode.Listing.Token
import CellCode.Listing.Tree

/-!
# Reading listings

The reader is a machine that takes one token at a time. It keeps a stack of frames, one for
each construct that is open, and each token changes the top of the stack or is refused. A
token is refused as soon as no listing can go on with it, so the line of the first refused
token is the line of the error.
-/

namespace CellCode.Listing

/-- How far an instruction has been read. -/
inductive Stage
  /-- Its name. -/
  | name
  /-- An operand. -/
  | operand
  /-- A comma, which another operand must follow. -/
  | comma
  /-- Code in braces. -/
  | block
  deriving DecidableEq, Repr

/-- A construct that is open. -/
inductive Frame
  /-- A list of items: the whole listing, or code in braces. -/
  | items (items : List Item)
  /-- An instruction. -/
  | instruction (line : Nat) (name : String) (operands : List Term) (blocks : List (List Item))
      (stage : Stage)
  /-- Raw bits of which only the word was read. -/
  | blob (line : Nat)
  /-- A cell of which only the word was read. -/
  | cellWord (line : Nat)
  /-- A cell in braces. -/
  | cell (line : Nat) (blobs : List Blob) (children : List CellTerm)
  /-- A cell of which all but the closing brace was read. -/
  | cellEnd (cell : CellTerm)
  /-- A dictionary of which only the word was read. -/
  | dictWord (line : Nat)
  /-- A dictionary in braces. -/
  | dict (line : Nat) (entries : List (Int × List Item))
  /-- An entry of which only the key was read. -/
  | entryKey (key : Int)
  /-- An entry of which all but the code was read. -/
  | entry (key : Int)

/-- The open constructs, innermost first. -/
abbrev Frames := List Frame

/-! ## Finished constructs -/

/-- Closes an instruction that may end here. -/
def closeInstruction : Frames → Frames
  | frames@(.instruction line name operands blocks stage :: .items items :: rest) =>
    if stage = .comma then frames
    else .items (items ++ [.instruction line name operands blocks]) :: rest
  | frames => frames

/-- Hands an operand to the instruction that waits for one. -/
def giveOperand (term : Term) : Frames → Option Frames
  | .instruction line name operands blocks stage :: rest =>
    if stage = .name ∨ stage = .comma then
      some (.instruction line name (operands ++ [term]) blocks .operand :: rest)
    else none
  | _ => none

/-- Hands a cell to the cell or instruction around it. -/
def giveCell (cell : CellTerm) : Frames → Option Frames
  | .cell line blobs children :: rest => some (.cell line blobs (children ++ [cell]) :: rest)
  | frames => giveOperand (.cell cell) frames

/-- Hands raw bits to the cell or list of items around them. -/
def giveBlob (blob : Blob) : Frames → Option Frames
  | .items items :: rest => some (.items (items ++ [.blob blob]) :: rest)
  | .cell line blobs [] :: rest => some (.cell line (blobs ++ [blob]) [] :: rest)
  | _ => none

/-- Hands code in braces to what it belongs to. -/
def giveBlock (items : List Item) : Frames → Option Frames
  | .instruction line name operands blocks _ :: rest =>
    some (.instruction line name operands (blocks ++ [items]) .block :: rest)
  | .cell line blobs [] :: rest => some (.cellEnd (.code line blobs items) :: rest)
  | .entry key :: .dict line entries :: rest =>
    some (.dict line (entries ++ [(key, items)]) :: rest)
  | _ => none

/-! ## Tokens -/

/-- Whether raw bits may stand here. -/
def allowsBlob : Frames → Bool
  | .items _ :: _ => true
  | .cell _ _ [] :: _ => true
  | _ => false

/-- Whether an operand may stand here. -/
def allowsOperand : Frames → Bool
  | .instruction _ _ _ _ stage :: _ => stage = .name ∨ stage = .comma
  | _ => false

/-- Takes an opening brace. -/
def openBrace : Frames → Option Frames
  | .instruction line name operands blocks stage :: rest =>
    if stage = .comma then none
    else some (.items [] :: .instruction line name operands blocks stage :: rest)
  | .cellWord line :: rest => some (.cell line [] [] :: rest)
  | .cell line blobs [] :: rest => some (.items [] :: .cell line blobs [] :: rest)
  | .dictWord line :: rest => some (.dict line [] :: rest)
  | .entry key :: rest => some (.items [] :: .entry key :: rest)
  | _ => none

/-- Takes a closing brace. -/
def closeBrace (frames : Frames) : Option Frames :=
  match closeInstruction frames with
  | .items items :: rest => giveBlock items rest
  | .cell line blobs children :: rest => giveCell (.raw line blobs children) rest
  | .cellEnd cell :: rest => giveCell cell rest
  | .dict line entries :: rest => giveOperand (.dict line entries) rest
  | _ => none

/-- Takes one token. -/
def take (frames : Frames) (lexeme : Lexeme) : Option Frames :=
  match lexeme.token with
  | .mnemonic name =>
    match closeInstruction frames with
    | .items items :: rest =>
      some (.instruction lexeme.line name [] [] .name :: .items items :: rest)
    | _ => none
  | .integer value =>
    match frames with
    | .dict line entries :: rest => some (.entryKey value :: .dict line entries :: rest)
    | _ => giveOperand (.integer value) frames
  | .stack index => giveOperand (.stack index) frames
  | .control index => giveOperand (.control index) frames
  | .literal text =>
    match frames with
    | .blob line :: rest => giveBlob ⟨line, text⟩ rest
    | _ => giveOperand (.bits text) frames
  | .blob =>
    let frames := closeInstruction frames
    if allowsBlob frames then some (.blob lexeme.line :: frames) else none
  | .cell =>
    match frames with
    | .cell .. :: _ => some (.cellWord lexeme.line :: frames)
    | _ => if allowsOperand frames then some (.cellWord lexeme.line :: frames) else none
  | .dict => if allowsOperand frames then some (.dictWord lexeme.line :: frames) else none
  | .opening => openBrace frames
  | .closing => closeBrace frames
  | .comma =>
    match frames with
    | .instruction line name operands blocks .operand :: rest =>
      some (.instruction line name operands blocks .comma :: rest)
    | _ => none
  | .arrow =>
    match frames with
    | .entryKey key :: rest => some (.entry key :: rest)
    | _ => none
  | .unknown => none

/-- Takes all tokens; `last` is the line of the token before them. The error is the line of the
    first token that is refused, or of the last one if the listing ends too early. -/
def parseFrom (frames : Frames) (last : Nat) : List Lexeme → Except Nat (List Item)
  | [] =>
    match closeInstruction frames with
    | [.items items] => .ok items
    | _ => .error last
  | lexeme :: lexemes =>
    match take frames lexeme with
    | none => .error lexeme.line
    | some frames => parseFrom frames lexeme.line lexemes

/-- The items that tokens make up, or the line of the error. -/
def parse (lexemes : List Lexeme) : Except Nat (List Item) := parseFrom [.items []] 1 lexemes

end CellCode.Listing
