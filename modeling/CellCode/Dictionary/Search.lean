import CellCode.Dictionary.Label

/-!
# Searching dictionaries

A dictionary is a binary tree of cells over keys of a fixed width. A node holds a label; when
the label uses up the key the rest of the cell is the value, otherwise references 0 and 1
lead on with the next key bit.

`leftmost` finds the smallest key and `after` the smallest key beyond a given one.
`listing` repeats the second from the first on, which yields the entries in order, and
`enumerate` is the plain recursive walk that lists them all.

A key to be looked up is compared digit by digit with the labels on its way. It is written
in binary, filled up with zeros to the width of the keys; a negative key starts with a sign,
which sorts before both bits, and a key that needs more digits than the keys have just has
them.
-/

namespace CellCode.Dictionary

-- Powers are those of the standard library, whatever else is in scope.
attribute [local instance (high)] instPowNat

/-- A digit of a key to be looked up. -/
inductive Digit
  | sign
  | bit (value : Bool)
  deriving DecidableEq, Repr

/-- The place of a digit in the order of digits. -/
def Digit.rank : Digit → Nat
  | sign => 0
  | bit false => 1
  | bit true => 2

/-- Compares digits from the left; the first difference decides. -/
def compareDigits : List Digit → List Digit → Ordering
  | [], [] => .eq
  | [], _ :: _ => .lt
  | _ :: _, [] => .gt
  | a :: as, b :: bs => (compare a.rank b.rank).then (compareDigits as bs)

/-- The digits of a key among keys of `width` bits. -/
def keyDigits (key : Int) (width : Int) : List Digit :=
  let w := width.toNat
  if w = 0 then []
  else if key < 0 then .sign :: (Label.atLeast (w - 1) key.natAbs).map .bit
  else (Label.atLeast w key.natAbs).map .bit

/-- An entry: its key, and the slice that holds its value. -/
structure Entry where
  key : Nat
  value : Slice

/-- The entry of a key given by its bits. -/
def Entry.of (key : Bits) (value : Slice) : Entry := ⟨key.toNat, value⟩

/-! ## Smallest and next -/

/-- The smallest key below a node with `m` key bits left, behind the key bits `pre`. -/
def leftmost (node : Cell) (m : Int) (pre : Bits) : Except CellError (Bits × Slice) := do
  let (label, s) ← Label.load node.toSlice m
  let left := m - label.length
  if left ≤ 0 then return (pre ++ label, s)
  else leftmost (← s.getReference 0) (left - 1) (pre ++ label ++ [false])
termination_by m.toNat
decreasing_by omega

/-- The smallest key below a node that comes after the given digits. -/
def after (node : Cell) (m : Int) (key : List Digit) (pre : Bits) :
    Except CellError (Option (Bits × Slice)) := do
  let (label, s) ← Label.load node.toSlice m
  let left := m - label.length
  match compareDigits (label.map .bit) (key.take label.length) with
  | .gt =>
    if left ≤ 0 then return some (pre ++ label, s)
    else return some (← leftmost (← s.getReference 0) (left - 1) (pre ++ label ++ [false]))
  | .lt => return none
  | .eq =>
    if left ≤ 0 then return none
    else
      match key.drop label.length with
      | [] => return none
      | digit :: rest =>
        if digit = .bit false then
          match ← after (← s.getReference 0) (left - 1) rest (pre ++ label ++ [false]) with
          | some found => return some found
          | none =>
            return some (← leftmost (← s.getReference 1) (left - 1) (pre ++ label ++ [true]))
        else after (← s.getReference 1) (left - 1) rest (pre ++ label ++ [true])
termination_by m.toNat
decreasing_by all_goals omega

/-- The entry with the smallest key. -/
def findMin (root : Option Cell) (width : Int) : Except CellError (Option Entry) :=
  match root with
  | none => .ok none
  | some node => do
    let (key, value) ← leftmost node width []
    return some (.of key value)

/-- The entry with the smallest key beyond `key`. -/
def findNext (root : Option Cell) (width key : Int) : Except CellError (Option Entry) :=
  match root with
  | none => .ok none
  | some node => do
    let found ← after node width (keyDigits key width) []
    return found.map fun (key, value) => .of key value

/-! ## All entries -/

/-- The entries listed one by one, and the error that ended the listing, if one did. -/
structure Listing where
  entries : List Entry
  failure : Option CellError

/-- The listing with one more entry in front. -/
def Listing.cons (entry : Entry) (l : Listing) : Listing := { l with entries := entry :: l.entries }

/-- Lists the entries beyond `key`. Keys ascend below the width's bound, so the listing ends. -/
def listingAfter (root : Option Cell) (width : Int) (key : Nat) : Listing :=
  match findNext root width key with
  | .error e => ⟨[], some e⟩
  | .ok none => ⟨[], none⟩
  | .ok (some entry) =>
    if key < entry.key ∧ entry.key < 2 ^ width.toNat then
      .cons entry (listingAfter root width entry.key)
    else ⟨[], none⟩
termination_by 2 ^ width.toNat - key
decreasing_by omega

/-- Lists all entries from the smallest key on. -/
def listing (root : Option Cell) (width : Int) : Listing :=
  match findMin root width with
  | .error e => ⟨[], some e⟩
  | .ok none => ⟨[], none⟩
  | .ok (some entry) => .cons entry (listingAfter root width entry.key)

/-- All entries in order, unless the listing breaks off. -/
def items (root : Option Cell) (width : Int) : Except CellError (List Entry) :=
  let l := listing root width
  match l.failure with
  | some e => .error e
  | none => .ok l.entries

/-- All entries below a node in order, by a walk through both branches of every node. -/
def enumerate (node : Cell) (m : Int) (pre : Bits) : Except CellError (List (Bits × Slice)) := do
  let (label, s) ← Label.load node.toSlice m
  let left := m - label.length
  if left ≤ 0 then return [(pre ++ label, s)]
  else
    let zeros ← enumerate (← s.getReference 0) (left - 1) (pre ++ label ++ [false])
    let ones ← enumerate (← s.getReference 1) (left - 1) (pre ++ label ++ [true])
    return zeros ++ ones
termination_by m.toNat
decreasing_by all_goals omega

end CellCode.Dictionary
