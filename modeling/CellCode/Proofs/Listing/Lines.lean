import CellCode.Listing.Printer
import CellCode.Proofs.Listing.Tokens

/-!
# Listings line by line

Code in braces opens on one line of a listing and closes on a later one, and what stands between is
set in deeper. The line on which it opens ends with the hash of its cell as a comment, and with a
note if the code is not written out there.

## Key results

- `lines`, `lines_of_unlines`: the lines of a text
- `blockMark?`: what a line says about the code that opens on it
- `rows`, `unlines_rows`: braces one behind the other, and the text they make up
-/

namespace CellCode.Listing

/-! ## Lines -/

/-- A line of a listing, without its line end. -/
abbrev Line := List Char

/-- The lines of a text in which a line end stands behind each line. -/
def lines (text : String) : List Line := (text.toList.splitOn '\n').dropLast

/-- Lines with a line end behind each of them. -/
def unlines (ls : List Line) : List Char := ls.flatMap (· ++ ['\n'])

/-- No lines make up no text. -/
@[simp] theorem unlines_nil : unlines [] = [] := rfl

/-- The first line comes with its line end. -/
@[simp] theorem unlines_cons (l : Line) (ls : List Line) :
    unlines (l :: ls) = l ++ '\n' :: unlines ls := by
  simp [unlines]

/-- Lines in a row make up their texts in a row. -/
@[simp] theorem unlines_append (ls ls' : List Line) :
    unlines (ls ++ ls') = unlines ls ++ unlines ls' := by
  simp [unlines]

/-- Lines are found again in the text that they make up. -/
theorem lines_of_unlines (text : String) (ls : List Line) (htext : text.toList = unlines ls)
    (h : ∀ l ∈ ls, '\n' ∉ l) : lines text = ls := by
  -- The text splits into the lines and what stands behind the last line end, which is nothing.
  have hsplit : (unlines ls).splitOn '\n' = ls ++ [[]] := by
    clear htext
    induction ls with
    | nil => rfl
    | cons l ls ih =>
      have hl : ∀ ch ∈ l, (ch == '\n') = false := by
        intro ch hch
        rw [beq_eq_false_iff_ne]
        rintro rfl
        exact h l (by simp) hch
      rw [unlines_cons, List.splitOn, List.splitOnP_append_cons _ _ (by simp),
        List.splitOnP_eq_singleton hl]
      have hrest := ih fun l hl => h l (by simp [hl])
      rw [List.splitOn] at hrest
      rw [hrest]
      rfl
  rw [lines, htext, hsplit, List.dropLast_concat]

/-- Lines set in by some blanks. -/
def setIn (pad : Line) (ls : List Line) : List Line := ls.map (pad ++ ·)

/-- No lines are set in to none. -/
@[simp] theorem setIn_nil (pad : Line) : setIn pad [] = [] := rfl

/-- Lines are set in one by one. -/
@[simp] theorem setIn_cons (pad l : Line) (ls : List Line) :
    setIn pad (l :: ls) = (pad ++ l) :: setIn pad ls := rfl

/-- Lines in a row are set in together. -/
@[simp] theorem setIn_append (pad : Line) (ls ls' : List Line) :
    setIn pad (ls ++ ls') = setIn pad ls ++ setIn pad ls' := by
  simp [setIn]

/-- Lines that are set in twice are set in by both. -/
theorem setIn_setIn (pad pad' : Line) (ls : List Line) :
    setIn pad (setIn pad' ls) = setIn (pad ++ pad') ls := by
  simp [setIn]

/-- Lines that are set in by nothing are as they were. -/
theorem setIn_none (ls : List Line) : setIn [] ls = ls := by
  simp [setIn]

/-- The blanks in front of a line. -/
def indent (line : Line) : Line := line.takeWhile (· = ' ')

/-- Blanks in front of a line belong to its blanks. -/
theorem indent_append (pad line : Line) (hpad : ∀ ch ∈ pad, ch = ' ') :
    indent (pad ++ line) = pad ++ indent line :=
  List.takeWhile_append_of_pos (by simpa using hpad)

/-- A line that starts with something else has no blanks in front. -/
theorem indent_cons (ch : Char) (line : Line) (h : ch ≠ ' ') : indent (ch :: line) = [] :=
  List.takeWhile_cons_of_neg (by simpa using h)

/-- The blanks in front of a line are blanks. -/
theorem blank_of_indent (line : Line) : ∀ ch ∈ indent line, ch = ' ' := by
  intro ch hch
  simpa using List.all_eq_true.mp List.all_takeWhile ch hch

/-- Setting in puts no line end into a line. -/
theorem newline_setIn (pad : Line) (ls : List Line) (hpad : ∀ ch ∈ pad, ch = ' ')
    (h : ∀ l ∈ ls, '\n' ∉ l) : ∀ l ∈ setIn pad ls, '\n' ∉ l := by
  have hpadLine : '\n' ∉ pad := fun hmem => absurd (hpad _ hmem) (by decide)
  intro l hl
  obtain ⟨l', hl', rfl⟩ := List.mem_map.mp hl
  simp [hpadLine, h l' hl']

/-! ## The line on which code opens -/

/-- What a line says about the code that opens on it. -/
structure BlockMark where
  /-- The hash of the cell from which the code came. -/
  hash : List Char
  /-- Whether the code is left out. -/
  collapsed : Bool
  deriving DecidableEq

/-- The note behind the hash of code that is left out. -/
def collapsedNote : Line := [' ', '(', 'c', 'o', 'l', 'l', 'a', 'p', 's', 'e', 'd', ')']

/-- The mark of a line on which code opens that came from a cell: the comment of the line is the
    hash, perhaps with a note. Where a directive stands before the comment, a cell opens and not a
    code. -/
def blockMark? (line : Line) : Option BlockMark :=
  let front := line.takeWhile (· ≠ ';')
  let comment := line.dropWhile (· ≠ ';')
  if '.' ∉ front ∧ [';', ';', ' ', '#'] <+: comment then
    let hash := comment.drop 4
    some ⟨hash.takeWhile (· ≠ ' '), hash.dropWhile (· ≠ ' ') = collapsedNote⟩
  else none

/-- The marks of some lines in order. -/
def marks (ls : List Line) : List BlockMark := ls.filterMap blockMark?

/-- No lines say nothing. -/
@[simp] theorem marks_nil : marks [] = [] := rfl

/-- Lines in a row say what both say. -/
@[simp] theorem marks_append (ls ls' : List Line) : marks (ls ++ ls') = marks ls ++ marks ls' :=
  List.filterMap_append

/-- The row neither ends a line nor starts a comment, and holds no directive. -/
def IsPlain (row : Line) : Prop := ∀ ch ∈ row, ch ≠ '\n' ∧ ch ≠ ';' ∧ ch ≠ '.'

/-- Plain rows are plain when put together. -/
theorem IsPlain.append {row row' : Line} (h : IsPlain row) (h' : IsPlain row') :
    IsPlain (row ++ row') := by
  intro ch hch
  rcases List.mem_append.mp hch with hch | hch
  · exact h ch hch
  · exact h' ch hch

/-- Blanks are plain. -/
theorem isPlain_of_blank (pad : Line) (hpad : ∀ ch ∈ pad, ch = ' ') : IsPlain pad := by
  intro ch hch
  rw [hpad ch hch]
  decide

/-- A plain row in front of a line does not change what the line says. -/
theorem blockMark?_append (row line : Line) (h : IsPlain row) :
    blockMark? (row ++ line) = blockMark? line := by
  have hcomment : ∀ ch ∈ row, decide (ch ≠ ';') = true := fun ch hch => by simp [h ch hch]
  have hdot : '.' ∉ row := fun hmem => (h _ hmem).2.2 rfl
  -- The comment starts at the first semicolon, and the row has none, nor a directive.
  simp only [blockMark?, List.takeWhile_append_of_pos hcomment,
    List.dropWhile_append_of_pos hcomment, List.mem_append, hdot, false_or]

/-- A line without a comment says nothing. -/
theorem blockMark?_none (line : Line) (h : ';' ∉ line) : blockMark? line = none := by
  have hall : ∀ ch ∈ line, decide (ch ≠ ';') = true := by
    intro ch hch
    rw [decide_eq_true_iff]
    rintro rfl
    exact h hch
  have hcomment : (line ++ []).dropWhile (fun ch => decide (ch ≠ ';')) = [] :=
    List.dropWhile_append_of_pos hall
  rw [List.append_nil] at hcomment
  simp only [blockMark?, hcomment]
  simp

/-- What lines say does not depend on how far they are set in. -/
theorem marks_setIn (pad : Line) (ls : List Line) (hpad : ∀ ch ∈ pad, ch = ' ') :
    marks (setIn pad ls) = marks ls := by
  rw [marks, setIn, List.filterMap_map]
  congr 1
  funext line
  exact blockMark?_append pad line (isPlain_of_blank pad hpad)

/-- How code in braces opens, with the cell it came from and whether it is left out. -/
def codeOpening : Option Cell → Bool → Line
  | none, _ => [' ', '\x7b']
  | some c, collapsed =>
    [' ', '\x7b', ' '] ++ ([';', ';', ' ', '#'] ++ (c.hash.toList ++
      if collapsed then collapsedNote else []))

/-- How a cell in braces opens. -/
def cellOpening (c : Cell) : Line := ['.', 'c', 'e', 'l', 'l', ' ', '\x7b', ' '] ++
  ([';', ';', ' ', '#'] ++ c.hash.toList)

/-- A comment starts where the first semicolon stands. -/
private theorem blockMark?_comment (front comment : Line) (hfront : ∀ ch ∈ front, ch ≠ ';') :
    blockMark? (front ++ ([';', ';', ' ', '#'] ++ comment)) =
      if '.' ∉ front then
        some ⟨comment.takeWhile (· ≠ ' '), comment.dropWhile (· ≠ ' ') = collapsedNote⟩
      else none := by
  have hfront : ∀ ch ∈ front, decide (ch ≠ ';') = true := by simpa using hfront
  have htake : (front ++ ([';', ';', ' ', '#'] ++ comment)).takeWhile (· ≠ ';') = front := by
    rw [List.takeWhile_append_of_pos hfront]
    simp
  have hdrop : (front ++ ([';', ';', ' ', '#'] ++ comment)).dropWhile (· ≠ ';') =
      [';', ';', ' ', '#'] ++ comment := by
    rw [List.dropWhile_append_of_pos hfront]
    rfl
  simp only [blockMark?, htake, hdrop, List.prefix_append, and_true]
  rfl

example : blockMark? "IFREFELSE \x7b ;; #0af3".toList = some ⟨"0af3".toList, false⟩ := by
  decide +kernel

example : blockMark? "  \x7d \x7b ;; #0af3 (collapsed)".toList = some ⟨"0af3".toList, true⟩ := by
  decide +kernel

example : blockMark? "PUSHREF .cell \x7b ;; #0af3".toList = none := by
  decide +kernel

/-- Where code opens, its hash is read back, and whether it is left out. -/
theorem blockMark?_codeOpening (c : Cell) (collapsed : Bool) :
    blockMark? (codeOpening (some c) collapsed) = some ⟨c.hash.toList, collapsed⟩ := by
  -- The hash ends where the note starts, with a blank.
  have hhash : ∀ ch ∈ c.hash.toList, decide (ch ≠ ' ') = true := by
    intro ch hch
    have hdigit := c.isHexDigit_hash ch hch
    rw [decide_eq_true_iff]
    rintro rfl
    cases hdigit
  rw [codeOpening, blockMark?_comment _ _ (by simp), if_pos (by decide),
    List.takeWhile_append_of_pos hhash, List.dropWhile_append_of_pos hhash]
  -- Without a note nothing follows the hash.
  cases collapsed with
  | false => simp [collapsedNote]
  | true => simp [collapsedNote]

/-- Where a cell opens, no code does. -/
theorem blockMark?_cellOpening (front : Line) (c : Cell) (hfront : ∀ ch ∈ front, ch ≠ ';') :
    blockMark? (front ++ cellOpening c) = none := by
  -- The word that introduces a cell is a directive, so the line says nothing.
  rw [cellOpening, ← List.append_assoc, blockMark?_comment, if_neg]
  · simp
  · intro ch hch
    rcases List.mem_append.mp hch with hch | hch
    · exact hfront ch hch
    · have hcell : ∀ ch ∈ ['.', 'c', 'e', 'l', 'l', ' ', '\x7b', ' '], ch ≠ ';' := by simp
      exact hcell ch hch

/-! ## Braces one behind the other -/

/-- Something in braces: how it opens, and the lines between the braces. -/
structure Braces where
  opening : Line
  inner : List Line

namespace Braces

/-- The text of something in braces. -/
def text (pad : Line) (b : Braces) : List Char :=
  b.opening ++ '\n' :: (unlines (setIn pad b.inner) ++ (pad ++ ['\x7d']))

/-- Something may stand before the opening. -/
def behind (front : Line) (b : Braces) : Braces := { b with opening := front ++ b.opening }

theorem text_behind (pad front : Line) (b : Braces) :
    (b.behind front).text pad = front ++ b.text pad := by
  simp [text, behind]

/-- What the lines in braces say, the opening included. -/
def marks (b : Braces) : List BlockMark := Listing.marks (b.opening :: b.inner)

end Braces

/-- The lines of a row with braces behind it: each line but the last ends with an opening, and each
    line but the first starts with a closing brace. -/
def rows (row : Line) : List Braces → List Line
  | [] => [row]
  | b :: bs => (row ++ b.opening) :: (b.inner ++ rows ['\x7d'] bs)

/-- The text of a row with braces behind it. -/
theorem unlines_rows (pad row : Line) (bs : List Braces) :
    unlines (setIn pad (rows row bs)) = pad ++ row ++ bs.flatMap (Braces.text pad) ++ ['\n'] := by
  -- Induction on the braces, each of which starts a new row with its closing brace.
  induction bs generalizing row with
  | nil => simp [rows]
  | cons b bs ih => simp [rows, ih, Braces.text]

/-- The first line starts with the row. -/
theorem rows_eq_cons (row : Line) (bs : List Braces) :
    ∃ more after, rows row bs = (row ++ more) :: after := by
  cases bs with
  | nil => exact ⟨[], [], by simp [rows]⟩
  | cons b bs => exact ⟨_, _, rfl⟩

/-- A closing brace is plain. -/
theorem isPlain_closing : IsPlain ['\x7d'] := by
  intro ch hch
  rw [List.mem_singleton.mp hch]
  decide

/-- A plain row that is not set in, whatever stands behind it. -/
structure IsHead (row : Line) : Prop where
  plain : IsPlain row
  indent_eq : ∀ more, indent (row ++ more) = []

/-- A closing brace starts a row that is not set in. -/
theorem isHead_closing : IsHead ['\x7d'] :=
  ⟨isPlain_closing, fun more => indent_cons _ more (by decide)⟩

/-- A row says nothing, so the lines say what the braces say. -/
theorem marks_rows (row : Line) (bs : List Braces) (hrow : IsPlain row) :
    marks (rows row bs) = bs.flatMap Braces.marks := by
  -- Induction on the braces.
  induction bs generalizing row with
  | nil => simp [rows, marks, blockMark?_none row fun hmem => (hrow _ hmem).2.1 rfl]
  | cons b bs ih =>
    have hrest := ih _ isPlain_closing
    simp only [marks] at hrest
    simp only [rows, marks, List.filterMap_cons, blockMark?_append row _ hrow,
      List.filterMap_append, hrest, List.flatMap_cons, Braces.marks, Listing.marks]
    -- The opening says something or nothing, and the lines between come behind it.
    cases blockMark? b.opening <;> simp

/-- Rows have no line end within a line if neither the row nor the braces have one. -/
theorem newline_not_mem_rows (row : Line) (bs : List Braces) (hrow : '\n' ∉ row)
    (hbs : ∀ b ∈ bs, ∀ l ∈ b.opening :: b.inner, '\n' ∉ l) : ∀ l ∈ rows row bs, '\n' ∉ l := by
  induction bs generalizing row with
  | nil => simpa [rows] using hrow
  | cons b bs ih =>
    obtain ⟨hopening, hinner⟩ := List.forall_mem_cons.mp (hbs b (by simp))
    have hrest := ih ['\x7d'] (by simp) fun b hb => hbs b (by simp [hb])
    intro l hl
    -- A line is the row with the first opening, one between the braces, or a later one.
    simp only [rows, List.mem_cons, List.mem_append] at hl
    rcases hl with rfl | hl | hl
    · simp [hrow, hopening]
    · exact hinner l hl
    · exact hrest l hl

end CellCode.Listing
