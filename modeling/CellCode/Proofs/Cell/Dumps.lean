import CellCode.Cell.Dump
import CellCode.Proofs.Cell.Traversal
import CellCode.Proofs.Listing.Lines

/-!
# Dumps show the whole tree

A dump is put out in a loop: a stack holds the cells that are still to be shown, each with how far
it is set in, and the references of a cell are put on the stack in the place of the cell.
`Dumping` is this loop, one step at a time.

Read line by line, the dump of a cell is a line with its bits, and then the dumps of its references,
set in. The line of the next reference is the next one that is not set in, so the tree can be told
from the lines, and the bits of each cell from its line.

## Key results

- `dump_eq`: a dump is a line and the dumps of the references
- `Dumping.step_keeps`, `Dumping.run_of_measure`: a step of the loop, and a whole run
- `dumpLines_inj`: trees with the same lines are equal
- `dump_faithful`: the loop ends with the dump, and the dump determines the tree
-/

namespace CellCode

open Listing (Line unlines setIn)

namespace Cell

/-! ## Dumping by recursion -/

/-- The line that shows these bits. -/
def dumpLine (pad : String) (bits : Bits) : String := pad ++ "x\x7b" ++ bits.toHex ++ "\x7d\n"

/-- A dump is the line of the cell, and then the dumps of its references in order, set in. -/
theorem dump_eq (pad : String) (c : Cell) :
    dump pad c = dumpLine pad c.bits ++ String.join (c.refs.map (dump (pad ++ indentStep))) := by
  -- Along the references: the last one of a cell is shown last.
  induction c with
  | data bits => simp [dump, dumpLine]
  | link c r ih _ => simp [dump, ih, String.append_assoc]

/-! ## Dumping in a loop -/

/-- A dump between two steps: the lines that were put out, and the cells that are still to be
    shown, the next one first, each with how far it is set in. -/
structure Dumping where
  out : List String
  pending : List (Cell × String)

namespace Dumping

/-- A dump that has shown nothing. -/
def start (pad : String) (c : Cell) : Dumping := ⟨[], [(c, pad)]⟩

/-- One step: the line of the cell in front is put out, and its references come to the front one
    by one, the last one first. -/
def step (d : Dumping) : Option Dumping :=
  match d.pending with
  | [] => none
  | (c, pad) :: pending =>
    some ⟨d.out ++ [dumpLine pad c.bits],
      c.refs.reverse.foldl (fun pending r => (r, pad ++ indentStep) :: pending) pending⟩

/-- The text put out, if the dump ends within `n` steps. -/
def run (n : Nat) (d : Dumping) : Option String :=
  (runLoop step n d).map fun last => String.join last.out

/-- What is left to do. -/
def measure (d : Dumping) : Nat := (d.pending.map fun (c, _) => c.size).sum

/-- What the dump comes to: behind the lines put out stand the dumps of the pending cells. -/
def outcome (d : Dumping) : String :=
  String.join d.out ++ String.join (d.pending.map fun (c, pad) => dump pad c)

/-- Put to the front from the last one on, the references stand there in order. -/
private theorem push_refs (refs : List Cell) (pad : String) (pending : List (Cell × String)) :
    refs.reverse.foldl (fun pending r => (r, pad) :: pending) pending =
      refs.map (·, pad) ++ pending := by
  rw [List.foldl_reverse]
  induction refs with
  | nil => rfl
  | cons r refs ih => rw [List.foldr_cons, ih, List.map_cons, List.cons_append]

/-- A step leaves less to do and comes to the same; without a step nothing is left. -/
theorem step_keeps (d : Dumping) :
    match d.step with
    | some d' => d'.measure < d.measure ∧ d'.outcome = d.outcome
    | none => d.outcome = String.join d.out := by
  obtain ⟨out, pending⟩ := d
  cases pending with
  | nil => simp [step, outcome]
  | cons entry pending =>
    obtain ⟨c, pad⟩ := entry
    simp only [step, push_refs]
    constructor
    · -- The sizes of the references are what the size of the cell counts besides itself.
      have hsize := c.size_eq
      simp only [measure, List.map_append, List.map_map, List.sum_append, List.map_cons,
        List.sum_cons]
      have hrefs : c.refs.map ((fun x : Cell × String => x.1.size) ∘ (·, pad ++ indentStep)) =
          c.refs.map size := rfl
      rw [hrefs]
      omega
    · -- The line of the cell and the dumps of its references are its dump.
      simp only [outcome, List.map_cons, List.map_append, List.map_map, String.join_append,
        String.join_cons, dump_eq pad c, String.append_assoc]
      simp [Function.comp_def]

/-- After more steps than the measure allows the dump has ended, with what it comes to. -/
theorem run_of_measure (n : Nat) (d : Dumping) (hn : d.measure < n) : d.run n = some d.outcome :=
  runLoop_eq_outcome step measure outcome _
    (fun s s' hnext => by simpa only [hnext] using s.step_keeps)
    (fun s hend => by simpa only [hend] using s.step_keeps) n d hn

end Dumping

/-! ## Lines -/

/-- The line that shows these bits, not set in and without its end. -/
def shownBits (bits : Bits) : Line := 'x' :: '\x7b' :: (bits.toHex.toList ++ ['\x7d'])

/-- The lines of a dump that is not set in. -/
def dumpLines : Cell → List Line
  | data bits => [shownBits bits]
  | link c r => dumpLines c ++ setIn indentStep.toList (dumpLines r)

/-- A dump consists of these lines, set in by the pad. -/
theorem toList_dump (pad : String) (c : Cell) :
    (dump pad c).toList = unlines (setIn pad.toList (dumpLines c)) := by
  induction c generalizing pad with
  | data bits => simp [dump, dumpLines, shownBits, String.toList_append]
  | link c r ihc ihr =>
    rw [dump, String.toList_append, ihc, ihr, dumpLines, Listing.setIn_append,
      Listing.unlines_append, Listing.setIn_setIn, String.toList_append]

/-- The first line shows the bits of the cell; all other lines are set in. -/
theorem dumpLines_eq (c : Cell) :
    dumpLines c = shownBits c.bits :: setIn indentStep.toList (c.refs.flatMap dumpLines) := by
  induction c with
  | data bits => rfl
  | link c r ih _ => simp [dumpLines, ih]

/-- There is no newline inside a line. -/
theorem newline_dumpLines (c : Cell) : ∀ l ∈ dumpLines c, '\n' ∉ l := by
  induction c with
  | data bits =>
    -- The only line of a cell without references is braces around hexadecimal digits.
    intro l hl hmem
    rw [List.mem_singleton.mp hl] at hmem
    have hhex : '\n' ∈ bits.toHex.toList := by simpa [shownBits] using hmem
    rcases bits.isHexDigit_toHex _ hhex with h | h
    · exact absurd h (by decide)
    · exact absurd h (by decide)
  | link c r ihc ihr =>
    intro l hl
    rcases List.mem_append.mp hl with hl | hl
    · exact ihc l hl
    · exact Listing.newline_setIn _ _ (by simp [indentStep]) ihr l hl

/-- The bits can be told from the line that shows them. -/
theorem shownBits_inj (a b : Bits) (h : shownBits a = shownBits b) : a = b := by
  have hhex : a.toHex.toList = b.toHex.toList := by simpa [shownBits] using h
  exact Bits.toHex_inj a b (String.toList_inj.mp hhex)

/-- Lines set in equally far are equal when they were equal before. -/
theorem setIn_inj (pad : Line) (ls ls' : List Line) (h : setIn pad ls = setIn pad ls') :
    ls = ls' :=
  List.map_injective_iff.mpr (List.append_right_injective pad) h

/-- Rows of cells with the same lines are equal, if trees with the same lines are. -/
private theorem flatMap_dumpLines_inj (cs ds : List Cell)
    (hcs : ∀ c ∈ cs, ∀ d, dumpLines c = dumpLines d → c = d)
    (h : cs.flatMap dumpLines = ds.flatMap dumpLines) : cs = ds := by
  -- Induction on the first row: each cell takes the line that is not set in, and all below it.
  induction cs generalizing ds with
  | nil =>
    cases ds with
    | nil => rfl
    | cons d ds => simp [dumpLines_eq d] at h
  | cons c cs ih =>
    cases ds with
    | nil => simp [dumpLines_eq c] at h
    | cons d ds =>
      rw [List.forall_mem_cons] at hcs
      rw [List.flatMap_cons, List.flatMap_cons, dumpLines_eq c, dumpLines_eq d, List.cons_append,
        List.cons_append, List.cons.injEq] at h
      obtain ⟨hfirst, hrest⟩ := h
      -- The lines below the first cell are those up to the next one that is not set in.
      have hbelow (ls : List Line) : ∀ l ∈ setIn indentStep.toList ls, l.head? == some ' ' := by
        intro l hl
        obtain ⟨l', _, rfl⟩ := List.mem_map.mp hl
        rfl
      have hstop (es : List Cell) (l : Line) (hl : (es.flatMap dumpLines).head? = some l) :
          (l.head? == some ' ') = false := by
        cases es with
        | nil => cases hl
        | cons e es =>
          rw [List.flatMap_cons, dumpLines_eq e] at hl
          cases hl
          rfl
      obtain ⟨hlines, hothers⟩ := append_inj_of_stop _ _ _ _ (hbelow _) (hbelow _) (hstop cs)
        (hstop ds) hrest
      have hcd : c = d := hcs.1 d (by rw [dumpLines_eq c, dumpLines_eq d, hfirst, hlines])
      rw [hcd, ih ds hcs.2 hothers]

/-- Trees with the same lines are equal. -/
theorem dumpLines_inj (c d : Cell) (h : dumpLines c = dumpLines d) : c = d := by
  induction c using Cell.induction generalizing d with
  | step c ih =>
    -- By induction on the tree the references are told from what stands below the first line.
    rw [dumpLines_eq c, dumpLines_eq d, List.cons.injEq] at h
    have hrefs := setIn_inj _ _ _ h.2
    exact ext_parts (shownBits_inj _ _ h.1) (flatMap_dumpLines_inj c.refs d.refs ih hrefs)

/-! ## Whole dumps -/

/-- How far a dump is set in shows in its first line. -/
private theorem indent_dump (pad : String) (hpad : ∀ ch ∈ pad.toList, ch = ' ') (c : Cell) :
    ∃ first others, setIn pad.toList (dumpLines c) = first :: others ∧
      Listing.indent first = pad.toList := by
  rw [dumpLines_eq, Listing.setIn_cons]
  refine ⟨_, _, rfl, ?_⟩
  rw [Listing.indent_append _ _ hpad, shownBits, Listing.indent_cons _ _ (by decide),
    List.append_nil]

/-- A dump that is set in by blanks is faithful. The loop ends with the text that the recursion
    gives, a line for the cell and then its references in order, two blanks further in. No other
    tree, and no other indentation by blanks, has the same text. -/
theorem dump_faithful (pad : String) (hpad : ∀ ch ∈ pad.toList, ch = ' ') (c : Cell) :
    (∀ n, c.size < n → (Dumping.start pad c).run n = some (dump pad c)) ∧
    dump pad c = pad ++ "x\x7b" ++ c.bits.toHex ++ "\x7d\n" ++
      String.join (c.refs.map (dump (pad ++ "  "))) ∧
    ∀ (pad' : String) (d : Cell), (∀ ch ∈ pad'.toList, ch = ' ') → dump pad' d = dump pad c →
      pad' = pad ∧ d = c := by
  refine ⟨?_, dump_eq pad c, ?_⟩
  · -- The loop was shown to come to what the recursion gives.
    intro n hn
    rw [Dumping.run_of_measure n _ (by simpa [Dumping.measure, Dumping.start] using hn)]
    simp [Dumping.outcome, Dumping.start]
  · intro pad' d hpad' h
    -- Both texts are read as their lines, and the first line shows how far they are set in.
    have hread (pad : String) (hpad : ∀ ch ∈ pad.toList, ch = ' ') (c : Cell) :
        Listing.lines (dump pad c) = setIn pad.toList (dumpLines c) :=
      Listing.lines_of_unlines _ _ (toList_dump pad c)
        (Listing.newline_setIn _ _ hpad (newline_dumpLines c))
    have hlines : setIn pad'.toList (dumpLines d) = setIn pad.toList (dumpLines c) := by
      rw [← hread pad' hpad' d, h, hread pad hpad c]
    obtain ⟨first, others, hfirst, hindent⟩ := indent_dump pad hpad c
    obtain ⟨first', others', hfirst', hindent'⟩ := indent_dump pad' hpad' d
    have hpads : pad'.toList = pad.toList := by
      rw [hfirst, hfirst'] at hlines
      rw [← hindent, ← hindent', (List.cons.inj hlines).1]
    rw [hpads] at hlines
    exact ⟨String.toList_inj.mp hpads, dumpLines_inj d c (setIn_inj _ _ _ hlines)⟩

/-- A cell that stands below another one, or beside it: the same three lines, but set in
    differently. -/
def belowNine : Cell := .mk [] [.mk (List.replicate 9 true) [.data [true]]]
def besideNine : Cell := .mk [] [.data (List.replicate 9 true), .data [true]]

/-- The dump of the one is not that of the other. -/
theorem dump_faithful_belowNine :
    (∀ ch ∈ "  ".toList, ch = ' ') ∧ belowNine.size < 20 ∧
      (Dumping.start "  " belowNine).run 20 = some (dump "  " belowNine) ∧
      dump "  " belowNine = "  x\x7b\x7d\n    x\x7bFFC_\x7d\n      x\x7bC_\x7d\n" ∧
      dump "  " besideNine ≠ dump "  " belowNine := by
  have hpad : ∀ ch ∈ "  ".toList, ch = ' ' := by simp
  obtain ⟨hrun, -, hdetermined⟩ := dump_faithful "  " hpad belowNine
  have hsize : belowNine.size < 20 := by decide
  refine ⟨hpad, hsize, hrun 20 hsize, by decide +kernel, ?_⟩
  intro h
  have hrefs := congrArg (fun c => c.refs.length) (hdetermined "  " besideNine hpad h).2
  exact absurd hrefs (by decide)

end Cell

end CellCode
