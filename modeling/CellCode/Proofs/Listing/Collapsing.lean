import CellCode.Proofs.Cell.Identity
import CellCode.Proofs.Listing.Expanding
import CellCode.Proofs.Listing.Rows
import CellCode.Proofs.JumpTable
import CellCode.Proofs.Program.Stored

/-!
# Code is written out once

A printer that collapses remembers the cells whose code it wrote out. Where code opens that came
from such a cell, it is left out, and else it is written out and the cell remembered. So among the
lines on which the code of one cell opens, the first says that it is written out and all others say
that it is left out, in jump tables too.

## Key results

- `Tracks`: marks of lines, with what is remembered before and after them
- `Tracks.onceInFull`: of the marks with one hash only the first is that of code written out
- `CodeLines.tracked`, `tablePrinter_tracked`: the marks that are printed
-/

namespace CellCode

/-! ## The codes of jump tables -/

/-- The codes of the methods of a jump table were loaded. -/
theorem JumpTable.mark_loaded (cell : Cell) (width : Int) (path : Path) (m : JumpTable.Method)
    (h : (path, m) ∈ (JumpTable.mark cell width []).1) :
    ∃ value, loadCode value false = .ok (m.store, m.root) := by
  -- Each entry either ends the list of methods or adds one that was loaded.
  have hall (methods : JumpTable.Methods) (entries : List Dictionary.Entry)
      (hmethods : ∀ x ∈ methods, ∃ value, loadCode value false = .ok (x.2.store, x.2.root)) :
      ∀ x ∈ (JumpTable.resolveAll cell methods entries).1,
        ∃ value, loadCode value false = .ok (x.2.store, x.2.root) := by
    induction entries generalizing methods with
    | nil => exact hmethods
    | cons entry entries ih =>
      rw [JumpTable.resolveAll]
      split
      · exact hmethods
      · rename_i method hresolve
        refine ih _ ?_
        intro x hx
        rcases List.mem_append.mp hx with hx | hx
        · exact hmethods x hx
        · obtain rfl := List.mem_singleton.mp hx
          -- A resolved entry carries the store that loading its value has given.
          exact ⟨_, ((JumpTable.resolve_eq_ok _ _ _ _ _).mp hresolve).2.2.2⟩
  rw [JumpTable.mark] at h
  split at h
  · cases h
  · exact hall [] _ (by simp) _ h

namespace Listing

/-! ## Marks and what is remembered -/

/-- Marks of lines in order: the code of a cell that is remembered is left out, and else it is
    written out and the cell remembered. -/
inductive Tracks : Printed → List BlockMark → Printed → Prop
  | nil (printed : Printed) : Tracks printed [] printed
  | full {printed printed' : Printed} {d : Digest} {ms : List BlockMark} (new : d ∉ printed)
      (behind : Tracks (printed.insert d) ms printed') :
      Tracks printed (⟨d.toHex.toList, false⟩ :: ms) printed'
  | collapsed {printed printed' : Printed} {d : Digest} {ms : List BlockMark} (old : d ∈ printed)
      (behind : Tracks printed ms printed') :
      Tracks printed (⟨d.toHex.toList, true⟩ :: ms) printed'

namespace Tracks

variable {printed between printed' : Printed} {ms ms' : List BlockMark}

/-- Marks that follow one another are tracked one after the other. -/
theorem append (h : Tracks printed ms between) (h' : Tracks between ms' printed') :
    -- Induction on the first marks.
    Tracks printed (ms ++ ms') printed' := by
  induction h with
  | nil => exact h'
  | full new _ ih => exact .full new (ih h')
  | collapsed old _ ih => exact .collapsed old (ih h')

/-- A cell that is remembered stays remembered. -/
theorem mono (h : Tracks printed ms printed') (d : Digest) (hd : d ∈ printed) : d ∈ printed' := by
  -- Induction on the marks: the only change is that a cell is remembered.
  induction h with
  | nil => exact hd
  | full _ _ ih => exact ih (Std.HashSet.mem_insert.mpr (.inr hd))
  | collapsed _ _ ih => exact ih hd

/-- Whose code was written out or left out is remembered. -/
theorem mem (h : Tracks printed ms printed') (m : BlockMark) (hm : m ∈ ms) :
    ∃ d ∈ printed', m.hash = d.toHex.toList := by
  -- Induction on the marks: the cell of a mark is remembered at the mark, and stays so.
  induction h with
  | nil => cases hm
  | @full _ _ d _ _ behind ih =>
    rcases List.mem_cons.mp hm with rfl | hm
    · exact ⟨d, behind.mono d (by simp), rfl⟩
    · exact ih hm
  | @collapsed _ _ d _ old behind ih =>
    rcases List.mem_cons.mp hm with rfl | hm
    · exact ⟨d, behind.mono d old, rfl⟩
    · exact ih hm

/-- The marks of a cell that is remembered are those of code left out. -/
theorem filter_of_mem (h : Tracks printed ms printed') (d : Digest) (hd : d ∈ printed) :
    ∃ n, ms.filter (·.hash = d.toHex.toList) = List.replicate n ⟨d.toHex.toList, true⟩ := by
  -- Induction on the marks. No mark of code written out has the hash, so all that are left say the
  -- code is left out.
  induction h with
  | nil => exact ⟨0, rfl⟩
  | @full _ _ d' _ new _ ih =>
    -- Code is written out here, so this is another cell.
    have hne : ¬ d'.toHex.toList = d.toHex.toList := by
      intro heq
      rw [Digest.toHex_inj _ _ (String.toList_inj.mp heq)] at new
      exact new hd
    obtain ⟨n, hn⟩ := ih (Std.HashSet.mem_insert.mpr (.inr hd))
    exact ⟨n, by simp [hne, hn]⟩
  | @collapsed _ _ d' _ _ _ ih =>
    obtain ⟨n, hn⟩ := ih hd
    by_cases heq : d'.toHex.toList = d.toHex.toList
    · exact ⟨n + 1, by simp [heq, hn, List.replicate_succ]⟩
    · exact ⟨n, by simp [heq, hn]⟩

end Tracks

/-- Of the marks with this hash the first, if there is one, is that of code written out, and all
    others are those of code left out. -/
def OnceInFull (hash : List Char) (ms : List BlockMark) : Prop :=
  ms.filter (·.hash = hash) = [] ∨
    ∃ n, ms.filter (·.hash = hash) = ⟨hash, false⟩ :: List.replicate n ⟨hash, true⟩

namespace OnceInFull

variable {hash : List Char} {ms : List BlockMark}

/-- Marks with another hash do not matter. -/
private theorem count_eq (collapsed : Bool) :
    ms.count ⟨hash, collapsed⟩ = (ms.filter (·.hash = hash)).count ⟨hash, collapsed⟩ :=
  (List.count_filter (by simp)).symm

/-- Only one mark is that of code written out. -/
theorem count_full_le (h : OnceInFull hash ms) : ms.count ⟨hash, false⟩ ≤ 1 := by
  rw [count_eq]
  -- Either there is no mark with the hash, or there is just the first.
  rcases h with hnone | ⟨n, hn⟩
  · simp [hnone]
  · simp [hn, List.count_replicate]

/-- All but one of the marks are those of code left out. -/
theorem count_collapsed (h : OnceInFull hash ms) :
    ms.count ⟨hash, true⟩ = ms.countP (·.hash = hash) - 1 := by
  rw [count_eq, List.countP_eq_length_filter]
  rcases h with hnone | ⟨n, hn⟩
  · simp [hnone]
  · simp [hn]

end OnceInFull

/-- The marks of a cell that is not remembered yet start with that of code written out. -/
theorem Tracks.onceInFull {printed printed' : Printed} {ms : List BlockMark}
    (h : Tracks printed ms printed') (hash : List Char)
    (hnew : ∀ d ∈ printed, d.toHex.toList ≠ hash) : OnceInFull hash ms := by
  -- Induction on the marks. Before the first mark with the hash the cell is not remembered.
  induction h with
  | nil => exact .inl rfl
  | @full _ _ d _ _ behind ih =>
    by_cases heq : d.toHex.toList = hash
    · -- The first mark with this hash: behind it the cell is remembered.
      subst heq
      obtain ⟨n, hn⟩ := behind.filter_of_mem d (by simp)
      exact .inr ⟨n, by simp [hn]⟩
    · have hrest := ih (by
        intro d' hd'
        rcases Std.HashSet.mem_insert.mp hd' with hd' | hd'
        · rwa [← eq_of_beq hd']
        · exact hnew d' hd')
      simpa [OnceInFull, heq] using hrest
  -- The cell of this mark is remembered, so it has another hash.
  | @collapsed _ _ d _ old _ ih =>
    have hrest := ih hnew
    simpa [OnceInFull, hnew d old] using hrest

/-! ## Lines that say something, and lines that do not -/

/-- The lines say what is remembered, each of them is a line, and braces are closed. -/
structure Tracked (printed : Printed) (ls : List Line) (printed' : Printed) : Prop where
  newline : ∀ l ∈ ls, '\n' ∉ l
  braced : Braced ls
  tracks : Tracks printed (marks ls) printed'

namespace Tracked

variable {printed between printed' : Printed} {ls ls' : List Line}

/-- Lines that follow one another say one after the other what is remembered. -/
theorem append (h : Tracked printed ls between) (h' : Tracked between ls' printed') :
    Tracked printed (ls ++ ls') printed' := by
  refine ⟨List.forall_mem_append.mpr ⟨h.newline, h'.newline⟩, h.braced.append h'.braced, ?_⟩
  rw [marks_append]
  exact h.tracks.append h'.tracks

/-- Setting lines in changes nothing of what they say. -/
theorem setIn (h : Tracked printed ls printed') (pad : Line) (hpad : ∀ ch ∈ pad, ch = ' ') :
    Tracked printed (Listing.setIn pad ls) printed' := by
  refine ⟨newline_setIn pad ls hpad h.newline, h.braced.setIn pad hpad, ?_⟩
  rw [marks_setIn pad ls hpad]
  exact h.tracks

end Tracked

/-- The lines say nothing. -/
structure Silent (ls : List Line) : Prop where
  newline : ∀ l ∈ ls, '\n' ∉ l
  marks_eq : marks ls = []

namespace Silent

variable {ls ls' : List Line}

/-- No lines say nothing. -/
theorem nil : Silent [] := ⟨by simp, rfl⟩

/-- A line without a mark says nothing. -/
theorem line (l : Line) (hnewline : '\n' ∉ l) (hmark : blockMark? l = none) : Silent [l] :=
  ⟨by simpa using hnewline, by simp [marks, hmark]⟩

/-- Silent lines that follow one another are silent. -/
theorem append (h : Silent ls) (h' : Silent ls') : Silent (ls ++ ls') :=
  ⟨List.forall_mem_append.mpr ⟨h.newline, h'.newline⟩, by simp [h.marks_eq, h'.marks_eq]⟩

theorem setIn (h : Silent ls) (pad : Line) (hpad : ∀ ch ∈ pad, ch = ' ') :
    Silent (Listing.setIn pad ls) :=
  ⟨newline_setIn pad ls hpad h.newline, by rw [marks_setIn pad ls hpad, h.marks_eq]⟩

/-- Behind them the same is remembered. -/
theorem tracked (h : Silent ls) (printed : Printed) : Tracked printed ls printed := by
  refine ⟨h.newline, .of_marks ls h.marks_eq, ?_⟩
  rw [h.marks_eq]
  exact .nil printed

end Silent

/-- An indentation step is blank. -/
theorem indentStep_blank : ∀ ch ∈ indentStep.toList, ch = ' ' := by
  simp [indentStep]

/-- Lines that are set in are indented. -/
theorem deeper_setIn (ls : List Line) : ∀ l ∈ setIn indentStep.toList ls, indent l ≠ [] := by
  intro l hl
  obtain ⟨l', _, rfl⟩ := List.mem_map.mp hl
  rw [indent_append _ _ indentStep_blank]
  simp [indentStep]

/-- A hash neither ends a line nor starts anything. -/
private theorem newline_not_mem_hash (c : Cell) : '\n' ∉ c.hash.toList := by
  intro hmem
  exact absurd (c.isHexDigit_hash _ hmem) (by decide)

/-- The opening of a cell is one line. -/
private theorem newline_not_mem_cellOpening (c : Cell) : '\n' ∉ cellOpening c := by
  simp [cellOpening, newline_not_mem_hash]

private theorem newline_not_mem_codeOpening (source : Option Cell) (collapsed : Bool) :
    '\n' ∉ codeOpening source collapsed := by
  cases source <;> cases collapsed <;> simp [codeOpening, newline_not_mem_hash, collapsedNote]

/-! ### Cells written out -/

/-- A line of raw bits has no brace, so it opens nothing. -/
private theorem silent_blob (bits : Bits) : Silent [(".blob " ++ bitsText bits).toList] := by
  have hplain := isPlain_bitsText bits
  -- A character of the line is one of the directive or one of the bits.
  have hchar (ch : Char) (hword : ch ∉ ".blob ".toList) (hbits : ch ∉ (bitsText bits).toList) :
      ch ∉ (".blob " ++ bitsText bits).toList := by
    rw [String.toList_append, List.mem_append]
    exact not_or.mpr ⟨hword, hbits⟩
  refine .line _ ?_ (blockMark?_none _ ?_)
  · exact hchar _ (by simp) fun hmem => (hplain _ hmem).1 rfl
  · exact hchar _ (by simp) fun hmem => (hplain _ hmem).2.1 rfl

/-- The lines of raw bits say nothing, whether there is one or none. -/
theorem silent_blobLines (bits : Bits) : Silent (blobLines bits) := by
  unfold blobLines
  split
  · exact .nil
  · exact silent_blob bits

/-- The opening of a cell is no opening of code. -/
theorem silent_openCell (c : Cell) : Silent [cellOpening c] :=
  .line _ (newline_not_mem_cellOpening c) (blockMark?_cellOpening [] c (by simp))

/-- A closing brace alone opens nothing. -/
theorem silent_closing : Silent [['\x7d']] :=
  .line _ (by simp) (blockMark?_none _ (by simp))

/-- Where a cell is written out no code opens. -/
theorem silent_literalLines (c : Cell) : Silent (literalLines c) := by
  -- Induction on the cell: its bits, and one braced cell for each reference.
  induction c with
  | data bits => exact silent_blobLines bits
  | link c ref ihc ihref =>
    exact ihc.append ((silent_openCell ref).append
      ((ihref.setIn _ indentStep_blank).append silent_closing))

/-! ### Codes -/

/-- The braces say what is remembered. -/
private structure TrackedBraces (printed : Printed) (b : Braces) (printed' : Printed) : Prop where
  sound : b.Sound
  tracks : Tracks printed b.marks printed'

/-- Braces that stand one after the other say one after the other what is remembered. -/
private theorem through_tracked {α : Type} {rel : Printed → α → Braces → Printed → Prop}
    {printed printed' : Printed} {as : List α} {bs : List Braces}
    (h : Through rel printed as bs printed')
    (hrel : ∀ printed a b printed', rel printed a b printed' → TrackedBraces printed b printed') :
    (∀ b ∈ bs, b.Sound) ∧ Tracks printed (bs.flatMap Braces.marks) printed' := by
  -- Induction on the braces: each takes up what was remembered before it.
  induction h with
  | nil printed => exact ⟨by simp, .nil printed⟩
  | cons first _ ih =>
    have hfirst := hrel _ _ _ _ first
    refine ⟨List.forall_mem_cons.mpr ⟨hfirst.sound, ih.1⟩, ?_⟩
    rw [List.flatMap_cons]
    exact hfirst.tracks.append ih.2

/-- What divides braces from what stands before them says nothing. -/
private theorem Braces.marks_behind (front : Line) (b : Braces) (hfront : IsPlain front) :
    (b.behind front).marks = b.marks := by
  simp only [Braces.marks, Braces.behind, Listing.marks, List.filterMap_cons,
    blockMark?_append front _ hfront]

/-- What stands before the cells among the operands. -/
private theorem isPlain_separator (i : Instruction CodeId) :
    IsPlain (if (inlineTexts i).isEmpty then [' '] else [',', ' ']) ∧ IsPlain [',', ' '] := by
  constructor
  · split <;> simp [IsPlain]
  · simp [IsPlain]

/-- What divides braces says nothing. -/
theorem marks_separated (i : Instruction CodeId) (bs : List Braces) :
    (separated i bs).flatMap Braces.marks = bs.flatMap Braces.marks := by
  obtain ⟨hfirst, hcomma⟩ := isPlain_separator i
  cases bs with
  | nil => rfl
  | cons b bs => simp only [separated, List.flatMap_cons, List.flatMap_map,
      Braces.marks_behind _ _ hfirst, Braces.marks_behind _ _ hcomma]

/-- Braces stay sound behind what divides them. -/
private theorem sound_separated (i : Instruction CodeId) (bs : List Braces)
    (h : ∀ b ∈ bs, b.Sound) : ∀ b ∈ separated i bs, b.Sound := by
  obtain ⟨hfirst, hcomma⟩ := isPlain_separator i
  cases bs with
  | nil => simp [separated]
  | cons b bs =>
    obtain ⟨hb, hbs⟩ := List.forall_mem_cons.mp h
    refine List.forall_mem_cons.mpr ⟨hb.behind b _ hfirst, ?_⟩
    intro b' hb'
    obtain ⟨b₀, hb₀, rfl⟩ := List.mem_map.mp hb'
    exact (hbs b₀ hb₀).behind b₀ _ hcomma

/-- Lines set in between braces. -/
private theorem Tracked.sound (printed printed' : Printed) (ls : List Line)
    (h : Tracked printed ls printed') (opening : Line) (hopening : '\n' ∉ opening)
    (hmark : ∀ hash, blockMark? opening ≠ some ⟨hash, true⟩) :
    Braces.Sound ⟨opening, Listing.setIn indentStep.toList ls⟩ where
  newline := List.forall_mem_cons.mpr ⟨hopening, (h.setIn _ indentStep_blank).newline⟩
  deeper := deeper_setIn ls
  braced := (h.setIn _ indentStep_blank).braced
  -- A collapsed mark would be that of the opening, which has none.
  collapsed := by
    intro m hm hcollapsed
    obtain ⟨hash, _⟩ := m
    subst hcollapsed
    exact absurd hm (hmark hash)

/-- A nested code is written out if its cell is new, and remembered. -/
private theorem blockLines_tracked (nested : Nested)
    (hnested : ∀ id printed ls printed', nested id printed ls printed' →
      Tracked printed ls printed')
    (printed : Printed) (block : CodeId × Option Cell) (b : Braces) (printed' : Printed)
    (h : BlockLines true nested printed block b printed') : TrackedBraces printed b printed' := by
  -- Code without a cell of its own has no mark. Otherwise the mark says whether the code is written
  -- out.
  cases h with
  | plain body =>
    have hbody := hnested _ _ _ _ body
    have hnone : blockMark? (codeOpening none false) = none :=
      blockMark?_none _ (by simp [codeOpening])
    exact ⟨hbody.sound _ _ _ _ (newline_not_mem_codeOpening none false) (by simp [hnone]),
      (hbody.setIn _ indentStep_blank).tracks⟩
  -- The cell is new: its mark comes first, then those of its body, while it is remembered.
  | @full _ _ c _ new body =>
    have hbody := hnested _ _ _ _ body
    have hmark := blockMark?_codeOpening c false
    refine ⟨hbody.sound _ _ _ _ (newline_not_mem_codeOpening (some c) false) (by simp [hmark]), ?_⟩
    rw [Braces.marks, marks, List.filterMap_cons, hmark]
    exact .full (fun hold => new ⟨rfl, hold⟩) (hbody.setIn _ indentStep_blank).tracks
  -- The cell is remembered, and only the opening is printed.
  | @collapsed _ c _ old =>
    have hopening := newline_not_mem_codeOpening (some c) true
    refine ⟨⟨by simpa using hopening, by simp, .nil, fun _ _ _ => rfl⟩, ?_⟩
    rw [Braces.marks, marks, List.filterMap_cons, blockMark?_codeOpening]
    exact .collapsed old (.nil _)

/-- Cells among the operands whose lines say what is remembered. -/
def CellTracked : CellLines := fun printed c b printed' =>
  ∃ ls, b = ⟨cellOpening c, setIn indentStep.toList ls⟩ ∧ Tracked printed ls printed'

/-- Braces of such a cell say what is remembered inside. -/
private theorem cellTracked_braces (printed : Printed) (c : Cell) (b : Braces) (printed' : Printed)
    (h : CellTracked printed c b printed') : TrackedBraces printed b printed' := by
  obtain ⟨ls, rfl, htracked⟩ := h
  have hnone : blockMark? (cellOpening c) = none := blockMark?_cellOpening [] c (by simp)
  refine ⟨htracked.sound _ _ _ _ (newline_not_mem_cellOpening c) (by simp [hnone]), ?_⟩
  rw [Braces.marks, marks, List.filterMap_cons, hnone]
  exact (htracked.setIn _ indentStep_blank).tracks

/-- The lines of a code say what is remembered, if those of its cells do. -/
theorem CodeLines.tracked (cellLines : Instruction CodeId → CellLines)
    (hcells : ∀ i printed c b printed', cellLines i printed c b printed' →
      CellTracked printed c b printed')
    (store : CodeStore) (hnamed : store.Named) (depth : Nat) (id : CodeId)
    (printed printed' : Printed) (ls : List Line)
    (h : CodeLines true cellLines store depth id printed ls printed') :
    Tracked printed ls printed' := by
  -- Induction on the depth of nested codes. At depth zero nothing is printed.
  induction depth generalizing id printed printed' ls with
  | zero =>
    obtain ⟨rfl, rfl⟩ := h
    exact Silent.nil.tracked _
  | succ depth ih =>
    obtain ⟨parts, hparts, rfl⟩ := h
    -- The instructions are printed one after the other, and each says what its cells and nested
    -- codes say.
    refine hparts.induct (motive := fun printed parts printed' =>
      Tracked printed parts.flatten printed') Silent.nil.tracked ?_
    intro i hi printed between printed' part parts hpart hrest
    obtain ⟨operands, codes⟩ := hpart
    obtain ⟨hcellSound, hcellMarks⟩ := through_tracked operands
      fun printed c b printed' h => cellTracked_braces printed c b printed' (hcells i _ _ _ _ h)
    obtain ⟨hblockSound, hblockMarks⟩ := through_tracked codes (blockLines_tracked _
      fun id printed ls printed' h => ih id printed printed' ls h)
    have hhead := isHead_head i (hnamed id i hi)
    have hsound := List.forall_mem_append.mpr ⟨sound_separated i _ hcellSound, hblockSound⟩
    -- The row of the instruction says nothing itself.
    refine Tracked.append ⟨?_, braced_rows _ hhead _ hsound, ?_⟩ hrest
    · exact newline_not_mem_rows _ _ (fun hmem => (hhead.plain _ hmem).1 rfl)
        fun b hb => (hsound b hb).newline
    · rw [marks_rows _ _ hhead.plain, List.flatMap_append, marks_separated]
      exact hcellMarks.append hblockMarks

/-! ### Jump tables -/

/-- Cells that are written out. -/
theorem literalPrinter_tracked (i : Instruction CodeId) (c : Cell) (pad text : String)
    (printed printed' : Printed) (h : (literalPrinter i c pad).run printed = (.ok text, printed')) :
    ∃ b, CellTracked printed c b printed' ∧ text.toList = b.text pad.toList := by
  -- A cell that is written out changes nothing of what is remembered.
  cases h
  exact ⟨literalBraces c, ⟨literalLines c, rfl, (silent_literalLines c).tracked printed⟩,
    literal_toList pad c⟩

/-- What printing in lines returns says what is remembered. -/
private def LinesTracked (x : Print String) (pad : String) : Prop :=
  ∀ printed text printed', x.run printed = (.ok text, printed') →
    ∃ ls, Tracked printed ls printed' ∧ text.toList = unlines (setIn pad.toList ls)

/-- How the code of a method opens. -/
private def methodOpening (key : Nat) : Line :=
  ['\x7b', ' ', ';', ';', ' ', 'm', 'e', 't', 'h', 'o', 'd', ' '] ++ key.repr.toList

/-- The code of a method stands behind the bits before it. -/
private theorem printMethod_tracked (m : JumpTable.Method) (c : Cell) (pad : String)
    (hpad : ∀ ch ∈ pad.toList, ch = ' ') (hnamed : m.store.Named) :
    LinesTracked (printMethod true m c pad) pad := by
  intro printed text printed' h
  -- First the bits before the method, then its opening, its code and the closing brace.
  obtain ⟨code, _, hcode, h⟩ := (Print.run_bind_eq_ok _ _ _ _ _).mp h
  cases h
  obtain ⟨ls, hls, htext⟩ := printCodeTo_lines true literalPrinter (fun _ => CellTracked) m.store _
    m.root _ code _ _ (indent_blank pad hpad)
    (fun _ i _ c _ pad _ printed text printed' =>
      literalPrinter_tracked i c pad text printed printed')
    hcode
  have hcodeTracked := (CodeLines.tracked _ (fun _ _ _ _ _ h => h) m.store hnamed _ _ _ _ _
    hls).setIn _ indentStep_blank
  -- The comment of a method is its key, not a hash.
  have hkey : IsPlain m.key.repr.toList := isPlain_integer m.key
  have hopening : Silent [methodOpening m.key] := by
    refine .line _ ?_ ?_
    · intro hmem
      simp only [methodOpening, List.mem_append] at hmem
      rcases hmem with hmem | hmem
      · simp at hmem
      · exact (hkey _ hmem).1 rfl
    · rfl
  have hopeningText : (toString "\x7b ;; method " ++ toString m.key ++ toString "\n").toList =
      methodOpening m.key ++ ['\n'] := by
    show ("\x7b ;; method " ++ m.key.repr ++ "\n").toList = _
    simp [methodOpening]
  -- Without bits in front of the method no line is printed for them.
  have hfront : ∃ front, Silent front ∧ (if m.offset = 0 then "" else
      pad ++ ".blob " ++ bitsText (c.bits.take m.offset) ++ "\n").toList =
        unlines (setIn pad.toList front) := by
    split
    · exact ⟨[], .nil, rfl⟩
    · exact ⟨[(".blob " ++ bitsText (c.bits.take m.offset)).toList],
        silent_blob (c.bits.take m.offset), by simp⟩
  obtain ⟨front, hfrontSilent, hfrontText⟩ := hfront
  refine ⟨front ++ (methodOpening m.key :: (setIn indentStep.toList ls ++ [['\x7d']])), ?_, ?_⟩
  · exact (hfrontSilent.tracked printed).append ((hopening.tracked printed).append
      (hcodeTracked.append (silent_closing.tracked _)))
  · rw [String.toList_append, ← setIn_setIn] at htext
    simp only [String.toList_append, hfrontText, hopeningText, htext]
    simp

/-- The methods of a jump table were loaded with proper names. -/
private def MethodsNamed (methods : JumpTable.Methods) : Prop :=
  ∀ path m, methods.get? path = some m → m.store.Named

/-- A cell in which no method stands, and the cells below it. -/
private theorem printNodeBody_tracked (methods : JumpTable.Methods)
    (hmethods : MethodsNamed methods) (c : Cell) (path : Path) (pad : String)
    (hpad : ∀ ch ∈ pad.toList, ch = ' ') :
    LinesTracked (printNodeBody true methods pad path c) pad := by
  -- Induction on the cell: the bits first, then the references in order.
  induction c generalizing path pad with
  | data bits =>
    intro printed text printed' h
    cases h
    exact ⟨blobLines bits, (silent_blobLines bits).tracked printed, blobLine_toList pad bits⟩
  | link c ref ihc ihref =>
    intro printed text printed' h
    obtain ⟨front, between, hfront, h⟩ := (Print.run_bind_eq_ok _ _ _ _ _).mp h
    obtain ⟨frontLines, hfrontLines, hfrontText⟩ := ihc path pad hpad _ _ _ hfront
    -- Behind the earlier references the last one stands in braces.
    have hlast (x : Print String) (hx : LinesTracked x (pad ++ indentStep))
        (h : (x >>= fun body => pure (front ++ pad ++ openCell ref ++ body ++ pad ++ "\x7d\n")).run
          between = (.ok text, printed')) :
        ∃ ls, Tracked printed ls printed' ∧ text.toList = unlines (setIn pad.toList ls) := by
      obtain ⟨body, between', hbody, h⟩ := (Print.run_bind_eq_ok _ _ _ _ _).mp h
      cases h
      obtain ⟨bodyLines, hbodyLines, hbodyText⟩ := hx _ _ _ hbody
      refine ⟨frontLines ++ (cellOpening ref ::
        (setIn indentStep.toList bodyLines ++ [['\x7d']])), ?_, ?_⟩
      · exact hfrontLines.append (((silent_openCell ref).tracked _).append
          ((hbodyLines.setIn _ indentStep_blank).append (silent_closing.tracked _)))
      · rw [String.toList_append, ← setIn_setIn] at hbodyText
        simp [hfrontText, openCell_toList, hbodyText]
    dsimp only at h
    -- A reference in which a method stands is printed as the method, and any other one as a cell.
    split at h
    · rename_i m hm
      exact hlast _ (printMethod_tracked m ref _ (indent_blank pad hpad) (hmethods _ m hm)) h
    · exact hlast _ (ihref _ _ (indent_blank pad hpad)) h

/-- A whole jump table. -/
private theorem printTable_tracked (methods : JumpTable.Methods) (hmethods : MethodsNamed methods)
    (c : Cell) (pad text : String) (hpad : ∀ ch ∈ pad.toList, ch = ' ') (printed printed' : Printed)
    (h : (printTable true c methods pad).run printed = (.ok text, printed')) :
    ∃ b, CellTracked printed c b printed' ∧ text.toList = b.text pad.toList := by
  -- The table is one braced cell, whatever is printed inside.
  have hbraces (x : Print String) (hx : LinesTracked x (pad ++ indentStep))
      (h : (x >>= fun body => pure (openCell c ++ body ++ pad ++ "\x7d")).run printed =
        (.ok text, printed')) :
      ∃ b, CellTracked printed c b printed' ∧ text.toList = b.text pad.toList := by
    obtain ⟨body, _, hbody, h⟩ := (Print.run_bind_eq_ok _ _ _ _ _).mp h
    cases h
    obtain ⟨ls, hls, htext⟩ := hx _ _ _ hbody
    refine ⟨⟨cellOpening c, setIn indentStep.toList ls⟩, ⟨ls, rfl, hls⟩, ?_⟩
    rw [String.toList_append, ← setIn_setIn] at htext
    simp [Braces.text, openCell_toList, htext]
  unfold printTable at h
  dsimp only at h
  split at h
  · rename_i m hm
    exact hbraces _ (printMethod_tracked m c _ (indent_blank pad hpad) (hmethods _ m hm)) h
  · exact hbraces _ (printNodeBody_tracked methods hmethods c _ _ (indent_blank pad hpad)) h

/-- Cells among the operands, those that are jump tables too. -/
theorem tablePrinter_tracked (i : Instruction CodeId) (c : Cell) (pad text : String)
    (hpad : ∀ ch ∈ pad.toList, ch = ' ') (printed printed' : Printed)
    (h : (tablePrinter true i c pad).run printed = (.ok text, printed')) :
    ∃ b, CellTracked printed c b printed' ∧ text.toList = b.text pad.toList := by
  unfold tablePrinter at h
  -- A cell of a jump table is printed as a table, if its methods can be marked. Every other cell is
  -- written out.
  split at h
  · split at h
    · cases h
    · split at h
      · cases h
      · rename_i methods hmark
        -- The methods that were marked were loaded, and loaded code has proper names.
        have hmethods : MethodsNamed methods := by
          intro path m hm
          have hmem := methods.mem_of_get? path m hm
          rw [← show (JumpTable.mark c _ []).1 = methods from congrArg Prod.fst hmark] at hmem
          obtain ⟨value, hload⟩ := JumpTable.mark_loaded c _ path m hmem
          exact loadCode_named value false _ _ hload
        exact printTable_tracked methods hmethods c pad text hpad printed printed' h
  · exact literalPrinter_tracked i c pad text printed printed' h

/-- A listing says which code is written out. -/
theorem printCode_tracked (store : CodeStore) (hnamed : store.Named) (id : CodeId)
    (pad text : String) (hpad : ∀ ch ∈ pad.toList, ch = ' ') (printed printed' : Printed)
    (h : (printCode true store id pad).run printed = (.ok text, printed')) :
    text.toList = unlines (lines text) ∧ Tracked printed (lines text) printed' := by
  -- The text consists of lines, and the lines of the code say what is remembered.
  obtain ⟨ls, hls, htext⟩ := printCodeTo_lines true (tablePrinter true) (fun _ => CellTracked) store
    _ id pad text printed printed' hpad
    (fun _ i _ c _ pad hpad printed text printed' =>
      tablePrinter_tracked i c pad text hpad printed printed') h
  have htracked := (CodeLines.tracked _ (fun _ _ _ _ _ h => h) store hnamed _ _ _ _ _
    hls).setIn _ hpad
  -- No line has a line break of its own, so the lines of the text are just these.
  rw [lines_of_unlines text _ htext htracked.newline]
  exact ⟨htext, htracked⟩

end Listing

end CellCode
