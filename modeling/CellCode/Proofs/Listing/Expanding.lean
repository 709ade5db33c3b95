import CellCode.Proofs.Listing.Lines
import Mathlib.Data.List.Forall2

/-!
# Filling in what a listing leaves out

Where a listing leaves code out, the hash on the line says what is missing: it is written out
behind the first line that has the same hash and no note. Filling it in, and then what was left out
of that, and so on, comes to an end in one way at most.

## Key results

- `Braced`: behind a line on which code opens the code stands, set in, and then a closing brace
- `fullBody?`, `HasBody`: the lines that stand for a hash in a listing
- `Expands`, `Expands.unique`: a listing with all that it leaves out filled in
- `Expands.rows`: what braces leave out is filled in between them
-/

namespace CellCode.Listing

/-! ## Code in braces -/

/-- Behind each line on which the code of a cell opens, this code stands in lines set in deeper, and
    behind it a closing brace stands below the line. If the code is left out, the brace is on the
    next line. -/
inductive Braced : List Line → Prop
  | nil : Braced []
  | line {ls : List Line} (l : Line) (mark : blockMark? l = none) (behind : Braced ls) :
      Braced (l :: ls)
  | block {body rest : List Line} {more : Line} (opened : Line) (m : BlockMark)
      (mark : blockMark? opened = some m) (deeper : ∀ l ∈ body, indent l ≠ [])
      (collapsed : m.collapsed = true → body = [])
      (behind : Braced (setIn (indent opened) body ++ (indent opened ++ '\x7d' :: more) :: rest)) :
      Braced (opened :: (setIn (indent opened) body ++ (indent opened ++ '\x7d' :: more) :: rest))

namespace Braced

variable {ls ls' : List Line}

/-- Two braced listings one behind the other are braced. -/
theorem append (h : Braced ls) (h' : Braced ls') : Braced (ls ++ ls') := by
  -- Induction on the first one; its blocks stay whole.
  induction h with
  | nil => exact h'
  | line l mark _ ih => exact .line l mark ih
  | block opened m mark deeper collapsed _ ih =>
    simp only [List.append_assoc, List.cons_append] at ih ⊢
    exact .block opened m mark deeper collapsed ih

/-- Setting in keeps braces with their code. -/
theorem setIn (h : Braced ls) (pad : Line) (hpad : ∀ ch ∈ pad, ch = ' ') :
    Braced (Listing.setIn pad ls) := by
  have hplain := isPlain_of_blank pad hpad
  induction h with
  | nil => exact .nil
  | line l mark _ ih => exact .line _ (by rwa [blockMark?_append pad l hplain]) ih
  -- The pad moves into the indentation of the line on which the code opens.
  | block opened m mark deeper collapsed _ ih =>
    have hopened := indent_append pad opened hpad
    simp only [setIn_append, setIn_cons, setIn_setIn, ← List.append_assoc pad, ← hopened] at ih ⊢
    exact .block _ m (by rwa [blockMark?_append pad opened hplain]) deeper collapsed ih

/-- Lines without hashes are braced, for no code opens on them. -/
theorem of_marks (ls : List Line) (h : marks ls = []) : Braced ls := by
  induction ls with
  | nil => exact .nil
  | cons l ls ih =>
    cases hl : blockMark? l with
    | none =>
      refine .line l hl (ih ?_)
      simpa [marks, hl] using h
    | some m => simp [marks, hl] at h

end Braced

/-- What stands in braces is made up of lines set in deeper, is braced itself, and is nothing if
    code is left out. -/
structure Braces.Sound (b : Braces) : Prop where
  newline : ∀ l ∈ b.opening :: b.inner, '\n' ∉ l
  deeper : ∀ l ∈ b.inner, indent l ≠ []
  braced : Braced b.inner
  collapsed : ∀ m, blockMark? b.opening = some m → m.collapsed = true → b.inner = []

/-- Braces stay sound behind a front without marks. -/
theorem Braces.Sound.behind (b : Braces) (h : b.Sound) (front : Line) (hfront : IsPlain front) :
    (b.behind front).Sound := by
  obtain ⟨hopening, hinner⟩ := List.forall_mem_cons.mp h.newline
  have hnewline : '\n' ∉ front := fun hmem => (hfront _ hmem).1 rfl
  refine ⟨List.forall_mem_cons.mpr ⟨?_, hinner⟩, h.deeper, h.braced, ?_⟩
  · simp [Braces.behind, hnewline, hopening]
  · intro m hm
    rw [Braces.behind, blockMark?_append front b.opening hfront] at hm
    exact h.collapsed m hm

/-- A row of sound braces is braced. -/
theorem braced_rows (row : Line) (hrow : IsHead row) (bs : List Braces) (h : ∀ b ∈ bs, b.Sound) :
    Braced (rows row bs) := by
  -- Induction on the braces; each closing brace starts the row of those behind it.
  induction bs generalizing row with
  | nil => exact .line row (blockMark?_none row fun hmem => (hrow.plain _ hmem).2.1 rfl) .nil
  | cons b bs ih =>
    have hb := h b (by simp)
    have hinner := hb.braced.append (ih ['\x7d'] isHead_closing fun b hb => h b (by simp [hb]))
    have hopened := blockMark?_append row b.opening hrow.plain
    rw [rows]
    cases hmark : blockMark? b.opening with
    | none => exact .line _ (by rw [hopened, hmark]) hinner
    | some m =>
      -- The next line behind the braces starts with the closing one.
      obtain ⟨more, rest, hnext⟩ := rows_eq_cons ['\x7d'] bs
      rw [hnext] at hinner ⊢
      have hblock := @Braced.block b.inner rest more (row ++ b.opening) m
        (by rw [hopened, hmark]) hb.deeper (hb.collapsed m hmark)
      rw [hrow.indent_eq, setIn_none] at hblock
      exact hblock hinner

/-! ## What stands for a hash -/

/-- The lines that stand for a hash in a listing: those behind the first line with this hash and
    without a note, as long as they are set in deeper, and as they are behind its indentation. -/
def fullBody? : List Line → List Char → Option (List Line)
  | [], _ => none
  | l :: ls, hash =>
    if blockMark? l = some ⟨hash, false⟩ then
      some ((ls.takeWhile fun inner => (indent l).length < (indent inner).length).map
        (·.drop (indent l).length))
    else fullBody? ls hash

/-- The code of a hash is written out among the lines as this body. -/
inductive HasBody (hash : List Char) (body : List Line) : List Line → Prop
  | intro (before : List Line) (opened closed : Line) (after : List Line)
      (mark : blockMark? opened = some ⟨hash, false⟩) (deeper : ∀ l ∈ body, indent l ≠ [])
      (back : indent closed = indent opened) :
      HasBody hash body (before ++ opened :: (setIn (indent opened) body ++ closed :: after))

namespace HasBody

variable {hash : List Char} {body ls : List Line}

/-- More lines around it leave the body where it is. -/
theorem append (h : HasBody hash body ls) (front back : List Line) :
    HasBody hash body (front ++ (ls ++ back)) := by
  cases h with
  | intro before opened closed after mark deeper hback =>
    have hall := HasBody.intro (front ++ before) opened closed (after ++ back) mark deeper hback
    simpa using hall

/-- Setting in leaves the body as it is behind the indentation. -/
theorem setIn (h : HasBody hash body ls) (pad : Line) (hpad : ∀ ch ∈ pad, ch = ' ') :
    HasBody hash body (Listing.setIn pad ls) := by
  cases h with
  | intro before opened closed after mark deeper back =>
    have hopened := indent_append pad opened hpad
    have hclosed := indent_append pad closed hpad
    have hall := HasBody.intro (Listing.setIn pad before) (pad ++ opened) (pad ++ closed)
      (Listing.setIn pad after)
      (by rwa [blockMark?_append pad opened (isPlain_of_blank pad hpad)]) deeper
      (by rw [hopened, hclosed, back])
    rw [hopened, ← setIn_setIn] at hall
    simpa using hall

/-- The body is found if no other line with this hash is without a note. -/
theorem fullBody? (h : HasBody hash body ls) (honce : (marks ls).count ⟨hash, false⟩ ≤ 1) :
    Listing.fullBody? ls hash = some body := by
  cases h with
  | intro before opened closed after mark deeper back =>
    induction before with
    | nil =>
      -- The body is set in deeper than the line, and the closing brace is not.
      have hinner : ∀ l ∈ Listing.setIn (indent opened) body,
          decide ((indent opened).length < (indent l).length) = true := by
        intro l hl
        obtain ⟨l', hl', rfl⟩ := List.mem_map.mp hl
        have hpos := List.length_pos_iff.mpr (deeper l' hl')
        rw [indent_append _ _ (blank_of_indent opened), List.length_append, decide_eq_true_iff]
        omega
      rw [List.nil_append, Listing.fullBody?, if_pos mark, List.takeWhile_append_of_pos hinner,
        List.takeWhile_cons_of_neg (by simp [back]), List.append_nil, Listing.setIn, List.map_map]
      simp [Function.comp_def]
    | cons l before ih =>
      -- The line is another one, since the mark does not occur twice.
      have hother : blockMark? l ≠ some ⟨hash, false⟩ := by
        intro hl
        simp [marks, hl, mark] at honce
      rw [List.cons_append, Listing.fullBody?, if_neg hother]
      refine ih ?_
      simp only [marks, List.cons_append, List.filterMap_cons] at honce ⊢
      cases hl : blockMark? l with
      | none => simpa [hl] using honce
      | some m =>
        simp only [hl, List.count_cons] at honce
        omega

end HasBody

/-! ## Filling in what is left out -/

/-- The second listing is the first one with all that it leaves out filled in. The body that stands
    for a hash may leave out something itself; what it becomes is set in like the line on which the
    code opens. -/
inductive Expands (body? : List Char → Option (List Line)) : List Line → List Line → Prop
  | nil : Expands body? [] []
  | keep {ls ls' : List Line} (l : Line) (mark : ∀ hash, blockMark? l ≠ some ⟨hash, true⟩)
      (behind : Expands body? ls ls') : Expands body? (l :: ls) (l :: ls')
  | fill {ls ls' body whole : List Line} (opened : Line) (hash : List Char)
      (mark : blockMark? (opened ++ collapsedNote) = some ⟨hash, true⟩)
      (found : body? hash = some body) (inside : Expands body? body whole)
      (behind : Expands body? ls ls') :
      Expands body? ((opened ++ collapsedNote) :: ls)
        (opened :: (setIn (indent opened) whole ++ ls'))

namespace Expands

variable {body? : List Char → Option (List Line)} {ls ls' : List Line}

/-- There is one way to fill in what is left out. -/
theorem unique {whole whole' : List Line} (h : Expands body? ls whole)
    (h' : Expands body? ls whole') : whole = whole' := by
  induction h generalizing whole' with
  | nil =>
    cases h'
    rfl
  | keep l mark _ ih =>
    cases h' with
    | keep _ _ behind => rw [ih behind]
    | fill opened hash mark' => exact absurd mark' (mark hash)
  | @fill ls _ body _ opened hash mark found _ _ ihinside ihbehind =>
    -- The line has one mark, and one body stands for the hash.
    generalize hline : (opened ++ collapsedNote) :: ls = all at h'
    cases h' with
    | nil => cases hline
    | keep l mark' =>
      obtain ⟨rfl, _⟩ := List.cons.inj hline
      exact absurd mark (mark' hash)
    | @fill _ _ body' _ opened' hash' mark' found' inside' behind' =>
      obtain ⟨hopened, rfl⟩ := List.cons.inj hline
      obtain rfl := List.append_cancel_right hopened
      rw [mark] at mark'
      obtain rfl : hash = hash' := by simpa using mark'
      obtain rfl : body = body' := Option.some.inj (found.symm.trans found')
      rw [ihinside inside', ihbehind behind']

/-- Listings are filled in one behind the other. -/
theorem append {more more' : List Line} (h : Expands body? ls ls')
    (hmore : Expands body? more more') : Expands body? (ls ++ more) (ls' ++ more') := by
  induction h with
  | nil => exact hmore
  | keep l mark _ ih => exact .keep l mark ih
  | fill opened hash mark found inside _ _ ih =>
    simpa using fill opened hash mark found inside ih

/-- Lines that leave out nothing stay as they are. -/
theorem of_marks (ls : List Line) (h : marks ls = []) : Expands body? ls ls := by
  induction ls with
  | nil => exact .nil
  | cons l ls ih =>
    cases hl : blockMark? l with
    | none =>
      refine .keep l (by simp [hl]) (ih ?_)
      simpa [marks, hl] using h
    | some m => simp [marks, hl] at h

/-- What is filled in is set in as the listing is. -/
theorem setIn (h : Expands body? ls ls') (pad : Line) (hpad : ∀ ch ∈ pad, ch = ' ') :
    Expands body? (Listing.setIn pad ls) (Listing.setIn pad ls') := by
  have hplain := isPlain_of_blank pad hpad
  induction h with
  | nil => exact .nil
  | keep l mark _ ih =>
    refine .keep (pad ++ l) ?_ ih
    rwa [blockMark?_append pad l hplain]
  -- The body is set in as far as its line, and with the line by the pad.
  | fill opened hash mark found inside _ _ ih =>
    have hfill := fill (pad ++ opened) hash
      (by rwa [List.append_assoc, blockMark?_append pad _ hplain]) found inside ih
    rw [indent_append pad opened hpad, ← setIn_setIn] at hfill
    simpa using hfill

/-- Lines are filled in with lines. -/
theorem newline (h : Expands body? ls ls')
    (hbody : ∀ hash body, body? hash = some body → ∀ l ∈ body, '\n' ∉ l)
    (hls : ∀ l ∈ ls, '\n' ∉ l) : ∀ l ∈ ls', '\n' ∉ l := by
  induction h with
  | nil => exact hls
  | keep l _ _ ih =>
    obtain ⟨hl, hls⟩ := List.forall_mem_cons.mp hls
    exact List.forall_mem_cons.mpr ⟨hl, ih hls⟩
  | fill opened hash _ found _ _ ihinside ihbehind =>
    obtain ⟨hl, hls⟩ := List.forall_mem_cons.mp hls
    have hopened : '\n' ∉ opened := fun hmem => hl (by simp [hmem])
    refine List.forall_mem_cons.mpr ⟨hopened, List.forall_mem_append.mpr ⟨?_, ihbehind hls⟩⟩
    exact newline_setIn _ _ (blank_of_indent opened) (ihinside (hbody hash _ found))

end Expands

/-- The body is that in the braces, or it is written out there. -/
def Braces.Has (hash : List Char) (body : List Line) (b : Braces) : Prop :=
  (blockMark? b.opening = some ⟨hash, false⟩ ∧ b.inner = body ∧ ∀ l ∈ body, indent l ≠ []) ∨
    HasBody hash body b.inner

/-- What stands in braces, or was written out in them, is written out in their row. -/
theorem hasBody_rows (hash : List Char) (body : List Line) (row : Line) (hrow : IsHead row)
    (bs : List Braces) (b : Braces) (hb : b ∈ bs) (h : b.Has hash body) :
    HasBody hash body (rows row bs) := by
  -- Induction on the braces in front of these.
  induction bs generalizing row with
  | nil => cases hb
  | cons first bs ih =>
    rcases List.mem_cons.mp hb with rfl | hb
    · rcases h with ⟨mark, rfl, deeper⟩ | hinner
      · -- The body ends where the next line starts with a closing brace.
        obtain ⟨more, after, hmore⟩ := rows_eq_cons ['\x7d'] bs
        have hall := HasBody.intro [] (row ++ b.opening) (['\x7d'] ++ more) after
          (by rwa [blockMark?_append row _ hrow.plain]) deeper
          (by rw [hrow.indent_eq, isHead_closing.indent_eq])
        rw [hrow.indent_eq, setIn_none] at hall
        rw [rows, hmore]
        exact hall
      · exact hinner.append [row ++ b.opening] (rows ['\x7d'] bs)
    · have hrest := (ih ['\x7d'] isHead_closing hb).append
        ((row ++ first.opening) :: first.inner) []
      simpa [rows] using hrest

/-- What the braces leave out is filled in, and what is left out between them. -/
inductive Braces.Expands (body? : List Char → Option (List Line)) : Braces → Braces → Prop
  | keep {inner inner' : List Line} (opening : Line)
      (mark : ∀ hash, blockMark? opening ≠ some ⟨hash, true⟩)
      (inside : Listing.Expands body? inner inner') :
      Expands body? ⟨opening, inner⟩ ⟨opening, inner'⟩
  | fill {body whole : List Line} (opened : Line) (hash : List Char)
      (mark : blockMark? (opened ++ collapsedNote) = some ⟨hash, true⟩)
      (found : body? hash = some body) (inside : Listing.Expands body? body whole) :
      Expands body? ⟨opened ++ collapsedNote, []⟩ ⟨opened, whole⟩

variable {body? : List Char → Option (List Line)}

/-- Braces that leave out nothing stay as they are. -/
theorem Braces.Expands.of_marks (b : Braces) (h : b.marks = []) : b.Expands body? b := by
  cases hopening : blockMark? b.opening with
  | none =>
    refine .keep b.opening (by simp [hopening]) (.of_marks _ ?_)
    simpa [Braces.marks, Listing.marks, hopening] using h
  | some m => simp [Braces.marks, Listing.marks, hopening] at h

/-- What braces leave out is filled in between them in their row. -/
theorem Expands.rows (row : Line) (hrow : IsHead row) (bs bs' : List Braces)
    (h : List.Forall₂ (Braces.Expands body?) bs bs') :
    Expands body? (Listing.rows row bs) (Listing.rows row bs') := by
  -- Induction on the row, with its first line along.
  induction h generalizing row with
  | nil =>
    refine .keep row ?_ .nil
    rw [blockMark?_none row fun hmem => (hrow.plain _ hmem).2.1 rfl]
    simp
  | cons hb _ ih =>
    have hrest := ih ['\x7d'] isHead_closing
    cases hb with
    | keep opening mark inside =>
      refine .keep (row ++ opening) ?_ (inside.append hrest)
      rwa [blockMark?_append row _ hrow.plain]
    | fill opened hash mark found inside =>
      have hfill := Expands.fill (row ++ opened) hash
        (by rwa [List.append_assoc, blockMark?_append row _ hrow.plain]) found inside hrest
      rw [hrow.indent_eq, setIn_none] at hfill
      simpa [Listing.rows] using hfill

end CellCode.Listing
