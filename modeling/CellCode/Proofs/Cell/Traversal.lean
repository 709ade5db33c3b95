import CellCode.Proofs.Cell.ParentsFirst

/-!
# Walking without recursion

The cells below some roots can be listed in a loop. A stack holds the cells that were entered and
not left yet, each with the references that are still to be looked at; a cell is marked as soon as
it is put on the stack, and it is listed when it is taken off. The cells below one root can be
counted by a loop of its own, which marks a cell only when it is taken off and looks at the last
reference first.

`Traversal` and `Tally` are these loops, one step at a time. What is still to be looked at becomes
less with each step, so both end; the first lists the cells as `parentsFirst` does, and the second
marks as many digests as there are cells in that list.

## Key results

- `runLoop_of_measure`: a loop ends if each of its steps leaves less to do
- `Traversal.step_keeps`: a step leaves less to do, and what the whole comes to is the same
- `Traversal.run_of_measure`: a whole run lists what is left to be listed
- `Tally.step_keeps`, `Tally.run_of_measure`: the same for counting
- `parentsFirst_exact`: each cell once, parents first, found in the loop and counted in the other
-/

namespace CellCode.Cell

/-! ## Loops -/

section Loop

variable {σ : Type} (step : σ → Option σ)

/-- The state in which a loop ends, if it does so within `n` steps. -/
def runLoop : Nat → σ → Option σ
  | 0, _ => none
  | n + 1, s =>
    match step s with
    | none => some s
    | some s => runLoop n s

/-- A loop ends if each step leaves less to do, and what each step keeps is true in the end. -/
theorem runLoop_of_measure (measure : σ → Nat) (keeps : σ → Prop)
    (hstep : ∀ s s', keeps s → step s = some s' → measure s' < measure s ∧ keeps s')
    (n : Nat) (s : σ) (hs : keeps s) (hn : measure s < n) :
    ∃ last, runLoop step n s = some last ∧ keeps last ∧ step last = none := by
  -- Induction on the number of steps allowed.
  induction n generalizing s with
  | zero => omega
  | succ n ih =>
    rw [runLoop]
    cases hnext : step s with
    | none => exact ⟨s, rfl, hs, hnext⟩
    | some s' =>
      obtain ⟨hless, hs'⟩ := hstep s s' hs hnext
      exact ih s' hs' (by omega)

/-- A loop ends with what it comes to, if each step leaves less to do and comes to the same. -/
theorem runLoop_eq_outcome {τ : Type} (measure : σ → Nat) (outcome result : σ → τ)
    (hstep : ∀ s s', step s = some s' → measure s' < measure s ∧ outcome s' = outcome s)
    (hend : ∀ s, step s = none → outcome s = result s) (n : Nat) (s : σ) (hn : measure s < n) :
    (runLoop step n s).map result = some (outcome s) := by
  -- The outcome is what each step keeps, so it is that of the last state.
  have hkeeps (t t' : σ) (ht : outcome t = outcome s) (hnext : step t = some t') :
      measure t' < measure t ∧ outcome t' = outcome s := by
    obtain ⟨hless, hsame⟩ := hstep t t' hnext
    exact ⟨hless, hsame.trans ht⟩
  obtain ⟨last, hrun, houtcome, hlast⟩ := runLoop_of_measure step measure _ hkeeps n s rfl hn
  rw [hrun, ← houtcome, hend last hlast]
  rfl

end Loop

/-! ## Listing in a loop -/

/-- A cell that was entered and not left yet. -/
structure Frame where
  cell : Cell
  /-- The references that are still to be looked at. -/
  pending : List Cell

/-- A walk between two steps: what it has met and left, the cells entered, the innermost first,
    and the roots that are still to be looked at. -/
structure Traversal where
  walk : Walk
  entered : List Frame
  roots : List Cell

namespace Traversal

/-- A walk that has all roots before it. -/
def start (roots : List Cell) : Traversal := ⟨.start, [], roots⟩

/-- Enters a cell that was met for the first time. -/
def enter (t : Traversal) (c : Cell) : Traversal :=
  { t with walk := t.walk.enter c, entered := ⟨c, c.refs⟩ :: t.entered }

/-- One step: the next reference of the innermost cell is looked at, the cell is left when it has
    no more of them, and the next root is taken up when no cell is entered. -/
def step (t : Traversal) : Option Traversal :=
  match t.entered, t.roots with
  | ⟨c, []⟩ :: entered, _ => some { t with walk := t.walk.leave c, entered := entered }
  | ⟨c, r :: pending⟩ :: entered, _ =>
    let rest := { t with entered := ⟨c, pending⟩ :: entered }
    some (if t.walk.seen.contains r.digest then rest else rest.enter r)
  | [], root :: roots =>
    let rest := { t with roots := roots }
    some (if t.walk.seen.contains root.digest then rest else rest.enter root)
  | [], [] => none

/-- The cells listed, if the walk ends within `n` steps. -/
def run (n : Nat) (t : Traversal) : Option (List Cell) :=
  (runLoop step n t).map fun last => last.walk.order

/-- What is still to be looked at. Entering a cell takes it off and puts its references on, which
    are smaller together; the other step is the one that leaves the cell. -/
def Frame.measure (f : Frame) : Nat := 2 * (f.pending.map size).sum + 1

/-- What is left to do. -/
def measure (t : Traversal) : Nat :=
  (t.entered.map Frame.measure).sum + 2 * (t.roots.map size).sum

/-- The walk that has looked at the references of an entered cell and left it. -/
def finish (w : Walk) (f : Frame) : Walk := (f.pending.foldl Walk.visit w).leave f.cell

/-- What the walk comes to: the cells entered are left from the innermost on, and then the roots
    are visited. -/
def outcome (t : Traversal) : Walk := t.roots.foldl Walk.visit (t.entered.foldl finish t.walk)

/-! ## One step -/

/-- A cell is visited in place, or entered when it was not met before. -/
theorem outcome_visit (t : Traversal) (c : Cell) :
    (if t.walk.seen.contains c.digest then t else t.enter c).outcome =
      { t with walk := t.walk.visit c }.outcome := by
  -- Marked cells are passed over in both.
  by_cases hseen : c.digest ∈ t.walk.seen
  · rw [if_pos (Std.HashSet.mem_iff_contains.mp hseen), Walk.visit_of_seen _ _ hseen]
  · rw [if_neg fun h => hseen (Std.HashSet.mem_iff_contains.mpr h), Walk.visit_of_new _ _ hseen]
    rfl

/-- Visiting a cell leaves less to do than there was with the cell. -/
theorem measure_visit (t : Traversal) (c : Cell) :
    (if t.walk.seen.contains c.digest then t else t.enter c).measure < t.measure + 2 * c.size := by
  -- The references together are smaller than the cell, and the frame that is entered counts once.
  have hpos := c.size_pos
  have hsize := c.size_eq
  split
  · omega
  · simp only [measure, enter, Frame.measure, List.map_cons, List.sum_cons]
    omega

/-- A step leaves less to do and comes to the same; without a step nothing is left. -/
theorem step_keeps (t : Traversal) :
    match t.step with
    | some t' => t'.measure < t.measure ∧ t'.outcome = t.outcome
    | none => t.outcome = t.walk := by
  obtain ⟨walk, entered, roots⟩ := t
  -- The cases are those of a step: a cell is left, a reference is met, or a root is.
  cases entered with
  | cons f entered =>
    obtain ⟨c, pending⟩ := f
    cases pending with
    -- The innermost cell has no reference left, so it is left.
    | nil =>
      refine ⟨?_, rfl⟩
      simp [measure, Frame.measure]
    -- The next reference of the innermost cell is met.
    | cons r pending =>
      have hless := measure_visit ⟨walk, ⟨c, pending⟩ :: entered, roots⟩ r
      refine ⟨?_, outcome_visit ⟨walk, ⟨c, pending⟩ :: entered, roots⟩ r⟩
      simp only [measure, Frame.measure, List.map_cons, List.sum_cons] at hless ⊢
      omega
  | nil =>
    cases roots with
    | nil => rfl
    -- No cell is entered, so the next root is met.
    | cons root roots =>
      have hless := measure_visit ⟨walk, [], roots⟩ root
      refine ⟨?_, outcome_visit ⟨walk, [], roots⟩ root⟩
      simp only [measure, List.map_cons, List.sum_cons] at hless ⊢
      omega

/-! ## A whole run -/

/-- After more steps than the measure allows the walk has ended, with what it comes to. -/
theorem run_of_measure (n : Nat) (t : Traversal) (hn : t.measure < n) :
    t.run n = some t.outcome.order := by
  have hwalk := runLoop_eq_outcome step measure outcome walk
    (fun s s' hnext => by simpa only [hnext] using s.step_keeps)
    (fun s hend => by simpa only [hend] using s.step_keeps) n t hn
  -- The run returns the order of the walk that has ended.
  obtain ⟨last, hrun, hlast⟩ := Option.map_eq_some_iff.mp hwalk
  rw [run, hrun, ← hlast]
  rfl

end Traversal

/-! ## Counting in a loop -/

/-- A count between two steps: the digests marked, and the cells that are still to be looked at,
    the next one first. -/
structure Tally where
  seen : Std.HashSet Digest
  pending : List Cell

namespace Tally

/-- A count that has looked at nothing. -/
def start (root : Cell) : Tally := ⟨∅, [root]⟩

/-- One step: the cell in front is marked, and its references come to the front, the last one
    first. A cell whose digest is marked is passed over. -/
def step (t : Tally) : Option Tally :=
  match t.pending with
  | [] => none
  | c :: pending =>
    some (if t.seen.contains c.digest then { t with pending := pending }
      else ⟨t.seen.insert c.digest, c.refs.reverse ++ pending⟩)

/-- The number of digests marked, if the count ends within `n` steps. -/
def run (n : Nat) (t : Tally) : Option Nat := (runLoop step n t).map fun last => last.seen.size

/-- What is left to do. -/
def measure (t : Tally) : Nat := (t.pending.map size).sum

/-- The cell was marked or is still to be looked at. -/
def Covers (t : Tally) (c : Cell) : Prop := c.digest ∈ t.seen ∨ c ∈ t.pending

/-- Only cells below the root are marked or to be looked at, and nothing that hangs below a marked
    cell was forgotten. -/
structure Inv (root : Cell) (t : Tally) : Prop where
  pending : ∀ c ∈ t.pending, root.Reaches c
  marked : ∀ d ∈ t.seen, ∃ c, root.Reaches c ∧ c.digest = d
  top : t.Covers root
  closed : ∀ c, root.Reaches c → c.digest ∈ t.seen → ∀ r ∈ c.refs, t.Covers r

variable {root : Cell}

/-- At the start the root is the one cell to be looked at. -/
theorem inv_start (root : Cell) : (start root).Inv root where
  pending := by
    intro c hc
    obtain rfl := List.mem_singleton.mp hc
    exact .self c
  marked := by simp [start]
  top := .inr (List.mem_singleton_self root)
  closed := by simp [start]

/-- Passing over a cell whose digest is marked. -/
theorem Inv.pass {t : Tally} {c : Cell} {pending : List Cell} (h : t.Inv root)
    (hpending : t.pending = c :: pending) (hseen : c.digest ∈ t.seen) :
    ({ t with pending := pending } : Tally).Inv root := by
  -- The cell that is passed over stays covered, since its digest is marked.
  have hcovers (d : Cell) (hd : t.Covers d) : ({ t with pending := pending } : Tally).Covers d := by
    rcases hd with hd | hd
    · exact .inl hd
    · rw [hpending] at hd
      rcases List.mem_cons.mp hd with rfl | hd
      · exact .inl hseen
      · exact .inr hd
  refine ⟨?_, h.marked, hcovers root h.top, ?_⟩
  · intro d hd
    apply h.pending
    rw [hpending]
    exact List.mem_cons_of_mem _ hd
  · intro d hreaches hd r hr
    exact hcovers r (h.closed d hreaches hd r hr)

/-- Marking a cell whose digest is new. -/
theorem Inv.mark {t : Tally} {c : Cell} {pending : List Cell} (h : t.Inv root)
    (distinct : root.DistinctDigests) (hpending : t.pending = c :: pending) :
    (Tally.mk (t.seen.insert c.digest) (c.refs.reverse ++ pending)).Inv root := by
  have hc : root.Reaches c := by
    apply h.pending
    rw [hpending]
    exact List.mem_cons_self ..
  -- The cell that is taken off is marked now, and all others are covered as before.
  have hcovers (d : Cell) (hd : t.Covers d) :
      (Tally.mk (t.seen.insert c.digest) (c.refs.reverse ++ pending)).Covers d := by
    rcases hd with hd | hd
    · exact .inl (Std.HashSet.mem_insert.mpr (.inr hd))
    · rw [hpending] at hd
      rcases List.mem_cons.mp hd with rfl | hd
      · exact .inl Std.HashSet.mem_insert_self
      · exact .inr (List.mem_append_right _ hd)
  refine ⟨?_, ?_, hcovers root h.top, ?_⟩
  · -- The references that come to the front are below the root as their cell is.
    intro d hd
    rcases List.mem_append.mp hd with hd | hd
    · exact hc.refs d (List.mem_reverse.mp hd)
    · apply h.pending
      rw [hpending]
      exact List.mem_cons_of_mem _ hd
  · intro d hd
    rcases Std.HashSet.mem_insert.mp hd with hd | hd
    · exact ⟨c, hc, eq_of_beq hd⟩
    · exact h.marked d hd
  · intro d hreaches hd r hr
    rcases Std.HashSet.mem_insert.mp hd with hd | hd
    · -- The only cell with this digest is the one that is marked, and its references come to
      -- the front.
      obtain rfl := distinct c d hc hreaches (eq_of_beq hd)
      exact .inr (List.mem_append_left _ (List.mem_reverse.mpr hr))
    · exact hcovers r (h.closed d hreaches hd r hr)

/-- A step passes over a cell whose digest is marked. -/
theorem step_of_seen (seen : Std.HashSet Digest) (c : Cell) (pending : List Cell)
    (h : c.digest ∈ seen) : step ⟨seen, c :: pending⟩ = some ⟨seen, pending⟩ := by
  simp only [step, if_pos (Std.HashSet.mem_iff_contains.mp h)]

/-- A step marks a cell whose digest is new. -/
theorem step_of_new (seen : Std.HashSet Digest) (c : Cell) (pending : List Cell)
    (h : c.digest ∉ seen) :
    step ⟨seen, c :: pending⟩ = some ⟨seen.insert c.digest, c.refs.reverse ++ pending⟩ := by
  simp only [step, if_neg fun hcontains => h (Std.HashSet.mem_iff_contains.mpr hcontains)]

/-- A step leaves less to do and keeps what was found; without a step nothing is left. -/
theorem step_keeps (t : Tally) (distinct : root.DistinctDigests) (h : t.Inv root) :
    match t.step with
    | some t' => t'.measure < t.measure ∧ t'.Inv root
    | none => t.pending = [] := by
  obtain ⟨seen, pending⟩ := t
  cases pending with
  -- Without a cell that is to be looked at there is no step.
  | nil => rfl
  | cons c pending =>
    have hpos := c.size_pos
    have hsize := c.size_eq
    by_cases hseen : c.digest ∈ seen
    · rw [step_of_seen seen c pending hseen]
      -- The cell is taken off the stack, and a cell has a size.
      refine ⟨?_, h.pass rfl hseen⟩
      simp only [measure, List.map_cons, List.sum_cons]
      omega
    · rw [step_of_new seen c pending hseen]
      -- The cell makes room for its references, which are smaller together.
      refine ⟨?_, h.mark distinct rfl⟩
      simp only [measure, List.map_append, List.map_reverse, List.sum_append, List.sum_reverse,
        List.map_cons, List.sum_cons]
      omega

/-- When nothing is left to be looked at, the cells below the root are marked and no others. -/
theorem Inv.mem_seen {t : Tally} (h : t.Inv root) (hpending : t.pending = []) (d : Digest) :
    d ∈ t.seen ↔ ∃ c, root.Reaches c ∧ c.digest = d := by
  -- Nothing is to be looked at, so to be covered is to be marked.
  have hcovers (c : Cell) (hc : t.Covers c) : c.digest ∈ t.seen := by
    rcases hc with hc | hc
    · exact hc
    · rw [hpending] at hc
      cases hc
  -- What hangs below a marked cell is marked.
  have hbelow (a c : Cell) (hreaches : a.Reaches c) (ha : root.Reaches a)
      (hseen : a.digest ∈ t.seen) : c.digest ∈ t.seen := by
    induction hreaches with
    | self => exact hseen
    | ref hr _ ih => exact ih (ha.refs _ hr) (hcovers _ (h.closed _ ha hseen _ hr))
  -- The marks are those of cells below the root, and the root is covered.
  constructor
  · exact h.marked d
  · rintro ⟨c, hc, rfl⟩
    exact hbelow root c hc (.self root) (hcovers root h.top)

/-- After more steps than the measure allows the count has ended, with the number of digests below
    the root. -/
theorem run_of_measure (n : Nat) (t : Tally) (distinct : root.DistinctDigests) (h : t.Inv root)
    (hn : t.measure < n) :
    ∃ seen : Std.HashSet Digest, t.run n = some seen.size ∧
      ∀ d, d ∈ seen ↔ ∃ c, root.Reaches c ∧ c.digest = d := by
  have hstep (s s' : Tally) (hs : s.Inv root) (hnext : s.step = some s') :
      s'.measure < s.measure ∧ s'.Inv root := by
    have hkeeps := s.step_keeps distinct hs
    rwa [hnext] at hkeeps
  obtain ⟨last, hrun, hlast, hend⟩ := runLoop_of_measure step measure _ hstep n t h hn
  have hpending := last.step_keeps distinct hlast
  -- The loop has ended, so nothing is left to be looked at.
  rw [hend] at hpending
  exact ⟨last.seen, by rw [run, hrun]; rfl, hlast.mem_seen hpending⟩

end Tally

/-! ## Both loops agree -/

/-- The recursive count marks what the recursive walk meets. -/
theorem seen_below (c : Cell) (seen : Std.HashSet Digest) (order : List Cell) :
    (Walk.below c seen order).seen = collectBelow c seen := by
  -- Induction on the cell, along its links.
  induction c generalizing seen order with
  | data bits => rfl
  | link c r ihc ihr =>
    rw [Walk.below, collectBelow, ← ihc seen order]
    -- The cell linked to is visited in both or passed over in both.
    cases Walk.below c seen order with
    | mk seen order =>
      dsimp only
      split
      · rfl
      · rw [← ihr _ order]

/-- Counting below a root marks what visiting it meets. -/
theorem seen_visit_start (root : Cell) : (Walk.start.visit root).seen = root.distinct := by
  rw [distinct, ← seen_below root _ [], Walk.visit_of_new _ _ (by simp [Walk.start]), Walk.below_eq]
  rfl

/-- A set of the digests of different cells has as many members as there are cells. -/
theorem size_eq_length (seen : Std.HashSet Digest) (cells : List Cell) (hnodup : cells.Nodup)
    (distinct : ∀ c ∈ cells, ∀ d ∈ cells, c.digest = d.digest → c = d)
    (hseen : ∀ d, d ∈ seen ↔ ∃ c ∈ cells, c.digest = d) : seen.size = cells.length := by
  have hdigests : (cells.map digest).Nodup := List.Nodup.map_on distinct hnodup
  -- The members of a set differ by their hash order, which says that they differ.
  have hlist : seen.toList.Nodup := by
    apply seen.distinct_toList.imp
    intro a b hne heq
    simp [heq] at hne
  -- Digests of different cells differ, so both lists have each digest once.
  have hperm : seen.toList.Perm (cells.map digest) := by
    rw [List.perm_ext_iff_of_nodup hlist hdigests]
    intro d
    rw [Std.HashSet.mem_toList, hseen, List.mem_map]
  rw [← seen.length_toList, hperm.length_eq, List.length_map]

variable {roots : List Cell}

/-- Cells below one of the roots are told apart by their digests if all cells are. -/
theorem DistinctDigestsFrom.root (distinct : DistinctDigestsFrom roots) (root : Cell)
    (h : root ∈ roots) : DistinctDigestsFrom [root] := by
  have hfrom (c : Cell) (hc : ReachedFrom [root] c) : ReachedFrom roots c := by
    obtain ⟨r, hr, hreaches⟩ := hc
    obtain rfl := List.mem_singleton.mp hr
    exact ⟨r, h, hreaches⟩
  intro c d hc hd
  exact distinct c d (hfrom c hc) (hfrom d hd)

/-- The references of a cell have later places in the list. -/
theorem ChildrenLater.lt {cells : List Cell} (h : ChildrenLater cells) (hnodup : cells.Nodup)
    (i j : Nat) (c r : Cell) (hc : cells[i]? = some c) (hr : cells[j]? = some r)
    (href : r ∈ c.refs) : i < j := by
  -- Induction on the list.
  induction cells generalizing i j with
  | nil => cases hc
  | cons first cells ih =>
    rw [List.nodup_cons] at hnodup
    cases i with
    | zero =>
      -- The cell comes first, so its reference must not stand in its own place.
      cases hc
      cases j with
      | zero =>
        cases hr
        exact absurd (h.1 _ href) hnodup.1
      | succ j => exact Nat.zero_lt_succ j
    | succ i =>
      cases j with
      | zero =>
        -- The reference would stand before the cell and behind it.
        cases hr
        exact absurd (h.2.closed c (List.mem_of_getElem? hc) _ href) hnodup.1
      | succ j => exact Nat.succ_lt_succ (ih h.2 hnodup.2 i j hc hr)

/-- As long as no two different cells below the roots share a digest, the loop ends, and it lists
    each cell below the roots once and before its references. Counting the cells below one of the
    roots, in a loop or by recursion, finds as many as are listed for this root alone. -/
theorem parentsFirst_exact (roots : List Cell) (distinct : DistinctDigestsFrom roots) :
    (∀ n, 2 * (roots.map size).sum < n →
      (Traversal.start roots).run n = some (parentsFirst roots)) ∧
    (∀ c, c ∈ parentsFirst roots ↔ ReachedFrom roots c) ∧ (parentsFirst roots).Nodup ∧
    (∀ (i j : Nat) (c r : Cell), (parentsFirst roots)[i]? = some c →
      (parentsFirst roots)[j]? = some r → r ∈ c.refs → i < j) ∧
    ∀ root ∈ roots, root.distinctCount = (parentsFirst [root]).length ∧
      ∀ n, root.size < n → (Tally.start root).run n = some (parentsFirst [root]).length := by
  have hnodup := parentsFirst_nodup distinct
  refine ⟨?_, mem_parentsFirst distinct, hnodup, ?_, ?_⟩
  · intro n hn
    have hmeasure : (Traversal.start roots).measure = 2 * (roots.map size).sum := by
      simp [Traversal.measure, Traversal.start]
    -- The measure at the start is twice the size of the roots.
    exact Traversal.run_of_measure n _ (by omega)
  · exact (parentsFirst_childrenLater distinct).lt hnodup
  · intro root hroot
    have hsingle := distinct.root root hroot
    -- For a single root the list has the cells below the root.
    have hmem (c : Cell) : c ∈ parentsFirst [root] ↔ root.Reaches c := by
      rw [mem_parentsFirst hsingle]
      simp [ReachedFrom]
    have hsize (seen : Std.HashSet Digest)
        (hseen : ∀ d, d ∈ seen ↔ ∃ c, root.Reaches c ∧ c.digest = d) :
        seen.size = (parentsFirst [root]).length := by
      apply size_eq_length seen _ (parentsFirst_nodup hsingle)
      · intro c hc d hd
        exact hsingle c d ((mem_parentsFirst hsingle c).mp hc) ((mem_parentsFirst hsingle d).mp hd)
      · simpa only [hmem] using hseen
    constructor
    · -- The recursive count has marked the digests of the cells that the walk has left.
      rw [distinctCount, ← seen_visit_start]
      apply hsize
      intro d
      have hinv := (walk_roots hsingle).1.seen d
      rw [List.append_nil] at hinv
      show d ∈ ([root].foldl Walk.visit .start).seen ↔ _
      rw [hinv]
      exact exists_congr fun c => and_congr_left fun _ => hmem c
    · intro n hn
      -- The other loop starts with the root alone, whose cells have distinct digests.
      have hdistinct : root.DistinctDigests := by
        intro c d hc hd
        exact hsingle c d ⟨root, List.mem_singleton_self root, hc⟩
          ⟨root, List.mem_singleton_self root, hd⟩
      have hmeasure : (Tally.start root).measure = root.size := by
        simp [Tally.measure, Tally.start]
      obtain ⟨seen, hrun, hseen⟩ :=
        Tally.run_of_measure n _ hdistinct (Tally.inv_start root) (by omega)
      rw [hrun, hsize seen hseen]

/-! ## A root below another root -/

/-- A cell without references, and one that refers to it twice. -/
def lowerCell : Cell := .data [true]
def upperCell : Cell := .mk [] [lowerCell, lowerCell]

/-- Roots of which the second has the first below it. -/
def nestedRoots : List Cell := [lowerCell, upperCell]

/-- Both cells hold few bits and references. -/
theorem nestedRoots_inCapacity : ∀ r ∈ nestedRoots, r.InCapacity := by
  have hlower : lowerCell.InCapacity := .intro (by decide +kernel) nofun
  have hrefs : upperCell.refs = [lowerCell, lowerCell] := rfl
  have hupper : upperCell.InCapacity := .intro (by decide +kernel) (by simpa [hrefs] using hlower)
  simpa [nestedRoots] using And.intro hlower hupper

theorem nestedRoots_pairwise :
    [upperCell, lowerCell].Pairwise fun c d => c.digest ≠ d.digest := by
  decide +kernel

/-- The second root comes first in the list, and the first one is listed once. -/
theorem parentsFirst_nestedRoots : parentsFirst nestedRoots = [upperCell, lowerCell] := by
  -- The first root is met again as a reference of the second, where it is passed over.
  have hne : upperCell.digest ≠ lowerCell.digest := by simpa using nestedRoots_pairwise
  have hrefs : upperCell.refs = [lowerCell, lowerCell] ∧ lowerCell.refs = [] := ⟨rfl, rfl⟩
  simp [parentsFirst, nestedRoots, Walk.start, Walk.visit_eq, hrefs, Walk.enter, Walk.leave,
    hne.symm]

/-- Both loops find the two cells. -/
theorem parentsFirst_exact_nestedRoots :
    DistinctDigestsFrom nestedRoots ∧ 2 * (nestedRoots.map size).sum < 15 ∧
      (Traversal.start nestedRoots).run 15 = some [upperCell, lowerCell] ∧
      upperCell.distinctCount = 2 ∧ (Tally.start upperCell).run 6 = some 2 := by
  -- The digests of the two cells differ, so the theorem applies to these roots.
  have hdistinct : DistinctDigestsFrom nestedRoots :=
    distinctDigestsFrom_of_closed _ [upperCell, lowerCell] (by decide +kernel)
      (by decide +kernel) nestedRoots_pairwise
  have hne : upperCell.digest ≠ lowerCell.digest := by simpa using nestedRoots_pairwise
  have hrefs : upperCell.refs = [lowerCell, lowerCell] ∧ lowerCell.refs = [] := ⟨rfl, rfl⟩
  have hsingle : parentsFirst [upperCell] = [upperCell, lowerCell] := by
    simp [parentsFirst, Walk.start, Walk.visit_eq, hrefs, Walk.enter, Walk.leave, hne]
  obtain ⟨hrun, -, -, -, hcount⟩ := parentsFirst_exact nestedRoots hdistinct
  obtain ⟨hdistinctCount, htally⟩ := hcount upperCell (by simp [nestedRoots])
  have hsize : 2 * (nestedRoots.map size).sum < 15 := by decide +kernel
  rw [parentsFirst_nestedRoots] at hrun
  rw [hsingle] at hdistinctCount htally
  exact ⟨hdistinct, hsize, hrun 15 hsize, hdistinctCount, htally 6 (by decide +kernel)⟩

end CellCode.Cell
