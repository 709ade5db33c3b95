import CellCode.Cell.Order
import CellCode.Proofs.Cell.Reaching
import Mathlib.Data.Set.Card

/-!
# Parents come first

The walk through the cells below some roots enters a cell, walks through its references and
leaves it. A cell that was met before is passed over. At every point the cells met are those
that were left and those that were entered and not left yet, and the latter hold the cell at
which the walk stands. A cell is larger than all that it holds, so a reference that was met
before is none of those: it was left, and with it all that hangs below it.

## Key results

- `Walk.below_eq`: walking below a cell is visiting its references one after the other
- `Walk.visit_keeps`: a visit keeps the cells met in order and leaves the cell
- `mem_parentsFirst`: the cells listed are those reached from the roots
- `parentsFirst_nodup`: each cell is listed once
- `parentsFirst_childrenLater`: the references of a cell are listed after it
- `ncard_reached`: there are as many cells listed as there are cells reached
-/

namespace CellCode.Cell

/-- The references of each cell in the list stand behind it. -/
def ChildrenLater : List Cell → Prop
  | [] => True
  | c :: cells => (∀ r ∈ c.refs, r ∈ cells) ∧ ChildrenLater cells

/-- Such a list has what its members refer to. -/
theorem ChildrenLater.closed {cells : List Cell} (h : ChildrenLater cells) :
    ∀ c ∈ cells, ∀ r ∈ c.refs, r ∈ cells := by
  -- Induction on the list: a member is the first one, or it stands behind it.
  induction cells with
  | nil => exact nofun
  | cons first cells ih =>
    intro c hc r hr
    rcases List.mem_cons.mp hc with rfl | hc
    · exact List.mem_cons_of_mem _ (h.1 r hr)
    · exact List.mem_cons_of_mem _ (ih h.2 c hc r hr)

namespace Walk

/-! ## One visit after the other -/

/-- Walking below a cell is visiting its references. -/
theorem below_eq (c : Cell) (seen : Std.HashSet Digest) (order : List Cell) :
    below c seen order = c.refs.foldl visit ⟨seen, order⟩ := by
  -- Induction on the cell, along its links.
  induction c with
  | data bits => rfl
  | link c ref ih _ =>
    rw [refs_link, List.foldl_append, ← ih]
    rfl

/-- A cell whose digest was met is passed over. -/
theorem visit_of_seen (w : Walk) (c : Cell) (h : c.digest ∈ w.seen) : visit w c = w := by
  obtain ⟨seen, order⟩ := w
  rw [visit, if_pos (Std.HashSet.mem_iff_contains.mp h)]

/-- The walk that has entered a cell. -/
def enter (w : Walk) (c : Cell) : Walk := { w with seen := w.seen.insert c.digest }

/-- The walk that leaves a cell. -/
def leave (w : Walk) (c : Cell) : Walk := { w with order := c :: w.order }

/-- Any other cell is entered, its references are visited, and it is left. -/
theorem visit_of_new (w : Walk) (c : Cell) (h : c.digest ∉ w.seen) :
    visit w c = (c.refs.foldl visit (w.enter c)).leave c := by
  obtain ⟨seen, order⟩ := w
  rw [visit, if_neg (fun hseen => h (Std.HashSet.mem_iff_contains.mpr hseen)), below_eq]
  rfl

/-- Visiting a cell in one equation. -/
theorem visit_eq (w : Walk) (c : Cell) : visit w c =
    if c.digest ∈ w.seen then w else (c.refs.foldl visit (w.enter c)).leave c := by
  by_cases hseen : c.digest ∈ w.seen
  · rw [if_pos hseen, visit_of_seen w c hseen]
  · rw [if_neg hseen, visit_of_new w c hseen]

/-! ## What a walk has met -/

/-- The cells met are those that were left, in order, and those that were entered. -/
structure Inv (w : Walk) (has : Cell → Prop) (entered : List Cell) : Prop where
  inside : ∀ c ∈ w.order ++ entered, has c
  seen : ∀ d, d ∈ w.seen ↔ ∃ c ∈ w.order ++ entered, c.digest = d
  nodup : (w.order ++ entered).Nodup
  later : ChildrenLater w.order

/-- A walk that went on through some cells: it has left them, and nothing new but what is reached
    from them. -/
structure Advance (w w' : Walk) (cells : List Cell) : Prop where
  kept : ∀ c ∈ w.order, c ∈ w'.order
  reached : ∀ c ∈ w'.order, c ∈ w.order ∨ ReachedFrom cells c
  left : ∀ c ∈ cells, c ∈ w'.order

variable {has : Cell → Prop}

/-- A walk that goes on through nothing stays as it is. -/
theorem Advance.refl (w : Walk) : w.Advance w [] :=
  ⟨fun _ hc => hc, fun _ hc => .inl hc, nofun⟩

/-- A walk that goes on twice goes on through the cells of both parts. -/
theorem Advance.trans {w₁ w₂ w₃ : Walk} {cells more : List Cell} (h : w₁.Advance w₂ cells)
    (h' : w₂.Advance w₃ more) : w₁.Advance w₃ (cells ++ more) where
  kept := fun c hc => h'.kept c (h.kept c hc)
  reached := by
    intro c hc
    -- It was left by the second part, or by the first one, or before both.
    rcases h'.reached c hc with hc | ⟨r, hr, hreaches⟩
    · rcases h.reached c hc with hc | ⟨r, hr, hreaches⟩
      · exact .inl hc
      · exact .inr ⟨r, List.mem_append_left _ hr, hreaches⟩
    · exact .inr ⟨r, List.mem_append_right _ hr, hreaches⟩
  left := by
    intro c hc
    rcases List.mem_append.mp hc with hc | hc
    · exact h'.kept c (h.left c hc)
    · exact h'.left c hc

/-- Visiting the cell keeps what a walk has met, wherever the walk stands. -/
def Keeps (has : Cell → Prop) (c : Cell) : Prop :=
  ∀ w entered, Inv w has entered → (∀ e ∈ entered, c.size < e.size) →
    (visit w c).Inv has entered ∧ w.Advance (visit w c) [c]

/-- Visits one after the other keep what each of them keeps. -/
theorem foldl_visit (cells : List Cell) (hcells : ∀ c ∈ cells, Keeps has c) (w : Walk)
    (entered : List Cell) (h : w.Inv has entered)
    (hsize : ∀ c ∈ cells, ∀ e ∈ entered, c.size < e.size) :
    (cells.foldl visit w).Inv has entered ∧ w.Advance (cells.foldl visit w) cells := by
  -- Induction on the cells that are visited.
  induction cells generalizing w with
  | nil => exact ⟨h, .refl w⟩
  | cons c cells ih =>
    rw [List.forall_mem_cons] at hcells hsize
    obtain ⟨hinv, hadvance⟩ := hcells.1 w entered h hsize.1
    obtain ⟨hinv', hadvance'⟩ := ih hcells.2 (visit w c) hinv hsize.2
    exact ⟨hinv', hadvance.trans hadvance'⟩

/-- A cell that was met before and is smaller than those entered was left. -/
theorem Inv.mem_order {w : Walk} {entered : List Cell} (h : w.Inv has entered) (c : Cell)
    (distinct : ∀ c d, has c → has d → c.digest = d.digest → c = d) (hc : has c)
    (hsize : ∀ e ∈ entered, c.size < e.size) (hseen : c.digest ∈ w.seen) : c ∈ w.order := by
  -- The digest is that of a cell met, and no other cell has it.
  obtain ⟨d, hd, hdigest⟩ := (h.seen c.digest).mp hseen
  obtain rfl := distinct d c (h.inside d hd) hc hdigest
  -- A cell that was entered would be larger than itself.
  rcases List.mem_append.mp hd with hd | hd
  · exact hd
  · exact absurd (hsize d hd) (Nat.lt_irrefl _)

/-- Entering a cell that was not met before. -/
theorem Inv.enter {w : Walk} {entered : List Cell} (h : w.Inv has entered) (c : Cell) (hc : has c)
    (hnew : c.digest ∉ w.seen) : (w.enter c).Inv has (c :: entered) where
  inside := by
    intro d hd
    rcases List.mem_append.mp hd with hd | hd
    · exact h.inside d (List.mem_append_left _ hd)
    · rcases List.mem_cons.mp hd with rfl | hd
      · exact hc
      · exact h.inside d (List.mem_append_right _ hd)
  seen := by
    intro d
    show d ∈ w.seen.insert c.digest ↔ ∃ e ∈ w.order ++ c :: entered, e.digest = d
    rw [Std.HashSet.mem_insert, h.seen d, beq_iff_eq]
    simp only [List.mem_append, List.mem_cons]
    -- The digest is the new one or was there before, and the cells entered say the same.
    constructor
    · rintro (rfl | ⟨e, he, rfl⟩)
      · exact ⟨c, .inr (.inl rfl), rfl⟩
      · exact ⟨e, by tauto, rfl⟩
    · rintro ⟨e, he | rfl | he, rfl⟩
      · exact .inr ⟨e, .inl he, rfl⟩
      · exact .inl rfl
      · exact .inr ⟨e, .inr he, rfl⟩
  nodup := by
    show (w.order ++ c :: entered).Nodup
    rw [List.nodup_middle, List.nodup_cons]
    -- The cell is new, since its digest was not met.
    exact ⟨fun hmem => hnew ((h.seen _).mpr ⟨c, hmem, rfl⟩), h.nodup⟩
  later := h.later

/-- Leaving the cell that was entered last, when its references have been left. -/
theorem Inv.leave {w : Walk} {entered : List Cell} (c : Cell) (h : w.Inv has (c :: entered))
    (hrefs : ∀ r ∈ c.refs, r ∈ w.order) : (w.leave c).Inv has entered where
  inside := by
    intro d hd
    exact h.inside d (List.perm_middle.mem_iff.mpr hd)
  seen := by
    intro d
    show d ∈ w.seen ↔ ∃ e ∈ c :: (w.order ++ entered), e.digest = d
    rw [h.seen d]
    simp only [List.perm_middle.mem_iff]
  nodup := List.nodup_middle.mp h.nodup
  later := ⟨hrefs, h.later⟩

/-- A visit keeps what the walk has met, and leaves the cell with all that hangs below it. -/
theorem visit_keeps (below : ∀ c, has c → ∀ r ∈ c.refs, has r)
    (distinct : ∀ c d, has c → has d → c.digest = d.digest → c = d) (c : Cell) (hc : has c) :
    Keeps has c := by
  -- Induction on the cell: its references are visited first.
  induction c using Cell.induction with
  | step c ih =>
    intro w entered h hsize
    by_cases hseen : c.digest ∈ w.seen
    · -- The cell is passed over, and it was left before.
      rw [visit_of_seen w c hseen]
      refine ⟨h, fun x hx => hx, fun x hx => .inl hx, ?_⟩
      intro x hx
      obtain rfl := List.mem_singleton.mp hx
      exact h.mem_order x distinct hc hsize hseen
    · rw [visit_of_new w c hseen]
      -- The references are smaller than the cell itself and so than all cells entered.
      have hrefs : ∀ r ∈ c.refs, ∀ e ∈ c :: entered, r.size < e.size := by
        intro r hr e he
        have hlt := size_lt_of_mem_refs hr
        rcases List.mem_cons.mp he with rfl | he
        · exact hlt
        · exact Nat.lt_trans hlt (hsize e he)
      -- Between entering and leaving, the references are visited one after the other.
      obtain ⟨hinv, hadvance⟩ := foldl_visit c.refs
        (fun r hr => ih r hr (below c hc r hr)) (w.enter c) (c :: entered)
        (h.enter c hc hseen) hrefs
      refine ⟨hinv.leave c hadvance.left, ?_, ?_, ?_⟩
      · intro x hx
        exact List.mem_cons_of_mem _ (hadvance.kept x hx)
      · intro x hx
        rcases List.mem_cons.mp hx with rfl | hx
        · exact .inr ⟨x, List.mem_singleton_self x, .self x⟩
        · rcases hadvance.reached x hx with hx | ⟨r, hr, hreaches⟩
          · exact .inl hx
          · exact .inr ⟨c, List.mem_singleton_self c, .ref hr hreaches⟩
      · intro x hx
        obtain rfl := List.mem_singleton.mp hx
        exact List.mem_cons_self ..

end Walk

/-! ## Whatever the digests are -/

namespace Walk

/-- What a visit leaves was left before, or is reached from the cell. -/
theorem reached_of_visit (c : Cell) (w : Walk) :
    ∀ d ∈ (visit w c).order, d ∈ w.order ∨ c.Reaches d := by
  -- Induction on the cell, for any walk.
  induction c using Cell.induction generalizing w with
  | step c ih =>
    -- So it is with visits to some of the references, one after the other.
    have hrefs (cells : List Cell) (hcells : ∀ r ∈ cells, r ∈ c.refs) (w : Walk) :
        ∀ d ∈ (cells.foldl visit w).order, d ∈ w.order ∨ c.Reaches d := by
      induction cells generalizing w with
      | nil => exact fun d hd => .inl hd
      | cons r cells ih' =>
        rw [List.forall_mem_cons] at hcells
        intro d hd
        rcases ih' hcells.2 (visit w r) d hd with hd | hd
        · rcases ih r hcells.1 w d hd with hd | hd
          · exact .inl hd
          · exact .inr (.ref hcells.1 hd)
        · exact .inr hd
    intro d hd
    rw [visit_eq] at hd
    -- The cell was met before, so nothing is left.
    split at hd
    · exact .inl hd
    · -- What is left is the cell itself, or it is left by a visit to a reference.
      rcases List.mem_cons.mp hd with rfl | hd
      · exact .inr (.self d)
      · exact hrefs c.refs (fun r hr => hr) (w.enter c) d hd

/-- A walk that has left something has left something afterwards. -/
theorem order_visit_ne_nil (w : Walk) (c : Cell) (h : w.order ≠ []) : (visit w c).order ≠ [] := by
  rw [visit_eq]
  split
  · exact h
  · exact List.cons_ne_nil _ _

end Walk

/-- Every cell listed is reached from the roots. -/
theorem reachedFrom_of_mem_parentsFirst (roots : List Cell) (c : Cell)
    (h : c ∈ parentsFirst roots) : ReachedFrom roots c := by
  -- Induction on the roots, from any walk on.
  have hwalk (cells : List Cell) (w : Walk) :
      ∀ d ∈ (cells.foldl Walk.visit w).order, d ∈ w.order ∨ ReachedFrom cells d := by
    induction cells generalizing w with
    | nil => exact fun d hd => .inl hd
    | cons root cells ih =>
      intro d hd
      rcases ih (w.visit root) d hd with hd | ⟨r, hr, hreaches⟩
      · rcases Walk.reached_of_visit root w d hd with hd | hreaches
        · exact .inl hd
        · exact .inr ⟨root, List.mem_cons_self .., hreaches⟩
      · exact .inr ⟨r, List.mem_cons_of_mem _ hr, hreaches⟩
  -- At the start nothing has been left.
  rcases hwalk roots .start c h with hc | hc
  · cases hc
  · exact hc

/-- The first root is listed. -/
theorem parentsFirst_ne_nil (roots : List Cell) (h : roots ≠ []) : parentsFirst roots ≠ [] := by
  have hwalk (cells : List Cell) (w : Walk) (hw : w.order ≠ []) :
      (cells.foldl Walk.visit w).order ≠ [] := by
    induction cells generalizing w with
    | nil => exact hw
    | cons root cells ih => exact ih _ (w.order_visit_ne_nil root hw)
  cases roots with
  | nil => exact absurd rfl h
  -- The first root is new at the start, so it is left, and later roots keep it.
  | cons root roots =>
    apply hwalk roots
    rw [Walk.visit_of_new _ _ (by simp [Walk.start])]
    exact List.cons_ne_nil _ _

/-! ## The list of all cells -/

variable {roots : List Cell}

/-- The walk through the roots has left what is reached from them, in order. -/
theorem walk_roots (distinct : DistinctDigestsFrom roots) :
    (roots.foldl Walk.visit .start).Inv (ReachedFrom roots) [] ∧
      Walk.start.Advance (roots.foldl Walk.visit .start) roots := by
  -- At the start nothing was met, so nothing can be wrong.
  have hstart : Walk.start.Inv (ReachedFrom roots) [] :=
    ⟨nofun, by simp [Walk.start], List.nodup_nil, trivial⟩
  apply Walk.foldl_visit roots _ _ _ hstart
  · -- No cell has been entered whose size would have to be larger.
    intro c _ e he
    cases he
  · intro c hc
    exact Walk.visit_keeps (fun c hc => hc.refs) distinct c ⟨c, hc, .self c⟩

/-- The cells listed are those reached from the roots. -/
theorem mem_parentsFirst (distinct : DistinctDigestsFrom roots) (c : Cell) :
    c ∈ parentsFirst roots ↔ ReachedFrom roots c := by
  obtain ⟨hinv, hadvance⟩ := walk_roots distinct
  constructor
  · intro hc
    exact hinv.inside c (List.mem_append_left _ hc)
  · rintro ⟨root, hroot, hreaches⟩
    -- The list has the roots and, with each cell, its references.
    exact hreaches.mem_of_closed hinv.later.closed (hadvance.left root hroot)

/-- Each cell is listed once. -/
theorem parentsFirst_nodup (distinct : DistinctDigestsFrom roots) : (parentsFirst roots).Nodup := by
  have hnodup := (walk_roots distinct).1.nodup
  rwa [List.append_nil] at hnodup

/-- The references of a cell are listed after it. -/
theorem parentsFirst_childrenLater (distinct : DistinctDigestsFrom roots) :
    ChildrenLater (parentsFirst roots) :=
  (walk_roots distinct).1.later

/-- There are as many cells listed as there are cells reached. -/
theorem ncard_reached (distinct : DistinctDigestsFrom roots) :
    {c | ReachedFrom roots c}.ncard = (parentsFirst roots).length := by
  -- The cells reached are the members of the list, and the list has each of them once.
  have hset : {c | ReachedFrom roots c} = ((parentsFirst roots).toFinset : Set Cell) := by
    ext c
    simp [mem_parentsFirst distinct c]
  rw [hset, Set.ncard_coe_finset, List.toFinset_card_of_nodup (parentsFirst_nodup distinct)]

end CellCode.Cell
