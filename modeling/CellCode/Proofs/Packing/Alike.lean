import CellCode.Proofs.Packing.Runs

/-!
# Packing behind other bits

Where commands go when they are packed depends on their bits and references only, not on their
debug nodes. It does not depend either on bits that stand before them in the first cell, as long
as those leave room for what the first cell gets: the first unit is filled up to the same command
and takes over the same units.

* `Chain.Alike.write`      writing a command to two chains that differ in that way
* `Chain.Alike.finalize`   folding them
-/

namespace CellCode

/-- The builder with bits before its own. -/
def Builder.behind (b : Builder) (front : Bits) : Builder := ⟨front ++ b.bits, b.refs⟩

namespace Chain

/-- Units, the first one at the end, that hold the same; in the first unit `front` stands before
    the rest. -/
inductive SameUnits (front : Bits) : List Fragment → List Fragment → Prop
  | first (f f' : Fragment) (h : f'.builder = f.builder.behind front) : SameUnits front [f] [f']
  | cons (f f' : Fragment) {fs fs' : List Fragment} (h : f'.builder = f.builder)
      (rest : SameUnits front fs fs') : SameUnits front (f :: fs) (f' :: fs')

/-- The chains hold the same, the second one behind `front`. -/
structure Alike (front : Bits) (c c' : Chain) : Prop where
  units : SameUnits front (c.last :: c.earlier) (c'.last :: c'.earlier)
  isOpen : c.Open
  isOpen' : c'.Open

/-- The bits of the unit that becomes the root. -/
def firstBits (c : Chain) : Bits := (c.earlier.getLastD c.last).builder.bits

variable {front : Bits} {c c' c₁ : Chain} {command command' : Fragment}

theorem Added.isOpen (h : c.Added command c₁) (hc : c.Open) : c₁.Open := by
  cases h with
  | inside hroom => exact hc.inside hroom
  | fresh _ hroom => exact hc.push hroom

/-- The first unit only grows. -/
theorem Added.firstBits (h : c.Added command c₁) : c.firstBits <+: c₁.firstBits := by
  obtain ⟨earlier, last⟩ := c
  cases h with
  | inside =>
    cases earlier with
    | nil => exact List.prefix_append _ _
    | cons unit units => exact List.prefix_rfl
  | fresh =>
    simp only [Chain.firstBits, push, List.getLastD_cons, List.prefix_rfl]

/-- Bits before a unit leave no more room in it. -/
private theorem keepsLink_of_behind (f f' : Fragment) (h : f'.builder = f.builder.behind front)
    (hf' : f'.KeepsLink) : f.KeepsLink := by
  have hbits := hf'.1
  have hrefs := hf'.2
  rw [h, Builder.behind] at hbits hrefs
  rw [List.length_append] at hbits
  exact ⟨by omega, hrefs⟩

private theorem keepsLink_congr (f f' : Fragment) (h : f'.builder = f.builder) :
    f'.KeepsLink ↔ f.KeepsLink := by
  rw [Fragment.KeepsLink, h, Fragment.KeepsLink]

private theorem takeOver_behind (f f' g g' : Fragment) (h : f'.builder = f.builder.behind front)
    (hg : g'.builder = g.builder) :
    (f'.takeOver g').builder = (f.takeOver g).builder.behind front := by
  simp [Fragment.takeOver, Builder.behind, h, hg]

private theorem takeOver_congr (f f' g g' : Fragment) (h : f'.builder = f.builder)
    (hg : g'.builder = g.builder) : (f'.takeOver g').builder = (f.takeOver g).builder := by
  simp [Fragment.takeOver, h, hg]

/-- A command goes to the same unit of both chains. -/
theorem Alike.added (h : Alike front c c') (hadd : c.Added command c₁)
    (hcommand : command'.builder = command.builder)
    (hroom : front.length + c₁.firstBits.length ≤ Cell.maxBits) :
    ∃ c₁', c'.Added command' c₁' ∧ Alike front c₁ c₁' := by
  -- Whether the last unit has room is the same question for both chains.
  have hsame : (∃ c₁', c'.Added command' c₁' ∧
      SameUnits front (c₁.last :: c₁.earlier) (c₁'.last :: c₁'.earlier)) := by
    obtain ⟨earlier, last⟩ := c
    obtain ⟨earlier', last'⟩ := c'
    have hunits := h.units
    cases hunits with
    | first _ _ hlast =>
      have htake := takeOver_behind last last' command command' hlast hcommand
      cases hadd with
      | inside hinside =>
        refine ⟨_, .inside ?_, .first _ _ htake⟩
        rw [Fragment.KeepsLink, htake, Builder.behind, List.length_append]
        exact ⟨hroom, hinside.2⟩
      | fresh hfull hfresh =>
        refine ⟨_, .fresh ?_ ?_, .cons _ _ hcommand (.first _ _ hlast)⟩
        · exact fun hinside => hfull (keepsLink_of_behind _ _ htake hinside)
        · exact (keepsLink_congr _ _ hcommand).mpr hfresh
    | cons _ _ hlast hrest =>
      have htake := takeOver_congr last last' command command' hlast hcommand
      cases hadd with
      | inside hinside =>
        exact ⟨_, .inside ((keepsLink_congr _ _ htake).mpr hinside), .cons _ _ htake hrest⟩
      | fresh hfull hfresh =>
        refine ⟨_, .fresh ?_ ?_, .cons _ _ hcommand (.cons _ _ hlast hrest)⟩
        · exact fun hinside => hfull ((keepsLink_congr _ _ htake).mp hinside)
        · exact (keepsLink_congr _ _ hcommand).mpr hfresh
  obtain ⟨c₁', hadd', hunits'⟩ := hsame
  exact ⟨c₁', hadd', hunits', hadd.isOpen h.isOpen, hadd'.isOpen h.isOpen'⟩

/-! ## Folding -/

/-- What a unit holds stays in front when it is joined. -/
private theorem bits_joined (unit next : Fragment) :
    unit.builder.bits <+: (unit.joined next).builder.bits := by
  unfold Fragment.joined
  split
  · exact List.prefix_append _ _
  · exact List.prefix_rfl

private theorem length_joined (unit next : Fragment) (hunit : unit.KeepsLink) :
    (unit.joined next).builder.bits.length ≤ Cell.maxBits := by
  unfold Fragment.joined
  split
  · rename_i hfits
    exact hfits.1
  · exact hunit.1

/-- A unit is joined in the same way when bits stand before it that leave room. -/
private theorem joined_behind (front : Bits) (unit unit' next next' : Fragment)
    (hunit : unit'.builder = unit.builder.behind front) (hnext : next'.builder = next.builder)
    (hroom : front.length + (unit.joined next).builder.bits.length ≤ Cell.maxBits) :
    (unit'.joined next').builder = (unit.joined next).builder.behind front := by
  have htake := takeOver_behind unit unit' next next' hunit hnext
  unfold Fragment.joined at hroom ⊢
  split at hroom
  · rename_i hfits
    rw [if_pos hfits, if_pos, htake]
    rw [htake]
    exact ⟨by simpa [Builder.behind] using hroom, hfits.2⟩
  · rename_i hfull
    -- With more bits in front it is even fuller.
    have hfull' : ¬ (unit'.takeOver next').builder.Fits := by
      rw [htake]
      intro hfits
      simp only [Builder.Fits, Builder.behind, List.length_append] at hfits hfull
      exact hfull ⟨by omega, hfits.2⟩
    rw [if_neg hfull, if_neg hfull']
    simp [Fragment.linkTo, Builder.behind, hunit, hnext]

/-- The bits of the first unit are at the front of the folded chain. -/
theorem firstBits_of_finalize (c : Chain) (f : Fragment) (hc : c.Open)
    (h : c.finalize = .ok f) : c.firstBits <+: f.builder.bits := by
  obtain ⟨earlier, last⟩ := c
  have hearlier : ∀ unit ∈ earlier, unit.KeepsLink := fun unit hunit =>
    hc unit (List.mem_cons_of_mem _ hunit)
  clear hc
  unfold Chain.finalize at h
  induction earlier generalizing last with
  | nil =>
    cases h
    exact List.prefix_rfl
  | cons unit units ih =>
    obtain ⟨joined, hjoined, hrest⟩ := (foldlM_cons_eq_ok _ _ _ _ _).mp h
    have hfront := ih joined hrest fun u hu => hearlier u (by simp [hu])
    obtain ⟨_, rfl⟩ := (join_eq_ok unit last joined (hearlier unit (by simp))).mp hjoined
    have hbits := bits_joined unit last
    -- The first unit is this one if there are no others before it.
    cases units with
    | nil => exact hbits.trans hfront
    | cons unit' units => exact hfront

/-- Folding finds the same, behind `front` in the first cell. -/
theorem Alike.finalize (h : Alike front c c') (f : Fragment) (hf : c.finalize = .ok f)
    (hroom : front.length + f.builder.bits.length ≤ Cell.maxBits) :
    ∃ f', c'.finalize = .ok f' ∧ f'.builder = f.builder.behind front := by
  obtain ⟨earlier, last⟩ := c
  obtain ⟨earlier', last'⟩ := c'
  have hunits := h.units
  have hopen : ∀ unit ∈ earlier, unit.KeepsLink := fun unit hunit =>
    h.isOpen unit (List.mem_cons_of_mem _ hunit)
  have hopen' : ∀ unit ∈ earlier', unit.KeepsLink := fun unit hunit =>
    h.isOpen' unit (List.mem_cons_of_mem _ hunit)
  clear h
  unfold Chain.finalize at hf ⊢
  dsimp only at hunits hf ⊢
  induction earlier generalizing last earlier' last' with
  | nil =>
    cases hunits with
    | first _ _ hlast =>
      cases hf
      exact ⟨last', rfl, hlast⟩
    | cons _ _ _ hrest => cases hrest
  | cons unit units ih =>
    cases hunits with
    | @cons _ _ _ units' hlast hrest =>
      obtain ⟨joined, hjoined, hf⟩ := (foldlM_cons_eq_ok _ _ _ _ _).mp hf
      have hopenUnit := hopen unit (by simp)
      -- The same cell is built on both sides.
      obtain ⟨hbuild, rfl⟩ := (join_eq_ok unit last joined hopenUnit).mp hjoined
      rw [← hlast] at hbuild
      cases hrest with
      | first _ unit' hunit =>
        -- The first unit is the last to be joined.
        cases hf
        have hjoined' := (join_eq_ok unit' last' _ (hopen' unit' (by simp))).mpr ⟨hbuild, rfl⟩
        exact ⟨_, (foldlM_cons_eq_ok _ _ _ _ _).mpr ⟨_, hjoined', rfl⟩,
          joined_behind front unit unit' last last' hunit hlast hroom⟩
      | @cons _ unit' _ units' hunit hrest =>
        have hjoined' := (join_eq_ok unit' last' _ (hopen' unit' (by simp))).mpr ⟨hbuild, rfl⟩
        have hbuilder := joined_behind [] unit unit' last last' hunit hlast
          (by simpa using length_joined unit last hopenUnit)
        obtain ⟨f', hf', hsame⟩ := ih _ hf units' _
          (.cons _ _ hbuilder hrest) (fun u hu => hopen u (by simp [hu]))
          (fun u hu => hopen' u (by simp [hu]))
        exact ⟨f', (foldlM_cons_eq_ok _ _ _ _ _).mpr ⟨_, hjoined', hf'⟩, hsame⟩

end Chain

end CellCode
