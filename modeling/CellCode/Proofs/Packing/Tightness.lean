import CellCode.Proofs.Packing.Runs

/-!
# Folding leaves no link that could be removed

A chain is folded from its end: each unit meets the finished cells behind it and links to the first
of them only if both do not fit into one cell. That cell is finished then. The unit itself may still
be taken over by the one before it, but that only adds to it, so the two cells never fit into one.

* `Fragment.Tight`                a chain of cells in which no link could be removed
* `Fragment.Tight.takeOver`       taking over a run in front keeps it so
* `Chain.Holds.root_tight`        folding makes such a chain
* `Chain.finalize_tight_of_calls` so does folding what was written
-/

namespace CellCode

namespace Fragment

/-- A chain of cells in which no link could be removed: each cell holds its run, and all but the
    last one link to the next, with which they do not fit into one cell. The link itself would not
    be needed there, so it does not count. -/
inductive Tight : List (List Fragment) → Fragment → Prop
  | last (run : List Fragment) : Tight [run] (ofRun run)
  | link (run : List Fragment) {runs : List (List Fragment)} {cell next : Fragment}
      (linked : cell = (ofRun run).linkTo next)
      (full : cell.builder.bits.length + next.builder.bits.length > 1023 ∨
        (cell.builder.refs.length - 1) + next.builder.refs.length > 4)
      (behind : Tight runs next) : Tight (run :: runs) cell

/-- What does not fit into one cell with the next one keeps its link. -/
theorem Tight.link_of_full (run : List Fragment) {runs : List (List Fragment)} {next : Fragment}
    (hfull : ¬ ((ofRun run).takeOver next).builder.Fits) (h : Tight runs next) :
    Tight (run :: runs) ((ofRun run).linkTo next) := by
  refine .link run rfl ?_ h
  simp only [Builder.Fits, takeOver, linkTo, Cell.maxBits, Cell.maxRefs, List.length_append,
    List.length_singleton] at hfull ⊢
  omega

/-- The first cell may take over a run in front of its own. -/
theorem Tight.takeOver (run : List Fragment) {runs : List (List Fragment)} {next : Fragment}
    (h : Tight runs next) :
    ∃ runs', runs'.flatten = run ++ runs.flatten ∧ Tight runs' ((ofRun run).takeOver next) := by
  cases h with
  | last r =>
    rw [← ofRun_append]
    exact ⟨[run ++ r], by simp, .last _⟩
  | @link r rs _ next linked full behind =>
    subst linked
    rw [takeOver_linkTo]
    refine ⟨(run ++ r) :: rs, by simp, .link _ (by rw [ofRun_append]) ?_ behind⟩
    -- With the run in front there is only more in the cell.
    simp only [Fragment.takeOver, linkTo, List.length_append, List.length_singleton] at full ⊢
    omega

end Fragment

namespace Chain

/-- No link of the chain that is folded could be removed. -/
theorem Holds.root_tight {c : Chain} {runs : List (List Fragment)} {run : List Fragment}
    (h : c.Holds runs run) :
    ∃ all, all.flatten = runs.reverse.flatten ++ run ∧ Fragment.Tight all c.root :=
  (h.root_keeps Fragment.Tight (fun run _ => .last run) (fun run _ _ hnext _ => hnext.takeOver run)
    (fun run _ _ hnext _ hfull => hnext.link_of_full run hfull)).2

/-- When calls on a new chain succeed and the chain is folded, it is folded to a chain of cells that
    holds the commands in order. No cell that links to a next one could be joined with it: the two
    have more than 1023 bits together, or more than 4 references besides the link. -/
theorem finalize_tight_of_calls (calls : List Call) (chain : Chain) (root : Fragment)
    (h : calls.foldlM Call.write start = .ok chain) (hroot : chain.finalize = .ok root) :
    ∃ runs, runs.flatten = calls.map Call.command ∧ Fragment.Tight runs root := by
  obtain ⟨runs, run, hholds, hcommands⟩ := holds_of_calls h
  obtain ⟨-, rfl⟩ := (hholds.finalize_eq_ok root).mp hroot
  obtain ⟨all, hall, htight⟩ := hholds.root_tight
  exact ⟨all, hall.trans hcommands, htight⟩

/-- Commands with three references, three and one open a unit each. The second unit takes over the
    third one, and is too full then for the first one to take it over. -/
theorem finalize_tight_of_three_calls :
    let composite (n : Nat) :=
      Call.composite [0x88] (.replicate n .empty) (.mk [] (.replicate n .empty)) 8
    let calls := [composite 3, composite 3, composite 1]
    ∃ chain root, calls.foldlM Call.write start = .ok chain ∧ chain.finalize = .ok root ∧
      ∃ runs, runs.flatten = calls.map Call.command ∧ Fragment.Tight runs root :=
  ⟨_, _, rfl, rfl, finalize_tight_of_calls _ _ _ rfl rfl⟩

end Chain

end CellCode
