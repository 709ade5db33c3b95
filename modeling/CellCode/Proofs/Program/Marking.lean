import CellCode.Code.JumpIdiom
import CellCode.Proofs.Program.Loading

/-!
# Marked programs

Marking the jump tables of a store changes nothing but marks: every place keeps its program.
What is marked afterwards is a constant dictionary that the next instruction jumps through.

* `CodeStore.markJumpTables_same`     only marks are added
* `CodeStore.markJumpTables_marks`    and they are added to jump tables only
* `CodeStore.Holds.sameButMarks`      marks are not part of the program
-/

namespace CellCode

/-! ## One code -/

/-- The instructions differ in marks only. -/
structure Instruction.SameButMarks (i j : Instruction CodeId) : Prop where
  name_eq : j.name = i.name
  operands_eq : j.operands.filter (!·.isMarker) = i.operands.filter (!·.isMarker)

namespace Code

/-- Only constant dictionaries are marked that the next instruction jumps through. -/
def MarksTables : Code → Prop
  | [] => True
  | i :: rest => (i.isMarked → i.name ∈ dictionaryConstants ∧
      ∃ next ∈ rest.head?, next.name ∈ dictionaryJumps) ∧ MarksTables rest

/-- Code without marks has none in wrong places. -/
theorem marksTables_of_unmarked (code : Code) (h : ∀ i ∈ code, i.isMarked = false) :
    code.MarksTables := by
  induction code with
  | nil => trivial
  | cons i rest ih =>
    refine ⟨?_, ih fun j hj => h j (by simp [hj])⟩
    intro hi
    rw [h i (by simp)] at hi
    cases hi

/-- The first instruction is marked or not by what comes next, and the others by themselves. -/
theorem markJumpTables_cons (first second : Instruction CodeId) (rest : Code) :
    (markJumpTables (first :: second :: rest)).1 =
      (if needsMark first second then first.mark else first) ::
        (markJumpTables (second :: rest)).1 := by
  simp only [markJumpTables]
  split <;> rfl

/-- Marking adds marks and nothing else. -/
theorem markJumpTables_same (code : Code) :
    -- Induction on the code, of which the next instruction is looked at too.
    List.Forall₂ Instruction.SameButMarks code code.markJumpTables.1 := by
  induction code with
  | nil => exact .nil
  | cons first rest ih =>
    cases rest with
    | nil => exact .cons ⟨rfl, rfl⟩ .nil
    | cons second rest =>
      rw [markJumpTables_cons]
      split
      · refine .cons ⟨rfl, ?_⟩ ih
        rw [Instruction.mark, List.filter_append]
        exact List.append_nil _
      · exact .cons ⟨rfl, rfl⟩ ih

/-- Marks are added to jump tables only. -/
theorem markJumpTables_marks (code : Code) (h : code.MarksTables) :
    code.markJumpTables.1.MarksTables := by
  induction code with
  | nil => trivial
  | cons first rest ih =>
    cases rest with
    | nil => exact h
    | cons second rest =>
      have hrest := ih h.2
      -- The instruction behind the first keeps its name.
      obtain ⟨second', rest', hsecond, _, hmarked⟩ :=
        List.forall₂_cons_left_iff.mp (markJumpTables_same (second :: rest))
      rw [markJumpTables_cons]
      rw [hmarked] at hrest ⊢
      refine ⟨?_, hrest⟩
      intro hfirst
      rw [List.head?_cons]
      refine And.imp_right (fun h => ⟨second', rfl, hsecond.name_eq ▸ h⟩) ?_
      split at hfirst
      · rename_i hneeds
        rw [if_pos hneeds]
        simp only [needsMark, Bool.and_eq_true, List.contains_iff_mem] at hneeds
        exact hneeds.1
      · rename_i hneeds
        rw [if_neg hneeds]
        obtain ⟨hname, next, hnext, hjump⟩ := h.1 hfirst
        cases hnext
        exact ⟨hname, hjump⟩

/-- Where a marked instruction stands there is a jump table, also in another form of the code
    that has the same names. -/
theorem MarksTables.of_mem {α : Type} {rel : α → Instruction CodeId → Prop} (name : α → String)
    (hname : ∀ a j, rel a j → name a = j.name) (as : List α) (code : Code)
    (has : List.Forall₂ rel as code) (h : code.MarksTables) (j : Instruction CodeId) (hj : j ∈ code)
    (hmarked : j.isMarked) :
    ∃ a next, [a, next] <:+: as ∧ rel a j ∧ name a ∈ dictionaryConstants ∧
      name next ∈ dictionaryJumps := by
  induction has with
  | nil => cases hj
  | @cons a j' as code ha hrest ih =>
    rcases List.mem_cons.mp hj with rfl | hj
    · obtain ⟨hconstant, next, hnext, hjump⟩ := h.1 hmarked
      cases hrest with
      | nil => cases hnext
      | @cons a₂ j₂ as code ha₂ _ =>
        cases hnext
        exact ⟨a, a₂, ⟨[], as, rfl⟩, ha, hname a j ha ▸ hconstant, hname a₂ _ ha₂ ▸ hjump⟩
    · obtain ⟨a', next, hpair, hothers⟩ := ih h.2 hj
      exact ⟨a', next, hpair.trans (List.suffix_cons a as).isInfix, hothers⟩

end Code

/-! ## Stores -/

/-- Marks may be added in two steps. -/
theorem Instruction.SameButMarks.trans (i j k : Instruction CodeId) (hij : i.SameButMarks j)
    (hjk : j.SameButMarks k) : i.SameButMarks k :=
  ⟨hjk.name_eq.trans hij.name_eq, hjk.operands_eq.trans hij.operands_eq⟩

/-- Marks are no nested code. -/
theorem Instruction.SameButMarks.bodies (i j : Instruction CodeId) (h : i.SameButMarks j) :
    j.bodies = i.bodies := by
  have hbodies (i : Instruction CodeId) :
      i.bodies = (i.operands.filter (!·.isMarker)).filterMap Operand.body? := by
    rw [Instruction.bodies, List.filterMap_filter]
    apply List.filterMap_congr
    intro o _
    cases o <;> rfl
  rw [hbodies i, hbodies j, h.operands_eq]

namespace CodeStore

/-- The second store is the first one with marks on jump tables. -/
structure Marked (store store' : CodeStore) : Prop where
  size_eq : store'.size = store.size
  same : ∀ id, List.Forall₂ Instruction.SameButMarks (store.get id) (store'.get id)
  marks : ∀ id, (store'.get id).MarksTables

/-- A store without marks is itself with marks on jump tables. -/
theorem Marked.refl (store : CodeStore) (h : ∀ id, ∀ i ∈ store.get id, i.isMarked = false) :
    store.Marked store where
  size_eq := rfl
  same := fun _ => List.forall₂_same.mpr fun _ _ => ⟨rfl, rfl⟩
  marks := fun id => Code.marksTables_of_unmarked _ (h id)

theorem Marked.step (store store' : CodeStore) (id : CodeId) (h : store.Marked store') :
    store.Marked (store'.set id (store'.get id).markJumpTables.1) := by
  -- A place that is not there is not marked.
  have hget (id' : CodeId) :
      (store'.set id (store'.get id).markJumpTables.1).get id' = store'.get id' ∨
      (store'.set id (store'.get id).markJumpTables.1).get id' =
        (store'.get id').markJumpTables.1 := by
    by_cases heq : id = id'
    · subst heq
      by_cases hid : id < store'.size
      · exact .inr (store'.get_set_self _ id hid)
      · have hout : store'.size ≤ id := Nat.not_lt.mp hid
        rw [store'.get_of_le id hout]
        exact .inl (get_of_le _ id (by rw [size_set]; exact hout))
    · exact .inl (store'.get_set_ne _ id id' heq)
  refine ⟨by rw [size_set, h.size_eq], ?_, ?_⟩
  · intro id'
    rcases hget id' with hsame | hmarked
    · rw [hsame]
      exact h.same id'
    · rw [hmarked]
      exact forall₂_comp (fun i j k hij hkj => hij.trans i j k hkj) _ _ _ (h.same id')
        (Code.markJumpTables_same _).flip
  · intro id'
    rcases hget id' with hsame | hmarked
    · rw [hsame]
      exact h.marks id'
    · rw [hmarked]
      exact Code.markJumpTables_marks _ (h.marks id')

private theorem foldl_marked (store : CodeStore) (ids : List CodeId) (state : CodeStore × Nat)
    (hstate : store.Marked state.1) :
    store.Marked (ids.foldl (fun (store, count) id =>
      let (code, marks) := (store.get id).markJumpTables
      (store.set id code, count + marks)) state).1 := by
  induction ids generalizing state with
  | nil => exact hstate
  | cons id ids ih => exact ih _ (hstate.step store state.1 id)

/-- Marking a store that has no marks puts marks on jump tables and changes nothing else. -/
theorem markJumpTables_marked (store : CodeStore) (root : CodeId)
    (h : ∀ id, ∀ i ∈ store.get id, i.isMarked = false) :
    store.Marked (store.markJumpTables root).1 :=
  foldl_marked store (store.reachable root) (store, 0) (.refl store h)

variable {store store' : CodeStore}

/-- Codes nested in a place stay where they were. -/
theorem Marked.ordered (h : store.Marked store') (hordered : store.Ordered) : store'.Ordered := by
  intro id k hk
  rw [h.size_eq]
  obtain ⟨j, hj, hk⟩ := List.mem_flatMap.mp hk
  obtain ⟨i, hi, hij⟩ := forall₂_mem_right _ _ (h.same id) j hj
  rw [hij.bodies] at hk
  exact hordered id k (List.mem_flatMap.mpr ⟨i, hi, hk⟩)

/-- Marks are not part of a program. -/
theorem Marked.holds (h : store.Marked store') (id : CodeId) (p : Program)
    (hp : store.Holds id p) : store'.Holds id p := by
  -- Induction on the program; marks are filtered out before operands are compared.
  have hunfolds (p : Program) (code code' : Code)
      (hcode : List.Forall₂ Instruction.SameButMarks code code')
      (hp : Program.Unfolds (fun id => some (store.get id)) p code) :
      Program.Unfolds (fun id => some (store'.get id)) p code' := by
    induction hp generalizing code' with
    | intro same _ nested instructions ih =>
      refine .intro same (fun _ _ _ => rfl) ?_ ?_
      · rintro body k hbody _ ⟨⟩
        exact ih body k hbody _ rfl _ (h.same k)
      · refine forall₂_comp ?_ _ _ _ instructions hcode.flip
        intro i j j' hij hjj'
        exact ⟨hij.name_eq.trans hjj'.name_eq.symm, by rw [hjj'.operands_eq]; exact hij.operands⟩
  exact hunfolds p _ _ (h.same id) hp

end CodeStore

end CellCode
