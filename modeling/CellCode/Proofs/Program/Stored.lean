import CellCode.Proofs.Listing.Reading
import CellCode.Proofs.Program.Decoded
import CellCode.Proofs.Program.Marking
import CellCode.Proofs.Program.Recursive
import Mathlib.Data.List.Perm.Subperm

/-!
# Loaded stores

The instructions of a store that was loaded have proper names, equal cells are led to one place, and
codes nest no deeper than there are places. Marking jump tables changes none of this.

## Key results

- `loadCode_named`: the instructions that were loaded have proper names
- `CodeStore.nestsWithin`: the codes of a program nest no deeper than there are places
- `CodeStore.Marked.named`, `CodeStore.Marked.shared`: marks change neither names nor places
-/

namespace CellCode

/-! ## The names of loaded instructions -/

/-- A decoded instruction has the name of an entry of the table. -/
theorem Instruction.Formed.isName (i : Instruction Cell) (h : i.Formed) :
    Listing.IsName i.name := by
  obtain ⟨format, hmem, hname, _⟩ := h
  obtain ⟨c, hc, hstart, hrest⟩ := instructions_named format hmem
  rw [hname]
  exact ⟨c, format.name.toList.tail, (List.cons_head?_tail hc).symm, hstart, hrest⟩

/-- All instructions of the store have proper names. -/
def CodeStore.Named (store : CodeStore) : Prop :=
  ∀ id, ∀ i ∈ store.get id, Listing.IsName i.name

namespace Loader.Work

private theorem names_placeCode (w : Work) (is : List (Instruction Cell)) :
    (w.placeCode is).1.map (·.name) = is.map (·.name) := by
  induction is generalizing w with
  | nil => rfl
  | cons i is ih => simp [placeCode, ih]

/-- What is decoded has proper names, even if the work breaks off. -/
private theorem run_named (w : Work) (h : w.loader.store.Named) : (run w).1.store.Named := by
  have hfill (w : Work) (pending : List (CodeId × Slice)) (id : CodeId) (s : Slice)
      (operands : List (Operand Cell)) (h : w.loader.store.Named) :
      let placed := ({ w with pending := pending } : Work).placeCode (Decode.scan s).instructions
      ((placed.2.placeAll operands).2.fill id placed.1).loader.store.Named := by
    intro placed id' j hj
    have hgrows := (({ w with pending := pending } : Work).grows_placeCode
      (Decode.scan s).instructions).trans (placed.2.grows_placeAll operands)
    rcases CodeStore.mem_get_set _ _ _ _ _ hj with hj | hj
    · -- A placed instruction has the name of a decoded one.
      have hname := List.mem_map_of_mem (f := (·.name)) hj
      rw [names_placeCode] at hname
      obtain ⟨i, hi, hsame⟩ := List.mem_map.mp hname
      rw [← hsame]
      exact (Decode.scan_formed s i hi).isName
    · rw [hgrows.get_eq] at hj
      exact h id' j hj
  fun_induction run w with
  | case1 => exact h
  | case2 w id s pending hpending scanned placed hfailure ih => exact ih (hfill w pending id s [] h)
  | case3 w id s pending hpending scanned placed e operands hfailure =>
    exact hfill w pending id s operands h

end Loader.Work

/-- The instructions that were loaded have proper names. -/
theorem loadCode_named (s : Slice) (collapse : Bool) (store : CodeStore) (root : CodeId)
    (h : loadCode s collapse = .ok (store, root)) : store.Named := by
  obtain ⟨_, rfl⟩ := (loadCode_eq_ok s collapse store root).mp h
  rw [Loader.load_eq]
  apply Loader.Work.run_named
  intro id i hi
  rw [Loader.get_begin] at hi
  cases hi

/-! ## Marked stores -/

namespace CodeStore

/-- Marks do not change what the codes nested in a place came from. -/
theorem Marked.shared {store store' : CodeStore} (h : store.Marked store')
    (hshared : store.Shared) : store'.Shared := by
  have hback (id : CodeId) (j : Instruction CodeId) (k : CodeId) (c : Cell)
      (hj : j ∈ store'.get id) (hk : .code k (some c) ∈ j.operands) :
      ∃ i ∈ store.get id, .code k (some c) ∈ i.operands := by
    obtain ⟨i, hi, hij⟩ := forall₂_mem_right _ _ (h.same id) j hj
    have hmem : .code k (some c) ∈ j.operands.filter (!·.isMarker) :=
      List.mem_filter.mpr ⟨hk, rfl⟩
    rw [hij.operands_eq] at hmem
    exact ⟨i, hi, List.mem_of_mem_filter hmem⟩
  intro id id' j j' k k' c c' hj hj' hk hk'
  obtain ⟨i, hi, hk⟩ := hback id j k c hj hk
  obtain ⟨i', hi', hk'⟩ := hback id' j' k' c' hj' hk'
  exact hshared id id' i i' k k' c c' hi hi' hk hk'

theorem Marked.named {store store' : CodeStore} (h : store.Marked store')
    (hnamed : store.Named) : store'.Named := by
  intro id j hj
  obtain ⟨i, hi, hij⟩ := forall₂_mem_right _ _ (h.same id) j hj
  rw [hij.name_eq]
  exact hnamed id i hi

/-! ## How deep codes nest -/

/-- The code of a place, and codes nested in it fewer than `depth` levels deep. -/
def NestsWithin (store : CodeStore) : (depth : Nat) → CodeId → Prop
  | 0, _ => False
  | depth + 1, id => ∀ i ∈ store.get id, ∀ k source, .code k source ∈ i.operands →
      store.NestsWithin depth k

/-- A nested code holds a smaller program. -/
theorem Holds.nested (store : CodeStore) (id : CodeId) (p : Program) (h : store.Holds id p)
    (i : Instruction CodeId) (hi : i ∈ store.get id) (k : CodeId) (source : Option Cell)
    (hk : .code k source ∈ i.operands) : ∃ body, store.Holds k body ∧ sizeOf body < sizeOf p := by
  obtain ⟨j, hj, hij⟩ := forall₂_mem_right _ _ ((store.holds_iff id p).mp h) i hi
  obtain ⟨o, ho, hcode⟩ := forall₂_mem_right _ _ hij.operands (.code k source)
    (List.mem_filter.mpr ⟨hk, rfl⟩)
  cases hcode with
  | @code body _ _ hbody =>
    refine ⟨body, hbody, ?_⟩
    have hinstruction := List.sizeOf_lt_of_mem hj
    have hoperand := List.sizeOf_lt_of_mem ho
    cases j with
    | mk name operands =>
      simp only [Program.Instruction.operands, Program.Instruction.mk.sizeOf_spec,
        Program.Operand.code.sizeOf_spec] at hinstruction hoperand
      omega

/-- The places on the way to a nested code hold larger programs one than the next, so no place
    occurs on it twice and the way is no longer than the store. -/
private theorem nestsWithin_below (store : CodeStore) (depth : Nat) (id : CodeId) (p : Program)
    (h : store.Holds id p) (above : List CodeId) (hnodup : above.Nodup)
    (hlt : ∀ j ∈ above, j < store.size)
    (hlarger : ∀ j ∈ above, ∃ q, store.Holds j q ∧ sizeOf p < sizeOf q)
    (hdepth : store.size < above.length + depth) : store.NestsWithin depth id := by
  induction depth generalizing id p above with
  | zero =>
    -- The way would be longer than there are places.
    have hsub : above ⊆ List.range store.size := fun j hj => List.mem_range.mpr (hlt j hj)
    have hle := (List.subperm_of_subset hnodup hsub).length_le
    rw [List.length_range] at hle
    omega
  | succ depth ih =>
    intro i hi k source hk
    obtain ⟨body, hbody, hsmaller⟩ := h.nested store id p i hi k source hk
    have hid : id < store.size := by
      by_contra hge
      rw [store.get_of_le id (Nat.not_lt.mp hge)] at hi
      cases hi
    -- A place on the way holds a larger program than this one does.
    have hnew : id ∉ above := by
      intro hmem
      obtain ⟨q, hq, hlt⟩ := hlarger id hmem
      rw [hq.eq store id q p h] at hlt
      exact Nat.lt_irrefl _ hlt
    refine ih k body hbody (id :: above) (List.nodup_cons.mpr ⟨hnew, hnodup⟩)
      (List.forall_mem_cons.mpr ⟨hid, hlt⟩) (List.forall_mem_cons.mpr ⟨⟨p, h, hsmaller⟩, ?_⟩) ?_
    · intro j hj
      obtain ⟨q, hq, hlarge⟩ := hlarger j hj
      exact ⟨q, hq, Nat.lt_trans hsmaller hlarge⟩
    · rw [List.length_cons]
      omega

/-- The codes of a program nest no deeper than there are places. -/
theorem nestsWithin (store : CodeStore) (id : CodeId) (p : Program) (h : store.Holds id p) :
    store.NestsWithin (store.size + 1) id :=
  store.nestsWithin_below _ id p h [] .nil (by simp) (by simp) (by simp)

end CodeStore

end CellCode
