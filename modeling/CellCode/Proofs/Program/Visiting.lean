import CellCode.Proofs.Cell.Traversal
import CellCode.Proofs.Program.Marking
import Mathlib.Data.Set.Card

/-!
# Visiting each code once

The jump tables of a store are marked code by code. The codes that wait to be visited stand on a
stack; a code that was visited before is passed over, and any other is marked and puts the codes
nested in it on the stack. A code may be nested in several places, and in itself: it is visited
once all the same, and each of its instructions is looked at once.

`Marking` is this loop, one step at a time. It reads the codes nested in a code after the code was
marked, from the store as it is by then; marks are no codes, so it visits the same places in the
same order as `CodeStore.reachable`.

## Key results

- `Code.markJumpTables_getElem?`, `Code.ncard_tables`: what is marked in one code, and how much
- `CodeStore.nodup_reachable`, `CodeStore.mem_reachable`: the places reached are visited once each
- `Marking.step_keeps`, `Marking.run_of_measure`: the loop ends, and comes to what
  `CodeStore.markJumpTables` returns
- `CodeStore.markJumpTables_exact`: what is marked in a graph of codes, and that nothing is left
  to be marked
-/

namespace CellCode

/-! ## One code -/

namespace Code

/-- In this place stands a constant dictionary that the next instruction jumps through, and it is
    not marked. -/
def HasTable (code : Code) (k : Nat) : Prop :=
  ∃ first second, code[k]? = some first ∧ code[k + 1]? = some second ∧
    first.name ∈ dictionaryConstants ∧ second.name ∈ dictionaryJumps ∧ first.isMarked = false

/-- Two instructions need a mark as a dictionary that is pushed and jumped through. -/
theorem needsMark_iff (first second : Instruction CodeId) :
    needsMark first second ↔ first.name ∈ dictionaryConstants ∧ second.name ∈ dictionaryJumps ∧
      first.isMarked = false := by
  simp only [needsMark, Bool.and_eq_true, List.contains_iff_mem, Bool.not_eq_true', and_assoc]

theorem not_hasTable_nil (k : Nat) : ¬ HasTable [] k := by
  rintro ⟨first, second, hfirst, _⟩
  cases hfirst

/-- A jump table takes two instructions. -/
theorem not_hasTable_single (i : Instruction CodeId) (k : Nat) : ¬ HasTable [i] k := by
  rintro ⟨first, second, _, hsecond, _⟩
  cases hsecond

/-- At the front stands a jump table if the first two instructions make one. -/
theorem hasTable_zero (first second : Instruction CodeId) (rest : Code) :
    HasTable (first :: second :: rest) 0 ↔ needsMark first second := by
  rw [needsMark_iff]
  constructor
  · rintro ⟨_, _, ⟨⟩, ⟨⟩, h⟩
    exact h
  · intro h
    exact ⟨first, second, rfl, rfl, h⟩

/-- Behind the first instruction the places count from the rest. -/
theorem hasTable_succ (first : Instruction CodeId) (rest : Code) (k : Nat) :
    HasTable (first :: rest) (k + 1) ↔ HasTable rest k := Iff.rfl

/-- A mark is put where a jump table stands, and all else stays as it is. -/
theorem markJumpTables_getElem? (code : Code) (k : Nat) :
    (code.HasTable k → code.markJumpTables.1[k]? = code[k]?.map Instruction.mark) ∧
      (¬ code.HasTable k → code.markJumpTables.1[k]? = code[k]?) := by
  -- Induction on the code, which marks the first instruction by the one behind it.
  induction code generalizing k with
  | nil => exact ⟨fun h => absurd h (not_hasTable_nil k), fun _ => rfl⟩
  | cons first rest ih =>
    cases rest with
    | nil => exact ⟨fun h => absurd h (not_hasTable_single first k), fun _ => rfl⟩
    | cons second rest =>
      rw [markJumpTables_cons]
      cases k with
      | zero =>
        rw [hasTable_zero]
        exact ⟨fun h => by rw [if_pos h]; rfl, fun h => by rw [if_neg h]; rfl⟩
      | succ k =>
        rw [hasTable_succ]
        exact ih k

/-- A code has finitely many jump tables. -/
theorem finite_tables (code : Code) : {k | code.HasTable k}.Finite := by
  refine (Set.finite_lt_nat code.length).subset ?_
  rintro k ⟨first, second, hfirst, _⟩
  exact (List.getElem?_eq_some_iff.mp hfirst).1

/-- The marks that are put are counted. -/
theorem ncard_tables (code : Code) : {k | code.HasTable k}.ncard = code.markJumpTables.2 := by
  -- Induction on the code: a jump table stands at the front or behind it.
  induction code with
  | nil => simp [not_hasTable_nil, markJumpTables]
  | cons first rest ih =>
    cases rest with
    | nil => simp [not_hasTable_single, markJumpTables]
    | cons second rest =>
      -- The jump tables of the rest are moved on by one place, which keeps their number.
      have hshift : (Nat.succ '' {k | HasTable (second :: rest) k}).ncard =
          (markJumpTables (second :: rest)).2 := by
        rw [Set.ncard_image_of_injective _ Nat.succ_injective, ih]
      -- Marks behind the first instruction are those of the rest, one place later.
      by_cases hneeds : needsMark first second
      · -- The front is one more.
        have hset : {k | HasTable (first :: second :: rest) k} =
            insert 0 (Nat.succ '' {k | HasTable (second :: rest) k}) := by
          ext k
          cases k with
          | zero => simp [hasTable_zero, hneeds]
          | succ k => simp [hasTable_succ]
        have hfinite := (finite_tables (second :: rest)).image Nat.succ
        rw [hset, Set.ncard_insert_of_notMem (by simp) hfinite, hshift, markJumpTables]
        simp [hneeds]
      · -- The front is none.
        have hset : {k | HasTable (first :: second :: rest) k} =
            Nat.succ '' {k | HasTable (second :: rest) k} := by
          ext k
          cases k with
          | zero => simp [hasTable_zero, hneeds]
          | succ k => simp [hasTable_succ]
        rw [hset, hshift, markJumpTables]
        simp [hneeds]

/-- Marks are not nested codes. -/
theorem bodies_markJumpTables (code : Code) : code.markJumpTables.1.bodies = code.bodies := by
  -- Instruction by instruction a mark leaves the nested codes as they are.
  have hsame := markJumpTables_same code
  generalize code.markJumpTables.1 = marked at hsame
  rw [bodies, bodies]
  induction hsame with
  | nil => rfl
  | cons hij _ ih => rw [List.flatMap_cons, List.flatMap_cons, hij.bodies, ih]

/-- In a marked code nothing is left to be marked. -/
theorem markJumpTables_again (code : Code) :
    code.markJumpTables.1.markJumpTables = (code.markJumpTables.1, 0) := by
  -- Induction on the code. Whether the first instruction needs a mark depends on the second, which
  -- only its name decides.
  induction code with
  | nil => rfl
  | cons first rest ih =>
    cases rest with
    | nil => rfl
    | cons second rest =>
      obtain ⟨second', rest', hsecond, _, hmarked⟩ :=
        List.forall₂_cons_left_iff.mp (markJumpTables_same (second :: rest))
      -- The first instruction is marked by now, or it is none that needs a mark.
      have hneeds : needsMark (if needsMark first second then first.mark else first) second' =
          false := by
        rw [Bool.eq_false_iff]
        intro h
        rw [needsMark_iff, hsecond.name_eq] at h
        split at h
        · have hmark : first.mark.isMarked = true := by
            simp [Instruction.mark, Instruction.isMarked, Operand.isMarker]
          rw [hmark] at h
          cases h.2.2
        · rename_i hnot
          exact hnot ((needsMark_iff first second).mpr h)
      rw [markJumpTables_cons, hmarked, markJumpTables]
      rw [hmarked] at ih
      simp [hneeds, ih]

end Code

namespace CodeStore

/-! ## The places reached -/

/-- The place itself, and every place whose code is nested below it. -/
inductive Reaches (store : CodeStore) : CodeId → CodeId → Prop
  | self (id : CodeId) : Reaches store id id
  | body {id k last : CodeId} (nested : k ∈ (store.get id).bodies) (below : Reaches store k last) :
      Reaches store id last

/-- Every code that is nested in another has a place. -/
def Closed (store : CodeStore) : Prop := ∀ id, ∀ k ∈ (store.get id).bodies, k < store.size

variable {store store' : CodeStore}

/-- Where no code stands nothing is nested. -/
theorem lt_of_mem_bodies (id k : CodeId) (h : k ∈ (store.get id).bodies) : id < store.size := by
  rw [← not_le]
  intro hle
  rw [store.get_of_le id hle] at h
  cases h

/-- Whatever is reached from a place that there is, is a place that there is. -/
theorem Closed.lt (h : store.Closed) (id last : CodeId) (hid : id < store.size)
    (hlast : store.Reaches id last) : last < store.size := by
  -- Induction on the way.
  induction hlast with
  | self id => exact hid
  | body nested _ ih => exact ih (h _ _ nested)

/-- Only places that were not visited yet are visited, each of them once, and they are reached from
    those that wait. -/
theorem visits_sound (unvisited waiting : List CodeId) (hnodup : unvisited.Nodup) :
    (store.visits unvisited waiting).Nodup ∧ ∀ id ∈ store.visits unvisited waiting,
      id ∈ unvisited ∧ ∃ first ∈ waiting, store.Reaches first id := by
  -- Induction along the visits: nothing waits, the next place is new, or it was visited.
  fun_induction visits store unvisited waiting with
  | case1 unvisited => exact ⟨.nil, nofun⟩
  | case2 unvisited id waiting hid ih =>
    obtain ⟨hrest, hreached⟩ := ih (hnodup.erase id)
    refine ⟨List.nodup_cons.mpr ⟨?_, hrest⟩, ?_⟩
    · -- It was removed from the unvisited places, so it is not visited again.
      intro hmem
      exact (hnodup.mem_erase_iff.mp (hreached id hmem).1).1 rfl
    · -- A place that is visited later waited then: it waits now, or it is nested in the place
      -- that is visited.
      intro k hk
      rcases List.mem_cons.mp hk with rfl | hk
      · exact ⟨hid, k, List.mem_cons_self, .self k⟩
      · obtain ⟨hmem, first, hfirst, hreaches⟩ := hreached k hk
        refine ⟨List.mem_of_mem_erase hmem, ?_⟩
        rcases List.mem_append.mp hfirst with hbody | hwaiting
        · exact ⟨id, List.mem_cons_self, .body (List.mem_reverse.mp hbody) hreaches⟩
        · exact ⟨first, List.mem_cons_of_mem _ hwaiting, hreaches⟩
  | case3 unvisited id waiting _ ih =>
    obtain ⟨hrest, hreached⟩ := ih hnodup
    refine ⟨hrest, ?_⟩
    intro k hk
    obtain ⟨hmem, first, hfirst, hreaches⟩ := hreached k hk
    exact ⟨hmem, first, List.mem_cons_of_mem _ hfirst, hreaches⟩

/-- Of the places that were not visited yet, those that wait are visited, and so are those whose
    code is nested in a code that is visited. -/
theorem visits_complete (unvisited waiting : List CodeId) :
    (∀ id ∈ waiting, id ∈ unvisited → id ∈ store.visits unvisited waiting) ∧
      ∀ id ∈ store.visits unvisited waiting, ∀ k ∈ (store.get id).bodies,
        k ∈ unvisited → k ∈ store.visits unvisited waiting := by
  -- Induction along the visits, as before.
  fun_induction visits store unvisited waiting with
  | case1 unvisited => exact ⟨nofun, nofun⟩
  | case2 unvisited id waiting hid ih =>
    obtain ⟨hwaiting, hnested⟩ := ih
    -- A place is the one that is visited here, or it is still among the others.
    have hcons (k : CodeId) (hk : k ∈ unvisited)
        (h : k ≠ id → k ∈ unvisited.erase id → k ∈ store.visits (unvisited.erase id)
          ((store.get id).bodies.reverse ++ waiting)) :
        k ∈ id :: store.visits (unvisited.erase id) ((store.get id).bodies.reverse ++ waiting) := by
      by_cases heq : k = id
      · exact heq ▸ List.mem_cons_self
      · exact List.mem_cons_of_mem _ (h heq ((List.mem_erase_of_ne heq).mpr hk))
    constructor
    · -- What waits waits on behind the place that is visited.
      intro k hk hmem
      refine hcons k hmem fun hne hmem => hwaiting k ?_ hmem
      exact List.mem_append_right _ ((List.mem_cons.mp hk).resolve_left hne)
    · -- A code nested in the place that is visited waits from now on; any other nested one is
      -- visited by induction.
      intro last hlast k hk hmem
      refine hcons k hmem fun _ hmem => ?_
      rcases List.mem_cons.mp hlast with rfl | hlast
      · exact hwaiting k (List.mem_append_left _ (List.mem_reverse.mpr hk)) hmem
      · exact hnested last hlast k hk hmem
  -- The place in front was visited, so nothing changes for the others.
  | case3 unvisited id waiting hid ih =>
    refine ⟨?_, ih.2⟩
    intro k hk hmem
    rcases List.mem_cons.mp hk with rfl | hk
    · exact absurd hmem hid
    · exact ih.1 k hk hmem

/-- Every place is visited once. -/
theorem nodup_reachable (store : CodeStore) (root : CodeId) : (store.reachable root).Nodup :=
  (visits_sound _ _ List.nodup_range).1

/-- The places visited are those reached from the root. -/
theorem mem_reachable (root : CodeId) (hroot : root < store.size) (hclosed : store.Closed)
    (id : CodeId) : id ∈ store.reachable root ↔ store.Reaches root id := by
  obtain ⟨hwaiting, hnested⟩ := store.visits_complete (List.range store.size) [root]
  constructor
  · -- A visited place is reached from what waited at first, which is the root alone.
    intro h
    obtain ⟨_, first, hfirst, hreaches⟩ := (store.visits_sound _ _ List.nodup_range).2 id h
    rwa [List.mem_singleton.mp hfirst] at hreaches
  · intro h
    -- Along the way every place is visited because the one before was.
    have hall (first last : CodeId) (hreaches : store.Reaches first last)
        (hfirst : first ∈ store.reachable root) : last ∈ store.reachable root := by
      induction hreaches with
      | self => exact hfirst
      | body nested _ ih =>
        exact ih (hnested _ hfirst _ nested (List.mem_range.mpr (hclosed _ _ nested)))
    exact hall root id h
      (hwaiting root (List.mem_singleton_self root) (List.mem_range.mpr hroot))

/-- The order of visits depends on the nested codes only. -/
theorem visits_congr (h : ∀ id, (store'.get id).bodies = (store.get id).bodies)
    (unvisited waiting : List CodeId) :
    store'.visits unvisited waiting = store.visits unvisited waiting := by
  fun_induction visits store unvisited waiting with
  | case1 unvisited => rw [visits]
  | case2 unvisited id waiting hid ih => rw [visits, if_pos hid, h id, ih]
  | case3 unvisited id waiting hid ih => rw [visits, if_neg hid, ih]

/-! ## Marking the places one after the other -/

/-- Marks the jump tables of one code, and adds the marks to those counted before. -/
def markAt (state : CodeStore × Nat) (id : CodeId) : CodeStore × Nat :=
  (state.1.set id (state.1.get id).markJumpTables.1,
    state.2 + (state.1.get id).markJumpTables.2)

/-- Marking goes through the places in the order of the visits. -/
theorem markJumpTables_eq (store : CodeStore) (root : CodeId) :
    store.markJumpTables root = (store.reachable root).foldl markAt (store, 0) := rfl

/-- The place that is marked has the marked code. -/
theorem get_markAt_self (state : CodeStore × Nat) (id : CodeId) :
    (markAt state id).1.get id = (state.1.get id).markJumpTables.1 := by
  -- Behind the store there is no code, and nothing is marked.
  by_cases hid : id < state.1.size
  · exact get_set_self _ _ _ hid
  · have hout : state.1.size ≤ id := Nat.not_lt.mp hid
    rw [state.1.get_of_le id hout, markAt, get_of_le _ id (by rw [size_set]; exact hout)]
    rfl

theorem get_markAt_ne (state : CodeStore × Nat) (id id' : CodeId) (h : id ≠ id') :
    (markAt state id).1.get id' = state.1.get id' :=
  get_set_ne _ _ _ _ h

/-- Marking leaves all nested codes as they are. -/
theorem bodies_markAt (state : CodeStore × Nat) (id id' : CodeId) :
    ((markAt state id).1.get id').bodies = (state.1.get id').bodies := by
  by_cases h : id = id'
  · rw [← h, get_markAt_self, Code.bodies_markJumpTables]
  · rw [get_markAt_ne state id id' h]

/-- What becomes of a store whose places are marked in a row, each of them once. -/
theorem foldl_markAt (ids : List CodeId) (hnodup : ids.Nodup) (state : CodeStore × Nat) :
    (ids.foldl markAt state).1.size = state.1.size ∧
      (∀ id ∈ ids, (ids.foldl markAt state).1.get id = (state.1.get id).markJumpTables.1) ∧
      (∀ id ∉ ids, (ids.foldl markAt state).1.get id = state.1.get id) ∧
      (ids.foldl markAt state).2 =
        state.2 + (ids.map fun id => (state.1.get id).markJumpTables.2).sum := by
  -- Induction on the places: the first one is marked now, and is none of the later ones.
  induction ids generalizing state with
  | nil => exact ⟨rfl, nofun, fun _ _ => rfl, rfl⟩
  | cons first ids ih =>
    rw [List.nodup_cons] at hnodup
    obtain ⟨hsize, hmarked, hkept, hcount⟩ := ih hnodup.2 (markAt state first)
    have hother (id : CodeId) (hid : id ∈ ids) :
        (markAt state first).1.get id = state.1.get id :=
      get_markAt_ne state first id fun heq => hnodup.1 (heq ▸ hid)
    rw [List.foldl_cons]
    refine ⟨hsize.trans (size_set ..), ?_, ?_, ?_⟩
    · intro id hid
      rcases List.mem_cons.mp hid with rfl | hid
      · -- The first place is not marked again.
        rw [hkept id hnodup.1, get_markAt_self]
      · rw [hmarked id hid, hother id hid]
    · intro id hid
      rw [List.mem_cons, not_or] at hid
      rw [hkept id hid.2, get_markAt_ne state first id (Ne.symm hid.1)]
    · -- The first place is not among the others, so their marks count as before it was marked.
      have hsum : ids.map (fun id => ((markAt state first).1.get id).markJumpTables.2) =
          ids.map fun id => (state.1.get id).markJumpTables.2 :=
        List.map_congr_left fun id hid => by rw [hother id hid]
      rw [hcount, hsum, List.map_cons, List.sum_cons, markAt, Nat.add_assoc]

/-- Places in which nothing is left to be marked. -/
theorem foldl_markAt_of_marked (ids : List CodeId) (state : CodeStore × Nat)
    (h : ∀ id ∈ ids, (state.1.get id).markJumpTables = (state.1.get id, 0)) :
    ids.foldl markAt state = state := by
  -- Putting back the code that a place has changes nothing.
  have hset (id : CodeId) : state.1.set id (state.1.get id) = state.1 := by
    by_cases hid : id < state.1.codes.size
    · simp [set, get, Array.getD_eq_getD_getElem?, Array.setIfInBounds, hid]
    · simp [set, Array.setIfInBounds, hid]
  -- Induction on the places: nothing is put into the first, and no mark is counted.
  induction ids with
  | nil => rfl
  | cons first ids ih =>
    rw [List.forall_mem_cons] at h
    rw [List.foldl_cons, markAt, h.1, hset, Nat.add_zero]
    exact ih h.2

/-- The marks put in different places are counted together. -/
theorem ncard_tables (store : CodeStore) (ids : List CodeId) (hnodup : ids.Nodup) :
    {p : CodeId × Nat | p.1 ∈ ids ∧ (store.get p.1).HasTable p.2}.Finite ∧
      {p : CodeId × Nat | p.1 ∈ ids ∧ (store.get p.1).HasTable p.2}.ncard =
        (ids.map fun id => (store.get id).markJumpTables.2).sum := by
  -- Induction on the places: their jump tables are those of the first and those of the others.
  induction ids with
  | nil => simp
  | cons first ids ih =>
    rw [List.nodup_cons] at hnodup
    obtain ⟨hfinite, hcount⟩ := ih hnodup.2
    have hset : {p : CodeId × Nat | p.1 ∈ first :: ids ∧ (store.get p.1).HasTable p.2} =
        Prod.mk first '' {k | (store.get first).HasTable k} ∪
          {p : CodeId × Nat | p.1 ∈ ids ∧ (store.get p.1).HasTable p.2} := by
      ext ⟨id, k⟩
      simp only [List.mem_cons, Set.mem_ofPred_eq, Set.mem_union, Set.mem_image, Prod.mk.injEq]
      grind
    -- The first place is not among the others, so no jump table is counted twice.
    have hdisjoint : Disjoint (Prod.mk first '' {k | (store.get first).HasTable k})
        {p : CodeId × Nat | p.1 ∈ ids ∧ (store.get p.1).HasTable p.2} := by
      rw [Set.disjoint_left]
      rintro _ ⟨k, _, rfl⟩ ⟨hmem, _⟩
      exact hnodup.1 hmem
    have hfirst := (store.get first).finite_tables.image (Prod.mk first)
    refine ⟨hset ▸ hfirst.union hfinite, ?_⟩
    rw [hset, Set.ncard_union_eq hdisjoint hfirst hfinite, hcount,
      Set.ncard_image_of_injective _ (Prod.mk_right_injective first), Code.ncard_tables,
      List.map_cons, List.sum_cons]

/-- The number of places in which codes are nested. -/
def nestings (store : CodeStore) : Nat :=
  ((List.range store.size).map fun id => (store.get id).bodies.length).sum

end CodeStore

/-! ## The loop -/

/-- Marking between two steps: the store and the marks put so far, the places visited, the last one
    first, and the places that wait, the next one first. -/
structure Marking where
  state : CodeStore × Nat
  visited : List CodeId
  waiting : List CodeId

namespace Marking

open CodeStore

/-- A marking that has the root before it. -/
def start (store : CodeStore) (root : CodeId) : Marking := ⟨(store, 0), [], [root]⟩

/-- One step: the code in front is marked, and the codes nested in it come to the front, the last
    one first. A code that was visited before is passed over. -/
def step (m : Marking) : Option Marking :=
  match m.waiting with
  | [] => none
  | id :: waiting =>
    if id ∈ m.visited then some { m with waiting := waiting }
    else
      let state := markAt m.state id
      some ⟨state, id :: m.visited, (state.1.get id).bodies.reverse ++ waiting⟩

/-- What was marked, and the places in the order in which they were visited, if the marking ends
    within `n` steps. -/
def run (n : Nat) (m : Marking) : Option ((CodeStore × Nat) × List CodeId) :=
  (Cell.runLoop step n m).map fun last => (last.state, last.visited.reverse)

/-- The places that were not visited. -/
def unvisited (m : Marking) : List CodeId := (List.range m.state.1.size).filter (· ∉ m.visited)

/-- The places that will be visited. -/
def ahead (m : Marking) : List CodeId := m.state.1.visits m.unvisited m.waiting

/-- What the marking comes to. -/
def outcome (m : Marking) : (CodeStore × Nat) × List CodeId :=
  (m.ahead.foldl markAt m.state, m.visited.reverse ++ m.ahead)

/-- What is left to do: the places that wait, and the codes nested in places not visited yet. -/
def measure (m : Marking) : Nat :=
  m.waiting.length + (m.unvisited.map fun id => (m.state.1.get id).bodies.length).sum

/-- Only places that there are wait. -/
structure Inv (m : Marking) : Prop where
  closed : m.state.1.Closed
  waiting : ∀ id ∈ m.waiting, id < m.state.1.size

/-- A place that was visited is passed over. -/
theorem step_of_visited (state : CodeStore × Nat) (visited waiting : List CodeId) (id : CodeId)
    (h : id ∈ visited) : step ⟨state, visited, id :: waiting⟩ = some ⟨state, visited, waiting⟩ := by
  simp only [step, if_pos h]

/-- A new place is marked, and its nested codes wait in front. -/
theorem step_of_new (state : CodeStore × Nat) (visited waiting : List CodeId) (id : CodeId)
    (h : id ∉ visited) : step ⟨state, visited, id :: waiting⟩ =
      some ⟨markAt state id, id :: visited,
        ((markAt state id).1.get id).bodies.reverse ++ waiting⟩ := by
  simp only [step, if_neg h]

/-- A step leaves less to do and comes to the same; without a step nothing is left. -/
theorem step_keeps (m : Marking) (h : m.Inv) :
    match m.step with
    | some m' => m'.measure < m.measure ∧ m'.Inv ∧ m'.outcome = m.outcome
    | none => m.outcome = (m.state, m.visited.reverse) := by
  obtain ⟨state, visited, waiting⟩ := m
  obtain ⟨hclosed, hwaiting⟩ := h
  cases waiting with
  -- Nothing waits, so nothing is ahead.
  | nil => simp [step, outcome, ahead, visits]
  | cons id waiting =>
    rw [List.forall_mem_cons] at hwaiting
    -- A code that was visited is passed over. Any other is marked, and its bodies wait on top.
    by_cases hvisited : id ∈ visited
    · rw [step_of_visited state visited waiting id hvisited]
      have hahead : ahead ⟨state, visited, id :: waiting⟩ = ahead ⟨state, visited, waiting⟩ := by
        simp only [ahead, unvisited]
        rw [visits, if_neg (by simp [hvisited])]
      refine ⟨?_, ⟨hclosed, hwaiting.2⟩, ?_⟩
      · simp [measure, unvisited]
      · rw [outcome, outcome, hahead]
    · rw [step_of_new state visited waiting id hvisited]
      have hmem : id ∈ unvisited ⟨state, visited, id :: waiting⟩ := by
        simp [unvisited, hvisited, hwaiting.1]
      have hnodup : (unvisited ⟨state, visited, id :: waiting⟩).Nodup := List.nodup_range.filter _
      have hsize : (markAt state id).1.size = state.1.size := size_set ..
      have hbodies := bodies_markAt state id
      -- Marking leaves the bodies as they are, so only this code stops being unvisited.
      have hunvisited (waiting' : List CodeId) :
          unvisited ⟨markAt state id, id :: visited, waiting'⟩ =
            (unvisited ⟨state, visited, id :: waiting⟩).erase id := by
        rw [hnodup.erase_eq_filter, unvisited, unvisited, List.filter_filter, hsize]
        apply List.filter_congr
        intro k _
        by_cases heq : k = id <;> simp [heq]
      -- The new place is the next visit, and behind it nothing changes but what waits.
      have hahead : ahead ⟨state, visited, id :: waiting⟩ = id :: ahead ⟨markAt state id,
          id :: visited, ((markAt state id).1.get id).bodies.reverse ++ waiting⟩ := by
        rw [ahead, ahead, visits, if_pos hmem, hunvisited, visits_congr hbodies, hbodies id]
      refine ⟨?_, ⟨?_, ?_⟩, ?_⟩
      · -- What starts to wait is made up for by what the code no longer adds to the measure.
        have hsum := List.sum_map_erase (fun id => (state.1.get id).bodies.length) hmem
        simp only [measure, hunvisited, hbodies, List.length_append, List.length_reverse,
          List.length_cons] at hsum ⊢
        omega
      · -- The nested codes are those of before, so they still have places.
        intro first k hk
        rw [hsize]
        exact hclosed first k (hbodies first ▸ hk)
      · -- What waits is a nested code or waited before.
        intro k hk
        rw [hsize]
        rcases List.mem_append.mp hk with hk | hk
        · rw [List.mem_reverse, hbodies] at hk
          exact hclosed id k hk
        · exact hwaiting.2 k hk
      · rw [outcome, outcome, hahead, List.foldl_cons, List.reverse_cons, List.append_assoc]
        rfl

/-- After more steps than the measure allows the marking has ended, with what it comes to. -/
theorem run_of_measure (n : Nat) (m : Marking) (h : m.Inv) (hn : m.measure < n) :
    m.run n = some m.outcome := by
  -- Along the run the invariant holds and the outcome stays that of the start.
  have hstep (s s' : Marking) (hs : s.Inv ∧ s.outcome = m.outcome) (hnext : s.step = some s') :
      s'.measure < s.measure ∧ s'.Inv ∧ s'.outcome = m.outcome := by
    have hkeeps := s.step_keeps hs.1
    rw [hnext] at hkeeps
    exact ⟨hkeeps.1, hkeeps.2.1, hkeeps.2.2.trans hs.2⟩
  obtain ⟨last, hrun, ⟨hlast, houtcome⟩, hend⟩ :=
    Cell.runLoop_of_measure step measure _ hstep n m ⟨h, rfl⟩ hn
  have hkeeps := last.step_keeps hlast
  rw [hend] at hkeeps
  rw [run, hrun, ← houtcome, hkeeps]
  rfl

end Marking

/-! ## Marking a graph of codes -/

namespace CodeStore

variable {store : CodeStore}

/-- The second store is the first one with one mark more on each jump table that was not marked, in
    the places reached from the root. -/
structure MarkedBelow (store : CodeStore) (root : CodeId) (store' : CodeStore) : Prop where
  size_eq : store'.size = store.size
  marked : ∀ id k, store.Reaches root id → (store.get id).HasTable k →
    (store'.get id)[k]? = (store.get id)[k]?.map Instruction.mark
  kept : ∀ id k, ¬ (store.Reaches root id ∧ (store.get id).HasTable k) →
    (store'.get id)[k]? = (store.get id)[k]?

/-- Marking changes the first store as `MarkedBelow` says. -/
theorem markJumpTables_below (root : CodeId) (hroot : root < store.size)
    (hclosed : store.Closed) : store.MarkedBelow root (store.markJumpTables root).1 := by
  obtain ⟨hsize, hmarked, hkept, _⟩ :=
    foldl_markAt _ (store.nodup_reachable root) (store, 0)
  have hmem := mem_reachable root hroot hclosed
  refine ⟨hsize, ?_, ?_⟩
  · -- A place that is reached is marked, where a jump table stands.
    intro id k hreaches htable
    rw [markJumpTables_eq, hmarked id ((hmem id).mpr hreaches)]
    exact ((store.get id).markJumpTables_getElem? k).1 htable
  · intro id k hnot
    -- Other places of a reached code are kept, and so are all codes that are not reached.
    by_cases hreaches : store.Reaches root id
    · rw [markJumpTables_eq, hmarked id ((hmem id).mpr hreaches)]
      exact ((store.get id).markJumpTables_getElem? k).2 fun htable => hnot ⟨hreaches, htable⟩
    · rw [markJumpTables_eq, hkept id fun h => hreaches ((hmem id).mp h)]

/-- Marking the jump tables of a finite graph of codes, whatever is nested in what. The loop ends,
    it visits each place reached from the root once, and it comes to what `markJumpTables` returns:
    every instruction in a place reached from the root that pushes a constant dictionary for the
    next instruction to jump through, and is not marked, gets one mark; nothing else is changed; and
    the marks are counted. Marking again finds nothing to be marked and changes nothing. -/
theorem markJumpTables_exact (store : CodeStore) (root : CodeId) (hroot : root < store.size)
    (hclosed : store.Closed) :
    (∀ n, store.nestings + 1 < n → (Marking.start store root).run n =
      some (store.markJumpTables root, store.reachable root)) ∧
    (store.reachable root).Nodup ∧ (∀ id, id ∈ store.reachable root ↔ store.Reaches root id) ∧
    store.MarkedBelow root (store.markJumpTables root).1 ∧
    (store.markJumpTables root).2 = {p : CodeId × Nat | store.Reaches root p.1 ∧
      (store.get p.1).HasTable p.2}.ncard ∧
    (store.markJumpTables root).1.markJumpTables root = ((store.markJumpTables root).1, 0) := by
  have hnodup := store.nodup_reachable root
  have hmem := mem_reachable root hroot hclosed
  obtain ⟨hsize, hmarked, hkept, hcount⟩ := foldl_markAt _ hnodup (store, 0)
  rw [← markJumpTables_eq] at hsize hmarked hkept hcount
  refine ⟨?_, hnodup, hmem, markJumpTables_below root hroot hclosed, ?_, ?_⟩
  · -- At the start one place waits and none was visited, so the measure counts the root and all
    -- nested codes.
    intro n hn
    have hunvisited : (Marking.start store root).unvisited = List.range store.size := by
      simp [Marking.unvisited, Marking.start]
    have hinv : (Marking.start store root).Inv := ⟨hclosed, by simpa [Marking.start] using hroot⟩
    have hmeasure : (Marking.start store root).measure = store.nestings + 1 := by
      rw [Marking.measure, hunvisited, Nat.add_comm]
      rfl
    rw [Marking.run_of_measure n _ hinv (by omega), Marking.outcome, Marking.ahead, hunvisited]
    rfl
  · -- The marks put are those of the jump tables in the visited places.
    rw [hcount, Nat.zero_add, ← (store.ncard_tables _ hnodup).2]
    simp only [hmem]
  · -- The second time the same places are visited, and each of them is marked.
    -- The nested codes are the same in the marked store, so the visits are.
    have hbodies (id : CodeId) :
        ((store.markJumpTables root).1.get id).bodies = (store.get id).bodies := by
      by_cases hid : id ∈ store.reachable root
      · rw [hmarked id hid, Code.bodies_markJumpTables]
      · rw [hkept id hid]
    have hreachable : (store.markJumpTables root).1.reachable root = store.reachable root := by
      rw [reachable, reachable, hsize, visits_congr hbodies]
    rw [markJumpTables_eq (store.markJumpTables root).1, hreachable]
    apply foldl_markAt_of_marked
    intro id hid
    rw [hmarked id hid, Code.markJumpTables_again]

/-! ## Codes nested in each other -/

/-- A code that pushes a table and has another nested in it twice. There a table is marked already,
    and the first code is nested in turn. A third code is nested nowhere. -/
def nestedTables : CodeStore := ⟨#[
  [⟨"DICTPUSHCONST", [.integer 1]⟩, ⟨"DICTUGETJMP", []⟩, ⟨"IFELSE", [.code 1 none, .code 1 none]⟩],
  [⟨"PFXDICTSWITCH", [.integer 2, .marker]⟩, ⟨"DICTUGETJMPZ", []⟩, ⟨"PUSHCONT", [.code 0 none]⟩],
  [⟨"DICTPUSHCONST", [.integer 1]⟩, ⟨"DICTUGETJMP", []⟩]]⟩

/-- One table gets a mark. -/
def markedTables : CodeStore := ⟨#[
  [⟨"DICTPUSHCONST", [.integer 1, .marker]⟩, ⟨"DICTUGETJMP", []⟩,
    ⟨"IFELSE", [.code 1 none, .code 1 none]⟩],
  [⟨"PFXDICTSWITCH", [.integer 2, .marker]⟩, ⟨"DICTUGETJMPZ", []⟩, ⟨"PUSHCONT", [.code 0 none]⟩],
  [⟨"DICTPUSHCONST", [.integer 1]⟩, ⟨"DICTUGETJMP", []⟩]]⟩

private theorem reachable_nestedTables : nestedTables.reachable 0 = [0, 1] := by cbv

private theorem markJumpTables_nestedTables :
    nestedTables.markJumpTables 0 = (markedTables, 1) := by
  rw [markJumpTables_eq, reachable_nestedTables]
  rfl

private theorem closed_nestedTables : nestedTables.Closed := by
  intro id k hk
  have hid := lt_of_mem_bodies id k hk
  have hall : ∀ id < nestedTables.size, ∀ k ∈ (nestedTables.get id).bodies,
      k < nestedTables.size := by decide
  exact hall id hid k hk

/-- The loop marks the table in the first code, although that code comes back, and marking again
    changes nothing. -/
theorem markJumpTables_exact_nestedTables :
    0 < nestedTables.size ∧ nestedTables.Closed ∧
      (Marking.start nestedTables 0).run 5 = some ((markedTables, 1), [0, 1]) ∧
      {p : CodeId × Nat | nestedTables.Reaches 0 p.1 ∧
        (nestedTables.get p.1).HasTable p.2}.ncard = 1 ∧
      markedTables.markJumpTables 0 = (markedTables, 0) := by
  have hroot : 0 < nestedTables.size := by decide
  obtain ⟨hrun, -, -, -, hcount, hagain⟩ :=
    markJumpTables_exact nestedTables 0 hroot closed_nestedTables
  have hrun := hrun 5 (by decide)
  rw [markJumpTables_nestedTables] at hrun hcount hagain
  rw [reachable_nestedTables] at hrun
  exact ⟨hroot, closed_nestedTables, hrun, hcount.symm, hagain⟩

end CodeStore

end CellCode
