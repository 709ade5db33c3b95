import CellCode.Proofs.JumpTable.Leaves

/-!
# Locating any target in any tree

The cells of a tree can be listed in tree order: each cell before what hangs below it, and what
hangs below one reference before the next. The search for a target goes through them in this order
and stops at the first one that ends with the target. At the top of the tree there may be a window
on a cell; below it there are whole cells.

## Key results

- `Slice.nodes`: the tree below a slice in tree order
- `Slice.mem_nodes`, `Slice.nodes_sorted`: it is listed completely, with ascending paths
- `endsWith?_eq_some_iff`: what it takes to end with a target
- `search_eq_findSome?`: the search takes the first cell of the list that ends with the target
- `locate_exact`: what `locate` returns, and when it fails
-/

namespace CellCode

/-! ## Trees in tree order -/

/-- The cells below a cell in tree order, each with the path that leads to it. -/
def Cell.descendants : Cell → List (Path × Cell)
  | .data _ => []
  | .link cell ref =>
    cell.descendants ++
      ([cell.refCount], ref) :: ref.descendants.map fun x => (cell.refCount :: x.1, x.2)

namespace Slice

/-- The slice at the end of a path: references are counted from the window on, and below it there
    are whole cells. -/
def follow (s : Slice) : Path → Option Slice
  | [] => some s
  | i :: path =>
    match s.refs[i]? with
    | some c => (c.follow path).map Cell.toSlice
    | none => none

/-- The slice and the cells below it in tree order, each with the path that leads to it. -/
def nodes (s : Slice) : List (Path × Slice) :=
  ([], s) :: s.toCell.descendants.map fun x => (x.1, x.2.toSlice)

end Slice

/-- Below a cell there is what its references lead to. -/
theorem Cell.mem_descendants (c : Cell) (path : Path) (d : Cell) :
    (path, d) ∈ c.descendants ↔ path ≠ [] ∧ c.follow path = some d := by
  induction c generalizing path d with
  | data bits =>
    rw [descendants]
    constructor
    · intro h
      cases h
    · rintro ⟨hne, hd⟩
      cases path with
      | nil => exact absurd rfl hne
      | cons i path => cases hd
  -- The last reference of the cell is `ref`, all others are those of `c`.
  | link c ref ihc ihref =>
    have hlast : (link c ref).refs[c.refCount]? = some ref := by
      rw [refs_link, refCount_eq, List.getElem?_concat_length]
    rw [descendants, List.mem_append, List.mem_cons, ihc]
    constructor
    · rintro (⟨hne, hd⟩ | heq | hmem)
      · refine ⟨hne, ?_⟩
        obtain ⟨i, rest, rfl⟩ := List.exists_cons_of_ne_nil hne
        rw [follow] at hd ⊢
        split at hd
        · rename_i r hr
          obtain ⟨hi, _⟩ := List.getElem?_eq_some_iff.mp hr
          rw [refs_link, List.getElem?_append_left hi, hr]
          exact hd
        · cases hd
      · cases heq
        exact ⟨List.cons_ne_nil _ _, follow_cons _ ref _ _ hlast⟩
      · obtain ⟨⟨rest, d'⟩, hx, heq⟩ := List.mem_map.mp hmem
        cases heq
        refine ⟨List.cons_ne_nil _ _, ?_⟩
        rw [follow_cons _ ref _ _ hlast]
        exact ((ihref rest d').mp hx).2
    · rintro ⟨hne, hd⟩
      obtain ⟨i, rest, rfl⟩ := List.exists_cons_of_ne_nil hne
      rcases JumpTable.follow_link c ref d i rest hd with ⟨_, hbefore⟩ | ⟨rfl, hbelow⟩
      · exact .inl ⟨List.cons_ne_nil _ _, hbefore⟩
      · cases rest with
        | nil =>
          cases hbelow
          exact .inr (.inl rfl)
        | cons j rest =>
          refine .inr (.inr (List.mem_map.mpr ⟨(j :: rest, d), ?_, rfl⟩))
          exact (ihref _ _).mpr ⟨List.cons_ne_nil _ _, hbelow⟩

/-- The paths below a cell ascend. -/
theorem Cell.descendants_sorted (c : Cell) : c.descendants.Pairwise fun x y => x.1 < y.1 := by
  induction c with
  | data bits => exact .nil
  | link c ref ihc ihref =>
    rw [descendants, List.pairwise_append]
    refine ⟨ihc, List.pairwise_cons.mpr ⟨?_, ?_⟩, ?_⟩
    · intro x hx
      obtain ⟨y, hy, rfl⟩ := List.mem_map.mp hx
      obtain ⟨hne, _⟩ := (ref.mem_descendants y.1 y.2).mp hy
      obtain ⟨j, rest, hpath⟩ := List.exists_cons_of_ne_nil hne
      rw [hpath]
      exact .cons .nil
    · rw [List.pairwise_map]
      exact ihref.imp fun h => .cons h
    · -- What hangs below the earlier references starts with a smaller index.
      intro x hx y hy
      obtain ⟨hne, hfollow⟩ := (c.mem_descendants x.1 x.2).mp hx
      obtain ⟨i, rest, hpath⟩ := List.exists_cons_of_ne_nil hne
      rw [hpath, follow] at hfollow
      split at hfollow
      · rename_i r hr
        obtain ⟨hi, _⟩ := List.getElem?_eq_some_iff.mp hr
        rw [← refCount_eq] at hi
        rw [hpath]
        rcases List.mem_cons.mp hy with rfl | hy
        · exact .rel hi
        · obtain ⟨z, _, rfl⟩ := List.mem_map.mp hy
          exact .rel hi
      · cases hfollow

namespace Slice

/-- Below its root a slice is the cell made of what remains of it. -/
theorem follow_toCell (s : Slice) (i : Nat) (path : Path) :
    s.follow (i :: path) = (s.toCell.follow (i :: path)).map Cell.toSlice := by
  rw [follow, Cell.follow, toCell, Cell.refs_mk]
  cases s.refs[i]? <;> rfl

/-- The nodes of a slice are those to which a path leads. -/
theorem mem_nodes (s : Slice) (path : Path) (node : Slice) :
    (path, node) ∈ s.nodes ↔ s.follow path = some node := by
  rw [nodes, List.mem_cons, List.mem_map]
  cases path with
  | nil =>
    rw [follow, Option.some.injEq, Prod.mk.injEq]
    constructor
    · rintro (⟨_, heq⟩ | ⟨⟨path, c⟩, hx, heq⟩)
      · exact heq.symm
      · cases heq
        exact absurd rfl ((s.toCell.mem_descendants [] c).mp hx).1
    · exact fun h => .inl ⟨rfl, h.symm⟩
  | cons i rest =>
    rw [follow_toCell, Option.map_eq_some_iff]
    constructor
    · rintro (heq | ⟨⟨path, c⟩, hx, heq⟩)
      · cases heq
      · cases heq
        exact ⟨c, ((s.toCell.mem_descendants _ _).mp hx).2, rfl⟩
    · rintro ⟨d, hd, rfl⟩
      have hmem := (s.toCell.mem_descendants _ _).mpr ⟨List.cons_ne_nil _ _, hd⟩
      exact .inr ⟨(i :: rest, d), hmem, rfl⟩

/-- They are listed with ascending paths. -/
theorem nodes_sorted (s : Slice) : s.nodes.Pairwise fun x y => x.1 < y.1 := by
  rw [nodes, List.pairwise_cons, List.pairwise_map]
  refine ⟨?_, s.toCell.descendants_sorted⟩
  intro x hx
  obtain ⟨⟨path, c⟩, hmem, rfl⟩ := List.mem_map.mp hx
  obtain ⟨i, rest, rfl⟩ := List.exists_cons_of_ne_nil ((s.toCell.mem_descendants path c).mp hmem).1
  exact .nil

/-- Below a valid slice all slices are valid. -/
theorem Valid.follow (s : Slice) (h : s.Valid) (path : Path) (node : Slice)
    (hnode : s.follow path = some node) : node.Valid := by
  cases path with
  | nil => exact Option.some.inj hnode ▸ h
  | cons i rest =>
    rw [follow_toCell, Option.map_eq_some_iff] at hnode
    obtain ⟨c, _, rfl⟩ := hnode
    exact valid_toSlice c

end Slice

namespace JumpTable

/-! ## Ending with a target -/

/-- The slice ends with the target: it has as many references as the target, pairwise with the same
    digests, and from the offset to its end stand the bits of the target. -/
structure EndsAt (node target : Slice) (offset : Nat) : Prop where
  refs : List.Forall₂ (fun c d => c.digest = d.digest) node.refs target.refs
  from_start : node.bitPos ≤ offset
  to_end : offset ≤ node.bitEnd
  bits : (node.cell.bits.drop offset).take (node.bitEnd - offset) = target.data

/-- What remains of a slice from a later bit on. -/
theorem drop_data (s : Slice) (offset : Nat) (h : s.bitPos ≤ offset) :
    s.data.drop (offset - s.bitPos) = (s.cell.bits.drop offset).take (s.bitEnd - offset) := by
  have hstart : s.bitPos + (offset - s.bitPos) = offset := by omega
  have hlen : s.bitEnd - s.bitPos - (offset - s.bitPos) = s.bitEnd - offset := by omega
  rw [Slice.data, List.drop_take, List.drop_drop, hstart, hlen]

/-- References are compared by their digests. -/
theorem sameRefs_iff (s t : Slice) (hs : s.Valid) (ht : t.Valid) :
    s.sameRefs t = true ↔ List.Forall₂ (fun c d => c.digest = d.digest) s.refs t.refs := by
  have hdigests : List.Forall₂ (fun c d => c.digest = d.digest) s.refs t.refs ↔
      s.refs.map Cell.digest = t.refs.map Cell.digest := by
    rw [← List.forall₂_eq_eq_eq, List.forall₂_map_left_iff, List.forall₂_map_right_iff]
  rw [hdigests, Slice.sameRefs, Bool.and_eq_true, beq_iff_eq, beq_iff_eq, and_iff_right_iff_imp,
    (hs.shows s).remainingRefs, (ht.shows t).remainingRefs]
  -- As many digests mean as many references.
  intro h
  have hlen := congrArg List.length h
  rw [List.length_map, List.length_map] at hlen
  rw [hlen]

/-- Ending with a target is seen as such. -/
theorem endsWith?_eq_some_iff (node target : Slice) (hnode : node.Valid) (htarget : target.Valid)
    (offset : Nat) : endsWith? node target = some offset ↔ EndsAt node target offset := by
  have hpos := hnode.bitPos_le
  have hlen : node.data.length = node.bitEnd - node.bitPos := by
    have hend := hnode.bitEnd_le
    rw [Slice.data, List.length_take, List.length_drop]
    omega
  have hsame := sameRefs_iff node target hnode htarget
  unfold endsWith?
  simp only [Option.ite_none_right_eq_some, Bool.and_eq_true, List.isSuffixOf_iff_suffix, hsame,
    Option.some.injEq]
  constructor
  · rintro ⟨⟨hrefs, front, hfront⟩, rfl⟩
    have hfrontLen := congrArg List.length hfront
    rw [List.length_append] at hfrontLen
    refine ⟨hrefs, by omega, by omega, ?_⟩
    rw [← drop_data node _ (by omega), ← hfront]
    exact List.drop_left' (by simp)
  · rintro ⟨hrefs, hstart, hend, hbits⟩
    rw [← drop_data node offset hstart] at hbits
    have htargetLen := congrArg List.length hbits
    rw [List.length_drop] at htargetLen
    refine ⟨⟨hrefs, ?_⟩, by omega⟩
    rw [← hbits]
    exact List.drop_suffix _ _

/-! ## The search -/

/-- Below a cell the search takes the first cell that ends with the target. -/
theorem searchBelow_eq_findSome? (target : Slice) (path : Path) (c : Cell) :
    searchBelow target path c = c.descendants.findSome? fun x =>
      (endsWith? x.2.toSlice target).map fun offset => (path ++ x.1, offset) := by
  -- Induction along the references, the last of them being the one in front.
  induction c generalizing path with
  | data bits => rfl
  | link c ref ihc ihref =>
    rw [searchBelow, Cell.descendants, List.findSome?_append, ← ihc, List.findSome?_cons,
      List.findSome?_map]
    cases searchBelow target path c with
    | some found => rfl
    | none =>
      rw [Option.none_or]
      cases endsWith? ref.toSlice target with
      | some offset => rfl
      | none =>
        dsimp only [Option.map_none]
        rw [ihref]
        simp only [Function.comp_def, List.append_assoc, List.singleton_append]

/-- The search takes the first node that ends with the target. -/
theorem search_eq_findSome? (s target : Slice) (path : Path) :
    search s target path = s.nodes.findSome? fun x =>
      (endsWith? x.2 target).map fun offset => (path ++ x.1, offset) := by
  rw [Slice.nodes, List.findSome?_cons, List.findSome?_map]
  cases hhere : endsWith? s target with
  | some offset => simp [search, hhere]
  | none =>
    rw [search_below s target path hhere, searchBelow_eq_findSome?]
    rfl

/-- A target is located where the search finds it. -/
theorem locate_eq_ok (s target : Slice) (path found : Path) (offset : Nat) :
    locate s target path = .ok (found, offset) ↔ search s target path = some (found, offset) := by
  unfold locate
  cases search s target path with
  | some x => simp
  | none => exact ⟨nofun, nofun⟩

/-- The one error is that the search finds nothing. -/
theorem locate_eq_error (s target : Slice) (path : Path) (e : ResolutionError) :
    locate s target path = .error e ↔ search s target path = none ∧ e = .notFound target.hex := by
  unfold locate
  cases search s target path with
  | some x => exact ⟨nofun, nofun⟩
  | none => simp [eq_comm]

/-- The target is located at the first node, in tree order, that ends with it: the path of this node
    behind the given one, and the bit at which the target starts there. If no node ends with it the
    target is not found. The nodes are all that can be reached from the slice through references,
    and in tree order their paths ascend: a node comes before what hangs below it, and what hangs
    below one reference comes before what hangs below the next. -/
theorem locate_exact (s target : Slice) (hs : s.Valid) (htarget : target.Valid) (path : Path) :
    (∀ found offset, locate s target path = .ok (found, offset) ↔
      ∃ before first node after, s.nodes = before ++ (first, node) :: after ∧
        found = path ++ first ∧ EndsAt node target offset ∧
        ∀ x ∈ before, ∀ k, ¬ EndsAt x.2 target k) ∧
    (∀ e, locate s target path = .error e ↔
      e = .notFound target.hex ∧ ∀ x ∈ s.nodes, ∀ k, ¬ EndsAt x.2 target k) ∧
    (∀ first node, (first, node) ∈ s.nodes ↔ s.follow first = some node) ∧
    s.nodes.Pairwise fun x y => x.1 < y.1 := by
  -- Every node is valid, so the test for its end means what it says.
  have hends (x : Path × Slice) (hx : x ∈ s.nodes) (k : Nat) :
      endsWith? x.2 target = some k ↔ EndsAt x.2 target k :=
    endsWith?_eq_some_iff x.2 target (hs.follow s x.1 x.2 ((s.mem_nodes x.1 x.2).mp hx)) htarget k
  -- A node is passed over exactly when it does not end with the target.
  have hnone (x : Path × Slice) (hx : x ∈ s.nodes) :
      ((endsWith? x.2 target).map fun offset => (path ++ x.1, offset)) = none ↔
        ∀ k, ¬ EndsAt x.2 target k := by
    rw [Option.map_eq_none_iff, Option.eq_none_iff_forall_ne_some]
    exact forall_congr' fun k => not_congr (hends x hx k)
  refine ⟨?_, ?_, s.mem_nodes, s.nodes_sorted⟩
  · intro found offset
    rw [locate_eq_ok, search_eq_findSome?, List.findSome?_eq_some_iff]
    constructor
    · rintro ⟨before, ⟨first, node⟩, after, hnodes, hfound, hbefore⟩
      have hmem (x : Path × Slice) (hx : x ∈ before) : x ∈ s.nodes := by
        rw [hnodes]
        exact List.mem_append_left _ hx
      obtain ⟨k, hk, heq⟩ := Option.map_eq_some_iff.mp hfound
      cases heq
      exact ⟨before, first, node, after, hnodes, rfl,
        (hends (first, node) (by rw [hnodes]; simp) _).mp hk,
        fun x hx => (hnone x (hmem x hx)).mp (hbefore x hx)⟩
    · rintro ⟨before, first, node, after, hnodes, rfl, hat, hbefore⟩
      have hmem (x : Path × Slice) (hx : x ∈ before) : x ∈ s.nodes := by
        rw [hnodes]
        exact List.mem_append_left _ hx
      refine ⟨before, (first, node), after, hnodes, ?_,
        fun x hx => (hnone x (hmem x hx)).mpr (hbefore x hx)⟩
      rw [(hends (first, node) (by rw [hnodes]; simp) _).mpr hat, Option.map_some]
  · intro e
    rw [locate_eq_error, search_eq_findSome?, List.findSome?_eq_none_iff, and_comm]
    exact and_congr_right fun _ => forall₂_congr hnone

/-- A window on the last two of three references. -/
def lastTwoReferences : Slice where
  cell := .mk [true, true, false]
    [.data [true], .mk [false] [.data [false, true]], .data [true]]
  bitPos := 1
  bitEnd := 3
  refPos := 1
  refEnd := 3

/-- The bit is located below the first reference of the window, before the second one. -/
theorem locate_exact_lastTwoReferences :
    lastTwoReferences.Valid ∧ (Cell.data [true]).toSlice.Valid ∧
    locate lastTwoReferences (Cell.data [true]).toSlice [5] = .ok ([5, 0, 0], 1) := by
  have hvalid : lastTwoReferences.Valid := ⟨by decide, by decide, by decide, by decide⟩
  have htarget : (Cell.data [true]).toSlice.Valid := Slice.valid_toSlice _
  refine ⟨hvalid, htarget, ?_⟩
  obtain ⟨hok, -⟩ := locate_exact lastTwoReferences _ hvalid htarget [5]
  -- The window and the cell below it have references, the bit has none.
  refine (hok _ _).mpr
    ⟨[([], lastTwoReferences), ([0], (Cell.mk [false] [.data [false, true]]).toSlice)],
      [0, 0], (Cell.data [false, true]).toSlice, _, rfl, rfl, ?_, ?_⟩
  · exact ⟨.nil, by decide, by decide, rfl⟩
  · rintro x hx k ⟨hrefs, -, -, -⟩
    have hlen := hrefs.length_eq
    simp only [List.mem_cons, List.not_mem_nil, or_false] at hx
    rcases hx with rfl | rfl <;> exact absurd hlen (by decide)

end JumpTable

end CellCode
