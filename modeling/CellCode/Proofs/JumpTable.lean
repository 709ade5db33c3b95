import CellCode.JumpTable
import CellCode.Proofs.Dictionary.Trees
import CellCode.Proofs.Program.Loading

/-!
# Where the methods of a jump table stand

The search for a value goes by digests and does not know which cell the value came from. It may
well end in another cell, but one whose bits end with the value's bits and whose references are
the value's references, so the method found for a path describes the cell at this path.

* `Cell.follow`       the cell at the end of a path
* `search_follow`     the search returns the path of a cell that ends with the target
* `mark_follow`       each method of a table stands in the cell at its path
* `mark_error`        marking a table of readable code fails in the resolution of keys only
-/

namespace CellCode

/-- The cell at the end of a path. -/
def Cell.follow (c : Cell) : Path → Option Cell
  | [] => some c
  | i :: path =>
    match c.refs[i]? with
    | some r => r.follow path
    | none => none

@[simp] theorem Cell.follow_nil (c : Cell) : c.follow [] = some c := rfl

/-- A path goes on below the reference that its first step names. -/
theorem Cell.follow_cons (c r : Cell) (i : Nat) (path : Path) (h : c.refs[i]? = some r) :
    c.follow (i :: path) = r.follow path := by
  rw [Cell.follow, h]

/-- A path that goes on from where another one ends. -/
theorem Cell.follow_append (c d : Cell) (path more : Path) (h : c.follow path = some d) :
    c.follow (path ++ more) = d.follow more := by
  -- Induction on the first path.
  induction path generalizing c with
  | nil => rw [← Option.some.inj h, List.nil_append]
  | cons i path ih =>
    rw [Cell.follow] at h
    split at h
    · rename_i r hr
      rw [List.cons_append, Cell.follow_cons c r i _ hr, ih r h]
    · cases h

/-- A path leads to a cell of the tree. -/
theorem Cell.reaches_of_follow (c d : Cell) (path : Path) (h : c.follow path = some d) :
    c.Reaches d := by
  -- Induction on the path: each step goes to a reference.
  induction path generalizing c with
  | nil => exact Option.some.inj h ▸ .self c
  | cons i path ih =>
    rw [Cell.follow] at h
    split at h
    · rename_i r hr
      exact .ref (List.mem_of_getElem? hr) (ih r h)
    · cases h

namespace JumpTable

/-! ## Finding a value -/

/-- The cell has the target's bits behind the offset, and references of the same digests. -/
structure EndsWith (c : Cell) (target : Slice) (offset : Nat) : Prop where
  bits : c.bits = c.bits.take offset ++ target.data
  offset_le : offset ≤ c.bits.length
  digests : c.refs.map Cell.digest = target.refs.map Cell.digest

/-- What the search finds at a cell is an offset behind which the target stands. -/
theorem endsWith_of_eq_some (c : Cell) (target : Slice) (offset : Nat)
    (h : endsWith? c.toSlice target = some offset) : EndsWith c target offset := by
  unfold endsWith? at h
  simp only [Slice.data_toSlice] at h
  split at h
  · -- The target's references have the cell's digests, and its bits are the last of the cell.
    rename_i hcond
    obtain ⟨hrefs, hsuffix⟩ := (Bool.and_eq_true _ _).mp hcond
    obtain ⟨front, hfront⟩ := List.isSuffixOf_iff_suffix.mp hsuffix
    -- The offset is what the target's bits leave of the cell's.
    have hoffset : offset = front.length := by
      rw [← Option.some.inj h, ← hfront, List.length_append]
      simp [Cell.toSlice]
    refine ⟨?_, ?_, ?_⟩
    · rw [hoffset, ← hfront, List.take_left]
    · rw [hoffset, ← hfront, List.length_append]
      omega
    · obtain ⟨_, hdigests⟩ := (Bool.and_eq_true _ _).mp hrefs
      rw [Slice.refs_toSlice] at hdigests
      exact eq_of_beq hdigests
  · cases h

/-- The offset is what the target leaves of the cell. -/
theorem EndsWith.offset_add {c : Cell} {target : Slice} {offset : Nat}
    (h : EndsWith c target offset) : offset + target.data.length = c.bits.length := by
  -- The cell's bits are those before the offset and the target's.
  have hlen := congrArg List.length h.bits
  rw [List.length_append, List.length_take, Nat.min_eq_left h.offset_le] at hlen
  exact hlen.symm

/-- What is found below a cell that is reached by `path` stands behind one of its references. -/
theorem searchBelow_follow (target : Slice) (path : Path) (c : Cell) (found : Path) (offset : Nat)
    (h : searchBelow target path c = some (found, offset)) :
    ∃ i r rest d, found = path ++ i :: rest ∧ c.refs[i]? = some r ∧ r.follow rest = some d ∧
      EndsWith d target offset := by
  -- Induction on the cell, along its links: the search goes through them in order.
  induction c generalizing path with
  | data bits => cases h
  | link c ref ihc ihref =>
    have hlast : (Cell.link c ref).refs[c.refCount]? = some ref := by
      rw [Cell.refs_link, Cell.refCount_eq, List.getElem?_concat_length]
    rw [searchBelow] at h
    split at h
    · -- Something is found below the links before the last one, whose places are the same in the
      -- whole cell.
      rename_i hbefore
      obtain ⟨i, r, rest, d, rfl, hr, hd⟩ := ihc path (hbefore.trans h)
      refine ⟨i, r, rest, d, rfl, ?_, hd⟩
      obtain ⟨hi, _⟩ := List.getElem?_eq_some_iff.mp hr
      rw [Cell.refs_link, List.getElem?_append_left hi, hr]
    · -- Nothing is, so the last link is looked at: itself, and then what is below it.
      dsimp only at h
      split at h
      · rename_i hends
        cases h
        exact ⟨c.refCount, ref, [], ref, rfl, hlast, rfl,
          endsWith_of_eq_some ref target offset hends⟩
      · obtain ⟨i, r, rest, d, rfl, hr, hd, hends⟩ := ihref _ h
        refine ⟨c.refCount, ref, i :: rest, d, by simp, hlast, ?_, hends⟩
        rw [Cell.follow_cons ref r i rest hr, hd]

/-- The search goes on through the references as it does below a cell that has them. -/
theorem search_below (s target : Slice) (path : Path) (h : endsWith? s target = none) :
    search s target path = searchBelow target path s.toCell := by
  have hrefs : s.refs = s.toCell.refs := by rw [Slice.toCell, Cell.refs_mk]
  rw [search, h, hrefs]
  dsimp only
  clear h hrefs
  -- Induction on the links of the cell: the search through the list of references is the search
  -- below.
  induction s.toCell with
  | data bits => rfl
  | link c ref ihc _ =>
    rw [Cell.refs_link, List.zipIdx_append, List.findSome?_append, ihc, searchBelow]
    cases searchBelow target path c with
    | some found => rfl
    | none =>
      simp only [List.zipIdx_singleton, List.findSome?_singleton, Option.none_or, Nat.zero_add,
        Cell.refCount_eq]

/-- The search in a whole cell that does not end with the target goes on below the cell. -/
theorem search_toSlice (c : Cell) (target : Slice) (path : Path)
    (h : endsWith? c.toSlice target = none) :
    search c.toSlice target path = searchBelow target path c := by
  rw [search_below _ target path h, Slice.toCell, Slice.data_toSlice, Slice.refs_toSlice,
    Cell.mk_bits_refs]

/-- The search returns the path of a cell that ends with the target. -/
theorem search_follow (c : Cell) (target : Slice) (path : Path) (offset : Nat)
    (h : search c.toSlice target [] = some (path, offset)) :
    ∃ d, c.follow path = some d ∧ EndsWith d target offset := by
  -- The cell itself ends with the target, or the search goes on below it.
  cases hhere : endsWith? c.toSlice target with
  | some k =>
    rw [search, hhere] at h
    cases h
    exact ⟨c, rfl, endsWith_of_eq_some c target offset hhere⟩
  | none =>
    rw [search_toSlice c target [] hhere] at h
    obtain ⟨i, r, rest, d, rfl, hr, hd, hends⟩ := searchBelow_follow target [] c path offset h
    refine ⟨d, ?_, hends⟩
    rw [List.nil_append, Cell.follow_cons c r i rest hr, hd]

/-- Cells of one tree with the same digests are the same. -/
theorem refs_eq_of_digests (root : Cell) (cs ds : List Cell) (hdistinct : root.DistinctDigests)
    (hcs : ∀ c ∈ cs, root.Reaches c) (hds : ∀ d ∈ ds, root.Reaches d)
    (h : cs.map Cell.digest = ds.map Cell.digest) : cs = ds := by
  refine eq_of_map_eq Cell.digest cs ds ?_ h
  intro c hc d hd
  exact hdistinct c d (hcs c hc) (hds d hd)

/-! ## The methods of a table -/

variable {has : Cell → Prop}

/-- The method is the code of a value, and the cell holds this value behind the offset. -/
def Method.StandsIn (has : Cell → Prop) (m : Method) (c : Cell) : Prop :=
  ∃ v s, has v ∧ c.bits = c.bits.take m.offset ++ v.bits ∧ c.refs = v.refs ∧
    s.Shows v.bits v.refs ∧ loadCode s false = .ok (m.store, m.root)

/-- Each method stands in the cell at its path. -/
def Methods.StandIn (has : Cell → Prop) (methods : Methods) (root : Cell) : Prop :=
  ∀ path m, (path, m) ∈ methods → ∃ c, root.follow path = some c ∧ m.StandsIn has c

/-- A method that is looked up is one of the table's. -/
theorem Methods.mem_of_get? (methods : Methods) (path : Path) (m : Method)
    (h : methods.get? path = some m) : (path, m) ∈ methods := by
  obtain ⟨before, after, rfl, _⟩ := List.lookup_eq_some_iff.mp h
  simp

/-- What the method of a path stands in. -/
theorem Methods.StandIn.standsIn {methods : Methods} {root c : Cell} {path : Path} {m : Method}
    (h : methods.StandIn has root) (hc : root.follow path = some c)
    (hm : methods.get? path = some m) : m.StandsIn has c := by
  -- There is only one cell at the end of the path.
  obtain ⟨d, hd, hstands⟩ := h path m (methods.mem_of_get? path m hm)
  obtain rfl := Option.some.inj (hc.symm.trans hd)
  exact hstands

/-- The values of a table have no references but those of cells of the tree. -/
private theorem tree_reaches (root : Cell) (m : Nat) (c : Cell) (h : Dictionary.Tree has m c)
    (hc : root.Reaches c) :
    Dictionary.Tree (fun v => has v ∧ ∀ r ∈ v.refs, root.Reaches r) m c := by
  -- Induction on the dictionary: the references of each value and each fork are below the root.
  induction h with
  | leaf label value width bits refs fits stored =>
    exact .leaf label value width bits refs fits ⟨stored, refs ▸ hc.refs⟩
  | fork label zeros ones width bits refs fits _ _ ihzeros ihones =>
    have hrefs := hc.refs
    rw [refs] at hrefs
    exact .fork label zeros ones width bits refs fits (ihzeros (hrefs zeros (by simp)))
      (ihones (hrefs ones (by simp)))

/-- An entry is resolved where its value is found first, if no method stands there yet and its
    code can be read. -/
theorem resolve_eq_ok (root : Cell) (methods : Methods) (entry : Dictionary.Entry) (path : Path)
    (m : Method) : resolve root methods entry = .ok (path, m) ↔
      search root.toSlice entry.value [] = some (path, m.offset) ∧ methods.get? path = none ∧
        m.key = entry.key ∧ loadCode entry.value false = .ok (m.store, m.root) := by
  unfold resolve locate
  constructor
  · -- Each step of resolving has gone well: the search, the look at the path and the load.
    intro h
    split at h
    · cases h
    rename_i found offset hlocate
    split at hlocate
    · rename_i hsearch
      cases hlocate
      split at h
      · cases h
      rename_i hnone
      split at h
      · cases h
      rename_i hload
      cases h
      exact ⟨hsearch, hnone, rfl, hload⟩
    · cases hlocate
  · intro ⟨hsearch, hnone, hkey, hload⟩
    simp only [hsearch, hnone, hload, ← hkey]

/-- An entry that is resolved gives a method that stands in the cell at its path. -/
theorem resolve_follow (root : Cell) (methods : Methods) (entry : Dictionary.Entry) (path : Path)
    (m : Method) (hdistinct : root.DistinctDigests)
    (hvalue : Dictionary.ShowsValue (fun v => has v ∧ ∀ r ∈ v.refs, root.Reaches r) entry.value)
    (h : resolve root methods entry = .ok (path, m)) :
    ∃ c, root.follow path = some c ∧ m.StandsIn has c := by
  obtain ⟨v, ⟨hv, hrefs⟩, hshows⟩ := hvalue
  obtain ⟨hsearch, _, _, hload⟩ := (resolve_eq_ok root methods entry path m).mp h
  obtain ⟨c, hfollow, hends⟩ := search_follow root entry.value path m.offset hsearch
  refine ⟨c, hfollow, v, entry.value, hv, ?_, ?_, hshows, hload⟩
  · -- The cell ends with the bits of the value.
    rw [← hshows.data_eq]
    exact hends.bits
  · -- Its references have the digests of the value's, so they are the same cells.
    have hdigests := hends.digests
    rw [hshows.refs_eq] at hdigests
    exact refs_eq_of_digests root c.refs v.refs hdistinct
      (root.reaches_of_follow c path hfollow).refs hrefs hdigests

/-- Resolving one entry after the other keeps every method in its place. -/
theorem resolveAll_follow (root : Cell) (methods : Methods) (entries : List Dictionary.Entry)
    (hdistinct : root.DistinctDigests)
    (hvalues : ∀ e ∈ entries,
      Dictionary.ShowsValue (fun v => has v ∧ ∀ r ∈ v.refs, root.Reaches r) e.value)
    (h : methods.StandIn has root) : (resolveAll root methods entries).1.StandIn has root := by
  -- Induction on the entries, with the methods that are there so far.
  induction entries generalizing methods with
  | nil => exact h
  | cons entry entries ih =>
    rw [List.forall_mem_cons] at hvalues
    unfold resolveAll
    split
    · exact h
    · rename_i method hmethod
      refine ih _ hvalues.2 ?_
      -- A method was there before, or it is the one that was just resolved.
      intro path m hmem
      rcases List.mem_append.mp hmem with hmem | hmem
      · exact h path m hmem
      · obtain rfl := List.mem_singleton.mp hmem
        exact resolve_follow root methods entry path m hdistinct hvalues.1 hmethod

/-- Each method of a table stands in the cell at its path. -/
theorem mark_follow (root : Cell) (width : Int) (hwidth : 0 ≤ width)
    (htree : Dictionary.Tree has width.toNat root) (hdistinct : root.DistinctDigests) :
    (mark root width []).1.StandIn has root := by
  -- A table without methods has none that could be out of place.
  have hnone : Methods.StandIn has [] root := fun _ _ hmem => nomatch hmem
  unfold mark
  split
  · exact hnone
  · rename_i entries hentries
    refine resolveAll_follow root [] entries hdistinct ?_ hnone
    exact Dictionary.items_mem width root hwidth (tree_reaches root _ root htree (.self root))
      entries hentries

/-- A table of readable code fails in the resolution of its keys only. -/
theorem mark_error (root : Cell) (width : Int) (hwidth : 0 ≤ width)
    (htree : Dictionary.Tree has width.toNat root)
    (hload : ∀ v s, has v → s.Shows v.bits v.refs →
      ∃ store id, loadCode s false = .ok (store, id))
    (e : Error) (h : (mark root width []).2 = some e) : ∃ r, e = .resolution r := by
  -- The code of every entry can be loaded, so only a key is left to fail.
  have hall (methods : Methods) (entries : List Dictionary.Entry)
      (hvalues : ∀ entry ∈ entries, Dictionary.ShowsValue has entry.value)
      (h : (resolveAll root methods entries).2 = some e) : ∃ r, e = .resolution r := by
    -- Induction on the entries.
    induction entries generalizing methods with
    | nil => cases h
    | cons entry entries ih =>
      rw [List.forall_mem_cons] at hvalues
      unfold resolveAll at h
      split at h
      · rename_i error herror
        cases h
        obtain ⟨v, hv, hshows⟩ := hvalues.1
        obtain ⟨store, id, hload⟩ := hload v entry.value hv hshows
        unfold resolve at herror
        -- The value is not found, or its path is taken; both are errors of resolution.
        split at herror
        · cases herror
          exact ⟨_, rfl⟩
        split at herror
        · cases herror
          exact ⟨_, rfl⟩
        · -- The code is loaded, so it is not what failed.
          rw [hload] at herror
          cases herror
      · exact ih _ hvalues.2 h
  unfold mark at h
  split at h
  · cases h
    exact ⟨_, rfl⟩
  · rename_i entries hentries
    exact hall [] entries (Dictionary.items_mem width root hwidth htree entries hentries) h

end JumpTable

end CellCode
