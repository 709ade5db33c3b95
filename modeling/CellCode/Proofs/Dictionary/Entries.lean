import CellCode.Proofs.Dictionary.Searching
import Mathlib

/-!
# The entries of a dictionary are listed in order

A walk through a trie meets its entries in order, and a search finds what the walk meets. So
listing a dictionary that was built from a mapping yields every entry once and in ascending
order.

## Key results

* `Trie.walk`        a walk through a trie meets its entries
* `items_trie`       a trie lists its entries, all of them and in order
* `items_of_build`   so a dictionary lists the mapping it was built from
-/

namespace CellCode.Dictionary

-- Powers are those of the standard library, whatever else is in scope.
attribute [local instance (high)] instPowNat

/-! ## Walking through a trie -/

section Node

variable {m : Nat} {c zeros ones : Cell} {label : Bits} {s : Slice}

/-- Behind the label of a leaf stands its value. -/
private theorem load_leaf {value : Content} (width : label.length = m)
    (bits : c.bits = Label.encode label m ++ value.bits) (refs : c.refs = value.refs) :
    ∃ s, Label.load c.toSlice m = .ok (label, s) ∧ s.Shows value.bits value.refs := by
  have hshows := Slice.shows_toSlice c
  rw [bits, refs] at hshows
  exact Label.load_encode label m (Nat.le_of_eq width) hshows

/-- Behind the label of a fork stand its branches. -/
private theorem load_fork (width : label.length < m) (bits : c.bits = Label.encode label m)
    (refs : c.refs = [zeros, ones]) :
    ∃ s, Label.load c.toSlice m = .ok (label, s) ∧ s.Shows [] [zeros, ones] := by
  have hshows := Slice.shows_toSlice c
  rw [bits, refs, ← List.append_nil (Label.encode label m)] at hshows
  exact Label.load_encode label m (Nat.le_of_lt width) hshows

end Node

/-- What was found behind the key bits `pre` is this entry. -/
structure IsEntry (pre : Bits) (e : Bits × Content) (found : Bits × Slice) : Prop where
  key_eq : found.1 = pre ++ e.1
  shows : found.2.Shows e.2.bits e.2.refs

/-- An entry of a branch, seen from the fork. -/
theorem IsEntry.under {pre front : Bits} {e : Bits × Content} {found : Bits × Slice}
    (h : IsEntry (pre ++ front) e found) : IsEntry pre (front ++ e.1, e.2) found :=
  ⟨by rw [h.key_eq, List.append_assoc], h.shows⟩

variable {m : Nat} {entries : List (Bits × Content)} {c : Cell}

/-- A walk through a trie meets its entries in order. -/
theorem Trie.walk (h : Trie m entries c) (pre : Bits) :
    ∃ found, Walk m pre found c ∧ List.Forall₂ (IsEntry pre) entries found := by
  -- Induction on the trie; a fork has the entries of its lower branch first.
  induction h generalizing pre with
  | leaf label value width bits refs =>
    obtain ⟨s, load, hs⟩ := load_leaf width bits refs
    exact ⟨_, .leaf load width, .cons ⟨rfl, hs⟩ .nil⟩
  | fork label zeros ones lower upper width bits refs _ _ _ ihzeros ihones =>
    obtain ⟨s, load, hs⟩ := load_fork width bits refs
    have left : s.getReference 0 = .ok zeros := hs.getReference 0 rfl
    have right : s.getReference 1 = .ok ones := hs.getReference 1 rfl
    obtain ⟨found, hlower, hfound⟩ := ihzeros (pre ++ (label ++ [false]))
    obtain ⟨found', hupper, hfound'⟩ := ihones (pre ++ (label ++ [true]))
    refine ⟨found ++ found', .fork load width left right hlower hupper, ?_⟩
    apply List.rel_append
    · rw [Dictionary.under, List.forall₂_map_left_iff]
      exact hfound.imp fun _ _ he => he.under
    · rw [Dictionary.under, List.forall₂_map_left_iff]
      exact hfound'.imp fun _ _ he => he.under

/-! ## Listing a trie -/

/-- The listed entry has the key as a number and shows the value. -/
structure IsListed (e : Bits × Content) (listed : Entry) : Prop where
  key_eq : listed.key = e.1.toNat
  shows : listed.value.Shows e.2.bits e.2.refs

/-- Without bits before it an entry is listed as it is. -/
theorem IsEntry.isListed {e : Bits × Content} {found : Bits × Slice} (h : IsEntry [] e found) :
    IsListed e (.of found.1 found.2) :=
  ⟨by rw [Entry.of, h.key_eq, List.nil_append], h.shows⟩

/-- A trie lists its entries, all of them and in order. -/
theorem items_trie (h : Trie m entries c) :
    ∃ listed, items (some c) m = .ok listed ∧ List.Forall₂ IsListed entries listed := by
  obtain ⟨found, hwalk, hfound⟩ := h.walk []
  refine ⟨_, items_walk hwalk, ?_⟩
  rw [List.forall₂_map_right_iff]
  exact hfound.imp fun _ _ he => he.isListed

/-- What is listed has the keys of the entries. -/
theorem keys_of_isListed (entries : List (Bits × Content)) (listed : List Entry)
    (h : List.Forall₂ IsListed entries listed) :
    listed.map (·.key) = entries.map (·.1.toNat) := by
  rw [← List.forall₂_eq_eq_eq, List.forall₂_map_left_iff, List.forall₂_map_right_iff]
  exact h.flip.imp fun x e hx => hx.key_eq

/-! ## Dictionaries of mappings -/

/-- A dictionary lists the mapping it was built from: every key once, in ascending order, with
    the bits and references of its value. -/
theorem items_of_build (mapping : Mapping) (width : Int) (root : Cell)
    (hkeys : mapping.Pairwise fun a b => a.1 ≠ b.1) (hvalues : ∀ e ∈ mapping, e.2.Valid)
    (h : build mapping width = .ok (some root)) :
    ∃ listed, items (some root) width = .ok listed ∧
      (listed.Pairwise fun a b => a.key < b.key) ∧
      (listed.map fun e => ((e.key : Int), e.value.content)).Perm
        (mapping.map fun e => (e.1, e.2.content)) := by
  -- The entries of the trie are the mapping, and the listing is the entries.
  obtain ⟨hwidth, entries, htrie, hperm⟩ := build_trie mapping width root hkeys hvalues h
  obtain ⟨m, rfl⟩ := Int.eq_ofNat_of_zero_le hwidth
  rw [Int.toNat_natCast] at htrie
  obtain ⟨listed, hitems, hlisted⟩ := items_trie htrie
  have hcontent : (listed.map fun e => ((e.key : Int), e.value.content)) =
      entries.map fun e => ((e.1.toNat : Int), e.2) := by
    rw [← List.forall₂_eq_eq_eq, List.forall₂_map_left_iff, List.forall₂_map_right_iff]
    apply hlisted.flip.imp
    intro x e hx
    rw [hx.key_eq, Slice.content, hx.shows.data_eq, hx.shows.refs_eq]
  refine ⟨listed, hitems, ?_, ?_⟩
  · -- Keys of one width ascend as numbers do.
    rw [← List.pairwise_map (R := (· < ·)), keys_of_isListed entries listed hlisted,
      List.pairwise_map]
    exact htrie.ascending
  · rw [hcontent]
    exact hperm

/-- A mapping with a value of each kind: bits, a cell with a reference, and a slice that shows
    the last two bits and the last reference of its cell. -/
def mixed : Mapping := [
  (5, .bits [true]),
  (2, .cell (.mk [true, false] [.data []])),
  (6, .slice ⟨.mk [false, true, true] [.data [], .data [true]], 1, 3, 1, 2⟩)]

/-- The dictionary of `mixed` with keys of three bits. -/
def mixedRoot : Cell :=
  .mk [false, false] [
    .mk [false, true, true, false, true, false, true, false] [.data []],
    .mk [false, false] [
      .mk [false, true, false, true, true] [],
      .mk [false, true, false, false, true, true] [.data [true]]]]

/-- The dictionary of `mixed` lists its three entries in order. -/
theorem items_of_build_mixed :
    (mixed.Pairwise fun a b => a.1 ≠ b.1) ∧ (∀ e ∈ mixed, e.2.Valid) ∧
      build mixed 3 = .ok (some mixedRoot) ∧
      ∃ listed, items (some mixedRoot) 3 = .ok listed ∧
        (listed.Pairwise fun a b => a.key < b.key) ∧
        (listed.map fun e => ((e.key : Int), e.value.content)).Perm
          (mixed.map fun e => (e.1, e.2.content)) := by
  have hkeys : mixed.Pairwise fun a b => a.1 ≠ b.1 := by decide
  have hvalues : ∀ e ∈ mixed, e.2.Valid := by
    intro e he
    simp only [mixed, List.mem_cons, List.not_mem_nil, or_false] at he
    rcases he with rfl | rfl | rfl
    · trivial
    · trivial
    · exact ⟨by decide, by decide, by decide, by decide⟩
  have hbuild : build mixed 3 = .ok (some mixedRoot) := by cbv
  exact ⟨hkeys, hvalues, hbuild, items_of_build mixed 3 mixedRoot hkeys hvalues hbuild⟩

end CellCode.Dictionary
