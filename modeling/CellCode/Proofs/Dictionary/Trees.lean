import CellCode.Proofs.Dictionary.Entries

/-!
# Dictionaries whose values have a property

A dictionary that was built from entries is a tree: a leaf holds the rest of a key and then the
content of its value, and a fork holds what its keys share and has one branch for each bit that
may follow. Where only the values matter and not under which keys they are stored, `Tree` says
that all of them have a property.

* `Tree`               the shape of a built dictionary
* `build_tree`         building makes such a tree
* `items_mem`          what is listed are values of the dictionary
-/

namespace CellCode.Dictionary

variable {has : Cell → Prop}

/-- A dictionary with `m` key bits left, whose values are contents of cells with a property. -/
inductive Tree (has : Cell → Prop) : Nat → Cell → Prop
  | leaf {m : Nat} {c : Cell} (label : Bits) (value : Cell) (width : label.length = m)
      (bits : c.bits = Label.encode label m ++ value.bits) (refs : c.refs = value.refs)
      (fits : c.Fits) (stored : has value) : Tree has m c
  | fork {m : Nat} {c : Cell} (label : Bits) (zeros ones : Cell) (width : label.length < m)
      (bits : c.bits = Label.encode label m) (refs : c.refs = [zeros, ones]) (fits : c.Fits)
      (zeros_tree : Tree has (m - label.length - 1) zeros)
      (ones_tree : Tree has (m - label.length - 1) ones) : Tree has m c

/-- A trie is a tree of the contents of its entries. -/
theorem Trie.tree {m : Nat} {entries : List (Bits × Content)} {c : Cell} (h : Trie m entries c)
    (hentries : ∀ e ∈ entries, has (.mk e.2.bits e.2.refs)) : Tree has m c := by
  induction h with
  | leaf label value width bits refs fits =>
    exact .leaf label (.mk value.bits value.refs) width (by rw [Cell.bits_mk, bits])
      (by rw [Cell.refs_mk, refs]) fits (hentries (label, value) (by simp))
  | fork label zeros ones lower upper width bits refs fits _ _ ihzeros ihones =>
    apply Tree.fork label zeros ones width bits refs fits
    · apply ihzeros
      intro e he
      exact hentries (label ++ [false] ++ e.1, e.2)
        (List.mem_append_left _
          (List.mem_map_of_mem (f := fun e => (label ++ [false] ++ e.1, e.2)) he))
    · apply ihones
      intro e he
      exact hentries (label ++ [true] ++ e.1, e.2)
        (List.mem_append_right _
          (List.mem_map_of_mem (f := fun e => (label ++ [true] ++ e.1, e.2)) he))

/-- A tree is a trie of entries whose values have the property. -/
theorem Tree.trie {m : Nat} {c : Cell} (h : Tree has m c) :
    ∃ entries, Trie m entries c ∧ ∀ e ∈ entries, ∃ v, has v ∧ e.2 = ⟨v.bits, v.refs⟩ := by
  induction h with
  | leaf label value width bits refs fits stored =>
    refine ⟨_, .leaf label ⟨value.bits, value.refs⟩ width bits refs fits, ?_⟩
    intro e he
    obtain rfl := List.mem_singleton.mp he
    exact ⟨value, stored, rfl⟩
  | fork label zeros ones width bits refs fits _ _ ihzeros ihones =>
    obtain ⟨lower, hlower, hlower'⟩ := ihzeros
    obtain ⟨upper, hupper, hupper'⟩ := ihones
    refine ⟨_, .fork label zeros ones lower upper width bits refs fits hlower hupper, ?_⟩
    intro e he
    simp only [under, List.mem_append, List.mem_map] at he
    rcases he with ⟨x, hx, rfl⟩ | ⟨x, hx, rfl⟩
    · exact hlower' x hx
    · exact hupper' x hx

/-- A dictionary that was built from a mapping of keys that differ is a tree of its values. -/
theorem build_tree (mapping : Mapping) (width : Int) (c : Cell)
    (hvalues : ∀ e ∈ mapping, ∃ v, has v ∧ e.2 = .cell v)
    (hdistinct : mapping.Pairwise fun a b => a.1 ≠ b.1) (h : build mapping width = .ok (some c)) :
    0 ≤ width ∧ Tree has width.toNat c := by
  obtain ⟨n, rfl, entries, htrie, hperm⟩ := build_trie_of_cells mapping width c hdistinct
    (fun e he => (hvalues e he).imp fun _ hv => hv.2) h
  refine ⟨Int.natCast_nonneg n, ?_⟩
  rw [Int.toNat_natCast]
  refine htrie.tree ?_
  intro e he
  -- The entry is one of the mapping, whose value is a cell with the property.
  obtain ⟨x, hx, heq⟩ := List.mem_map.mp
    (hperm.mem_iff.mp (List.mem_map_of_mem (f := fun e => ((e.1.toNat : Int), e.2)) he))
  obtain ⟨v, hv, hcell⟩ := hvalues x hx
  have hcontent : e.2 = ⟨v.bits, v.refs⟩ := by
    have := congrArg Prod.snd heq
    simp only [hcell, Value.content] at this
    exact this.symm
  rw [hcontent, Cell.mk_bits_refs]
  exact hv

/-- A tree keeps to the capacity of cells when its values do. -/
theorem Tree.inCapacity (m : Nat) (c : Cell) (h : Tree has m c)
    (hvalues : ∀ v, has v → v.InCapacity) : c.InCapacity := by
  induction h with
  | leaf label value _ _ refs fits stored =>
    refine .intro fits ?_
    rw [refs]
    obtain ⟨_, hbelow⟩ := hvalues value stored
    exact hbelow
  | fork label zeros ones _ _ refs fits _ _ ihzeros ihones =>
    refine .intro fits ?_
    rw [refs]
    simp only [List.mem_cons, List.not_mem_nil, or_false]
    rintro r (rfl | rfl)
    · exact ihzeros
    · exact ihones

/-- The slice shows a value of the dictionary. -/
def ShowsValue (has : Cell → Prop) (s : Slice) : Prop := ∃ v, has v ∧ s.Shows v.bits v.refs

/-- What a dictionary lists are its values. -/
theorem items_mem (width : Int) (c : Cell) (hwidth : 0 ≤ width) (h : Tree has width.toNat c)
    (entries : List Entry) (hentries : items (some c) width = .ok entries) (e : Entry)
    (he : e ∈ entries) : ShowsValue has e.value := by
  obtain ⟨m, rfl⟩ := Int.eq_ofNat_of_zero_le hwidth
  obtain ⟨stored, htrie, hstored⟩ := h.trie
  rw [Int.toNat_natCast] at htrie
  obtain ⟨listed, hitems, hlisted⟩ := items_trie htrie
  cases hitems.symm.trans hentries
  obtain ⟨x, hx, hxe⟩ := forall₂_mem_right _ _ hlisted e he
  obtain ⟨v, hv, hcontent⟩ := hstored x hx
  have hshows := hxe.shows
  rw [hcontent] at hshows
  exact ⟨v, hv, hshows⟩

end CellCode.Dictionary
