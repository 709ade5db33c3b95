import CellCode.Proofs.JumpTable.Marking
import CellCode.Proofs.Listing.Capacity

/-!
# The methods of a dictionary are found again

A dictionary that a listing writes out has one code for each key. Each code is packed on its own,
then moved behind the label of a leaf, where its bits start at another place and its references go
along. Listing the dictionary finds the leaf of each key, and decoding what remains of it behind
the label finds the program of the key.

## Key results

- `Entry.InLeaf`: an entry is what stands in the leaf of its key behind the label
- `items_inLeaf`: whatever is enumerated in a tree is listed with each entry in the leaf of its key
- `items_buildDictionary`: a dictionary of assembled programs lists these programs
-/

namespace CellCode

-- Powers are those of the standard library, whatever else is in scope.
attribute [local instance (high)] instPowNat

namespace Dictionary

/-! ## Entries in their leaves -/

/-- The key, written with so many bits, selects a leaf, and the value is what remains of the leaf
    behind its label. -/
def Entry.InLeaf (root : Cell) (width : Nat) (e : Entry) : Prop :=
  ∃ path leaf, leafOf root width (.ofNat width e.key) = some (path, e.value.bitPos) ∧
    root.follow path = some leaf ∧ e.value = leaf.toSlice.advance e.value.bitPos

/-- A walk finds each entry in the leaf that its key selects. -/
theorem Walk.inLeaf {m : Nat} {pre : Bits} {found : List (Bits × Slice)} {c : Cell}
    (h : Walk m pre found c) : ∀ e ∈ found, ∃ key path leaf, e.1 = pre ++ key ∧ key.length = m ∧
      leafOf c m key = some (path, e.2.bitPos) ∧ c.follow path = some leaf ∧
      e.2 = leaf.toSlice.advance e.2.bitPos := by
  induction h with
  | @leaf m pre label c s load width =>
    intro e he
    obtain rfl := List.mem_singleton.mp he
    obtain ⟨n, rfl⟩ := Label.load_advance c.toSlice s m label load
    have hpos : (c.toSlice.advance n).bitPos = n := Nat.zero_add n
    exact ⟨label, [], c, rfl, width, leafOf_label c m label _ load, rfl, by rw [hpos]⟩
  | @fork m pre label c zeros ones s lower upper load width left right _ _ ihlower ihupper =>
    -- One step of the way: the label, the bit, and the branch of the bit.
    have hbranch (bit : Bool) (ref : Cell) (entries : List (Bits × Slice))
        (href : s.getReference bit.toNat = .ok ref)
        (ih : ∀ e ∈ entries, ∃ key path leaf, e.1 = pre ++ (label ++ [bit]) ++ key ∧
          key.length = m - label.length - 1 ∧
          leafOf ref (m - label.length - 1 : Nat) key = some (path, e.2.bitPos) ∧
          ref.follow path = some leaf ∧ e.2 = leaf.toSlice.advance e.2.bitPos) :
        ∀ e ∈ entries, ∃ key path leaf, e.1 = pre ++ key ∧ key.length = m ∧
          leafOf c m key = some (path, e.2.bitPos) ∧ c.follow path = some leaf ∧
          e.2 = leaf.toSlice.advance e.2.bitPos := by
      intro e he
      obtain ⟨key, path, leaf, hkey, hlength, hleaf, hfollow, hvalue⟩ := ih e he
      have hrefs : c.refs[bit.toNat]? = some ref := getElem?_of_getReference load _ href
      refine ⟨label ++ bit :: key, bit.toNat :: path, leaf, ?_, ?_, ?_, ?_, hvalue⟩
      · rw [hkey]
        simp
      · rw [List.length_append, List.length_cons, hlength]
        omega
      · rw [leafOf_branch c ref m label key bit s load hrefs, bits_left width, hleaf]
        rfl
      · rw [Cell.follow_cons c ref _ path hrefs, hfollow]
    intro e he
    rcases List.mem_append.mp he with he | he
    · exact hbranch false zeros lower left ihlower e he
    · exact hbranch true ones upper right ihupper e he

/-- A tree that can be walked through lists each entry in the leaf of its key. -/
theorem items_inLeaf {m : Nat} {found : List (Bits × Slice)} {c : Cell} (h : Walk m [] found c) :
    ∀ e ∈ found, (Entry.of e.1 e.2).InLeaf c m := by
  intro e he
  obtain ⟨key, path, leaf, hkey, hlength, hleaf, hrest⟩ := h.inLeaf e he
  rw [List.nil_append] at hkey
  refine ⟨path, leaf, ?_, hrest⟩
  show leafOf c m (.ofNat m e.1.toNat) = _
  rw [hkey, ← hlength, Bits.ofNat_toNat, hlength, hleaf]
  rfl

end Dictionary

namespace JumpTable

/-! ## Dictionaries of programs -/

/-- The entry, as it stands in the tree, is this method: its key, and a value in the leaf of the
    key that decodes to the program and to no other one. -/
structure Recovers (root : Cell) (width : Nat) (e : Dictionary.Entry) (method : Int × Program) :
    Prop where
  key_eq : (e.key : Int) = method.1
  inLeaf : e.InLeaf root width
  decoded : ∃ store id, loadCode e.value false = .ok (store, id) ∧
    ∀ program, store.Holds id program ↔ program = method.2

/-- A slice that shows what a program was assembled into is loaded as this program. -/
theorem loadCode_assembled (p : Program) (f : Fragment) (s : Slice) (h : p.Assembles f)
    (hkinds : p.WellKinded) (hs : s.Shows f.builder.bits f.builder.refs) :
    ∃ store id, loadCode s false = .ok (store, id) ∧
      ∀ program, store.Holds id program ↔ program = p := by
  have hdecodes := h.decodes p f s hkinds hs
  obtain ⟨store, id, hload, _, hholds⟩ := hdecodes.load s false p nofun
  refine ⟨store, id, hload, fun program => ⟨fun hp => hp.eq store id program p hholds, ?_⟩⟩
  rintro rfl
  exact hholds

/-- The key and the content are those of the assembled method. -/
structure Stores (entry : Int × Content) (method : Int × Program) : Prop where
  key_eq : entry.1 = method.1
  assembled : ∃ f : Fragment, method.2.Assembles f ∧
    entry.2 = ⟨f.builder.bits, f.builder.refs⟩

/-- What was stored for a method is the method when it is listed in its leaf. -/
theorem Stores.recovers {root : Cell} {width : Nat} {stored : Bits × Content}
    {e : Dictionary.Entry} {method : Int × Program}
    (h : Stores (stored.1.toNat, stored.2) method) (hlisted : Dictionary.IsListed stored e)
    (hkinds : method.2.WellKinded) (hleaf : e.InLeaf root width) :
    Recovers root width e method := by
  obtain ⟨hkey, f, hassembles, hcontent⟩ := h
  obtain ⟨hlistedKey, hshows⟩ := hlisted
  refine ⟨?_, hleaf, loadCode_assembled method.2 f e.value hassembles hkinds ?_⟩
  · rw [hlistedKey]
    exact hkey
  · rw [show stored.2 = _ from hcontent] at hshows
    exact hshows

/-- A dictionary of assembled programs lists the methods that it was written with in ascending
    order of their keys, each in the leaf of its key and with its program behind the label. -/
theorem items_buildDictionary (line : Nat) (methods : List (Int × Program))
    (entries : List (Int × Fragment)) (arguments : List Listing.Argument) (f : Fragment)
    (hassembles : List.Forall₂ (fun method entry => entry.1 = method.1 ∧
      method.2.Assembles entry.2) methods entries)
    (hkinds : ∀ method ∈ methods, method.2.WellKinded)
    (h : Listing.buildDictionary line entries arguments = .ok f) :
    ∃ width : Nat, Listing.firstInteger? arguments = some (width : Int) ∧ ∃ listed sorted,
      Dictionary.items (some f.builder.cell) width = .ok listed ∧ sorted.Perm methods ∧
      (sorted.Pairwise fun a b => a.1 < b.1) ∧
      List.Forall₂ (Recovers f.builder.cell width) listed sorted := by
  obtain ⟨width, mapping, root, hwidth, hmapping, hroot, rfl⟩ :=
    Listing.buildDictionary_eq_ok line entries arguments f h
  obtain ⟨rfl, _, hkeys⟩ := Listing.mappingOf_eq_ok line entries mapping hmapping
  have hcells : ∀ e ∈ entries.map fun e => (e.1, Dictionary.Value.cell e.2.builder.cell),
      ∃ v, e.2 = .cell v := by
    intro e he
    obtain ⟨entry, _, rfl⟩ := List.mem_map.mp he
    exact ⟨_, rfl⟩
  obtain ⟨width, rfl, stored, htrie, hperm⟩ :=
    Dictionary.build_trie_of_cells _ width root hkeys hcells hroot
  -- What is listed is what the walk meets, so the leaves are those of the walk.
  obtain ⟨found, hwalk, hfound⟩ := htrie.walk []
  have hleaves := Dictionary.items_inLeaf hwalk
  rw [Builder.cell_ofCell]
  -- The methods in the order in which the trie has their contents.
  have hcontents : List.Forall₂ Stores ((entries.map fun e =>
      (e.1, Dictionary.Value.cell e.2.builder.cell)).map fun e => (e.1, e.2.content)) methods := by
    rw [List.map_map, List.forall₂_map_left_iff]
    apply hassembles.flip.imp
    intro entry method hmethod
    refine ⟨hmethod.1, entry.2, hmethod.2, ?_⟩
    simp [Dictionary.Value.content, Builder.cell]
  obtain ⟨sorted, hsorted, hsortedPerm⟩ := List.perm_comp_forall₂ hperm hcontents
  refine ⟨width, hwidth, _, sorted, Dictionary.items_walk hwalk, hsortedPerm, ?_, ?_⟩
  · have hsortedKeys : sorted.map (·.1) = stored.map fun e => (e.1.toNat : Int) := by
      rw [List.forall₂_map_left_iff] at hsorted
      rw [← List.forall₂_eq_eq_eq, List.forall₂_map_left_iff, List.forall₂_map_right_iff]
      exact hsorted.flip.imp fun _ _ hmethod => hmethod.key_eq.symm
    rw [← List.pairwise_map (R := (· < ·)), hsortedKeys, List.pairwise_map]
    exact htrie.ascending.imp fun hless => Int.ofNat_lt.mpr hless
  · rw [List.forall₂_map_left_iff] at hsorted ⊢
    have hboth : List.Forall₂ (fun (e : Bits × Slice) (method : Int × Program) =>
        ∃ x, Dictionary.IsEntry [] x e ∧ Stores (x.1.toNat, x.2) method) found sorted :=
      forall₂_comp (fun _ x _ hx hstores => ⟨x, hx, hstores⟩) found stored sorted hfound.flip
        hsorted.flip
    apply forall₂_imp_mem found sorted _ hboth
    intro e he method hmethod hstores
    obtain ⟨x, hx, hstores⟩ := hstores
    exact hstores.recovers hx.isListed (hkinds method (hsortedPerm.mem_iff.mp hmethod))
      (hleaves e he)

/-! ## Two methods -/

/-- A method with nested code, and one that is written behind it and comes before it. -/
def branching : List (Int × Program) :=
  [(5, Program.bothBranches), (3, Program.single "ADD" [])]

/-- What the methods are assembled into. -/
def branchingEntries : List (Int × Fragment) :=
  [(5, Program.bothBranchesFragment), (3, Program.lineFragment "A0")]

/-- The dictionary of `branching` with keys of three bits. Its labels are of different lengths. -/
def branchingRoot : Cell := .mk (Label.encode [] 3) [
  .data (Label.encode [true, true] 2 ++ Opcode.hexBits "A0"),
  .mk (Label.encode [false, true] 2 ++ Program.bothBranchesFragment.builder.bits)
    Program.bothBranchesFragment.builder.refs]

/-- Both methods are found again, the one that was written last first. -/
theorem items_buildDictionary_branching :
    List.Forall₂ (fun method entry => entry.1 = method.1 ∧ method.2.Assembles entry.2)
      branching branchingEntries ∧
    (∀ method ∈ branching, method.2.WellKinded) ∧
    Listing.buildDictionary 1 branchingEntries [.operand (.integer 3)] =
      .ok ⟨.ofCell branchingRoot, .empty⟩ ∧
    ∃ width : Nat, Listing.firstInteger? [.operand (.integer 3)] = some (width : Int) ∧
      ∃ listed sorted, Dictionary.items (some (Builder.ofCell branchingRoot).cell) width =
          .ok listed ∧
        sorted.Perm branching ∧ (sorted.Pairwise fun a b => a.1 < b.1) ∧
        List.Forall₂ (Recovers (Builder.ofCell branchingRoot).cell width) listed sorted := by
  have hassembles : List.Forall₂ (fun (method : Int × Program) (entry : Int × Fragment) =>
      entry.1 = method.1 ∧ method.2.Assembles entry.2) branching branchingEntries :=
    .cons ⟨rfl, Program.assembles_bothBranches⟩ (.cons ⟨rfl, Program.assembles_add⟩ .nil)
  have hkinds : ∀ method ∈ branching, method.2.WellKinded := by
    simp [branching, Program.wellKinded_bothBranches, Program.wellKinded_add]
  have hbuild : Listing.buildDictionary 1 branchingEntries [.operand (.integer 3)] =
      .ok ⟨.ofCell branchingRoot, .empty⟩ := by
    cbv
  exact ⟨hassembles, hkinds, hbuild,
    items_buildDictionary 1 branching branchingEntries _ _ hassembles hkinds hbuild⟩

end JumpTable

end CellCode
