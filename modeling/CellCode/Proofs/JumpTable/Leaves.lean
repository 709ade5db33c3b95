import CellCode.Proofs.JumpTable
import CellCode.Proofs.Dictionary.Entries
import CellCode.Proofs.Program.Assembling
import Mathlib.Data.List.Lex
import Mathlib.Order.Bounds.Defs

/-!
# Where the values of a jump table are found

The bits of a key select a leaf of the dictionary, and the value of the key stands there behind
the label. The search for a value does not go by the key: it takes the first cell, each cell
before what hangs below it, that ends with the bits of the value and has its references. Such a
cell may come before the leaf, in the code of another method for example, and the method is then
placed there.

## Key results

- `Dictionary.leafOf`: the leaf that a key selects, and where its label ends
- `Dictionary.Trie.leafOf`: the value of each entry stands in the leaf that its key selects
- `search_first`: the search stops at the first cell that ends with the target
- `mark_of_build`: each method of a built table is placed in the first cell that ends with its
  value, which is the leaf of its key exactly when no cell before that leaf ends with the value
-/

namespace CellCode

/-! ## The end of a label -/

namespace Slice

variable {s rest : Slice}

/-- Reading bits moves on by their number. -/
theorem loadBits_advance (n : Int) (bits : Bits) (h : s.loadBits n = .ok (bits, rest)) :
    rest = s.advance n.toNat := by
  obtain ⟨_, _, h⟩ := (bind_eq_ok _ _ _).mp h
  cases h
  rfl

/-- Reading one bit moves on by one. -/
theorem loadBit_advance (bit : Bool) (h : s.loadBit = .ok (bit, rest)) : rest = s.advance 1 := by
  obtain ⟨⟨bits, s'⟩, hbits, h⟩ := (bind_eq_ok _ _ _).mp h
  cases h
  exact loadBits_advance 1 bits hbits

/-- Reading a number moves on by its width. -/
theorem loadUInt_advance (n : Int) (v : Nat) (h : s.loadUInt n = .ok (v, rest)) :
    rest = s.advance n.toNat := by
  obtain ⟨_, _, h⟩ := (bind_eq_ok _ _ _).mp h
  cases h
  rfl

/-- Moving on twice is moving on by the sum. -/
theorem advance_advance (s : Slice) (n k : Nat) : (s.advance n).advance k = s.advance (n + k) := by
  simp only [advance, Nat.add_assoc]

/-- What remains of a whole cell `n` bits on. -/
theorem data_advance_toSlice (c : Cell) (n : Nat) :
    (c.toSlice.advance n).data = c.bits.drop n := by
  simp [data, advance, Cell.toSlice, Cell.bitLength, List.take_of_length_le]

end Slice

/-- Reading a label only moves on. -/
theorem Label.load_advance (s rest : Slice) (m : Int) (label : Bits)
    (h : Label.load s m = .ok (label, rest)) : ∃ n, rest = s.advance n := by
  obtain ⟨⟨first, s₁⟩, hfirst, h⟩ := (bind_eq_ok _ _ _).mp h
  obtain rfl := Slice.loadBit_advance first hfirst
  cases first with
  | false =>
    -- The short form: ones up to a zero, then the label.
    obtain ⟨⟨n, s₂⟩, hcount, h⟩ := (bind_eq_ok _ _ _).mp h
    obtain ⟨⟨zero, s₃⟩, hzero, hcount⟩ := (bind_eq_ok _ _ _).mp hcount
    cases hcount
    obtain rfl := Slice.loadBit_advance zero hzero
    obtain ⟨_, _, h⟩ := (bind_eq_ok _ _ _).mp h
    simp only [Slice.loadBits_advance _ label h, Slice.advance_advance]
    exact ⟨_, rfl⟩
  | true =>
    -- The second bit of the long forms decides whether a label or one repeated bit follows.
    obtain ⟨⟨second, s₂⟩, hsecond, h⟩ := (bind_eq_ok _ _ _).mp h
    obtain rfl := Slice.loadBit_advance second hsecond
    cases second with
    | false =>
      obtain ⟨⟨n, s₃⟩, hlength, h⟩ := (bind_eq_ok _ _ _).mp h
      obtain rfl := Slice.loadUInt_advance _ n hlength
      obtain ⟨_, _, h⟩ := (bind_eq_ok _ _ _).mp h
      simp only [Slice.loadBits_advance _ label h, Slice.advance_advance]
      exact ⟨_, rfl⟩
    | true =>
      obtain ⟨⟨bit, s₃⟩, hbit, h⟩ := (bind_eq_ok _ _ _).mp h
      obtain rfl := Slice.loadBit_advance bit hbit
      obtain ⟨⟨n, s₄⟩, hlength, h⟩ := (bind_eq_ok _ _ _).mp h
      obtain rfl := Slice.loadUInt_advance _ n hlength
      obtain ⟨_, _, h⟩ := (bind_eq_ok _ _ _).mp h
      cases h
      simp only [Slice.advance_advance]
      exact ⟨_, rfl⟩

/-- A label in front of a cell ends where what follows it begins. -/
theorem Label.load_toSlice (c : Cell) (label more : Bits) (m : Nat) (hle : label.length ≤ m)
    (hbits : c.bits = Label.encode label m ++ more) :
    ∃ rest, Label.load c.toSlice m = .ok (label, rest) ∧
      rest.bitPos = (Label.encode label m).length := by
  have hshows := Slice.shows_toSlice c
  rw [hbits] at hshows
  -- The label is read back from its encoding, and reading it has moved on by some number of bits.
  obtain ⟨rest, hload, hrest⟩ := Label.load_encode label m hle hshows
  obtain ⟨n, rfl⟩ := Label.load_advance c.toSlice rest m label hload
  refine ⟨_, hload, ?_⟩
  have hdata := hrest.data_eq
  have hvalid := hrest.valid.bitPos_le
  have hend : (c.toSlice.advance n).bitEnd = c.bits.length := rfl
  have hpos : (c.toSlice.advance n).bitPos = n := Nat.zero_add n
  rw [hend, hpos] at hvalid
  rw [Slice.data_advance_toSlice] at hdata
  -- As many bits remain as follow the label.
  have hlen := congrArg List.length hdata
  rw [List.length_drop] at hlen
  rw [hbits, List.length_append] at hlen hvalid
  rw [hpos]
  omega

/-! ## The leaf of a key -/

namespace Dictionary

/-- The way to the leaf that the bits of a key select, and the bit at which its label ends. -/
def leafOf (node : Cell) (m : Int) (key : Bits) : Option (Path × Nat) :=
  match Label.load node.toSlice m with
  | .error _ => none
  | .ok (label, s) =>
    if label <+: key then
      match _h : key.drop label.length with
      | [] => some ([], s.bitPos)
      | bit :: rest =>
        match node.refs[bit.toNat]? with
        | none => none
        | some ref =>
          (leafOf ref (m - label.length - 1) rest).map fun leaf => (bit.toNat :: leaf.1, leaf.2)
    else none
termination_by key.length
decreasing_by
  have := congrArg List.length _h
  rw [List.length_drop, List.length_cons] at this
  omega

/-- A label that is the whole key ends the way. -/
theorem leafOf_label (c : Cell) (m : Int) (label : Bits) (s : Slice)
    (h : Label.load c.toSlice m = .ok (label, s)) : leafOf c m label = some ([], s.bitPos) := by
  rw [leafOf, h]
  -- Nothing of the key is left behind the label.
  simp only [List.prefix_refl, if_true]
  split
  · rfl
  · rename_i hdrop
    rw [List.drop_length] at hdrop
    cases hdrop

/-- Behind the label the next bit of the key selects the reference. -/
theorem leafOf_branch (c ref : Cell) (m : Int) (label rest : Bits) (bit : Bool) (s : Slice)
    (h : Label.load c.toSlice m = .ok (label, s)) (href : c.refs[bit.toNat]? = some ref) :
    leafOf c m (label ++ bit :: rest) =
      (leafOf ref (m - label.length - 1) rest).map fun leaf => (bit.toNat :: leaf.1, leaf.2) := by
  rw [leafOf, h]
  simp only [List.prefix_append, if_true]
  -- Behind the label stands the bit, so the key is not at its end.
  split
  · rename_i hdrop
    rw [List.drop_left] at hdrop
    cases hdrop
  · rename_i hdrop
    rw [List.drop_left] at hdrop
    cases hdrop
    rw [href]

/-- The value stands in the leaf at the end of the path behind the offset. -/
structure StandsAt (root : Cell) (path : Path) (offset : Nat) (value : Content) (leaf : Cell) :
    Prop where
  follow : root.follow path = some leaf
  bits : leaf.bits = leaf.bits.take offset ++ value.bits
  offset_le : offset ≤ leaf.bits.length
  refs : leaf.refs = value.refs

/-- What stands below a reference stands below the cell. -/
theorem StandsAt.below {c ref leaf : Cell} {path : Path} {offset : Nat} {value : Content} (i : Nat)
    (href : c.refs[i]? = some ref) (h : StandsAt ref path offset value leaf) :
    StandsAt c (i :: path) offset value leaf where
  follow := (Cell.follow_cons c ref i path href).trans h.follow
  bits := h.bits
  offset_le := h.offset_le
  refs := h.refs

/-- The value of each entry stands in the leaf that its key selects. -/
theorem Trie.leafOf {m : Nat} {entries : List (Bits × Content)} {c : Cell} (h : Trie m entries c) :
    ∀ e ∈ entries, ∃ path offset leaf, leafOf c m e.1 = some (path, offset) ∧
      StandsAt c path offset e.2 leaf := by
  -- Induction on the tree: a leaf has the value behind its label, and a fork leads on by the bit
  -- behind it.
  induction h with
  | @leaf m c label value width bits refs fits =>
    intro e he
    obtain rfl := List.mem_singleton.mp he
    obtain ⟨s, hload, hpos⟩ := Label.load_toSlice c label value.bits m (by omega) bits
    refine ⟨[], s.bitPos, c, leafOf_label c m label s hload, rfl, ?_, ?_, refs⟩
    · rw [hpos, bits, List.take_left]
    · rw [hpos, bits, List.length_append]
      omega
  | @fork m c label zeros ones lower upper width bits refs fits _ _ ihzeros ihones =>
    obtain ⟨s, hload, _⟩ :=
      Label.load_toSlice c label [] m (by omega) (by rw [bits, List.append_nil])
    -- One step of the way: the label, the bit, and the branch of the bit.
    have hbranch (bit : Bool) (ref : Cell) (entries : List (Bits × Content))
        (href : c.refs[bit.toNat]? = some ref)
        (ih : ∀ e ∈ entries, ∃ path offset leaf,
          Dictionary.leafOf ref (m - label.length - 1 : Nat) e.1 = some (path, offset) ∧
            StandsAt ref path offset e.2 leaf) :
        ∀ e ∈ under (label ++ [bit]) entries, ∃ path offset leaf,
          Dictionary.leafOf c m e.1 = some (path, offset) ∧ StandsAt c path offset e.2 leaf := by
      intro e he
      obtain ⟨x, hx, rfl⟩ := List.mem_map.mp he
      obtain ⟨path, offset, leaf, hleaf, hstands⟩ := ih x hx
      refine ⟨bit.toNat :: path, offset, leaf, ?_, hstands.below bit.toNat href⟩
      show Dictionary.leafOf c m (label ++ [bit] ++ x.1) = _
      rw [List.append_assoc, List.singleton_append,
        leafOf_branch c ref m label x.1 bit s hload href, bits_left width, hleaf]
      rfl
    intro e he
    rcases List.mem_append.mp he with he | he
    · -- Behind the label, an entry of the lower branch has a zero, one of the upper branch a one.
      exact hbranch false zeros lower (by rw [refs]; rfl) ihzeros e he
    · exact hbranch true ones upper (by rw [refs]; rfl) ihones e he

end Dictionary

namespace JumpTable

/-! ## The first cell that ends with a value -/

/-- A cell that ends with the target is seen as such. -/
theorem EndsWith.endsWith? {c : Cell} {target : Slice} {k : Nat} (h : EndsWith c target k)
    (hvalid : target.Valid) :
    endsWith? c.toSlice target = some (c.bits.length - target.data.length) := by
  -- The data of the target are a suffix of the cell's bits, and the references have the same
  -- digests.
  have hsuffix : target.data.isSuffixOf c.bits := by
    rw [List.isSuffixOf_iff_suffix]
    exact ⟨c.bits.take k, h.bits.symm⟩
  have hcount : c.toSlice.remainingRefs = target.remainingRefs := by
    rw [(Slice.shows_toSlice c).remainingRefs, (hvalid.shows target).remainingRefs]
    have hlen := congrArg List.length h.digests
    rw [List.length_map, List.length_map] at hlen
    rw [hlen]
  have hsame : c.toSlice.sameRefs target = true := by
    simp [Slice.sameRefs, hcount, h.digests]
  unfold JumpTable.endsWith?
  simp only [Slice.data_toSlice, hsame, hsuffix, Bool.and_self, if_true]
  simp [Cell.toSlice]

/-- Only what the target shows decides whether a cell ends with it. -/
theorem EndsWith.congr {c : Cell} {target other : Slice} {k : Nat} (h : EndsWith c target k)
    (hdata : target.data = other.data) (hrefs : target.refs = other.refs) :
    EndsWith c other k where
  bits := hdata ▸ h.bits
  offset_le := h.offset_le
  digests := hrefs ▸ h.digests

/-- A way down goes through one of the first references or through the last one. -/
theorem follow_link (c ref d : Cell) (i : Nat) (rest : Path)
    (h : (Cell.link c ref).follow (i :: rest) = some d) :
    i < c.refCount ∧ c.follow (i :: rest) = some d ∨
      i = c.refCount ∧ ref.follow rest = some d := by
  -- By where the index stands: in front of the last reference, at it, or behind it.
  rw [Cell.follow, Cell.refs_link] at h
  rcases Nat.lt_trichotomy i c.refCount with hi | rfl | hi
  · rw [List.getElem?_append_left (by rwa [← Cell.refCount_eq])] at h
    exact .inl ⟨hi, h⟩
  · rw [Cell.refCount_eq, List.getElem?_concat_length] at h
    exact .inr ⟨rfl, h⟩
  · rw [List.getElem?_eq_none (by simp [← Cell.refCount_eq]; omega)] at h
    cases h

/-- Below a cell the search finds something, and not after any cell that ends with the target. -/
theorem searchBelow_first (target : Slice) (path : Path) (c : Cell) (hvalid : target.Valid)
    (i : Nat) (rest : Path) (d : Cell) (k : Nat) (hd : c.follow (i :: rest) = some d)
    (hends : EndsWith d target k) :
    ∃ first offset, searchBelow target path c = some (path ++ first, offset) ∧
      first ≤ i :: rest := by
  -- Induction on the cell, whose references are searched from the first to the last.
  induction c generalizing path i rest with
  | data bits => cases hd
  | link c ref ihc ihref =>
    rw [searchBelow]
    cases hbefore : searchBelow target path c with
    -- Something was found below the earlier references, and this comes first.
    | some found =>
      obtain ⟨found, offset⟩ := found
      obtain ⟨j, r, more, e, rfl, hr, _⟩ := searchBelow_follow target path c found offset hbefore
      refine ⟨j :: more, offset, rfl, ?_⟩
      rcases follow_link c ref d i rest hd with ⟨_, hd⟩ | ⟨rfl, _⟩
      · obtain ⟨first, offset', hfirst, hle⟩ := ihc path i rest hd
        rw [hbefore] at hfirst
        cases List.append_cancel_left (Prod.mk.inj (Option.some.inj hfirst)).1
        exact hle
      · -- What was found stands below an earlier reference.
        obtain ⟨hj, _⟩ := List.getElem?_eq_some_iff.mp hr
        rw [← Cell.refCount_eq] at hj
        exact le_of_lt (List.Lex.rel hj)
    -- So the way goes through the last reference.
    | none =>
      rcases follow_link c ref d i rest hd with ⟨_, hd'⟩ | ⟨rfl, hd'⟩
      · -- Nothing ends with the target below the earlier references, so this way is none of them.
        obtain ⟨first, offset, hfirst, _⟩ := ihc path i rest hd'
        rw [hbefore] at hfirst
        cases hfirst
      dsimp only
      cases hhere : endsWith? ref.toSlice target with
      -- The cell behind the last reference ends with the target, and no way through it is earlier.
      | some offset =>
        refine ⟨[c.refCount], offset, rfl, ?_⟩
        exact List.cons_le_cons _ (not_lt.mp (List.not_lt_nil rest))
      | none =>
        cases rest with
        | nil =>
          -- The cell behind the last reference is passed over, so it is not the one.
          cases hd'
          rw [hends.endsWith? hvalid] at hhere
          cases hhere
        -- The way goes on below the last reference, where the search goes on as well.
        | cons j more =>
          obtain ⟨first, offset, hfirst, hle⟩ := ihref (path ++ [c.refCount]) j more hd'
          refine ⟨c.refCount :: first, offset, ?_, List.cons_le_cons _ hle⟩
          dsimp only
          rw [hfirst, List.append_assoc, List.singleton_append]

/-- The search finds something, and not after any cell that ends with the target. -/
theorem search_first (c : Cell) (target : Slice) (hvalid : target.Valid) (path : Path) (d : Cell)
    (k : Nat) (hd : c.follow path = some d) (hends : EndsWith d target k) :
    ∃ first offset, search c.toSlice target [] = some (first, offset) ∧ first ≤ path := by
  -- The root is looked at first, and the empty path is the least of all.
  cases hhere : endsWith? c.toSlice target with
  | some offset =>
    refine ⟨[], offset, ?_, not_lt.mp (List.not_lt_nil path)⟩
    rw [search, hhere]
  | none =>
    cases path with
    | nil =>
      cases hd
      rw [hends.endsWith? hvalid] at hhere
      cases hhere
    | cons i rest =>
      rw [search_toSlice c target [] hhere]
      exact searchBelow_first target [] c hvalid i rest d k hd hends

/-! ## The methods of a built table -/

/-- Each method is the one of its path. -/
def Methods.Separate (methods : Methods) : Prop :=
  ∀ x ∈ methods, methods.get? x.1 = some x.2

/-- A method at a path of its own keeps the others apart. -/
theorem Methods.Separate.append {methods : Methods} (h : methods.Separate) (path : Path)
    (m : Method) (hnone : methods.get? path = none) : (methods ++ [(path, m)]).Separate := by
  intro x hx
  -- A path of the old methods leads to what it led to; the new path leads to the new method.
  rw [get?, List.lookup_append]
  rcases List.mem_append.mp hx with hx | hx
  · have hx : methods.lookup x.1 = some x.2 := h x hx
    rw [hx, Option.some_or]
  · obtain rfl := List.mem_singleton.mp hx
    have hnone : methods.lookup path = none := hnone
    simp [hnone]

/-- The method was placed where the value of the entry is found first. -/
structure Placed (root : Cell) (entry : Dictionary.Entry) (place : Path × Method) : Prop where
  found : search root.toSlice entry.value [] = some (place.1, place.2.offset)
  key : place.2.key = entry.key

/-- Entries that are all resolved add one method each. -/
theorem resolveAll_eq_none (root : Cell) (methods methods' : Methods)
    (entries : List Dictionary.Entry) (hseparate : methods.Separate)
    (h : resolveAll root methods entries = (methods', none)) :
    methods'.Separate ∧
      ∃ added, methods' = methods ++ added ∧ List.Forall₂ (Placed root) entries added := by
  -- Induction on the entries: each of them is resolved to a place that no method before it has.
  induction entries generalizing methods with
  | nil =>
    cases h
    exact ⟨hseparate, [], by simp, .nil⟩
  | cons entry entries ih =>
    rw [resolveAll] at h
    split at h
    · cases h
    rename_i place hplace
    obtain ⟨hfound, hnone, hkey, _⟩ := (resolve_eq_ok root methods entry place.1 place.2).mp hplace
    obtain ⟨hseparate', added, rfl, hadded⟩ := ih _ (hseparate.append _ _ hnone) h
    exact ⟨hseparate', place :: added, by simp, .cons ⟨hfound, hkey⟩ hadded⟩

/-- The places of a tree at which a cell ends with the value. -/
def places (root value : Cell) : Set Path :=
  {path | ∃ d k, root.follow path = some d ∧ EndsWith d value.toSlice k}

/-- A value is found at the first place whose cell ends with it. -/
theorem isLeast_places (root value : Cell) (target : Slice) (path : Path) (offset : Nat)
    (hshows : target.Shows value.bits value.refs)
    (h : search root.toSlice target [] = some (path, offset)) :
    IsLeast (places root value) path := by
  have hdata : target.data = value.toSlice.data := by rw [hshows.data_eq, Slice.data_toSlice]
  have hrefs : target.refs = value.toSlice.refs := by rw [hshows.refs_eq, Slice.refs_toSlice]
  -- The search stops at a place, and not behind any other one.
  obtain ⟨d, hd, hends⟩ := search_follow root target path offset h
  refine ⟨⟨d, offset, hd, hends.congr hdata hrefs⟩, ?_⟩
  intro other ⟨e, k, he, hother⟩
  obtain ⟨first, offset', hfirst, hle⟩ := search_first root target hshows.valid other e k he
    (hother.congr hdata.symm hrefs.symm)
  cases hfirst.symm.trans h
  exact hle

/-- The least place is a given one exactly when no place comes before that. -/
theorem eq_iff_of_isLeast (root value : Cell) (path leaf : Path)
    (hpath : IsLeast (places root value) path) (hleaf : leaf ∈ places root value) :
    path = leaf ↔ ∀ earlier < leaf, earlier ∉ places root value := by
  constructor
  · intro heq earlier hless hmem
    -- An earlier place would be less than the least one.
    exact not_lt_of_ge (hpath.2 hmem) (heq ▸ hless)
  · intro hnone
    apply le_antisymm (hpath.2 hleaf)
    -- No place is before the leaf, so the least one is not.
    exact not_lt.mp fun hless => hnone path hless hpath.1

/-- An entry of the table that was placed: its leaf, and where its method stands. -/
private theorem placed_entry (root : Cell) (n : Nat) (entries : List (Bits × Content))
    (htrie : Dictionary.Trie n entries root) (e : Bits × Content) (he : e ∈ entries)
    (value : Cell) (hvalue : e.2 = ⟨value.bits, value.refs⟩) (entry : Dictionary.Entry)
    (hentry : Dictionary.IsListed e entry) (place : Path × Method)
    (hplace : Placed root entry place) :
    ∃ leaf labelEnd, Dictionary.leafOf root n e.1 = some (leaf, labelEnd) ∧
      IsLeast (places root value) place.1 ∧
      (place.1 = leaf ∧ place.2.offset = labelEnd ↔
        ∀ earlier < leaf, earlier ∉ places root value) := by
  obtain ⟨leaf, labelEnd, d, hleaf, hstands⟩ := htrie.leafOf e he
  have hshows : entry.value.Shows value.bits value.refs := by
    -- The value of the entry shows just the bits and references of the mapping's value.
    have := hentry.shows
    rwa [hvalue] at this
  have hleast := isLeast_places root value entry.value place.1 place.2.offset hshows hplace.found
  -- The leaf is one of the places where the search might have stopped.
  have hends : EndsWith d value.toSlice labelEnd := by
    refine ⟨?_, hstands.offset_le, ?_⟩
    · rw [Slice.data_toSlice]
      simpa only [hvalue] using hstands.bits
    · rw [Slice.refs_toSlice, hstands.refs, hvalue]
  have hiff := eq_iff_of_isLeast root value place.1 leaf hleast ⟨d, labelEnd, hstands.follow, hends⟩
  refine ⟨leaf, labelEnd, hleaf, hleast, ?_⟩
  rw [← hiff, and_iff_left_iff_imp]
  intro heq
  -- In the leaf itself the value leaves the label only.
  obtain ⟨d', hd', hends'⟩ := search_follow root entry.value place.1 place.2.offset hplace.found
  rw [heq, hstands.follow] at hd'
  cases hd'
  have hfound := hends'.offset_add
  have hlabel := hends.offset_add
  rw [hshows.data_eq] at hfound
  rw [Slice.data_toSlice] at hlabel
  omega

/-- Each method of a built table is placed in the first cell that ends with its value. That is
    the leaf of its key, at the end of the label, exactly when no cell before the leaf ends with
    the value. -/
theorem mark_of_build (mapping : Dictionary.Mapping) (width : Int) (root : Cell)
    (methods : Methods) (hkeys : mapping.Pairwise fun a b => a.1 ≠ b.1)
    (hcells : ∀ e ∈ mapping, ∃ v, e.2 = .cell v)
    (hbuild : Dictionary.build mapping width = .ok (some root))
    (hmark : mark root width [] = (methods, none)) :
    (methods.map fun x => (x.2.key : Int)).Perm (mapping.map (·.1)) ∧
      ∀ key value, (key, Dictionary.Value.cell value) ∈ mapping →
        ∃ leaf labelEnd path m,
          Dictionary.leafOf root width (.ofNat width.toNat key.toNat) = some (leaf, labelEnd) ∧
          methods.get? path = some m ∧ (m.key : Int) = key ∧
          IsLeast (places root value) path ∧
          (path = leaf ∧ m.offset = labelEnd ↔ ∀ earlier < leaf, earlier ∉ places root value) := by
  -- The dictionary is a trie of the mapping, so its entries are listed, and each of them was
  -- placed.
  obtain ⟨n, rfl, entries, htrie, hperm⟩ :=
    Dictionary.build_trie_of_cells mapping width root hkeys hcells hbuild
  rw [Int.toNat_natCast]
  obtain ⟨listed, hitems, hlisted⟩ := Dictionary.items_trie htrie
  rw [mark, hitems] at hmark
  obtain ⟨hseparate, added, hadded, hplaced⟩ :=
    resolveAll_eq_none root [] methods listed nofun hmark
  rw [List.nil_append] at hadded
  subst hadded
  constructor
  · -- The methods have the keys of the listed entries, which are those of the trie.
    have hlistedKeys : methods.map (·.2.key) = listed.map (·.key) := by
      rw [← List.forall₂_eq_eq_eq, List.forall₂_map_left_iff, List.forall₂_map_right_iff]
      exact hplaced.flip.imp fun x e hx => hx.key
    have hentryKeys := Dictionary.keys_of_isListed entries listed hlisted
    have hkeysPerm := hperm.map Prod.fst
    simp only [List.map_map] at hkeysPerm
    have hkeysEq := congrArg (List.map (Nat.cast : Nat → Int)) (hlistedKeys.trans hentryKeys)
    simp only [List.map_map] at hkeysEq
    exact (List.Perm.of_eq hkeysEq).trans hkeysPerm
  · intro key value hmem
    -- The pair of the mapping is an entry of the trie, which is listed and placed.
    obtain ⟨e, he, heq⟩ := List.mem_map.mp (hperm.mem_iff.mpr
      (List.mem_map_of_mem (f := fun e => (e.1, e.2.content)) hmem))
    obtain ⟨hkey, hvalue⟩ : (e.1.toNat : Int) = key ∧ e.2 = ⟨value.bits, value.refs⟩ :=
      Prod.mk.inj heq
    obtain ⟨entry, hentry, hisListed⟩ := forall₂_mem_left _ _ hlisted e he
    obtain ⟨place, hplace, hisPlaced⟩ := forall₂_mem_left _ _ hplaced entry hentry
    obtain ⟨leaf, labelEnd, hleaf, hrest⟩ := placed_entry root n entries htrie e he value hvalue
      entry hisListed place hisPlaced
    -- The bits of the entry are those of its key.
    have hbits : Bits.ofNat n key.toNat = e.1 := by
      rw [← hkey, Int.toNat_natCast, ← htrie.width e he, Bits.ofNat_toNat]
    refine ⟨leaf, labelEnd, place.1, place.2, ?_, hseparate place hplace, ?_, hrest⟩
    · rw [hbits, hleaf]
    · rw [hisPlaced.key, hisListed.key_eq, hkey]

/-- The code of one method, and code that calls it. -/
private def called : Cell := .data (Opcode.hexBits "A4")

/-- A table of two methods, in which the code of the first calls that of the second. -/
def calling : Dictionary.Mapping := [
  (0, .cell (.mk (Opcode.hexBits "DB3C") [called])), (1, .cell called)]

/-- The leaves of `calling`. -/
private def caller : Cell := .mk ([false, false] ++ Opcode.hexBits "DB3C") [called]
private def callee : Cell := .data ([false, false] ++ Opcode.hexBits "A4")

/-- The dictionary of `calling` with keys of one bit. -/
def callingRoot : Cell := .mk [false, false] [caller, callee]

/-- The methods that are found in `callingRoot`. -/
def callingMethods : Methods := [
  ([0], ⟨0, 2, ⟨#[[⟨"CALLREF", [.code 1 (some called)]⟩], [⟨"INC", []⟩]]⟩, 0⟩),
  ([0, 0], ⟨1, 0, ⟨#[[⟨"INC", []⟩]]⟩, 0⟩)]

/-- The code of the second method, as the first one calls it. -/
private theorem scan_called : Decode.scan called.toSlice = ⟨[⟨"INC", []⟩], none⟩ :=
  Decode.scan_single _ ⟨called, 8, 8, 0, 0⟩ _
    (Decode.step_of_longest _ _ (Opcode.op "INC" "A4" []) _ (by decide +kernel) (by decide +kernel)
      rfl) rfl

/-- The same code behind its label. -/
private theorem scan_callee : Decode.scan ⟨callee, 2, 10, 0, 0⟩ = ⟨[⟨"INC", []⟩], none⟩ :=
  Decode.scan_single _ ⟨callee, 10, 10, 0, 0⟩ _
    (Decode.step_of_longest _ _ (Opcode.op "INC" "A4" []) _ (by decide +kernel) (by decide +kernel)
      rfl) rfl

/-- The code of the first method behind its label. -/
private theorem scan_caller : Decode.scan ⟨caller, 2, 18, 0, 1⟩ =
    ⟨[⟨"CALLREF", [.code called (some called)]⟩], none⟩ :=
  Decode.scan_single _ ⟨caller, 18, 18, 1, 1⟩ _
    (Decode.step_of_longest _ _ (Opcode.op "CALLREF" "DB3C" [.code]) _ (by decide +kernel)
      (by decide +kernel) rfl) rfl

/-- The first method is loaded with the code that it calls. -/
private theorem loadCode_caller : loadCode ⟨caller, 2, 18, 0, 1⟩ false =
    .ok (⟨#[[⟨"CALLREF", [.code 1 (some called)]⟩], [⟨"INC", []⟩]]⟩, 0) := by
  rw [loadCode, Loader.load, Loader.Work.run_cons _ _ _ _ _ scan_caller]
  simp only [Loader.Work.fill, Loader.Work.placeCode, Loader.Work.placeAll, Loader.Work.place,
    Loader.Work.placeBody, Loader.Work.defer, Loader.new, Bool.false_eq_true, false_and, if_false]
  rw [Loader.Work.run_cons _ _ _ _ _ scan_called]
  simp only [Loader.Work.fill, Loader.Work.placeCode, Loader.Work.placeAll]
  rw [Loader.Work.run]
  rfl

/-- The second method has one instruction. -/
private theorem loadCode_callee :
    loadCode ⟨callee, 2, 10, 0, 0⟩ false = .ok (⟨#[[⟨"INC", []⟩]]⟩, 0) :=
  loadCode_of_names _ false ["INC"] scan_callee

/-- The two entries of the table. -/
private theorem items_callingRoot : Dictionary.items (some callingRoot) 1 =
    .ok [⟨0, ⟨caller, 2, 18, 0, 1⟩⟩, ⟨1, ⟨callee, 2, 10, 0, 0⟩⟩] := by
  cbv

/-- The table that is built for the two methods. -/
private theorem build_calling : Dictionary.build calling 1 = .ok (some callingRoot) := by cbv

/-- The value of the second method is found below the first, before its own leaf is looked at. -/
private theorem mark_callingRoot : mark callingRoot 1 [] = (callingMethods, none) := by
  -- The search takes the first cell in order, and the called cell comes before the second leaf.
  have hcaller : search callingRoot.toSlice ⟨caller, 2, 18, 0, 1⟩ [] = some ([0], 2) := by
    decide +kernel
  have hcallee : search callingRoot.toSlice ⟨callee, 2, 10, 0, 0⟩ [] = some ([0, 0], 0) := by
    decide +kernel
  simp only [mark, items_callingRoot, resolveAll, resolve, locate, hcaller, hcallee,
    loadCode_caller, loadCode_callee, Methods.get?, List.lookup_nil, List.lookup_cons,
    List.nil_append]
  rfl

/-- The second method of `calling` is found in the code that the first one calls, below the leaf
    of the first key, and not in the leaf of its own key. -/
theorem mark_calling_elsewhere :
    Dictionary.build calling 1 = .ok (some callingRoot) ∧
      mark callingRoot 1 [] = (callingMethods, none) ∧
      Dictionary.leafOf callingRoot 1 [true] = some ([1], 2) ∧
      callingMethods.get? [1] = none ∧
      (callingMethods.get? [0, 0]).map (fun m => (m.key, m.offset)) = some (1, 0) :=
  ⟨build_calling, mark_callingRoot, by decide +kernel, rfl, rfl⟩

/-- Both methods of `calling` are found in the first cells that end with their values. -/
theorem mark_of_build_calling :
    Dictionary.build calling 1 = .ok (some callingRoot) ∧
      mark callingRoot 1 [] = (callingMethods, none) ∧
      (callingMethods.map fun x => (x.2.key : Int)).Perm (calling.map (·.1)) ∧
      ∀ key value, (key, Dictionary.Value.cell value) ∈ calling →
        ∃ leaf labelEnd path m,
          Dictionary.leafOf callingRoot 1 (.ofNat 1 key.toNat) = some (leaf, labelEnd) ∧
          callingMethods.get? path = some m ∧ (m.key : Int) = key ∧
          IsLeast (places callingRoot value) path ∧
          (path = leaf ∧ m.offset = labelEnd ↔
            ∀ earlier < leaf, earlier ∉ places callingRoot value) := by
  have hcells : ∀ e ∈ calling, ∃ v, e.2 = .cell v := by
    intro e he
    simp only [calling, List.mem_cons, List.not_mem_nil, or_false] at he
    rcases he with rfl | rfl
    · exact ⟨_, rfl⟩
    · exact ⟨_, rfl⟩
  exact ⟨build_calling, mark_callingRoot, mark_of_build calling 1 callingRoot callingMethods
    (by decide +kernel) hcells build_calling mark_callingRoot⟩

end JumpTable

end CellCode
