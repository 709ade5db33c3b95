import CellCode.Proofs.Dictionary.Entries

/-!
# Dictionaries are canonical

Two mappings have one dictionary exactly when they have the same keys and hold the same under each
of them. How a value was given does not matter, since what is stored is what the value shows, and
in which order the entries came does not matter either.

A trie is determined by its entries. The label of a fork starts all keys and is the longest bit
string to do so, since keys go on with both bits behind it, and the next bit says in which branch
an entry is. The other way round a trie lists its entries, so that the cell determines them.

## Key results

* `build_shown`       a value may be given as the cell of what it shows
* `Trie.unique`       tries of the same entries are the same cell
* `Trie.entries_eq`   a cell is a trie of one list of entries only
* `build_canonical`   dictionaries are the same for mappings that agree, and for no others
-/

namespace CellCode

-- Powers are those of the standard library, whatever else is in scope.
attribute [local instance (high)] instPowNat

/-! ## What a slice shows -/

/-- The slice over a cell of its own that shows the same. -/
def Slice.alone (s : Slice) : Slice := s.toCell.toSlice

namespace Slice

variable (s : Slice)

/-- It has the same bits left. -/
theorem data_alone : s.alone.data = s.data := by
  rw [alone, data_toSlice, toCell, Cell.bits_mk]

/-- It has the same references left. -/
theorem refs_alone : s.alone.refs = s.refs := by
  rw [alone, refs_toSlice, toCell, Cell.refs_mk]

/-- It is the slice of a whole cell, so it lies inside. -/
theorem valid_alone : s.alone.Valid := valid_toSlice s.toCell

end Slice

/-- Where there is room for the whole window there is room for what it shows. -/
theorem Builder.storeSlice_alone (b c : Builder) (s : Slice) (hb : b.Fits)
    (h : b.storeSlice s = .ok c) : b.storeSlice s.alone = .ok c := by
  rw [storeSlice_eq_ok _ _ _ s.valid_alone, s.data_alone, s.refs_alone]
  exact b.of_storeSlice c s hb h

namespace Dictionary

/-- Entries with their values over cells of their own. -/
def alone (entries : List (Bits × Slice)) : List (Bits × Slice) :=
  entries.map fun e => (e.1, e.2.alone)

/-- The label that keys share depends on the keys. -/
theorem sharedLabel_alone (entries : List (Bits × Slice)) :
    sharedLabel (alone entries) = sharedLabel entries := by
  cases entries with
  | nil => rfl
  | cons e others => simp only [alone, List.map_cons, sharedLabel, List.foldl_map]

theorem branch_alone (entries : List (Bits × Slice)) (n : Nat) (bit : Bool) :
    branch (alone entries) n bit = alone (branch entries n bit) := by
  simp only [alone, branch, List.filter_map, List.map_map]
  rfl

/-- A node stores what its values show. -/
theorem node_alone (m : Nat) (entries : List (Bits × Slice)) (c : Cell)
    (h : node m entries = .ok c) : node m (alone entries) = .ok c := by
  -- Strong induction on the key bits left, with the same steps on both sides.
  induction m using Nat.strongRecOn generalizing entries c with
  | ind m ih =>
    rw [node] at h ⊢
    obtain ⟨b, hb, h⟩ := (bind_eq_ok _ _ _).mp h
    have hfits : b.Fits := by
      obtain ⟨hroom, rfl⟩ := (Builder.storeBits_eq_ok _ b _ (Nat.zero_le _)).mp hb
      exact ⟨by simpa using hroom, Nat.zero_le _⟩
    -- A leaf takes nothing from a slice but what the slice shows.
    have hvalue (s : Slice) (h : (do (← b.storeSlice s).build) = Except.ok c) :
        (do (← b.storeSlice s.alone).build) = Except.ok c := by
      obtain ⟨b', hb', hc⟩ := (bind_eq_ok _ _ _).mp h
      exact (bind_eq_ok _ _ _).mpr ⟨b', b.storeSlice_alone b' s hfits hb', hc⟩
    rw [sharedLabel_alone]
    refine (bind_eq_ok _ _ _).mpr ⟨b, hb, ?_⟩
    -- Without entries and with a single one nothing is branched.
    cases entries with
    | nil => exact h
    | cons e others =>
      cases others with
      | nil => exact hvalue e.2 h
      | cons e' others =>
        cases m with
        | zero => exact hvalue e.2 h
        | succ m =>
          obtain ⟨zeros, hzeros, h⟩ := (bind_eq_ok _ _ _).mp h
          obtain ⟨ones, hones, h⟩ := (bind_eq_ok _ _ _).mp h
          refine (bind_eq_ok _ _ _).mpr ⟨zeros, ?_, (bind_eq_ok _ _ _).mpr ⟨ones, ?_, h⟩⟩
          · rw [branch_alone]
            exact ih _ (by omega) _ zeros hzeros
          · rw [branch_alone]
            exact ih _ (by omega) _ ones hones

/-- The cell of what a value shows. -/
def Value.shown (v : Value) : Value := .cell (.mk v.content.bits v.content.refs)

/-- What is shown is the content. -/
theorem Value.content_shown (v : Value) : v.shown.content = v.content := by
  rw [shown, content, Cell.bits_mk, Cell.refs_mk]

/-- The slice to be stored for it is the one of the value, over a cell of its own. -/
theorem Value.toSlice_shown (v : Value) (s : Slice) (h : v.toSlice = .ok s) :
    v.shown.toSlice = .ok s.alone := by
  have hcontent := v.content_of_toSlice s h
  -- The slice of a value has the value's content, so both slices are over the same cell.
  show Except.ok (Cell.mk v.content.bits v.content.refs).toSlice = _
  rw [← hcontent]
  rfl

/-- The entries of a mapping by what they show. -/
def Mapping.shown (mapping : Mapping) : Mapping := mapping.map fun e => (e.1, e.2.shown)

/-- An entry is taken the same way when its value is given as a cell. -/
theorem keyed_shown (width : Int) (entry : Int × Value) (result : Int × Bits × Slice)
    (h : keyed width entry = .ok result) :
    keyed width (entry.1, entry.2.shown) = .ok (result.1, result.2.1, result.2.2.alone) := by
  obtain ⟨key, value⟩ := entry
  unfold keyed at h ⊢
  dsimp only at h ⊢
  split at h
  · cases h
  rename_i hnonneg
  split at h
  · cases h
  rename_i hwidth
  split at h
  · cases h
  rename_i hrange
  obtain ⟨s, hs, h⟩ := (bind_eq_ok _ _ _).mp h
  cases h
  -- The range checks depend on the key and the width only.
  rw [if_neg hnonneg, if_neg hwidth, if_neg hrange]
  exact (bind_eq_ok _ _ _).mpr ⟨s.alone, value.toSlice_shown s hs, rfl⟩

/-- A value may be given as the cell of what it shows. -/
theorem build_shown (mapping : Mapping) (width : Int) (c : Cell)
    (h : build mapping width = .ok (some c)) : build mapping.shown width = .ok (some c) := by
  unfold build at h ⊢
  split at h
  · cases h
  rename_i hne
  -- Both mappings go through the same steps: taking entries, sorting them, building the node.
  obtain ⟨entries, hentries, h⟩ := (bind_eq_ok _ _ _).mp h
  obtain ⟨root, hroot, h⟩ := (bind_eq_ok _ _ _).mp h
  cases h
  rw [if_neg (by simpa [Mapping.shown] using hne)]
  have hshown : mapping.shown.mapM (keyed width) =
      .ok (entries.map fun x => (x.1, x.2.1, x.2.2.alone)) := by
    rw [mapM_eq_ok] at hentries ⊢
    rw [Mapping.shown, List.forall₂_map_left_iff, List.forall₂_map_right_iff]
    exact hentries.imp (keyed_shown width)
  refine (bind_eq_ok _ _ _).mpr ⟨_, hshown, (bind_eq_ok _ _ _).mpr ⟨c, ?_, rfl⟩⟩
  -- The keys are the same, so the entries are sorted the same way.
  have hsorted : ((entries.map fun x => (x.1, x.2.1, x.2.2.alone)).mergeSort fun a b => a.1 ≤ b.1) =
      (entries.mergeSort fun a b => a.1 ≤ b.1).map fun x => (x.1, x.2.1, x.2.2.alone) := by
    rw [List.map_mergeSort]
    exact fun _ _ _ _ => rfl
  have hnode := node_alone _ _ c hroot
  rw [alone, List.map_map] at hnode
  rw [hsorted, List.map_map]
  exact hnode

/-! ## Tries and their entries -/

section Fork

variable {label label' front : Bits} {entries entries' lower upper : List (Bits × Content)}

/-- Bits in front of all keys are in front of each of them. -/
theorem mem_under (front key : Bits) (value : Content) (entries : List (Bits × Content)) :
    (front ++ key, value) ∈ under front entries ↔ (key, value) ∈ entries := by
  simp [under]

/-- A key with bits put in front starts with them. -/
theorem prefix_of_mem_under {e : Bits × Content} (h : e ∈ under front entries) :
    front <+: e.1 := by
  obtain ⟨x, _, rfl⟩ := List.mem_map.mp h
  exact List.prefix_append front x.1

/-- A key goes on with one bit behind a label. -/
private theorem next_unique {key : Bits} {bit bit' : Bool} (h : label ++ [bit] <+: key)
    (h' : label ++ [bit'] <+: key) : bit = bit' := by
  have heq := (List.prefix_of_prefix_length_le h h' (by simp)).eq_of_length (by simp)
  simpa using heq

/-- In a fork an entry is in the branch of its next bit. -/
private theorem mem_fork (label : Bits) (lower upper : List (Bits × Content)) (bit : Bool)
    (x : Bits × Content) :
    (label ++ [bit] ++ x.1, x.2) ∈ under (label ++ [false]) lower ++ under (label ++ [true]) upper ↔
      x ∈ bif bit then upper else lower := by
  -- The bit behind the label tells the branch, as `next_unique` says.
  have hbranch {bit' : Bool} {entries : List (Bits × Content)}
      (h : (label ++ [bit] ++ x.1, x.2) ∈ under (label ++ [bit']) entries) : bit' = bit :=
    next_unique (prefix_of_mem_under h) (List.prefix_append _ x.1)
  rw [List.mem_append]
  cases bit with
  | false =>
    constructor
    · rintro (h | h)
      · exact (mem_under _ x.1 x.2 lower).mp h
      · cases hbranch h
    · exact fun h => .inl ((mem_under _ x.1 x.2 lower).mpr h)
  | true =>
    constructor
    · rintro (h | h)
      · cases hbranch h
      · exact (mem_under _ x.1 x.2 upper).mp h
    · exact fun h => .inr ((mem_under _ x.1 x.2 upper).mpr h)

/-- All keys start with the label, and some go on with each bit. -/
structure Splits (label : Bits) (entries : List (Bits × Content)) : Prop where
  starts : ∀ e ∈ entries, label <+: e.1
  both : ∀ bit, ∃ e ∈ entries, label ++ [bit] <+: e.1

/-- No label at which entries are split is longer than another one. -/
private theorem Splits.isPrefixOf (h : Splits label entries) (h' : Splits label' entries) :
    label <+: label' := by
  -- One of the labels starts the other, since some key starts with both.
  obtain ⟨e, he, _⟩ := h.both false
  rcases List.prefix_or_prefix_of_prefix (h.starts e he) (h'.starts e he) with hle | ⟨rest, hrest⟩
  · exact hle
  cases rest with
  | nil =>
    rw [← hrest, List.append_nil]
  | cons bit rest =>
    -- Some key goes on with the other bit behind the shorter label, and yet all share this one.
    obtain ⟨e, he, hother⟩ := h'.both !bit
    have hbit : label' ++ [bit] <+: e.1 := by
      refine List.IsPrefix.trans ⟨rest, ?_⟩ (h.starts e he)
      rw [← hrest, List.append_assoc, List.singleton_append]
    -- One bit stands behind the label in that key, and it cannot be both.
    cases bit <;> cases next_unique hbit hother

/-- Entries are split at one label only. -/
theorem Splits.eq (h : Splits label entries) (h' : Splits label' entries) : label = label' :=
  (h.isPrefixOf h').eq_of_length_le (h'.isPrefixOf h).length_le

/-- Entries that are split are more than one. -/
private theorem Splits.not_single {e : Bits × Content} (h : Splits label entries)
    (hsingle : ∀ x ∈ entries, x = e) : False := by
  -- Some key goes on with a zero and some key with a one, so they are not the same.
  obtain ⟨x, hx, hfalse⟩ := h.both false
  obtain ⟨y, hy, htrue⟩ := h.both true
  rw [hsingle x hx] at hfalse
  rw [hsingle y hy] at htrue
  cases next_unique hfalse htrue

/-- Only which entries there are matters for how they split. -/
private theorem Splits.congr (h : Splits label entries) (hmem : ∀ e, e ∈ entries ↔ e ∈ entries') :
    Splits label entries' where
  starts := fun e he => h.starts e ((hmem e).mpr he)
  both := by
    intro bit
    obtain ⟨e, he, hbit⟩ := h.both bit
    exact ⟨e, (hmem e).mp he, hbit⟩

/-- A fork splits its entries at its label. -/
theorem splits_under (label : Bits) (hlower : lower ≠ []) (hupper : upper ≠ []) :
    Splits label (under (label ++ [false]) lower ++ under (label ++ [true]) upper) where
  starts := by
    intro e he
    rcases List.mem_append.mp he with he | he
    · exact (List.prefix_append label _).trans (prefix_of_mem_under he)
    · exact (List.prefix_append label _).trans (prefix_of_mem_under he)
  both := by
    intro bit
    -- Both branches have entries.
    obtain ⟨x, hx⟩ := List.exists_mem_of_ne_nil lower hlower
    obtain ⟨y, hy⟩ := List.exists_mem_of_ne_nil upper hupper
    cases bit with
    | false =>
      exact ⟨_, List.mem_append_left _ ((mem_under _ x.1 x.2 lower).mpr hx), List.prefix_append ..⟩
    | true =>
      exact ⟨_, List.mem_append_right _ ((mem_under _ y.1 y.2 upper).mpr hy), List.prefix_append ..⟩

end Fork

namespace Trie

variable {m : Nat} {entries entries' : List (Bits × Content)} {c d : Cell}

/-- A trie has entries. -/
theorem ne_nil (h : Trie m entries c) : entries ≠ [] := by
  induction h with
  | leaf => nofun
  | fork label zeros ones lower upper width bits refs fits hzeros hones ihzeros ihones =>
    simpa [under] using fun h => absurd h ihzeros

/-- Tries of the same entries are the same cell. -/
theorem unique (h : Trie m entries c) (h' : Trie m entries' d)
    (hmem : ∀ e, e ∈ entries ↔ e ∈ entries') : c = d := by
  -- Induction on the first trie, with the second one split in the same way.
  induction h generalizing entries' d with
  | leaf label value width bits refs =>
    cases h' with
    | leaf label' value' width' bits' refs' =>
      have hsame := (hmem (label, value)).mp (by simp)
      simp only [List.mem_singleton] at hsame
      cases hsame
      exact Cell.ext_parts (bits.trans bits'.symm) (refs.trans refs'.symm)
    -- A fork has more than one entry, so it cannot have those of a leaf.
    | fork label' zeros ones lower upper _ _ _ _ hzeros hones =>
      have hsplits := splits_under label' hzeros.ne_nil hones.ne_nil
      exact (hsplits.not_single fun x hx => List.mem_singleton.mp ((hmem x).mpr hx)).elim
  | @fork m c label zeros ones lower upper width bits refs _ hzeros hones ihzeros ihones =>
    have hsplits := splits_under label hzeros.ne_nil hones.ne_nil
    cases h' with
    -- The other way round, a leaf cannot have those of a fork.
    | leaf label' value' =>
      exact (hsplits.not_single fun x hx => List.mem_singleton.mp ((hmem x).mp hx)).elim
    | fork label' zeros' ones' lower' upper' width' bits' refs' _ hzeros' hones' =>
      have hsplits' := splits_under label' hzeros'.ne_nil hones'.ne_nil
      -- The keys split behind one label only, so both forks have the same.
      obtain rfl := hsplits.eq (hsplits'.congr fun e => (hmem e).symm)
      have hbranch (bit : Bool) (x : Bits × Content) :
          x ∈ (bif bit then upper else lower) ↔ x ∈ bif bit then upper' else lower' := by
        rw [← mem_fork label lower upper bit x, ← mem_fork label lower' upper' bit x]
        exact hmem _
      rw [← ihzeros hzeros' (hbranch false), ← ihones hones' (hbranch true)] at refs'
      exact Cell.ext_parts (bits.trans bits'.symm) (refs.trans refs'.symm)

/-- A cell is a trie of one list of entries only. -/
theorem entries_eq (h : Trie m entries c) (h' : Trie m entries' c) : entries = entries' := by
  -- Listing a trie yields its entries, and both lists are listed from the same cell.
  obtain ⟨listed, hitems, hlisted⟩ := items_trie h
  obtain ⟨listed', hitems', hlisted'⟩ := items_trie h'
  rw [hitems] at hitems'
  cases hitems'
  -- All keys have the same width, so the listed number tells which key it is.
  have hwidth {entries : List (Bits × Content)} (h : Trie m entries c)
      (hlisted : List.Forall₂ IsListed entries listed) :
      List.Forall₂ (fun e x => IsListed e x ∧ e.1.length = m) entries listed :=
    forall₂_imp_mem _ _ (fun e he _ _ hx => ⟨hx, h.width e he⟩) hlisted
  rw [← List.forall₂_eq_eq_eq]
  refine forall₂_comp ?_ _ _ _ (hwidth h hlisted) (hwidth h' hlisted')
  -- Entries that are listed as the same have the same key and the same content.
  rintro ⟨key, value⟩ x ⟨key', value'⟩ ⟨hx, hlen⟩ ⟨hx', hlen'⟩
  have hnat : key.toNat = key'.toNat := hx.key_eq.symm.trans hx'.key_eq
  obtain rfl := Bits.eq_of_toNat_eq key key' (hlen.trans hlen'.symm) hnat
  have hbits := hx.shows.data_eq.symm.trans hx'.shows.data_eq
  have hrefs := hx.shows.refs_eq.symm.trans hx'.shows.refs_eq
  cases value
  cases value'
  cases hbits
  cases hrefs
  rfl

end Trie

/-- Entries with their keys as numbers. -/
def numbered (entries : List (Bits × Content)) : List (Int × Content) :=
  entries.map fun e => ((e.1.toNat : Int), e.2)

/-- A key with all bits that are left is told by its number. -/
theorem Trie.mem_iff {m : Nat} {entries : List (Bits × Content)} {c : Cell}
    (h : Trie m entries c) (e : Bits × Content) :
    e ∈ entries ↔ e.1.length = m ∧ ((e.1.toNat : Int), e.2) ∈ numbered entries := by
  constructor
  · intro he
    exact ⟨h.width e he, List.mem_map_of_mem he⟩
  · rintro ⟨hlen, hmem⟩
    -- The key has as many bits as the number was taken from, so it is the same key.
    obtain ⟨⟨key, value⟩, hx, heq⟩ := List.mem_map.mp hmem
    obtain ⟨key', value'⟩ := e
    obtain ⟨hkey, rfl⟩ := Prod.mk.inj heq
    rwa [← Bits.eq_of_toNat_eq key key' ((h.width _ hx).trans hlen.symm) (by exact_mod_cast hkey)]

/-! ## Mappings that agree -/

namespace Mapping

/-- A value with this content under this key. -/
def Holds (mapping : Mapping) (key : Int) (content : Content) : Prop :=
  ∃ v, (key, v) ∈ mapping ∧ v.content = content

/-- The same keys, and under each of them values with the same bits and references. -/
structure Agrees (a b : Mapping) : Prop where
  keys : ∀ key, (∃ v, (key, v) ∈ a) ↔ ∃ w, (key, w) ∈ b
  contents : ∀ key v w, (key, v) ∈ a → (key, w) ∈ b → v.content = w.content

variable {a b : Mapping}

/-- There is one value under a key. -/
private theorem value_eq (hkeys : a.Pairwise fun x y => x.1 ≠ y.1) {key : Int} {v w : Value}
    (hv : (key, v) ∈ a) (hw : (key, w) ∈ a) : v = w := by
  have hkeys : (a.map Prod.fst).Nodup := List.pairwise_map.mpr hkeys
  have := List.inj_on_of_nodup_map hkeys hv hw rfl
  exact (Prod.mk.inj this).2

/-- Mappings agree when they hold the same. -/
theorem agrees_iff (hb : b.Pairwise fun x y => x.1 ≠ y.1) :
    a.Agrees b ↔ ∀ key content, a.Holds key content ↔ b.Holds key content := by
  -- Keys and contents are compared one by one in one direction, and read off in the other.
  constructor
  · rintro ⟨hkeys, hcontents⟩ key content
    constructor
    · rintro ⟨v, hv, rfl⟩
      obtain ⟨w, hw⟩ := (hkeys key).mp ⟨v, hv⟩
      exact ⟨w, hw, (hcontents key v w hv hw).symm⟩
    · rintro ⟨w, hw, rfl⟩
      obtain ⟨v, hv⟩ := (hkeys key).mpr ⟨w, hw⟩
      exact ⟨v, hv, hcontents key v w hv hw⟩
  · intro hholds
    refine ⟨fun key => ⟨?_, ?_⟩, ?_⟩
    · -- A key of the first mapping has a value there, whose content the second one holds too.
      rintro ⟨v, hv⟩
      obtain ⟨w, hw, _⟩ := (hholds key v.content).mp ⟨v, hv, rfl⟩
      exact ⟨w, hw⟩
    · rintro ⟨w, hw⟩
      obtain ⟨v, hv, _⟩ := (hholds key w.content).mpr ⟨w, hw, rfl⟩
      exact ⟨v, hv⟩
    · intro key v w hv hw
      obtain ⟨w', hw', hcontent⟩ := (hholds key v.content).mp ⟨v, hv, rfl⟩
      rw [← hcontent, value_eq hb hw hw']

end Mapping

/-- What is stored under a key is what the mapping holds there. -/
theorem exists_trie_of_build (mapping : Mapping) (width : Int) (c : Cell)
    (hkeys : mapping.Pairwise fun x y => x.1 ≠ y.1) (h : build mapping width = .ok (some c)) :
    ∃ entries, Trie width.toNat entries c ∧
      ∀ key content, mapping.Holds key content ↔ (key, content) ∈ numbered entries := by
  have hkeys : mapping.shown.Pairwise fun x y => x.1 ≠ y.1 := List.pairwise_map.mpr hkeys
  have hvalid : ∀ e ∈ mapping.shown, e.2.Valid := by
    intro e he
    obtain ⟨x, _, rfl⟩ := List.mem_map.mp he
    trivial
  -- The values are given as what they show, for which every entry is valid.
  obtain ⟨_, entries, htrie, hperm⟩ :=
    build_trie mapping.shown width c hkeys hvalid (build_shown mapping width c h)
  refine ⟨entries, htrie, fun key content => ?_⟩
  rw [numbered, hperm.mem_iff]
  simp only [Mapping.shown, List.map_map, List.mem_map, Function.comp_apply, Value.content_shown,
    Prod.mk.injEq]
  constructor
  · rintro ⟨v, hv, rfl⟩
    exact ⟨_, hv, rfl, rfl⟩
  · rintro ⟨⟨_, v⟩, hv, rfl, rfl⟩
    exact ⟨v, hv, rfl⟩

/-- Two mappings have one dictionary exactly when they agree, in whichever order their entries came
    and whether their values were given as bits, as cells or as slices. -/
theorem build_canonical (a b : Mapping) (width : Int) (c d : Cell)
    (ha : a.Pairwise fun x y => x.1 ≠ y.1) (hb : b.Pairwise fun x y => x.1 ≠ y.1)
    (hc : build a width = .ok (some c)) (hd : build b width = .ok (some d)) :
    c = d ↔ a.Agrees b := by
  obtain ⟨entries, htrie, hholds⟩ := exists_trie_of_build a width c ha hc
  obtain ⟨entries', htrie', hholds'⟩ := exists_trie_of_build b width d hb hd
  rw [Mapping.agrees_iff hb]
  constructor
  · -- One cell is a trie of one list of entries only, so both mappings hold what is stored.
    rintro rfl key content
    rw [hholds, hholds', htrie.entries_eq htrie']
  · -- Mappings that hold the same have tries of the same entries.
    intro hsame
    refine htrie.unique htrie' fun e => ?_
    rw [htrie.mem_iff, htrie'.mem_iff, ← hholds, ← hholds', hsame]

/-- The entries of `mixed` in another order, each value given in another way. -/
def remixed : Mapping := [
  (6, .cell (.mk [true, true] [.data [true]])),
  (5, .slice ⟨.mk [false, true] [], 1, 2, 0, 0⟩),
  (2, .slice (Cell.mk [true, false] [.data []]).toSlice)]

/-- They have the same dictionary. -/
theorem build_canonical_mixed :
    (mixed.Pairwise fun x y => x.1 ≠ y.1) ∧ (remixed.Pairwise fun x y => x.1 ≠ y.1) ∧
      build mixed 3 = .ok (some mixedRoot) ∧ build remixed 3 = .ok (some mixedRoot) ∧
      mixed.Agrees remixed := by
  have hmixed : mixed.Pairwise fun x y => x.1 ≠ y.1 := by decide
  have hremixed : remixed.Pairwise fun x y => x.1 ≠ y.1 := by decide
  have hbuild : build mixed 3 = .ok (some mixedRoot) := by cbv
  have hbuild' : build remixed 3 = .ok (some mixedRoot) := by cbv
  exact ⟨hmixed, hremixed, hbuild, hbuild',
    (build_canonical mixed remixed 3 mixedRoot mixedRoot hmixed hremixed hbuild hbuild').mp rfl⟩

end Dictionary

end CellCode
