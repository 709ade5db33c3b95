import CellCode.Proofs.JumpTable.Marking

/-!
# Methods that collide

The methods of a table may all be different and still not be told apart: the search for a value
stops at the first cell that ends with it, and a cell that ends with a long method ends with each
shorter one that the long method ends with. A built table is marked exactly when no two of its
values are first found in one cell, and then each key has its method.

## Key results

- `Collide`: two keys whose values are first found in one cell
- `lists_of_build`: the entries of a built table are those of the mapping
- `suffix_of_places`: of two values that a cell ends with, one ends with the other
- `mark_of_build_iff`: a built table is marked exactly when no keys collide
-/

namespace CellCode.JumpTable

/-- The values of two keys are first found in the cell at the end of the path. -/
structure Collide (root : Cell) (mapping : Dictionary.Mapping) (a b : Int) (path : Path) : Prop
    where
  ne : a ≠ b
  first : ∃ v, (a, Dictionary.Value.cell v) ∈ mapping ∧ IsLeast (places root v) path
  second : ∃ v, (b, Dictionary.Value.cell v) ∈ mapping ∧ IsLeast (places root v) path

/-- A cell that ends with two values makes one of them end with the other. -/
theorem suffix_of_places {root v w : Cell} {path : Path} (hv : path ∈ places root v)
    (hw : path ∈ places root w) :
    (v.bits <:+ w.bits ∨ w.bits <:+ v.bits) ∧
      v.refs.map Cell.digest = w.refs.map Cell.digest := by
  obtain ⟨c, k, hc, hends⟩ := hv
  obtain ⟨d, l, hd, hends'⟩ := hw
  obtain rfl := Option.some.inj (hc.symm.trans hd)
  have hsuffix : v.bits <:+ c.bits := ⟨c.bits.take k, by
    rw [← Slice.data_toSlice v]
    exact hends.bits.symm⟩
  have hsuffix' : w.bits <:+ c.bits := ⟨c.bits.take l, by
    rw [← Slice.data_toSlice w]
    exact hends'.bits.symm⟩
  refine ⟨List.suffix_or_suffix_of_suffix hsuffix hsuffix', ?_⟩
  have hdigests := hends.digests.symm.trans hends'.digests
  rwa [Slice.refs_toSlice, Slice.refs_toSlice] at hdigests

/-! ## The entries of a built table -/

/-- What is listed is the mapping: the same keys, each with a slice that shows its value. -/
structure Lists (listed : List Dictionary.Entry) (mapping : Dictionary.Mapping) : Prop where
  keys : (listed.map fun e => (e.key : Int)).Perm (mapping.map (·.1))
  given : ∀ e ∈ listed, ∃ v, ((e.key : Int), Dictionary.Value.cell v) ∈ mapping ∧
    e.value.Shows v.bits v.refs
  all : ∀ key v, (key, Dictionary.Value.cell v) ∈ mapping →
    ∃ e ∈ listed, (e.key : Int) = key ∧ e.value.Shows v.bits v.refs

/-- A built table lists the mapping. -/
theorem lists_of_build (mapping : Dictionary.Mapping) (width : Int) (root : Cell)
    (hkeys : mapping.Pairwise fun a b => a.1 ≠ b.1)
    (hcells : ∀ e ∈ mapping, ∃ v, e.2 = .cell v)
    (hbuild : Dictionary.build mapping width = .ok (some root)) :
    ∃ n : Nat, width = n ∧ ∃ listed, Dictionary.items (some root) n = .ok listed ∧
      Lists listed mapping := by
  obtain ⟨n, rfl, entries, htrie, hperm⟩ :=
    Dictionary.build_trie_of_cells mapping width root hkeys hcells hbuild
  obtain ⟨listed, hitems, hlisted⟩ := Dictionary.items_trie htrie
  refine ⟨n, rfl, listed, hitems, ?_, ?_, ?_⟩
  · -- The keys that are listed are those of the trie, which are those of the mapping.
    have hkeysEq := congrArg (List.map (Nat.cast : Nat → Int))
      (Dictionary.keys_of_isListed entries listed hlisted)
    have hkeysPerm := hperm.map Prod.fst
    simp only [List.map_map] at hkeysEq hkeysPerm
    exact (List.Perm.of_eq hkeysEq).trans hkeysPerm
  · -- What is listed shows a cell of the mapping.
    intro e he
    obtain ⟨x, hx, hxe⟩ := forall₂_mem_right _ _ hlisted e he
    obtain ⟨entry, hentry, heq⟩ := List.mem_map.mp (hperm.mem_iff.mp
      (List.mem_map_of_mem (f := fun e => ((e.1.toNat : Int), e.2)) hx))
    obtain ⟨v, hv⟩ := hcells entry hentry
    obtain ⟨hkey, hvalue⟩ := Prod.mk.inj heq
    have hshows := hxe.shows
    rw [← hvalue, hv] at hshows
    refine ⟨v, ?_, hshows⟩
    rw [hxe.key_eq, ← hkey, ← hv]
    exact hentry
  · -- Every cell of the mapping is shown by what is listed.
    intro key v hmem
    obtain ⟨x, hx, heq⟩ := List.mem_map.mp (hperm.mem_iff.mpr
      (List.mem_map_of_mem (f := fun e => (e.1, e.2.content)) hmem))
    obtain ⟨hkey, hvalue⟩ := Prod.mk.inj heq
    obtain ⟨e, he, hxe⟩ := forall₂_mem_left _ _ hlisted x hx
    have hshows := hxe.shows
    rw [hvalue] at hshows
    exact ⟨e, he, by rw [hxe.key_eq, hkey], hshows⟩

/-! ## Marking a built table -/

section Listed

variable {mapping : Dictionary.Mapping} {root : Cell} {listed : List Dictionary.Entry}

/-- Two entries that are found in one cell are those of keys that collide. -/
theorem Lists.collide (h : Lists listed mapping) {a b : Dictionary.Entry} (ha : a ∈ listed)
    (hb : b ∈ listed) (hne : a.key ≠ b.key) {path : Path} {k l : Nat}
    (hfirst : search root.toSlice a.value [] = some (path, k))
    (hsecond : search root.toSlice b.value [] = some (path, l)) :
    Collide root mapping a.key b.key path := by
  obtain ⟨v, hv, hshows⟩ := h.given a ha
  obtain ⟨w, hw, hshows'⟩ := h.given b hb
  refine ⟨by omega, ⟨v, hv, ?_⟩, ⟨w, hw, ?_⟩⟩
  · exact isLeast_places root v a.value path k hshows hfirst
  · exact isLeast_places root w b.value path l hshows' hsecond

/-- Resolving the entries of a mapping of readable code breaks off at keys that collide. -/
theorem Lists.collide_of_error (hlists : Lists listed mapping)
    (hkeys : listed.Pairwise fun a b => a.key < b.key)
    (hrest : ∀ e ∈ listed, Dictionary.IsRest root e.value)
    (hload : ∀ e ∈ listed, ∃ store id, loadCode e.value false = .ok (store, id))
    (e : Error) (h : (resolveAll root [] listed).2 = some e) :
    ∃ first second path, e = .resolution (.notUnique first second path) ∧
      Collide root mapping first second path := by
  obtain ⟨before, entry, rest, methods, rfl, hbefore, herror⟩ := resolveAll_eq_some root [] _ e h
  have hentry : entry ∈ before ++ entry :: rest := by simp
  rcases resolve_eq_error (search_of_isRest (hrest entry hentry)) herror with
    ⟨other, path, offset, rfl, hother, hfound⟩ | ⟨d, _, hdecode⟩
  · -- The method that has the place belongs to an entry before.
    obtain ⟨_, _, rfl, hplaced⟩ := resolveAll_eq_none root [] methods before nofun hbefore
    obtain ⟨a, ha, hplace⟩ :=
      forall₂_mem_right _ _ hplaced _ (Methods.mem_of_get? _ path other hother)
    have hless := (List.pairwise_append.mp hkeys).2.2 a ha entry (by simp)
    have hcollide := hlists.collide (List.mem_append_left _ ha) hentry (Nat.ne_of_lt hless)
      hplace.found hfound
    rw [← hplace.key] at hcollide
    exact ⟨other.key, entry.key, path, rfl, hcollide⟩
  · obtain ⟨store, id, hok⟩ := hload entry hentry
    rw [hok] at hdecode
    cases hdecode

/-- When all entries of a mapping are resolved, no keys collide. -/
theorem Lists.not_collide (hlists : Lists listed mapping) (methods : Methods)
    (h : resolveAll root [] listed = (methods, none)) (a b : Int) (path : Path) :
    ¬ Collide root mapping a b path := by
  obtain ⟨hseparate, _, rfl, hplaced⟩ := resolveAll_eq_none root [] methods listed nofun h
  -- The method of each key is the one at the path where its value is first found.
  have hmethod (key : Int) (v : Cell) (hv : (key, .cell v) ∈ mapping)
      (hleast : IsLeast (places root v) path) :
      ∃ m, methods.get? path = some m ∧ (m.key : Int) = key := by
    obtain ⟨e, he, hkey, hshows⟩ := hlists.all key v hv
    obtain ⟨place, hplace, hfound⟩ := forall₂_mem_left _ _ hplaced e he
    have hplaceLeast := isLeast_places root v e.value place.1 place.2.offset hshows hfound.found
    have hsame : place.1 = path :=
      le_antisymm (hplaceLeast.2 hleast.1) (hleast.2 hplaceLeast.1)
    exact ⟨place.2, hsame ▸ hseparate place hplace, by rw [hfound.key, hkey]⟩
  rintro ⟨hne, ⟨v, hv, hfirst⟩, ⟨w, hw, hsecond⟩⟩
  obtain ⟨m, hm, hkey⟩ := hmethod a v hv hfirst
  obtain ⟨m', hm', hkey'⟩ := hmethod b w hw hsecond
  rw [hm] at hm'
  cases hm'
  exact hne (hkey.symm.trans hkey')

/-- The methods of a mapping have its keys. -/
theorem Lists.perm_keys (hlists : Lists listed mapping) (methods : Methods)
    (h : resolveAll root [] listed = (methods, none)) :
    (methods.map fun x => (x.2.key : Int)).Perm (mapping.map (·.1)) := by
  obtain ⟨_, _, rfl, hplaced⟩ := resolveAll_eq_none root [] methods listed nofun h
  have hkeys : (methods.map fun x => (x.2.key : Int)) = listed.map fun e => (e.key : Int) := by
    rw [← List.forall₂_eq_eq_eq, List.forall₂_map_left_iff, List.forall₂_map_right_iff]
    exact hplaced.flip.imp fun x e hx => congrArg Nat.cast hx.key
  rw [hkeys]
  exact hlists.keys

end Listed

/-- A table that was built from readable code is marked exactly when no two of its keys collide,
    and then each key has one method. Otherwise marking fails at keys that collide. Keys do not
    collide if no value has the references of another one and ends with its bits. -/
theorem mark_of_build_iff (mapping : Dictionary.Mapping) (width : Int) (root : Cell)
    (hkeys : mapping.Pairwise fun a b => a.1 ≠ b.1)
    (hcells : ∀ e ∈ mapping, ∃ v, e.2 = .cell v ∧
      ∃ store id, loadCode v.toSlice false = .ok (store, id))
    (hbuild : Dictionary.build mapping width = .ok (some root)) :
    ((∃ methods, mark root width [] = (methods, none)) ↔
      ∀ a b path, ¬ Collide root mapping a b path) ∧
    (∀ methods, mark root width [] = (methods, none) →
      (methods.map fun x => (x.2.key : Int)).Perm (mapping.map (·.1))) ∧
    (∀ e, (mark root width []).2 = some e → ∃ first second path,
      e = .resolution (.notUnique first second path) ∧ Collide root mapping first second path) ∧
    ((∀ a v b w, (a, Dictionary.Value.cell v) ∈ mapping → (b, Dictionary.Value.cell w) ∈ mapping →
      a ≠ b → v.refs.map Cell.digest = w.refs.map Cell.digest → ¬ v.bits <:+ w.bits) →
        ∃ methods, mark root width [] = (methods, none)) := by
  obtain ⟨n, rfl, listed, hitems, hlists⟩ := lists_of_build mapping width root hkeys
    (fun e he => (hcells e he).imp fun v hv => hv.1) hbuild
  obtain ⟨hrest, hascending⟩ := Dictionary.items_isRest hitems
  -- A listed value shows what its cell does, so its code can be read behind the label too.
  have hload : ∀ e ∈ listed, ∃ store id, loadCode e.value false = .ok (store, id) := by
    intro e he
    obtain ⟨v, hv, hshows⟩ := hlists.given e he
    obtain ⟨w, hw, store, id, hok⟩ := hcells _ hv
    cases hw
    exact ⟨store, id, loadCode_of_alike ((Slice.shows_toSlice v).alike hshows) false store id hok⟩
  have hmark : mark root n [] = resolveAll root [] listed := by
    rw [mark, hitems]
  rw [hmark]
  have herror := hlists.collide_of_error hascending hrest hload
  have hiff : (∃ methods, resolveAll root [] listed = (methods, none)) ↔
      ∀ a b path, ¬ Collide root mapping a b path := by
    constructor
    · rintro ⟨methods, h⟩ a b path
      exact hlists.not_collide methods h a b path
    · intro hapart
      cases hresult : resolveAll root [] listed with
      | mk methods failure =>
        cases failure with
        | none => exact ⟨methods, rfl⟩
        | some e =>
          obtain ⟨first, second, path, _, hcollide⟩ := herror e (by rw [hresult])
          exact absurd hcollide (hapart first second path)
  refine ⟨hiff, hlists.perm_keys, herror, ?_⟩
  -- A cell in which two values are found ends with both, so one of them ends with the other.
  intro htails
  apply hiff.mpr
  rintro a b path ⟨hne, ⟨v, hv, hfirst⟩, ⟨w, hw, hsecond⟩⟩
  obtain ⟨hsuffix, hdigests⟩ := suffix_of_places hfirst.1 hsecond.1
  rcases hsuffix with hsuffix | hsuffix
  · exact htails a v b w hv hw hne hdigests hsuffix
  · exact htails b w a v hw hv hne.symm hdigests.symm hsuffix

/-! ## A method that another one ends with -/

/-- Two methods, the first of which ends with the second. -/
def incremented : Cell := .data (Opcode.hexBits "A0A4")
def increment : Cell := .data (Opcode.hexBits "A4")

/-- The table of both methods. -/
def ending : Dictionary.Mapping := [(0, .cell incremented), (1, .cell increment)]

/-- The leaves of `ending`. -/
private def incrementedLeaf : Cell := .data ([false, false] ++ Opcode.hexBits "A0A4")
private def incrementLeaf : Cell := .data ([false, false] ++ Opcode.hexBits "A4")

/-- The dictionary of `ending` with keys of one bit. -/
def endingRoot : Cell := .mk [false, false] [incrementedLeaf, incrementLeaf]

private theorem build_ending : Dictionary.build ending 1 = .ok (some endingRoot) := by cbv

private theorem items_endingRoot : Dictionary.items (some endingRoot) 1 =
    .ok [⟨0, ⟨incrementedLeaf, 2, 18, 0, 0⟩⟩, ⟨1, ⟨incrementLeaf, 2, 10, 0, 0⟩⟩] := by
  cbv

private theorem step_increment (s rest : Slice) (hbits : s.remainingBits ≠ 0)
    (hdata : s.data = Opcode.hexBits "A4")
    (hdecode : (Opcode.op "INC" "A4" []).decode s = ⟨[], .ok rest⟩) :
    Decode.step s = .instruction ⟨"INC", []⟩ rest :=
  Decode.step_of_longest s rest (Opcode.op "INC" "A4" []) [] hbits
    (by rw [hdata]; decide +kernel) hdecode

private theorem loadCode_increment :
    loadCode increment.toSlice false = .ok (⟨#[[⟨"INC", []⟩]]⟩, 0) := by
  have hscan : Decode.scan increment.toSlice = ⟨[⟨"INC", []⟩], none⟩ :=
    Decode.scan_single _ ⟨increment, 8, 8, 0, 0⟩ _
      (step_increment _ _ (by decide +kernel) (by decide +kernel) rfl) rfl
  exact loadCode_of_names _ false ["INC"] hscan

private theorem loadCode_incremented :
    loadCode incremented.toSlice false = .ok (⟨#[[⟨"ADD", []⟩, ⟨"INC", []⟩]]⟩, 0) := by
  have hadd : Decode.step incremented.toSlice =
      .instruction ⟨"ADD", []⟩ ⟨incremented, 8, 16, 0, 0⟩ :=
    Decode.step_of_longest _ _ (Opcode.op "ADD" "A0" []) _ (by decide +kernel) (by decide +kernel)
      rfl
  have hinc : Decode.scan ⟨incremented, 8, 16, 0, 0⟩ = ⟨[⟨"INC", []⟩], none⟩ :=
    Decode.scan_single _ ⟨incremented, 16, 16, 0, 0⟩ _
      (step_increment _ _ (by decide +kernel) (by decide +kernel) rfl) rfl
  have hscan : Decode.scan incremented.toSlice = ⟨[⟨"ADD", []⟩, ⟨"INC", []⟩], none⟩ := by
    rw [Decode.scan_eq, hadd]
    simp only [hinc]
  exact loadCode_of_names _ false ["ADD", "INC"] hscan

/-- The methods of `ending` are different and both can be read, but the second is first found in
    the leaf of the first. -/
theorem mark_ending_collides :
    Dictionary.build ending 1 = .ok (some endingRoot) ∧ incremented ≠ increment ∧
      (∃ store id, loadCode incremented.toSlice false = .ok (store, id)) ∧
      (∃ store id, loadCode increment.toSlice false = .ok (store, id)) ∧
      (mark endingRoot 1 []).2 = some (.resolution (.notUnique 0 1 [0])) := by
  refine ⟨build_ending, by decide, ⟨_, _, loadCode_incremented⟩, ⟨_, _, loadCode_increment⟩, ?_⟩
  have hfirst : search endingRoot.toSlice ⟨incrementedLeaf, 2, 18, 0, 0⟩ [] = some ([0], 2) := by
    decide +kernel
  have hsecond : search endingRoot.toSlice ⟨incrementLeaf, 2, 10, 0, 0⟩ [] = some ([0], 10) := by
    decide +kernel
  have halike : incremented.toSlice.Alike ⟨incrementedLeaf, 2, 18, 0, 0⟩ :=
    ⟨Slice.valid_toSlice _, ⟨by decide, by decide, by decide, by decide⟩, by decide +kernel,
      by decide +kernel⟩
  have hload := loadCode_of_alike halike false _ _ loadCode_incremented
  simp only [mark, items_endingRoot, resolveAll, resolve, locate, hfirst, hsecond, hload,
    Methods.get?, List.lookup_nil, List.lookup_cons, List.nil_append]
  rfl

/-- Marking `ending` fails at keys that collide. -/
theorem mark_of_build_iff_ending :
    (ending.Pairwise fun a b => a.1 ≠ b.1) ∧
    (∀ e ∈ ending, ∃ v, e.2 = .cell v ∧
      ∃ store id, loadCode v.toSlice false = .ok (store, id)) ∧
    Dictionary.build ending 1 = .ok (some endingRoot) ∧
    ((∃ methods, mark endingRoot 1 [] = (methods, none)) ↔
      ∀ a b path, ¬ Collide endingRoot ending a b path) ∧
    (∀ methods, mark endingRoot 1 [] = (methods, none) →
      (methods.map fun x => (x.2.key : Int)).Perm (ending.map (·.1))) ∧
    (∀ e, (mark endingRoot 1 []).2 = some e → ∃ first second path,
      e = .resolution (.notUnique first second path) ∧
        Collide endingRoot ending first second path) ∧
    ((∀ a v b w, (a, Dictionary.Value.cell v) ∈ ending → (b, Dictionary.Value.cell w) ∈ ending →
      a ≠ b → v.refs.map Cell.digest = w.refs.map Cell.digest → ¬ v.bits <:+ w.bits) →
        ∃ methods, mark endingRoot 1 [] = (methods, none)) := by
  have hkeys : ending.Pairwise fun a b => a.1 ≠ b.1 := by decide +kernel
  have hcells : ∀ e ∈ ending, ∃ v, e.2 = .cell v ∧
      ∃ store id, loadCode v.toSlice false = .ok (store, id) := by
    intro e he
    simp only [ending, List.mem_cons, List.not_mem_nil, or_false] at he
    rcases he with rfl | rfl
    · exact ⟨_, rfl, _, _, loadCode_incremented⟩
    · exact ⟨_, rfl, _, _, loadCode_increment⟩
  exact ⟨hkeys, hcells, build_ending,
    mark_of_build_iff ending 1 endingRoot hkeys hcells build_ending⟩

end CellCode.JumpTable
