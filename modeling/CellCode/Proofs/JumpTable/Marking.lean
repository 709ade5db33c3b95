import CellCode.Proofs.JumpTable.Leaves
import CellCode.Proofs.Program.Windows

/-!
# Marking any tree of cells

A jump table is marked without a look at whether its tree is a dictionary at all. What can be
listed is listed by reading labels and following references, so each value is what remains of some
cell of the tree, and the search for the value cannot miss: at the latest it stops at this cell.

## Key results

- `Dictionary.items_isRest`: each value of a listing is the rest of a cell of the tree, and each
  key is listed once
- `search_of_isRest`: the rest of a cell is found
- `resolveAll_methodOf`, `resolveAll_eq_some`: the methods of entries that are all resolved, and
  the entry at which resolving breaks off
- `mark_sound`: what marking returns, and how it fails, for any tree
-/

namespace CellCode

/-! ## Labels inside their cells -/

namespace Slice

variable {s rest : Slice}

/-- A window stays inside its cell when it is moved on by bits that remain. -/
theorem Valid.advance (h : s.Valid) (n : Nat) (hn : n ≤ s.data.length) : (s.advance n).Valid := by
  have hpos := h.bitPos_le
  have hend := h.bitEnd_le
  -- What remains is what lies between the two ends of the window.
  rw [data, List.length_take, List.length_drop] at hn
  refine ⟨?_, hend, h.refPos_le, h.refEnd_le⟩
  show s.bitPos + n ≤ s.bitEnd
  omega

/-- Reading bits leaves the window inside its cell. -/
theorem Valid.loadBits (h : s.Valid) {n : Int} {bits : Bits}
    (hload : s.loadBits n = .ok (bits, rest)) : rest.Valid := by
  -- A valid slice is alike itself, and reading slices that are alike leaves valid ones.
  have hself := h.alike.loadBits n
  rw [hload] at hself
  cases hself with
  | ok hsame => exact hsame.2.valid_left

theorem Valid.loadUInt (h : s.Valid) {n : Int} {v : Nat} (hload : s.loadUInt n = .ok (v, rest)) :
    rest.Valid := by
  have hself := h.alike.loadUInt n
  rw [hload] at hself
  cases hself with
  | ok hsame => exact hsame.2.valid_left

theorem Valid.loadBit (h : s.Valid) {bit : Bool} (hload : s.loadBit = .ok (bit, rest)) :
    rest.Valid := by
  obtain ⟨⟨bits, s'⟩, hbits, hload⟩ := (bind_eq_ok _ _ _).mp hload
  cases hload
  exact h.loadBits hbits

end Slice

/-- Behind a label the window is still inside its cell. -/
theorem Label.load_valid (s rest : Slice) (m : Int) (label : Bits) (hs : s.Valid)
    (h : Label.load s m = .ok (label, rest)) : rest.Valid := by
  -- The cases are those of the first bits, which tell the form of the label.
  obtain ⟨⟨first, s₁⟩, hfirst, h⟩ := (bind_eq_ok _ _ _).mp h
  have hs₁ := hs.loadBit hfirst
  cases first with
  | false =>
    obtain ⟨⟨n, s₂⟩, hcount, h⟩ := (bind_eq_ok _ _ _).mp h
    obtain ⟨⟨zero, s₃⟩, hzero, hcount⟩ := (bind_eq_ok _ _ _).mp hcount
    cases hcount
    -- The ones that are skipped are among the bits that remain.
    have hones := hs₁.advance _ (List.takeWhile_prefix (p := id) (l := s₁.data)).length_le
    obtain ⟨_, _, h⟩ := (bind_eq_ok _ _ _).mp h
    exact (hones.loadBit hzero).loadBits h
  | true =>
    obtain ⟨⟨second, s₂⟩, hsecond, h⟩ := (bind_eq_ok _ _ _).mp h
    have hs₂ := hs₁.loadBit hsecond
    cases second with
    -- A short label has its length behind the two bits, and then its bits.
    | false =>
      obtain ⟨⟨n, s₃⟩, hlength, h⟩ := (bind_eq_ok _ _ _).mp h
      obtain ⟨_, _, h⟩ := (bind_eq_ok _ _ _).mp h
      exact (hs₂.loadUInt hlength).loadBits h
    -- A label of one repeated bit has the bit and then the length, and takes no more.
    | true =>
      obtain ⟨⟨bit, s₃⟩, hbit, h⟩ := (bind_eq_ok _ _ _).mp h
      obtain ⟨⟨n, s₄⟩, hlength, h⟩ := (bind_eq_ok _ _ _).mp h
      obtain ⟨_, _, h⟩ := (bind_eq_ok _ _ _).mp h
      cases h
      exact (hs₂.loadBit hbit).loadUInt hlength

/-! ## The values of any tree -/

namespace Dictionary

/-- The slice is what remains of a cell of the tree. -/
def IsRest (root : Cell) (s : Slice) : Prop :=
  s.Valid ∧ ∃ path c n, root.follow path = some c ∧ s = c.toSlice.advance n

/-- What remains of a cell below a reference remains of a cell of the tree. -/
theorem IsRest.below {c ref : Cell} {s : Slice} {i : Nat} (h : IsRest ref s)
    (href : c.refs[i]? = some ref) : IsRest c s := by
  obtain ⟨hvalid, path, d, n, hd, hs⟩ := h
  exact ⟨hvalid, i :: path, d, n, by rw [Cell.follow_cons c ref i path href, hd], hs⟩

/-- Behind the label of a cell is a rest of it, and its references are those of the cell. -/
theorem isRest_of_load {c : Cell} {m : Int} {label : Bits} {s : Slice}
    (h : Label.load c.toSlice m = .ok (label, s)) : IsRest c s ∧ s.refs = c.refs := by
  -- Behind the label the window has moved on, and only in its bits.
  have hvalid := Label.load_valid c.toSlice s m label (Slice.valid_toSlice c) h
  obtain ⟨n, rfl⟩ := Label.load_advance c.toSlice s m label h
  exact ⟨⟨hvalid, [], c, n, rfl, rfl⟩, by rw [Slice.refs_advance, Slice.refs_toSlice]⟩

/-- A reference that was found behind the label is a reference of the cell. -/
theorem getElem?_of_getReference {c ref : Cell} {m : Int} {label : Bits} {s : Slice}
    (h : Label.load c.toSlice m = .ok (label, s)) (i : Nat) (href : s.getReference i = .ok ref) :
    c.refs[i]? = some ref := by
  obtain ⟨⟨hvalid, _⟩, hrefs⟩ := isRest_of_load h
  have hshows := hvalid.shows
  rw [hrefs] at hshows
  -- A reference that the cell has is the one that was found; without one nothing is found.
  cases hi : c.refs[i]? with
  | some r =>
    rw [hshows.getReference i hi] at href
    exact congrArg some (Except.ok.inj href)
  | none =>
    have hcount := hshows.remainingRefs
    have hle := List.getElem?_eq_none_iff.mp hi
    rw [Slice.getReference, if_pos (by omega)] at href
    cases href

/-- The smallest key has a rest of a cell as its value. -/
theorem leftmost_isRest (node : Cell) (m : Int) (pre key : Bits) (value : Slice)
    (h : leftmost node m pre = .ok (key, value)) : IsRest node value := by
  -- Strong induction on the key bits left: a label and a bit are taken from them at each fork.
  induction hn : m.toNat using Nat.strongRecOn generalizing node m pre with
  | ind n ih =>
    rw [leftmost] at h
    obtain ⟨⟨label, s⟩, hload, h⟩ := (bind_eq_ok _ _ _).mp h
    dsimp only at h
    -- The label takes all of the key, so the value stands behind it.
    split at h
    · cases h
      exact (isRest_of_load hload).1
    · -- Otherwise the smallest key stands below the first reference.
      obtain ⟨ref, href, h⟩ := (bind_eq_ok _ _ _).mp h
      exact (ih _ (by omega) ref _ _ h rfl).below (getElem?_of_getReference hload 0 href)

/-- So has the next one beyond a key. -/
theorem after_isRest (node : Cell) (m : Int) (digits : List Digit) (pre key : Bits) (value : Slice)
    (h : after node m digits pre = .ok (some (key, value))) : IsRest node value := by
  -- Strong induction on the key bits left, as for the smallest key.
  induction hn : m.toNat using Nat.strongRecOn generalizing node m digits pre with
  | ind n ih =>
    rw [after] at h
    obtain ⟨⟨label, s⟩, hload, h⟩ := (bind_eq_ok _ _ _).mp h
    -- Both ways down to a smallest key end in a rest of a cell below the reference.
    have hleft (i : Nat) (m' : Int) (pre' : Bits)
        (h : (do return some (← leftmost (← s.getReference i) m' pre')) =
          Except.ok (ε := CellError) (some (key, value))) : IsRest node value := by
      obtain ⟨ref, href, h⟩ := (bind_eq_ok _ _ _).mp h
      obtain ⟨found, hfound, h⟩ := (bind_eq_ok _ _ _).mp h
      cases h
      exact (leftmost_isRest ref m' pre' key value hfound).below
        (getElem?_of_getReference hload i href)
    dsimp only at h
    split at h
    · -- All keys below are beyond the given one: the smallest of them is the next.
      split at h
      · cases h
        exact (isRest_of_load hload).1
      · exact hleft 0 _ _ h
    · -- All keys below are less than the given one.
      cases h
    · -- The key goes on with the label, and its next digit decides.
      split at h
      · cases h
      · split at h
        · cases h
        · split at h
          · -- It goes on with a zero: the next key is found on this side, or it is the smallest of
            -- the other.
            obtain ⟨ref, href, h⟩ := (bind_eq_ok _ _ _).mp h
            obtain ⟨found, hfound, h⟩ := (bind_eq_ok _ _ _).mp h
            cases found with
            | some found =>
              cases h
              exact (ih _ (by omega) ref _ _ _ hfound rfl).below
                (getElem?_of_getReference hload 0 href)
            | none => exact hleft 1 _ _ h
          · -- It goes on with a one, so the next key is on the other side if there is one.
            obtain ⟨ref, href, h⟩ := (bind_eq_ok _ _ _).mp h
            exact (ih _ (by omega) ref _ _ _ h rfl).below (getElem?_of_getReference hload 1 href)

/-- So has the next entry. -/
theorem findNext_isRest {root : Cell} {width key : Int} {entry : Entry}
    (h : findNext (some root) width key = .ok (some entry)) : IsRest root entry.value := by
  obtain ⟨found, hfound, h⟩ := (bind_eq_ok _ _ _).mp h
  cases found with
  | none => cases h
  | some found =>
    cases h
    exact after_isRest root width _ [] found.1 found.2 hfound

/-- So has the entry with the smallest key. -/
theorem findMin_isRest {root : Cell} {width : Int} {entry : Entry}
    (h : findMin (some root) width = .ok (some entry)) : IsRest root entry.value := by
  obtain ⟨found, hfound, h⟩ := (bind_eq_ok _ _ _).mp h
  cases h
  exact leftmost_isRest root width [] found.1 found.2 hfound

/-- The entries beyond a key have rests of cells as their values. -/
theorem listingAfter_isRest (root : Cell) (width : Int) (key : Nat) :
    ∀ e ∈ (listingAfter (some root) width key).entries, IsRest root e.value := by
  -- Induction along the listing: it ends or fails, or it has one more entry.
  fun_induction listingAfter (some root) width key with
  | case1 | case2 | case4 =>
    intro e he
    cases he
  | case3 key entry hsome hrange ih =>
    intro e he
    rcases List.mem_cons.mp he with rfl | he
    · exact findNext_isRest hsome
    · exact ih e he

/-- The entries beyond a key ascend from there. -/
theorem listingAfter_ascending (root : Option Cell) (width : Int) (key : Nat) :
    (∀ e ∈ (listingAfter root width key).entries, key < e.key) ∧
      (listingAfter root width key).entries.Pairwise fun a b => a.key < b.key := by
  -- The next key is beyond the given one, which the listing checks.
  fun_induction listingAfter root width key with
  | case1 | case2 | case4 =>
    refine ⟨?_, .nil⟩
    intro e he
    cases he
  | case3 key entry hsome hrange ih =>
    refine ⟨?_, List.pairwise_cons.mpr ih⟩
    intro e he
    rcases List.mem_cons.mp he with rfl | he
    · exact hrange.1
    · exact Nat.lt_trans hrange.1 (ih.1 e he)

/-- Each value of a listing is what remains of a cell of the tree, and each key is listed once. -/
theorem items_isRest {root : Cell} {width : Int} {entries : List Entry}
    (h : items (some root) width = .ok entries) :
    (∀ e ∈ entries, IsRest root e.value) ∧ entries.Pairwise fun a b => a.key < b.key := by
  -- The listing starts with the smallest key, and the next ones follow it.
  unfold items listing at h
  cases hmin : findMin (some root) width with
  | error e =>
    rw [hmin] at h
    cases h
  | ok found =>
    rw [hmin] at h
    cases found with
    | none =>
      cases h
      exact ⟨nofun, .nil⟩
    | some entry =>
      -- A listing that fails gives no entries, so this one has not failed.
      have hcons : entries = entry :: (listingAfter (some root) width entry.key).entries := by
        dsimp only at h
        split at h
        · cases h
        · exact (Except.ok.inj h).symm
      subst hcons
      refine ⟨?_, List.pairwise_cons.mpr (listingAfter_ascending _ _ _)⟩
      rw [List.forall_mem_cons]
      exact ⟨findMin_isRest hmin, listingAfter_isRest root width entry.key⟩

end Dictionary

namespace JumpTable

/-! ## Finding and resolving the values -/

/-- What remains of a cell of the tree is found. -/
theorem search_of_isRest {root : Cell} {s : Slice} (h : Dictionary.IsRest root s) :
    ∃ path offset, search root.toSlice s [] = some (path, offset) := by
  obtain ⟨hvalid, path, c, n, hc, rfl⟩ := h
  -- The cell itself is one of those at which the search might stop.
  have hends : EndsWith c (c.toSlice.advance n) n := by
    refine ⟨?_, ?_, ?_⟩
    · rw [Slice.data_advance_toSlice, List.take_append_drop]
    · have hpos := hvalid.bitPos_le
      simpa [Slice.advance, Cell.toSlice, Cell.bitLength] using hpos
    · rw [Slice.refs_advance, Slice.refs_toSlice]
  -- The first cell that ends with the value is found.
  obtain ⟨first, offset, hfound, _⟩ := search_first root _ hvalid path c n hc hends
  exact ⟨first, offset, hfound⟩

/-- The method of an entry: it has the key of the entry, stands at the end of its path in a cell
    that ends with the value of the entry, and its code is the program that the value shows. -/
structure MethodOf (root : Cell) (entry : Dictionary.Entry) (place : Path × Method) : Prop where
  key : place.2.key = entry.key
  stands : ∃ c, root.follow place.1 = some c ∧ EndsWith c entry.value place.2.offset
  loaded : loadCode entry.value false = .ok (place.2.store, place.2.root)
  program : ∃ p, entry.value.Decodes p ∧ place.2.store.Holds place.2.root p

/-- A method that was resolved is one of its entry. -/
theorem methodOf_of_resolve {root : Cell} {methods : Methods} {entry : Dictionary.Entry}
    {place : Path × Method} (h : resolve root methods entry = .ok place) :
    MethodOf root entry place := by
  obtain ⟨hsearch, _, hkey, hload⟩ := (resolve_eq_ok root methods entry place.1 place.2).mp h
  -- What was loaded holds the program that the slice is decoded to.
  refine ⟨hkey, search_follow root entry.value place.1 place.2.offset hsearch, hload, ?_⟩
  exact (loadCode_holds entry.value false (fun _ => True) place.2.store place.2.root
    (fun _ _ _ _ => trivial) (fun _ _ => trivial) nofun hload).2

/-- No method has been put at this path. -/
theorem Methods.get?_eq_none (methods : Methods) (path : Path) :
    methods.get? path = none ↔ path ∉ methods.map (·.1) := by
  rw [get?, List.lookup_eq_none_iff]
  simp only [List.mem_map, not_exists, not_and, bne_iff_ne]
  exact forall₂_congr fun _ _ => ne_comm

/-- Entries that are all resolved add the method of each, at paths of their own. -/
theorem resolveAll_methodOf (root : Cell) (methods methods' : Methods)
    (entries : List Dictionary.Entry) (hnodup : (methods.map (·.1)).Nodup)
    (h : resolveAll root methods entries = (methods', none)) :
    (methods'.map (·.1)).Nodup ∧
      ∃ added, methods' = methods ++ added ∧ List.Forall₂ (MethodOf root) entries added := by
  -- Induction on the entries, with the methods that are there so far.
  induction entries generalizing methods with
  | nil =>
    cases h
    exact ⟨hnodup, [], by simp, .nil⟩
  | cons entry entries ih =>
    rw [resolveAll] at h
    split at h
    · cases h
    rename_i place hplace
    obtain ⟨_, hnone, _⟩ := (resolve_eq_ok root methods entry place.1 place.2).mp hplace
    -- The path of the new method was free.
    have hnew : ((methods ++ [place]).map (·.1)).Nodup := by
      rw [List.map_append, List.map_singleton, List.nodup_append]
      refine ⟨hnodup, by simp, ?_⟩
      rintro path hpath _ hplace rfl
      rw [List.mem_singleton] at hplace
      exact (methods.get?_eq_none place.1).mp hnone (hplace ▸ hpath)
    obtain ⟨hnodup', added, rfl, hadded⟩ := ih _ hnew h
    exact ⟨hnodup', place :: added, by simp, .cons (methodOf_of_resolve hplace) hadded⟩

/-- An entry whose value can be found fails because its place is taken or its code cannot be
    decoded. -/
theorem resolve_eq_error {root : Cell} {methods : Methods} {entry : Dictionary.Entry} {e : Error}
    (hfound : ∃ path offset, search root.toSlice entry.value [] = some (path, offset))
    (h : resolve root methods entry = .error e) :
    (∃ other path offset, e = .resolution (.notUnique other.key entry.key path) ∧
      methods.get? path = some other ∧
      search root.toSlice entry.value [] = some (path, offset)) ∨
    ∃ d, e = .decode d ∧ loadCode entry.value false = .error d := by
  obtain ⟨path, offset, hsearch⟩ := hfound
  unfold resolve locate at h
  -- The search has succeeded, so resolving has gone past it.
  rw [hsearch] at h
  dsimp only at h
  split at h
  · -- There is a method at the path already.
    rename_i other hother
    cases h
    exact .inl ⟨other, path, offset, rfl, hother, hsearch⟩
  · -- The path is free, so loading the code is all that can still fail.
    split at h
    · rename_i d hload
      cases h
      exact .inr ⟨d, rfl, hload⟩
    · cases h

/-- Resolving breaks off at an entry before which all were resolved. -/
theorem resolveAll_eq_some (root : Cell) (methods : Methods) (entries : List Dictionary.Entry)
    (e : Error) (h : (resolveAll root methods entries).2 = some e) :
    ∃ before entry rest methods', entries = before ++ entry :: rest ∧
      resolveAll root methods before = (methods', none) ∧
      resolve root methods' entry = .error e := by
  -- Induction on the entries: the first one fails, or it is resolved and the others go on.
  induction entries generalizing methods with
  | nil => cases h
  | cons entry entries ih =>
    rw [resolveAll] at h
    split at h
    · rename_i error herror
      cases h
      exact ⟨[], entry, entries, methods, rfl, rfl, herror⟩
    · rename_i place hplace
      obtain ⟨before, failed, rest, methods', rfl, hbefore, hfailed⟩ := ih _ h
      refine ⟨entry :: before, failed, rest, methods', rfl, ?_, hfailed⟩
      rw [resolveAll, hplace]
      exact hbefore

end JumpTable

/-! ## Marking -/

/-- The reason that an error gives. -/
def ResolutionError.reason : ResolutionError → String
  | unlisted _ | notFound _ => "not found"
  | notUnique .. => "non-unique path"

/-- The wording of an error starts with its reason. -/
theorem ResolutionError.message_eq (e : ResolutionError) :
    ∃ detail, e.message = e.reason ++ ": " ++ detail := by
  cases e with
  | unlisted error => exact ⟨error.message, rfl⟩
  | notFound value => exact ⟨"value x\x7b" ++ value ++ "\x7d", rfl⟩
  | notUnique first second path =>
    exact ⟨s!"keys {first} and {second} share path " ++ Path.text path, rfl⟩

namespace JumpTable

/-- Marking a tree of cells, whether or not it is a dictionary. It fails as not found exactly when
    the entries cannot be listed: a value that was listed is always found. Otherwise it fails at a
    place that two keys have in common, or with an error in the code of some value. When it
    succeeds, each key has one method and each method a path of its own; the cell at the path ends
    with the value of the key, from the offset of the method on, and the code of the method is what
    the value is decoded to. -/
theorem mark_sound (root : Cell) (width : Nat) :
    ((∃ r, (mark root width []).2 = some (.resolution r) ∧ r.reason = "not found") ↔
      ∃ e, Dictionary.items (some root) width = .error e) ∧
    (∀ entries, Dictionary.items (some root) width = .ok entries →
      ∀ e, (mark root width []).2 = some e →
        (∃ r, e = .resolution r ∧ r.reason = "non-unique path") ∨
          ∃ entry ∈ entries, ∃ d, e = .decode d ∧ loadCode entry.value false = .error d ∧
            ∀ x, d ≠ .window x) ∧
    ∀ methods, mark root width [] = (methods, none) →
      (methods.map (·.1)).Nodup ∧
      ∃ entries, Dictionary.items (some root) width = .ok entries ∧
        (entries.map (·.key)).Nodup ∧ List.Forall₂ (MethodOf root) entries methods := by
  cases hitems : Dictionary.items (some root) width with
  | error e =>
    -- Without a listing no entry is looked at.
    have hmark : mark root width [] = ([], some (.resolution (.unlisted e))) := by
      rw [mark, hitems]
    rw [hmark]
    refine ⟨⟨fun _ => ⟨e, rfl⟩, fun _ => ⟨_, rfl, rfl⟩⟩, ?_, ?_⟩
    · intro entries hentries
      cases hentries
    · intro methods hmethods
      cases hmethods
  | ok entries =>
    have hmark : mark root width [] = resolveAll root [] entries := by
      rw [mark, hitems]
    rw [hmark]
    obtain ⟨hrest, hascending⟩ := Dictionary.items_isRest hitems
    -- The entry at which resolving breaks off was found.
    have hfailure (e : Error) (he : (resolveAll root [] entries).2 = some e) :
        (∃ first second path, e = .resolution (.notUnique first second path)) ∨
          ∃ entry ∈ entries, ∃ d, e = .decode d ∧ loadCode entry.value false = .error d := by
      obtain ⟨before, entry, rest, methods, rfl, _, herror⟩ := resolveAll_eq_some root [] _ e he
      have hentry : entry ∈ before ++ entry :: rest := by simp
      rcases resolve_eq_error (search_of_isRest (hrest entry hentry)) herror with
        ⟨_, _, _, rfl, _⟩ | hdecode
      · exact .inl ⟨_, _, _, rfl⟩
      · exact .inr ⟨entry, hentry, hdecode⟩
    refine ⟨⟨?_, ?_⟩, ?_, ?_⟩
    · -- Resolving never fails as not found, since every value is found.
      rintro ⟨r, hr, hreason⟩
      rcases hfailure _ hr with ⟨first, second, path, heq⟩ | ⟨_, _, d, heq, _⟩
      · cases heq
        simp [ResolutionError.reason] at hreason
      · cases heq
    · -- The entries have been listed, so listing them cannot fail as well.
      rintro ⟨e, he⟩
      cases he
    · intro listed hlisted e he
      cases hlisted
      rcases hfailure e he with ⟨first, second, path, rfl⟩ | ⟨entry, hentry, d, rfl, hload⟩
      · exact .inl ⟨_, rfl, rfl⟩
      · refine .inr ⟨entry, hentry, d, rfl, hload, ?_⟩
        -- The slice lies inside its cell, so reading its code does not leave the window.
        rintro x rfl
        exact loadCode_ne_window (hrest entry hentry).1 false x hload
    · intro methods h
      -- The methods are those of the entries, one by one.
      obtain ⟨hnodup, added, rfl, hadded⟩ := resolveAll_methodOf root [] methods entries .nil h
      refine ⟨hnodup, entries, rfl, ?_, hadded⟩
      rw [List.Nodup, List.pairwise_map]
      exact hascending.imp Nat.ne_of_lt

end JumpTable

end CellCode
