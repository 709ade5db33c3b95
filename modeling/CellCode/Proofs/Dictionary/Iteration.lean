import CellCode.Proofs.Dictionary.Searching

/-!
# Listing any tree of cells

A dictionary is listed by one search after the other, each from the key that the last one found.
On a tree that is no dictionary the searches may read different branches, and nothing in the tree
says that they come to an end. They do, since each of them returns a key of the right width beyond
the one it was given.

`Strict` holds the searches with every check on the way: a label must not use up more key bits than
are left, and a digit of the key must be there to be looked at. `Strict.Runs` is the loop over them,
which goes on as long as keys are found. The loop has one outcome, and that is `listing`.

## Key results

* `leftmost_width`, `after_beyond`   a search returns a key of the width, beyond the given one
* `listing_failure`                  a listing breaks off where the tree cannot be read
* `Strict.after_eq`                  no check of a search fails
* `Strict.Runs.ascending`            what the loop lists ascends
* `listing_total`                    on any tree the loop ends, with an error of the cells at worst
-/

namespace CellCode.Dictionary

-- Powers are those of the standard library, whatever else is in scope.
attribute [local instance (high)] instPowNat

/-! ## The keys that searches return -/

/-- The smallest key below a node has the bits that are left. -/
theorem leftmost_width (node : Cell) (m : Nat) (pre key : Bits) (value : Slice)
    (h : leftmost node m pre = .ok (key, value)) : ∃ rest, key = pre ++ rest ∧ rest.length = m := by
  -- Induction on the key bits that are left: at least one of them goes into the fork.
  induction m using Nat.strongRecOn generalizing node pre with
  | ind m ih =>
    rw [leftmost] at h
    obtain ⟨⟨label, s⟩, hload, h⟩ := (bind_eq_ok _ _ _).mp h
    -- A label that is longer is refused when it is loaded.
    have hle := Label.length_le_of_load hload
    dsimp only at h
    split at h
    · -- The label has all the bits that are left, so this is the leaf.
      cases h
      exact ⟨label, rfl, by omega⟩
    · -- The label and the branch bit come in front of what the branch gives.
      have hlt : label.length < m := by omega
      obtain ⟨ref, _, h⟩ := (bind_eq_ok _ _ _).mp h
      rw [bits_left hlt] at h
      obtain ⟨rest, rfl, hrest⟩ := ih _ (by omega) ref _ h
      refine ⟨label ++ [false] ++ rest, by simp, ?_⟩
      simp only [List.length_append, List.length_singleton]
      omega

/-- Where a whole branch is beyond the key, its smallest one has the bits that are left. -/
private theorem smallest_width {s : Slice} {i : Int} {m : Nat} {pre key : Bits} {value : Slice}
    (h : (do return some (← leftmost (← s.getReference i) m pre)) = .ok (some (key, value))) :
    ∃ rest, key = pre ++ rest ∧ rest.length = m := by
  -- What is returned was found below the reference.
  obtain ⟨ref, _, h⟩ := (bind_eq_ok _ _ _).mp h
  obtain ⟨_, hfound, h⟩ := (bind_eq_ok _ _ _).mp h
  cases h
  exact leftmost_width ref m pre key value hfound

/-- The key that was found behind `pre` has as many bits as the given one, and they write a larger
    number. -/
def Beyond (pre key found : Bits) : Prop :=
  ∃ rest, found = pre ++ rest ∧ rest.length = key.length ∧ key.toNat < rest.toNat

section Beyond

variable {pre key label found rest more : Bits}

/-- A larger label puts all that stands behind it beyond the key. -/
private theorem beyond_of_label (pre key label rest : Bits)
    (hless : Bits.toNat (key.take label.length) < label.toNat)
    (hlen : label.length + rest.length = key.length) : Beyond pre key (pre ++ (label ++ rest)) := by
  refine ⟨label ++ rest, rfl, by rw [List.length_append, hlen], ?_⟩
  -- Compare with the key cut at the length of the label: the heads decide, since what is behind
  -- them is equally long.
  rw [← List.take_append_drop label.length key]
  apply Bits.toNat_append_lt _ _ _ _ _ hless
  rw [List.length_drop]
  omega

/-- Behind the same label the rests decide. -/
private theorem Beyond.behind (h : Beyond (pre ++ label) key found) :
    Beyond pre (label ++ key) found := by
  obtain ⟨rest, rfl, hlen, hless⟩ := h
  refine ⟨label ++ rest, by rw [List.append_assoc], ?_, ?_⟩
  · rw [List.length_append, List.length_append, hlen]
  · rwa [Bits.toNat_append_lt_iff _ _ _ hlen.symm]

/-- So they do behind the same label and the same bit. -/
private theorem Beyond.under (bit : Bool) (h : Beyond (pre ++ label ++ [bit]) key found) :
    Beyond pre (label ++ bit :: key) found := by
  rw [List.append_cons]
  apply Beyond.behind
  rwa [← List.append_assoc]

/-- All keys of the upper branch are beyond one of the lower branch. -/
private theorem beyond_of_upper (hlen : rest.length = more.length) :
    Beyond pre (label ++ false :: more) (pre ++ label ++ [true] ++ rest) := by
  apply Beyond.behind
  rw [List.append_assoc (pre ++ label)]
  -- A zero stands against a one, so the other bits do not matter.
  exact ⟨true :: rest, rfl, by simp [hlen], Bits.toNat_false_lt_true _ _ hlen.symm⟩

end Beyond

/-- Digits that are bits are split at the label into bits again. -/
private theorem exists_of_drop {key : Bits} {n : Nat} {digit : Digit} {rest : List Digit}
    (h : (key.map Digit.bit).drop n = digit :: rest) :
    ∃ bit more, key = key.take n ++ bit :: more ∧ digit = .bit bit ∧ rest = more.map .bit := by
  rw [← List.map_drop] at h
  obtain ⟨bit, more, hkey, rfl, rfl⟩ := List.map_eq_cons_iff.mp h
  exact ⟨bit, more, by rw [← hkey, List.take_append_drop], rfl, rfl⟩

/-- Behind a larger label the smallest key is beyond the given one. -/
private theorem leftmost_beyond {node : Cell} {m : Nat} {key pre label found : Bits}
    {s value : Slice} (hload : Label.load node.toSlice m = .ok (label, s)) (hkey : key.length = m)
    (hless : Bits.toNat (key.take label.length) < label.toNat)
    (h : leftmost node m pre = .ok (found, value)) : Beyond pre key found := by
  -- As the search does: load the label, and go down behind it if bits are left.
  have hle := Label.length_le_of_load hload
  rw [leftmost, hload] at h
  obtain ⟨_, heq, h⟩ := (bind_eq_ok _ _ _).mp h
  cases heq
  dsimp only at h
  split at h
  · -- A leaf: the key that was found is the label, and nothing stands behind it.
    cases h
    have hleaf := beyond_of_label pre key label [] hless (by rw [List.length_nil]; omega)
    rwa [List.append_nil] at hleaf
  · have hlt : label.length < m := by omega
    obtain ⟨ref, _, h⟩ := (bind_eq_ok _ _ _).mp h
    rw [bits_left hlt] at h
    -- By `leftmost_width` what stands behind the label has as many bits as the key has there.
    obtain ⟨rest, rfl, hrest⟩ := leftmost_width ref _ _ found value h
    rw [List.append_assoc, List.append_assoc]
    refine beyond_of_label pre key label _ hless ?_
    rw [List.singleton_append, List.length_cons]
    omega

/-- The next key below a node is beyond the given one, whatever the tree. -/
theorem after_beyond (node : Cell) (m : Nat) (key pre found : Bits) (value : Slice)
    (hkey : key.length = m) (h : after node m (key.map .bit) pre = .ok (some (found, value))) :
    Beyond pre key found := by
  -- Induction on the key bits that are left, following the three outcomes of the comparison.
  induction m using Nat.strongRecOn generalizing node key pre with
  | ind m ih =>
    have hafter := h
    rw [after] at h
    obtain ⟨⟨label, s⟩, hload, h⟩ := (bind_eq_ok _ _ _).mp h
    have hle := Label.length_le_of_load hload
    have hhead : (key.take label.length).length = label.length := by
      rw [List.length_take]
      omega
    -- The key has the label's length of bits to compare, so the digits compare as the numbers do.
    have hcompare := compareDigits_bits label _ hhead.symm
    rw [List.map_take] at hcompare
    dsimp only at h
    rw [hcompare] at h
    split at h
    · -- The label is larger: everything below the node is beyond the key.
      rename_i hgt
      rw [after_gt hload (hcompare.trans hgt)] at hafter
      obtain ⟨_, hfound, heq⟩ := (bind_eq_ok _ _ _).mp hafter
      cases heq
      exact leftmost_beyond hload hkey (Nat.compare_eq_gt.mp hgt) hfound
    · -- The label is smaller, and the search finds nothing.
      cases h
    · -- The label is the head of the key, so the bit behind it says where to go on.
      rename_i heq
      have hlabel := Bits.eq_of_toNat_eq _ _ hhead.symm (Nat.compare_eq_eq.mp heq)
      split at h
      · cases h
      have hlt : label.length < m := by omega
      split at h
      · cases h
      rename_i digit digits hdrop
      obtain ⟨bit, more, hsplit, rfl, rfl⟩ := exists_of_drop hdrop
      rw [← hlabel] at hsplit
      -- The branch has one bit less than is left behind the label.
      have hmore : more.length = m - label.length - 1 := by
        have := congrArg List.length hsplit
        rw [List.length_append, List.length_cons] at this
        omega
      rw [hsplit]
      rw [bits_left hlt] at h
      split at h
      · -- Behind a zero the lower branch is searched, and then the upper one.
        rename_i hzero
        cases hzero
        obtain ⟨zeros, _, h⟩ := (bind_eq_ok _ _ _).mp h
        obtain ⟨lower, hlower, h⟩ := (bind_eq_ok _ _ _).mp h
        cases lower with
        | some lower =>
          cases h
          exact (ih _ (by omega) zeros more _ hmore hlower).under false
        -- Nothing is found in the lower branch, so the smallest key of the upper one is next.
        | none =>
          obtain ⟨rest, rfl, hrest⟩ := smallest_width h
          exact beyond_of_upper (hrest.trans hmore.symm)
      · -- Behind a one there is only the upper branch.
        rename_i hone
        obtain rfl := Bool.eq_true_of_not_eq_false fun hzero => hone (congrArg Digit.bit hzero)
        obtain ⟨ones, _, h⟩ := (bind_eq_ok _ _ _).mp h
        exact (ih _ (by omega) ones more _ hmore h).under true

/-- The smallest key is in range. -/
theorem findMin_lt {root : Option Cell} {width : Nat} {entry : Entry}
    (h : findMin root width = .ok (some entry)) : entry.key < 2 ^ width := by
  cases root with
  | none => cases h
  | some node =>
    obtain ⟨⟨key, value⟩, hfound, h⟩ := (bind_eq_ok _ _ _).mp h
    cases h
    obtain ⟨rest, hkey, rfl⟩ := leftmost_width node width [] key value hfound
    -- As many bits as the width make a number below `2 ^ width`.
    show key.toNat < 2 ^ rest.length
    rw [hkey]
    exact Bits.toNat_lt rest

/-- The next key is beyond the one it was looked up from, and in range as well. -/
theorem findNext_beyond {root : Option Cell} {width key : Nat} {entry : Entry}
    (hkey : key < 2 ^ width) (h : findNext root width key = .ok (some entry)) :
    key < entry.key ∧ entry.key < 2 ^ width := by
  cases root with
  | none => cases h
  | some node =>
    obtain ⟨found, hfound, h⟩ := (bind_eq_ok _ _ _).mp h
    cases found with
    | none => cases h
    | some found =>
      cases h
      -- A key in range is searched by its own bits, as many as the width.
      rw [keyDigits_of_lt width key hkey] at hfound
      obtain ⟨rest, hrest, hlen, hless⟩ :=
        after_beyond node width _ [] found.1 found.2 (Bits.length_ofNat width key) hfound
      rw [Bits.length_ofNat] at hlen
      rw [Bits.toNat_ofNat, Nat.mod_eq_of_lt hkey] at hless
      show key < found.1.toNat ∧ found.1.toNat < 2 ^ width
      rw [hrest, ← hlen]
      exact ⟨hless, Bits.toNat_lt rest⟩

/-! ## Searches that fail -/

section Failing

variable {e : CellError}

/-- A reference that is not there is a read past the end of the cell. -/
private theorem unreadable_of_getReference {s : Slice} {i : Int}
    (h : s.getReference i = .error e) : Label.Unreadable e :=
  .inl (Slice.getReference_eq_error h)

/-- The smallest key is missed only where the tree cannot be read. -/
theorem leftmost_eq_error (node : Cell) (m : Int) (pre : Bits)
    (h : leftmost node m pre = .error e) : Label.Unreadable e := by
  -- Three steps can fail: the label, the reference, and the search below it.
  fun_induction leftmost node m pre with
  | case1 node m pre ih =>
    rcases (bind_eq_error _ _ _).mp h with h | ⟨⟨label, s⟩, _, h⟩
    · exact Label.load_eq_error h
    dsimp only at h
    split at h
    · cases h
    · rename_i hleft
      rcases (bind_eq_error _ _ _).mp h with h | ⟨ref, _, h⟩
      · exact unreadable_of_getReference h
      · exact ih label hleft ref h

/-- Where a whole branch is beyond the key, its smallest one is looked for. -/
private theorem smallest_eq_error {s : Slice} {i m : Int} {pre : Bits}
    (h : (do return some (← leftmost (← s.getReference i) m pre)) = Except.error e) :
    Label.Unreadable e := by
  rcases (bind_eq_error _ _ _).mp h with h | ⟨ref, _, h⟩
  · exact unreadable_of_getReference h
  rcases (bind_eq_error _ _ _).mp h with h | ⟨_, _, h⟩
  · exact leftmost_eq_error _ _ _ h
  · cases h

/-- The next key is missed only where the tree cannot be read, whatever the digits. -/
theorem after_eq_error (node : Cell) (m : Int) (key : List Digit) (pre : Bits)
    (h : after node m key pre = .error e) : Label.Unreadable e := by
  -- The cases are those of the search. Where it ends with an answer there is no error to explain.
  fun_induction after node m key pre with
  | case1 node m key pre ihzeros ihones =>
    rcases (bind_eq_error _ _ _).mp h with h | ⟨⟨label, s⟩, _, h⟩
    · exact Label.load_eq_error h
    dsimp only at h
    -- The label is larger: a leaf is an answer, and otherwise the lower branch is looked through.
    split at h
    · split at h
      · cases h
      · exact smallest_eq_error h
    · cases h
    · -- The label is the head of the key: behind a zero both branches may be searched, behind a one
      -- the upper only.
      split at h
      · cases h
      rename_i hleft
      split at h
      · cases h
      split at h
      · rcases (bind_eq_error _ _ _).mp h with h | ⟨zeros, _, h⟩
        · exact unreadable_of_getReference h
        rcases (bind_eq_error _ _ _).mp h with h | ⟨found, _, h⟩
        · exact ihzeros label hleft _ zeros h
        cases found with
        | some found => cases h
        | none => exact smallest_eq_error h
      · rcases (bind_eq_error _ _ _).mp h with h | ⟨ones, _, h⟩
        · exact unreadable_of_getReference h
        · exact ihones label hleft _ ones h

/-- So it is for the smallest key of a dictionary. -/
theorem findMin_eq_error {root : Option Cell} {width : Int} (h : findMin root width = .error e) :
    Label.Unreadable e := by
  cases root with
  | none => cases h
  | some node =>
    rcases (bind_eq_error _ _ _).mp h with h | ⟨_, _, h⟩
    · exact leftmost_eq_error _ _ _ h
    · cases h

/-- So it is for the next key of a dictionary. -/
theorem findNext_eq_error {root : Option Cell} {width key : Int}
    (h : findNext root width key = .error e) : Label.Unreadable e := by
  cases root with
  | none => cases h
  | some node =>
    rcases (bind_eq_error _ _ _).mp h with h | ⟨_, _, h⟩
    · exact after_eq_error _ _ _ _ h
    · cases h

/-- A listing from a key on breaks off where the tree cannot be read. -/
private theorem listingAfter_failure {root : Option Cell} {width : Int} {key : Nat}
    (h : (listingAfter root width key).failure = some e) : Label.Unreadable e := by
  -- Every failure of the listing is one of a search from some key that was listed.
  fun_induction listingAfter root width key with
  | case1 key e' herror =>
    cases h
    exact findNext_eq_error herror
  | case2 | case4 => cases h
  | case3 key entry _ _ ih => exact ih h

/-- A listing breaks off where the tree cannot be read. -/
theorem listing_failure {root : Option Cell} {width : Int}
    (h : (listing root width).failure = some e) : Label.Unreadable e := by
  unfold listing at h
  split at h
  · rename_i herror
    cases h
    exact findMin_eq_error herror
  · cases h
  · exact listingAfter_failure h

end Failing

/-! ## Searches with every check -/

namespace Strict

/-- What can stop a search that takes nothing for granted. -/
inductive Fault
  /-- A read that the cells do not allow. -/
  | cell (e : CellError)
  /-- A label longer than the key bits that are left. -/
  | overlong (label : Bits) (left : Nat)
  /-- A digit beyond the end of the key. -/
  | pastKey

/-- The smallest key below a node with `m` key bits left, behind the key bits `pre`. -/
def leftmost (node : Cell) (m : Nat) (pre : Bits) : Except Fault (Bits × Slice) := do
  let (label, s) ← (Label.load node.toSlice m).mapError .cell
  if m < label.length then throw (.overlong label m)
  else if m = label.length then return (pre ++ label, s)
  else
    let zeros ← (s.getReference 0).mapError .cell
    leftmost zeros (m - label.length - 1) (pre ++ label ++ [false])
termination_by m
decreasing_by omega

/-- The smallest key below a node that comes after the given digits. -/
def after (node : Cell) (m : Nat) (key : List Digit) (pre : Bits) :
    Except Fault (Option (Bits × Slice)) := do
  let (label, s) ← (Label.load node.toSlice m).mapError .cell
  if m < label.length then throw (.overlong label m)
  else
    match compareDigits (label.map .bit) (key.take label.length) with
    | .gt =>
      if m = label.length then return some (pre ++ label, s)
      else
        let zeros ← (s.getReference 0).mapError .cell
        return some (← leftmost zeros (m - label.length - 1) (pre ++ label ++ [false]))
    | .lt => return none
    | .eq =>
      if m = label.length then return none
      else
        match key.drop label.length with
        | [] => throw .pastKey
        | digit :: rest =>
          if digit = .bit false then
            let zeros ← (s.getReference 0).mapError .cell
            match ← after zeros (m - label.length - 1) rest (pre ++ label ++ [false]) with
            | some found => return some found
            | none =>
              let ones ← (s.getReference 1).mapError .cell
              return some (← leftmost ones (m - label.length - 1) (pre ++ label ++ [true]))
          else
            let ones ← (s.getReference 1).mapError .cell
            after ones (m - label.length - 1) rest (pre ++ label ++ [true])
termination_by m
decreasing_by all_goals omega

/-- The entry with the smallest key. -/
def findMin (root : Option Cell) (width : Nat) : Except Fault (Option Entry) :=
  match root with
  | none => .ok none
  | some node => do
    let (key, value) ← leftmost node width []
    return some (.of key value)

/-- The entry with the smallest key beyond `key`. -/
def findNext (root : Option Cell) (width : Nat) (key : Int) : Except Fault (Option Entry) :=
  match root with
  | none => .ok none
  | some node => do
    let found ← after node width (keyDigits key width) []
    return found.map fun (key, value) => .of key value

/-- The smallest key is found without a check that fails. -/
theorem leftmost_eq (node : Cell) (m : Nat) (pre : Bits) :
    leftmost node m pre = (Dictionary.leftmost node m pre).mapError .cell := by
  -- Induction on the key bits that are left. Both searches load the label first, and then they do
  -- the same steps.
  induction m using Nat.strongRecOn generalizing node pre with
  | ind m ih =>
    rw [leftmost, Dictionary.leftmost]
    refine mapError_bind _ _ _ _ fun result hload => ?_
    obtain ⟨label, s⟩ := result
    have hle := Label.length_le_of_load hload
    dsimp only
    -- The label was loaded for `m` bits, so the check of its length passes.
    rw [if_neg (by omega)]
    by_cases hleaf : m = label.length
    · rw [if_pos hleaf, if_pos (by omega)]
      rfl
    · rw [if_neg hleaf, if_neg (by omega)]
      refine mapError_bind _ _ _ _ fun zeros _ => ?_
      -- Behind a shorter label at least one bit is left, so the subtraction is exact.
      rw [ih _ (by omega), bits_left (by omega)]

/-- So is the smallest key of a branch that is beyond the given one. -/
private theorem smallest_eq (s : Slice) (i : Int) (m : Nat) (pre : Bits) :
    (do return some (← leftmost (← (s.getReference i).mapError .cell) m pre)) =
      Except.mapError .cell (do
        return some (← Dictionary.leftmost (← s.getReference i) m pre)) := by
  refine mapError_bind _ _ _ _ fun ref _ => ?_
  rw [leftmost_eq]
  exact mapError_bind _ _ _ _ fun _ _ => rfl

/-- So is the next one, if the key has a digit for each bit that is left. -/
theorem after_eq (node : Cell) (m : Nat) (key : List Digit) (pre : Bits) (hkey : m ≤ key.length) :
    after node m key pre = (Dictionary.after node m key pre).mapError .cell := by
  -- Induction as before. In the comparison both sides have the same cases, and the checks pass.
  induction m using Nat.strongRecOn generalizing node key pre with
  | ind m ih =>
    rw [after, Dictionary.after]
    refine mapError_bind _ _ _ _ fun result hload => ?_
    obtain ⟨label, s⟩ := result
    have hle := Label.length_le_of_load hload
    dsimp only
    rw [if_neg (by omega)]
    by_cases hleaf : m = label.length
    · -- Without bits left, both sides answer from the comparison alone.
      rw [if_pos hleaf, if_pos hleaf, if_pos (by omega), if_pos (by omega)]
      cases compareDigits (label.map .bit) (key.take label.length) <;> rfl
    have hlt : label.length < m := by omega
    rw [if_neg hleaf, if_neg hleaf, if_neg (by omega), if_neg (by omega), bits_left hlt]
    cases compareDigits (label.map .bit) (key.take label.length) with
    | lt => rfl
    | gt => exact smallest_eq s 0 _ _
    | eq =>
      cases hdrop : key.drop label.length with
      | nil =>
        -- The key has more digits than the label.
        have := List.drop_eq_nil_iff.mp hdrop
        omega
      | cons digit rest =>
        -- The digits behind the label and the bit are as many as the bits that are left, which the
        -- induction asks for.
        have hrest : m - label.length - 1 ≤ rest.length := by
          have := congrArg List.length hdrop
          rw [List.length_drop, List.length_cons] at this
          omega
        dsimp only
        by_cases hzero : digit = .bit false
        · rw [if_pos hzero, if_pos hzero]
          refine mapError_bind _ _ _ _ fun zeros _ => ?_
          rw [ih _ (by omega) zeros rest _ hrest]
          refine mapError_bind _ _ _ _ fun found _ => ?_
          cases found with
          | some found => rfl
          | none => exact smallest_eq s 1 _ _
        · rw [if_neg hzero, if_neg hzero]
          refine mapError_bind _ _ _ _ fun ones _ => ?_
          exact ih _ (by omega) ones rest _ hrest

variable {root : Option Cell} {width : Nat}

theorem findMin_eq (root : Option Cell) (width : Nat) :
    findMin root width = (Dictionary.findMin root width).mapError .cell := by
  cases root with
  | none => rfl
  | some node =>
    rw [findMin, Dictionary.findMin, leftmost_eq]
    exact mapError_bind _ _ _ _ fun _ _ => rfl

theorem findNext_eq (root : Option Cell) {key : Nat} (hkey : key < 2 ^ width) :
    findNext root width key = (Dictionary.findNext root width key).mapError .cell := by
  cases root with
  | none => rfl
  | some node =>
    rw [findNext, Dictionary.findNext, after_eq]
    · exact mapError_bind _ _ _ _ fun _ _ => rfl
    · -- A key in range has a digit for each bit of the width.
      rw [keyDigits_of_lt width key hkey, List.length_map, Bits.length_ofNat]

/-! ## The loop -/

/-- The loop that lists a dictionary, from what the last search returned: it lists the entry that
    was found and goes on from its key, until nothing is found or a search fails. -/
inductive Runs (root : Option Cell) (width : Nat) :
    Except Fault (Option Entry) → List Entry → Option Fault → Prop
  | failed (f : Fault) : Runs root width (.error f) [] (some f)
  | ended : Runs root width (.ok none) [] none
  | listed {entry : Entry} {entries : List Entry} {failure : Option Fault}
      (next : Runs root width (findNext root width entry.key) entries failure) :
      Runs root width (.ok (some entry)) (entry :: entries) failure

variable {found : Except Fault (Option Entry)} {entries entries' : List Entry}
  {failure failure' : Option Fault}

/-- The loop has one outcome only. -/
theorem Runs.unique (h : Runs root width found entries failure)
    (h' : Runs root width found entries' failure') : entries' = entries ∧ failure' = failure := by
  -- Induction on one of the two runs: the outcome of the search fixes the step of the other.
  induction h generalizing entries' failure' with
  | failed f => cases h'; exact ⟨rfl, rfl⟩
  | ended => cases h'; exact ⟨rfl, rfl⟩
  | listed _ ih =>
    cases h' with
    | listed next =>
      obtain ⟨rfl, rfl⟩ := ih next
      exact ⟨rfl, rfl⟩

/-- What the loop lists from a key on ascends from there and is in range. -/
theorem Runs.beyond {found : Except Fault (Option Entry)} {entries : List Entry}
    {failure : Option Fault} (h : Runs root width found entries failure) (key : Nat)
    (hkey : key < 2 ^ width) (hfound : found = findNext root width key) :
    (∀ e ∈ entries, key < e.key ∧ e.key < 2 ^ width) ∧
      entries.Pairwise fun a b => a.key < b.key := by
  -- Induction on the loop. The key it goes on from is that of the last entry, which is in range
  -- too.
  induction h generalizing key with
  | failed | ended => exact ⟨nofun, .nil⟩
  | @listed entry entries failure next ih =>
    rw [findNext_eq root hkey] at hfound
    -- The step to the entry goes beyond `key`, and what comes behind goes beyond the entry.
    obtain ⟨hless, hlt⟩ := findNext_beyond hkey ((mapError_eq_ok _ _ _).mp hfound.symm)
    obtain ⟨hlater, hascending⟩ := ih entry.key hlt rfl
    refine ⟨?_, List.pairwise_cons.mpr ⟨fun e he => (hlater e he).1, hascending⟩⟩
    rw [List.forall_mem_cons]
    exact ⟨⟨hless, hlt⟩, fun e he => ⟨Nat.lt_trans hless (hlater e he).1, (hlater e he).2⟩⟩

/-- All that the loop lists ascends and is in range. -/
theorem Runs.ascending {found : Except Fault (Option Entry)} {entries : List Entry}
    {failure : Option Fault} (h : Runs root width found entries failure)
    (hfound : found = findMin root width) :
    entries.Pairwise (fun a b => a.key < b.key) ∧ ∀ e ∈ entries, e.key < 2 ^ width := by
  cases h with
  | failed | ended => exact ⟨.nil, nofun⟩
  | listed next =>
    -- The first entry is the smallest, so it is in range and the rest is beyond it.
    rw [findMin_eq] at hfound
    have hlt := findMin_lt ((mapError_eq_ok _ _ _).mp hfound.symm)
    obtain ⟨hlater, hascending⟩ := next.beyond _ hlt rfl
    refine ⟨List.pairwise_cons.mpr ⟨fun e he => (hlater e he).1, hascending⟩, ?_⟩
    rw [List.forall_mem_cons]
    exact ⟨hlt, fun e he => (hlater e he).2⟩

/-- From a key on the loop runs as the listing goes on: the test for progress never fails there. -/
theorem runs_listingAfter (key : Nat) (hkey : key < 2 ^ width) :
    Runs root width (findNext root width key) (listingAfter root width key).entries
      ((listingAfter root width key).failure.map .cell) := by
  rw [findNext_eq root hkey]
  -- Induction along the listing, which tests whether the key grows. Its four cases are the steps of
  -- the loop, and the failed test.
  fun_induction listingAfter root width key with
  | case1 key e herror =>
    rw [herror]
    exact .failed _
  | case2 key hnone =>
    rw [hnone]
    exact .ended
  | case3 key entry hsome hrange ih =>
    have hlt : entry.key < 2 ^ width := hrange.2
    rw [hsome]
    apply Runs.listed
    rw [findNext_eq root hlt]
    exact ih hlt
  -- The test for progress cannot fail, because the next key is beyond the last one and in range.
  | case4 key entry hsome hrange => exact absurd (findNext_beyond hkey hsome) hrange

/-- From the smallest key on it runs as the whole listing goes. -/
theorem runs_listing (root : Option Cell) (width : Nat) :
    Runs root width (findMin root width) (listing root width).entries
      ((listing root width).failure.map .cell) := by
  rw [findMin_eq, listing]
  cases hmin : Dictionary.findMin root width with
  | error e => exact .failed _
  | ok found =>
    cases found with
    | none => exact .ended
    | some entry => exact .listed (runs_listingAfter entry.key (findMin_lt hmin))

end Strict

/-- On any tree of cells the loop over the searches ends, and its one outcome is the listing: keys
    in the range of the width, each larger than the one before, and then the end, or a read past
    the end of a cell, or a label that is too long. No check of a search fails in between. -/
theorem listing_total (root : Option Cell) (width : Nat) :
    (∀ entries failure, Strict.Runs root width (Strict.findMin root width) entries failure ↔
      entries = (listing root width).entries ∧
        failure = (listing root width).failure.map .cell) ∧
    (listing root width).entries.Pairwise (fun a b => a.key < b.key) ∧
    (∀ entry ∈ (listing root width).entries, entry.key < 2 ^ width) ∧
    ∀ e, (listing root width).failure = some e → Label.Unreadable e := by
  -- The loop runs as the listing goes, so its one outcome is the listing, and what it lists
  -- ascends.
  have hruns := Strict.runs_listing root width
  obtain ⟨hascending, hrange⟩ := hruns.ascending rfl
  refine ⟨fun entries failure => ⟨hruns.unique, ?_⟩, hascending, hrange, fun e => listing_failure⟩
  rintro ⟨rfl, rfl⟩
  exact hruns

end CellCode.Dictionary
