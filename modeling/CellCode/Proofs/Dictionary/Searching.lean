import CellCode.Dictionary.Search
import CellCode.Proofs.Dictionary.Labels
import CellCode.Proofs.Dictionary.Tries
import Mathlib.Data.List.Find

/-!
# Searching agrees with walking

The entries below a node are known from a plain walk through both branches of every fork. The
walk asks only that labels can be read and that forks have two references, so it also covers
dictionaries that were written by somebody else, with labels in any of the three forms.

A search goes down one way only and turns to the other branch where that ends. From the entries
of the walk alone it is known what it finds: the smallest key is that of the first entry, and the
next key after a given one is that of the first entry with a larger key. Listing repeats the
second step, so it yields the walk.

## Key results

* `walk_of_enumerate`     a successful enumeration is such a walk
* `leftmost_walk`         the way down to the smallest key ends at the first entry
* `after_walk`            the way to the next key ends at the first entry with a larger key
* `items_walk`            listing yields the entries of the walk
* `search_of_enumerate`   all three searches against the enumeration
-/

namespace CellCode.Dictionary

-- Powers are those of the standard library, whatever else is in scope.
attribute [local instance (high)] instPowNat

/-! ## Comparing keys -/

/-- Digits that are bits compare as the numbers that they write. -/
theorem compareDigits_bits (a b : Bits) (hlen : a.length = b.length) :
    compareDigits (a.map .bit) (b.map .bit) = compare a.toNat b.toNat := by
  -- Induction on the first key, with the second one along.
  induction a generalizing b with
  | nil =>
    obtain rfl := List.length_eq_zero_iff.mp hlen.symm
    rfl
  | cons x a ih =>
    cases b with
    | nil => simp at hlen
    | cons y b =>
      have hlen' : a.length = b.length := by simpa using hlen
      simp only [List.map_cons, compareDigits, ih b hlen']
      -- The first bit decides unless both are the same.
      by_cases hxy : x = y
      · subst hxy
        have hself : compare (Digit.bit x).rank (Digit.bit x).rank = .eq :=
          Nat.compare_eq_eq.mpr rfl
        have hiff := Bits.toNat_append_lt_iff [x] a b hlen'
        have hiff' := Bits.toNat_append_lt_iff [x] b a hlen'.symm
        simp only [List.singleton_append] at hiff hiff'
        rw [hself, Ordering.then]
        cases hcompare : compare (Bits.toNat a) (Bits.toNat b) with
        | lt => exact (Nat.compare_eq_lt.mpr (hiff.mpr (Nat.compare_eq_lt.mp hcompare))).symm
        | gt => exact (Nat.compare_eq_gt.mpr (hiff'.mpr (Nat.compare_eq_gt.mp hcompare))).symm
        | eq =>
          have := Nat.compare_eq_eq.mp hcompare
          exact (Nat.compare_eq_eq.mpr (by omega)).symm
      · cases x with
        -- A zero stands against a one, and whatever follows it is less.
        | false =>
          obtain rfl : y = true := by cases y <;> simp_all
          rw [Nat.compare_eq_lt.mpr (Bits.toNat_false_lt_true a b hlen')]
          rfl
        | true =>
          obtain rfl : y = false := by cases y <;> simp_all
          rw [Nat.compare_eq_gt.mpr (Bits.toNat_false_lt_true b a hlen'.symm)]
          rfl

/-- A key in the range of the width is looked up by its bits. -/
theorem keyDigits_of_lt (width key : Nat) (h : key < 2 ^ width) :
    keyDigits (key : Int) (width : Int) = (Bits.ofNat width key).map .bit := by
  unfold keyDigits
  simp only [Int.toNat_natCast, Int.natAbs_natCast]
  -- A width of zero has no digits to be compared.
  by_cases hzero : width = 0
  · subst hzero
    rfl
  · rw [if_neg hzero, if_neg (by omega), Label.atLeast]
    -- The key needs no more digits than the width has.
    have hdigits : Label.digitCount key ≤ width := by
      unfold Label.digitCount
      split
      · omega
      · rename_i hkey
        exact (Nat.log2_lt hkey).mpr h
    rw [Nat.max_eq_left hdigits]

/-! ## One node -/

section Node

variable {m : Nat} {c zeros ones : Cell} {label : Bits} {s : Slice}

/-- The key bits that are left behind the label of a fork and the bit of a branch. -/
theorem bits_left (width : label.length < m) :
    (m : Int) - label.length - 1 = ((m - label.length - 1 : Nat) : Int) := by
  omega

/-- The way down to the smallest key ends at a leaf, whose label is the rest of its key. -/
private theorem leftmost_leaf (load : Label.load c.toSlice m = .ok (label, s))
    (width : label.length = m) (pre : Bits) : leftmost c m pre = .ok (pre ++ label, s) := by
  rw [leftmost, load]
  show (if (m : Int) - label.length ≤ 0 then _ else _) = _
  rw [if_pos (by omega)]
  rfl

/-- At a fork the smallest key is the smallest one below its first reference. -/
private theorem leftmost_fork (load : Label.load c.toSlice m = .ok (label, s))
    (width : label.length < m) (left : s.getReference 0 = .ok zeros) (pre : Bits) :
    leftmost c m pre =
      leftmost zeros (m - label.length - 1 : Nat) (pre ++ (label ++ [false])) := by
  rw [leftmost, load]
  show (if (m : Int) - label.length ≤ 0 then _ else s.getReference 0 >>= _) = _
  rw [if_neg (by omega), left]
  show leftmost zeros ((m : Int) - label.length - 1) (pre ++ label ++ [false]) = _
  rw [List.append_assoc, bits_left width]

variable {digits rest : List Digit}

/-- A label beyond the digits puts all entries beyond them, the smallest one first. -/
theorem after_gt (load : Label.load c.toSlice m = .ok (label, s))
    (h : compareDigits (label.map .bit) (digits.take label.length) = .gt) (pre : Bits) :
    after c m digits pre = some <$> leftmost c m pre := by
  rw [after, leftmost, load]
  -- The search goes on as the way down to the smallest key does.
  simp only [bind, Except.bind, h]
  split
  · rfl
  · cases s.getReference 0 <;> rfl

/-- A label below the digits puts no entry beyond them. -/
private theorem after_lt (load : Label.load c.toSlice m = .ok (label, s))
    (h : compareDigits (label.map .bit) (digits.take label.length) = .lt) (pre : Bits) :
    after c m digits pre = .ok none := by
  rw [after, load]
  simp only [bind, Except.bind, h]
  rfl

/-- The key of a leaf does not come after itself. -/
private theorem after_leaf (load : Label.load c.toSlice m = .ok (label, s))
    (h : compareDigits (label.map .bit) (digits.take label.length) = .eq)
    (width : label.length = m) (pre : Bits) : after c m digits pre = .ok none := by
  rw [after, load]
  simp only [bind, Except.bind, h]
  rw [if_pos (by omega)]
  rfl

/-- Behind a zero the next key is in the lower branch, or else the smallest of the upper one. -/
private theorem after_zero (load : Label.load c.toSlice m = .ok (label, s))
    (h : compareDigits (label.map .bit) (digits.take label.length) = .eq)
    (width : label.length < m) (left : s.getReference 0 = .ok zeros)
    (right : s.getReference 1 = .ok ones)
    (hdrop : digits.drop label.length = .bit false :: rest) (pre : Bits) :
    after c m digits pre =
      after zeros (m - label.length - 1 : Nat) rest (pre ++ (label ++ [false])) >>= fun
        | some found => .ok (some found)
        | none =>
          some <$> leftmost ones (m - label.length - 1 : Nat) (pre ++ (label ++ [true])) := by
  rw [after, load]
  simp only [bind, Except.bind, h]
  rw [if_neg (by omega), hdrop]
  simp only [if_true, left, right, List.append_assoc, bits_left width]
  rfl

/-- Behind a one it is in the upper branch. -/
private theorem after_one (load : Label.load c.toSlice m = .ok (label, s))
    (h : compareDigits (label.map .bit) (digits.take label.length) = .eq)
    (width : label.length < m) (right : s.getReference 1 = .ok ones)
    (hdrop : digits.drop label.length = .bit true :: rest) (pre : Bits) :
    after c m digits pre =
      after ones (m - label.length - 1 : Nat) rest (pre ++ (label ++ [true])) := by
  rw [after, load]
  simp only [bind, Except.bind, h]
  rw [if_neg (by omega), hdrop]
  simp only [Digit.bit.injEq, Bool.true_eq_false, if_false, right, List.append_assoc,
    bits_left width]

end Node

/-! ## Walks -/

/-- The walk through a node with `m` key bits left, behind the key bits `pre`: the entries below
    the node from left to right. -/
inductive Walk : Nat → Bits → List (Bits × Slice) → Cell → Prop
  | leaf {m : Nat} {pre label : Bits} {c : Cell} {s : Slice}
      (load : Label.load c.toSlice m = .ok (label, s)) (width : label.length = m) :
      Walk m pre [(pre ++ label, s)] c
  | fork {m : Nat} {pre label : Bits} {c zeros ones : Cell} {s : Slice}
      {lower upper : List (Bits × Slice)} (load : Label.load c.toSlice m = .ok (label, s))
      (width : label.length < m) (left : s.getReference 0 = .ok zeros)
      (right : s.getReference 1 = .ok ones)
      (lower_walk : Walk (m - label.length - 1) (pre ++ (label ++ [false])) lower zeros)
      (upper_walk : Walk (m - label.length - 1) (pre ++ (label ++ [true])) upper ones) :
      Walk m pre (lower ++ upper) c

/-- An enumeration that succeeds is a walk. -/
theorem walk_of_enumerate (m : Nat) (pre : Bits) (entries : List (Bits × Slice)) (c : Cell)
    (h : enumerate c m pre = .ok entries) : Walk m pre entries c := by
  -- Strong induction on the key bits that are left.
  induction m using Nat.strongRecOn generalizing pre entries c with
  | ind m ih =>
    rw [enumerate] at h
    obtain ⟨⟨label, s⟩, load, h⟩ := (bind_eq_ok _ _ _).mp h
    have hle := Label.length_le_of_load load
    dsimp only at h
    -- The label takes all of them at a leaf, and leaves one for the bit of a branch at a fork.
    by_cases hleaf : label.length = m
    · rw [if_pos (by omega)] at h
      cases h
      exact .leaf load hleaf
    · have width : label.length < m := by omega
      rw [if_neg (by omega)] at h
      obtain ⟨zeros, left, h⟩ := (bind_eq_ok _ _ _).mp h
      obtain ⟨lower, hlower, h⟩ := (bind_eq_ok _ _ _).mp h
      obtain ⟨ones, right, h⟩ := (bind_eq_ok _ _ _).mp h
      obtain ⟨upper, hupper, h⟩ := (bind_eq_ok _ _ _).mp h
      cases h
      rw [bits_left width, List.append_assoc] at hlower hupper
      exact .fork load width left right (ih _ (by omega) _ lower zeros hlower)
        (ih _ (by omega) _ upper ones hupper)

namespace Walk

variable {m : Nat} {pre : Bits} {entries : List (Bits × Slice)} {c : Cell}

/-- Every key starts with the bits before the node and goes on with those that are left. -/
theorem key (h : Walk m pre entries c) :
    ∀ e ∈ entries, ∃ rest, e.1 = pre ++ rest ∧ rest.length = m := by
  induction h with
  -- Behind the bits before it, the key of a leaf is its label.
  | @leaf m pre label c s _ width =>
    intro e he
    rw [List.mem_singleton.mp he]
    exact ⟨label, rfl, width⟩
  -- Below a fork there are the label and a bit in front of what the branch has.
  | @fork m pre label _ _ _ _ _ _ _ width _ _ _ _ ihlower ihupper =>
    intro e he
    rcases List.mem_append.mp he with he | he
    · obtain ⟨rest, hkey, hlen⟩ := ihlower e he
      exact ⟨label ++ [false] ++ rest, by simp [hkey], by simp; omega⟩
    · obtain ⟨rest, hkey, hlen⟩ := ihupper e he
      exact ⟨label ++ [true] ++ rest, by simp [hkey], by simp; omega⟩

/-- In both branches of a fork the keys have the label behind the bits before the node. -/
theorem key_fork {label : Bits} {zeros ones : Cell} {lower upper : List (Bits × Slice)}
    (hlower : Walk m (pre ++ (label ++ [false])) lower zeros)
    (hupper : Walk m (pre ++ (label ++ [true])) upper ones) :
    ∀ e ∈ lower ++ upper, ∃ rest, e.1 = pre ++ (label ++ rest) ∧ rest.length = m + 1 := by
  intro e he
  rcases List.mem_append.mp he with he | he
  · obtain ⟨rest, hkey, hlen⟩ := hlower.key e he
    exact ⟨false :: rest, by simp [hkey], by simp [hlen]⟩
  · obtain ⟨rest, hkey, hlen⟩ := hupper.key e he
    exact ⟨true :: rest, by simp [hkey], by simp [hlen]⟩

/-- The entries stand in ascending order. -/
theorem ascending (h : Walk m pre entries c) :
    entries.Pairwise fun a b => a.1.toNat < b.1.toNat := by
  induction h with
  | leaf => simp
  | @fork m pre label _ _ _ _ _ _ _ _ _ _ hlower hupper ihlower ihupper =>
    rw [List.pairwise_append]
    -- Each branch ascends by itself.
    refine ⟨ihlower, ihupper, ?_⟩
    -- Up to the bit that tells the branches apart all keys are the same.
    intro x hx y hy
    obtain ⟨lower, hkey, hlen⟩ := hlower.key x hx
    obtain ⟨upper, hkey', hlen'⟩ := hupper.key y hy
    have hless := Bits.toNat_false_lt_true lower upper (hlen.trans hlen'.symm)
    rw [hkey, hkey']
    simp only [List.append_assoc, List.singleton_append]
    rwa [Bits.toNat_append_lt_iff _ _ _ (by simp [hlen, hlen']),
      Bits.toNat_append_lt_iff _ _ _ (by simp [hlen, hlen'])]

end Walk

variable {m : Nat} {pre : Bits} {entries : List (Bits × Slice)} {c : Cell}

/-- The way down to the smallest key ends at the first entry. -/
theorem leftmost_walk (h : Walk m pre entries c) :
    ∃ first others, entries = first :: others ∧ leftmost c m pre = .ok first := by
  -- Induction on the walk: the first entry of a fork is the first one of its lower branch.
  induction h with
  | leaf load width => exact ⟨_, _, rfl, leftmost_leaf load width _⟩
  | fork load width left _ _ _ ih _ =>
    obtain ⟨first, others, rfl, hfirst⟩ := ih
    exact ⟨first, _, rfl, by rw [leftmost_fork load width left, hfirst]⟩

/-- When all entries are larger, the first one is the first larger one. -/
private theorem find?_of_forall {α : Type} (p : α → Bool) (as : List α) (h : ∀ a ∈ as, p a) :
    as.find? p = as.head? := by
  cases as with
  | nil => rfl
  | cons a as => simp [h a (by simp)]

/-- A leaf is next to a key exactly when its own is larger. -/
private theorem after_walk_leaf {label key : Bits} {s : Slice}
    (load : Label.load c.toSlice m = .ok (label, s)) (width : label.length = m)
    (hkey : key.length = m) :
    after c m (key.map .bit) pre =
      .ok ([(pre ++ label, s)].find? fun e => (pre ++ key).toNat < e.1.toNat) := by
  -- The label is compared with as much of the key, which is all of it.
  have hcompare := compareDigits_bits label key (width.trans hkey.symm)
  have htake : (key.map Digit.bit).take label.length = key.map .bit :=
    List.take_of_length_le (by simp [hkey, width])
  rw [← htake] at hcompare
  have hiff := Bits.toNat_append_lt_iff pre key label (hkey.trans width.symm)
  cases hcase : compare label.toNat key.toNat with
  | lt =>
    have := Nat.compare_eq_lt.mp hcase
    rw [after_lt load (hcompare.trans hcase), List.find?_cons_of_neg (by simp; omega)]
    rfl
  | eq =>
    have := Nat.compare_eq_eq.mp hcase
    rw [after_leaf load (hcompare.trans hcase) width, List.find?_cons_of_neg (by simp; omega)]
    rfl
  | gt =>
    have := Nat.compare_eq_gt.mp hcase
    rw [after_gt load (hcompare.trans hcase), leftmost_leaf load width,
      List.find?_cons_of_pos (by simp; omega)]
    rfl

section Fork

variable {zeros ones : Cell} {label rest : Bits} {lower upper : List (Bits × Slice)} {n : Nat}

/-- Behind a zero the whole upper branch is larger. -/
private theorem find?_upper (h : Walk n (pre ++ (label ++ [true])) upper ones)
    (hrest : rest.length = n) :
    (upper.find? fun e => (pre ++ (label ++ false :: rest)).toNat < e.1.toNat) = upper.head? := by
  apply find?_of_forall
  intro e he
  obtain ⟨more, hkey, hlen⟩ := h.key e he
  have hless := Bits.toNat_false_lt_true rest more (hrest.trans hlen.symm)
  rw [hkey]
  simp only [List.append_assoc, List.singleton_append, decide_eq_true_eq]
  rwa [Bits.toNat_append_lt_iff _ _ _ (by simp [hrest, hlen]),
    Bits.toNat_append_lt_iff _ _ _ (by simp [hrest, hlen])]

/-- Behind a one nothing of the lower branch is. -/
private theorem find?_lower (h : Walk n (pre ++ (label ++ [false])) lower zeros)
    (hrest : rest.length = n) :
    (lower.find? fun e => (pre ++ (label ++ true :: rest)).toNat < e.1.toNat) = none := by
  rw [List.find?_eq_none]
  intro e he
  obtain ⟨more, hkey, hlen⟩ := h.key e he
  -- Below the label the zero makes the key of the lower branch the smaller one.
  have hless := Bits.toNat_false_lt_true more rest (hlen.trans hrest.symm)
  rw [← Bits.toNat_append_lt_iff label _ _ (by simp [hrest, hlen]),
    ← Bits.toNat_append_lt_iff pre _ _ (by simp [hrest, hlen])] at hless
  rw [hkey]
  simp only [List.append_assoc, List.singleton_append, decide_eq_true_eq]
  omega

/-- Behind a larger label everything is larger. -/
private theorem find?_behind_gt {entries : List (Bits × Slice)} {head tail : Bits}
    (hhead : head.length = label.length)
    (h : ∀ e ∈ entries, ∃ more, e.1 = pre ++ (label ++ more) ∧ more.length = tail.length)
    (hless : head.toNat < label.toNat) :
    (entries.find? fun e => (pre ++ (head ++ tail)).toNat < e.1.toNat) = entries.head? := by
  apply find?_of_forall
  intro e he
  obtain ⟨more, hmore, hlen⟩ := h e he
  -- The labels decide, whatever comes behind them.
  have hbeyond := Bits.toNat_append_lt head label tail more hlen.symm hless
  rw [← Bits.toNat_append_lt_iff pre _ _ (by simp [hlen, hhead])] at hbeyond
  simpa only [hmore, decide_eq_true_eq] using hbeyond

/-- Behind a smaller label nothing is. -/
private theorem find?_behind_lt {entries : List (Bits × Slice)} {head tail : Bits}
    (hhead : head.length = label.length)
    (h : ∀ e ∈ entries, ∃ more, e.1 = pre ++ (label ++ more) ∧ more.length = tail.length)
    (hless : label.toNat < head.toNat) :
    (entries.find? fun e => (pre ++ (head ++ tail)).toNat < e.1.toNat) = none := by
  rw [List.find?_eq_none]
  intro e he
  obtain ⟨more, hmore, hlen⟩ := h e he
  have hbelow := Bits.toNat_append_lt label head more tail hlen hless
  rw [← Bits.toNat_append_lt_iff pre _ _ (by simp [hlen, hhead])] at hbelow
  simp only [hmore, decide_eq_true_eq]
  omega

variable {s : Slice}

/-- Behind the same label the branch of the key's next bit is searched. Where that was the lower one
    and nothing in it is larger, the upper one is taken from its start. -/
private theorem after_walk_branch (load : Label.load c.toSlice m = .ok (label, s))
    (width : label.length < m) (left : s.getReference 0 = .ok zeros)
    (right : s.getReference 1 = .ok ones)
    (hlower : Walk (m - label.length - 1) (pre ++ (label ++ [false])) lower zeros)
    (hupper : Walk (m - label.length - 1) (pre ++ (label ++ [true])) upper ones) (bit : Bool)
    (hrest : rest.length = m - label.length - 1)
    (hzeros : after zeros (m - label.length - 1 : Nat) (rest.map .bit) (pre ++ (label ++ [false])) =
      .ok (lower.find? fun e => (pre ++ (label ++ [false]) ++ rest).toNat < e.1.toNat))
    (hones : after ones (m - label.length - 1 : Nat) (rest.map .bit) (pre ++ (label ++ [true])) =
      .ok (upper.find? fun e => (pre ++ (label ++ [true]) ++ rest).toNat < e.1.toNat)) :
    after c m ((label ++ bit :: rest).map .bit) pre = .ok ((lower ++ upper).find? fun e =>
      (pre ++ (label ++ bit :: rest)).toNat < e.1.toNat) := by
  have hsame : compareDigits (label.map .bit)
      (((label ++ bit :: rest).map Digit.bit).take label.length) = .eq := by
    -- The key starts with the label, so both are equal up to there.
    rw [List.map_append, List.take_left' (by simp), compareDigits_bits _ _ rfl]
    exact Nat.compare_eq_eq.mpr rfl
  have hdrop : ((label ++ bit :: rest).map Digit.bit).drop label.length =
      .bit bit :: rest.map .bit := by
    simp
  simp only [List.append_assoc, List.singleton_append] at hzeros hones
  rw [List.find?_append]
  cases bit with
  -- The next bit is a zero: the lower branch is searched, and the upper one is larger as a whole.
  | false =>
    rw [after_zero load hsame width left right hdrop, hzeros, find?_upper hupper hrest]
    cases lower.find? fun e => decide ((pre ++ (label ++ false :: rest)).toNat < e.1.toNat) with
    | some found => rfl
    -- Nothing larger is in the lower branch, so the first entry of the upper one is next.
    | none =>
      obtain ⟨first, others, rfl, hleftmost⟩ := leftmost_walk hupper
      show some <$> leftmost ones _ _ = _
      rw [hleftmost]
      rfl
  -- The next bit is a one, and the lower branch is smaller as a whole.
  | true =>
    rw [after_one load hsame width right hdrop, hones, find?_lower hlower hrest, Option.none_or]

end Fork

/-- The way to the next key ends at the first entry whose key is larger. -/
theorem after_walk (h : Walk m pre entries c) (key : Bits) (hkey : key.length = m) :
    after c m (key.map .bit) pre =
      .ok (entries.find? fun e => (pre ++ key).toNat < e.1.toNat) := by
  -- Induction on the walk; at a fork the label and the key's bits in its place are compared.
  induction h generalizing key with
  | leaf load width => exact after_walk_leaf load width hkey
  | @fork m pre label c zeros ones s lower upper load width left right hlower hupper ihlower
      ihupper =>
    -- The key is a part as long as the label, one bit, and the rest.
    obtain ⟨head, bit, rest, rfl, hhead⟩ : ∃ (head : Bits) (bit : Bool) (rest : Bits),
        key = head ++ bit :: rest ∧ head.length = label.length := by
      have hlt : label.length < key.length := by omega
      exact ⟨key.take label.length, key[label.length], key.drop (label.length + 1),
        by simp, by simp; omega⟩
    have hrest : rest.length = m - label.length - 1 := by
      simp only [List.length_append, List.length_cons] at hkey
      omega
    have hcompare := compareDigits_bits label head hhead.symm
    have htake : ((head ++ bit :: rest).map Digit.bit).take label.length = head.map .bit := by
      simp [← hhead]
    rw [← htake] at hcompare
    -- Each entry has the label in front of as many bits as the key has behind `head`.
    have hfront : ∀ e ∈ lower ++ upper,
        ∃ more, e.1 = pre ++ (label ++ more) ∧ more.length = (bit :: rest).length := by
      rw [List.length_cons, hrest]
      exact hlower.key_fork hupper
    cases hcase : compare label.toNat head.toNat with
    -- The label is smaller, and so is everything behind it.
    | lt =>
      rw [after_lt load (hcompare.trans hcase),
        find?_behind_lt hhead hfront (Nat.compare_eq_lt.mp hcase)]
    -- The label is larger, and so is everything behind it; the first entry is next.
    | gt =>
      obtain ⟨first, others, hfirst, hleftmost⟩ :=
        leftmost_walk (.fork load width left right hlower hupper)
      rw [after_gt load (hcompare.trans hcase), hleftmost,
        find?_behind_gt hhead hfront (Nat.compare_eq_gt.mp hcase), hfirst]
      rfl
    -- Both are the same, so the next bit decides.
    | eq =>
      obtain rfl := Bits.eq_of_toNat_eq label head hhead.symm (Nat.compare_eq_eq.mp hcase)
      exact after_walk_branch load width left right hlower hupper bit hrest (ihlower rest hrest)
        (ihupper rest hrest)

/-! ## Whole dictionaries -/

/-- The smallest key is that of the first entry. -/
theorem findMin_walk (h : Walk m [] entries c) :
    ∃ first others, entries = first :: others ∧
      findMin (some c) m = .ok (some (.of first.1 first.2)) := by
  obtain ⟨first, others, hentries, hleftmost⟩ := leftmost_walk h
  refine ⟨first, others, hentries, ?_⟩
  rw [findMin, hleftmost]
  rfl

/-- The next key after one in range is that of the first entry with a larger key. -/
theorem findNext_walk (h : Walk m [] entries c) (key : Nat) (hkey : key < 2 ^ m) :
    findNext (some c) m key =
      .ok ((entries.find? fun e => key < e.1.toNat).map fun e => .of e.1 e.2) := by
  -- The key in its bits is searched from the root on.
  have hafter := after_walk h (Bits.ofNat m key) (Bits.length_ofNat m key)
  rw [List.nil_append, Bits.toNat_ofNat, Nat.mod_eq_of_lt hkey] at hafter
  rw [findNext, keyDigits_of_lt m key hkey, hafter]
  rfl

/-- Among ascending entries, those beyond a key are the first one of them and then those beyond
    it. -/
private theorem filter_of_find? (key : Nat) (e : Bits × Slice) (entries : List (Bits × Slice))
    (hascending : entries.Pairwise fun a b => a.1.toNat < b.1.toNat)
    (h : (entries.find? fun x => key < x.1.toNat) = some e) :
    (entries.filter fun x => key < x.1.toNat) =
      e :: entries.filter fun x => e.1.toNat < x.1.toNat := by
  -- Induction on the entries.
  induction entries with
  | nil => cases h
  | cons x entries ih =>
    rw [List.pairwise_cons] at hascending
    by_cases hx : key < x.1.toNat
    · rw [List.find?_cons_of_pos (by simpa using hx)] at h
      cases h
      -- All later entries are beyond the first one, and so beyond the key.
      have hlater : ∀ y ∈ entries, key < y.1.toNat ∧ e.1.toNat < y.1.toNat := by
        intro y hy
        have := hascending.1 y hy
        omega
      rw [List.filter_cons_of_pos (by simpa using hx), List.filter_cons_of_neg (by simp),
        List.filter_eq_self.mpr (by simpa using fun y b hy => (hlater _ hy).1),
        List.filter_eq_self.mpr (by simpa using fun y b hy => (hlater _ hy).2)]
    · -- The first entry is not beyond the key, so it is not beyond the entry found either.
      rw [List.find?_cons_of_neg (by simpa using hx)] at h
      have hkey : key < e.1.toNat := by
        simpa using List.find?_some h
      rw [List.filter_cons_of_neg (by simpa using hx), List.filter_cons_of_neg (by simp; omega),
        ih hascending.2 h]

/-- Listing from a key on yields the entries beyond it. -/
theorem listingAfter_walk (h : Walk m [] entries c) (key : Nat) (hkey : key < 2 ^ m) :
    listingAfter (some c) m key =
      ⟨(entries.filter fun e => key < e.1.toNat).map fun e => .of e.1 e.2, none⟩ := by
  -- Induction along the listing: it fails, it ends, or it finds an entry in range or out of it.
  fun_induction listingAfter (some c) m key with
  -- The search for the next key does not fail.
  | case1 key e herror =>
    rw [findNext_walk h key hkey] at herror
    cases herror
  -- No entry is beyond the key.
  | case2 key hnone =>
    rw [findNext_walk h key hkey] at hnone
    have hnext := Option.map_eq_none_iff.mp (Except.ok.inj hnone)
    rw [List.find?_eq_none] at hnext
    rw [List.filter_eq_nil_iff.mpr hnext]
    rfl
  -- The entry found is the first one beyond the key, and the others are listed from there.
  | case3 key entry hsome hrange ih =>
    rw [findNext_walk h key hkey] at hsome
    obtain ⟨e, hnext, rfl⟩ := Option.map_eq_some_iff.mp (Except.ok.inj hsome)
    rw [ih hrange.2, filter_of_find? key e entries h.ascending hnext]
    rfl
  | case4 key entry hsome hrange =>
    rw [findNext_walk h key hkey] at hsome
    obtain ⟨e, hnext, rfl⟩ := Option.map_eq_some_iff.mp (Except.ok.inj hsome)
    -- The entry that was found is beyond the key and has the width of the dictionary.
    have hbeyond : key < e.1.toNat := by simpa using List.find?_some hnext
    obtain ⟨rest, hrest, hlen⟩ := h.key e (List.mem_of_find?_eq_some hnext)
    have hlt := Bits.toNat_lt e.1
    rw [hrest, List.nil_append, hlen, ← List.nil_append rest, ← hrest] at hlt
    exact absurd ⟨hbeyond, hlt⟩ hrange

/-- Listing yields the entries of the walk. -/
theorem items_walk (h : Walk m [] entries c) :
    items (some c) m = .ok (entries.map fun e => .of e.1 e.2) := by
  -- The first entry is listed, and then what is beyond it.
  obtain ⟨first, others, rfl, hmin⟩ := findMin_walk h
  obtain ⟨rest, hrest, hlen⟩ := h.key first (by simp)
  have hlt := Bits.toNat_lt first.1
  rw [hrest, List.nil_append, hlen, ← List.nil_append rest, ← hrest] at hlt
  -- Beyond the first entry are all the others.
  have hothers : ((first :: others).filter fun e => first.1.toNat < e.1.toNat) = others := by
    rw [List.filter_cons_of_neg (by simp), List.filter_eq_self]
    intro e he
    simpa using (List.pairwise_cons.mp h.ascending).1 e he
  have hlisting : listing (some c) m = .cons (.of first.1 first.2)
      (listingAfter (some c) m first.1.toNat) := by
    rw [listing, hmin]
    rfl
  rw [listingAfter_walk h _ hlt, hothers] at hlisting
  simp only [items, hlisting, Listing.cons, List.map_cons]

/-- On every tree of cells that can be enumerated, whatever the forms of its labels, the smallest
    key is that of the first entry, the next key after any key in range is that of the first entry
    with a larger one, or none if there is none, and listing yields the enumeration. -/
theorem search_of_enumerate (root : Cell) (width : Nat) (entries : List (Bits × Slice))
    (h : enumerate root width [] = .ok entries) :
    (∃ first others, entries = first :: others ∧
      findMin (some root) width = .ok (some (.of first.1 first.2))) ∧
    (∀ key : Nat, key < 2 ^ width → findNext (some root) width key =
      .ok ((entries.find? fun e => key < e.1.toNat).map fun e => .of e.1 e.2)) ∧
    items (some root) width = .ok (entries.map fun e => .of e.1 e.2) := by
  have hwalk := walk_of_enumerate width [] entries root h
  exact ⟨findMin_walk hwalk, findNext_walk hwalk, items_walk hwalk⟩

/-- Keys of three bits under labels in all three forms; both forks have longer ones than they
    need. -/
def foreignRoot : Cell :=
  -- An empty label in the long form.
  .mk [true, false, false, false] [
    -- Two zeros in the same form, and a value of one bit.
    .mk [true, true, false, true, false, true] [],
    -- A one in the long form, above an empty label in the short form and one in the long form.
    .mk [true, false, false, true, true] [
      .mk [false, false, true] [],
      .mk [true, false] [.data []]]]

/-- The entries below `foreignRoot`. -/
def foreignEntries : List (Bits × Slice) := [
  ([false, false, false], ⟨.mk [true, true, false, true, false, true] [], 5, 6, 0, 0⟩),
  ([true, true, false], ⟨.mk [false, false, true] [], 2, 3, 0, 0⟩),
  ([true, true, true], ⟨.mk [true, false] [.data []], 2, 2, 0, 1⟩)]

/-- Nothing is below key 0, after the absent key 3 comes key 6, and after key 7 there is none. -/
theorem search_of_enumerate_foreign :
    enumerate foreignRoot 3 [] = .ok foreignEntries ∧
      findMin (some foreignRoot) 3 = .ok (some (.of [false, false, false]
        ⟨.mk [true, true, false, true, false, true] [], 5, 6, 0, 0⟩)) ∧
      findNext (some foreignRoot) 3 3 = .ok (some (.of [true, true, false]
        ⟨.mk [false, false, true] [], 2, 3, 0, 0⟩)) ∧
      findNext (some foreignRoot) 3 7 = .ok none ∧
      items (some foreignRoot) 3 = .ok (foreignEntries.map fun e => .of e.1 e.2) := by
  have henumerate : enumerate foreignRoot 3 [] = .ok foreignEntries := by decide +kernel
  obtain ⟨⟨first, others, hentries, hmin⟩, hnext, hitems⟩ :=
    search_of_enumerate foreignRoot 3 foreignEntries henumerate
  obtain ⟨rfl, rfl⟩ := List.cons.inj hentries
  exact ⟨henumerate, hmin, hnext 3 (by decide), hnext 7 (by decide), hitems⟩

end CellCode.Dictionary
