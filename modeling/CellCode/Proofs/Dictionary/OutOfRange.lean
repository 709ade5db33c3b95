import CellCode.Proofs.Dictionary.Entries

/-!
# Searching from keys out of range

A key to be looked up is compared with the labels digit by digit, and nobody asks whether it is in
the range of the dictionary's keys. Three things happen to a key that is not:

* A search looks at no more digits than the keys have. So from a key with more digits the search
  goes on as from the number that its leading digits write, and may find an entry.
* A label that is not empty comes after the sign of a negative key, so the smallest entry is found,
  as it should be.
* An empty label does not meet the sign. It is then met by the fork and taken for a one there, since
  it is no zero. So the search goes into the upper branch, and does not find the smallest entry.

## Key results

* `after_take`                  a search looks at the digits that the keys have
* `findNext_leading`            a key is looked up by its leading digits
* `after_sign`, `after_sign_of_empty`   what becomes of a sign
* `findNext_outside_of_build`   what is found from a key out of range, and when it is right
-/

namespace CellCode

-- Powers are those of the standard library, whatever else is in scope.
attribute [local instance (high)] instPowNat

/-- The first bits of a number are the bits of the number without its last digits. -/
theorem Bits.take_ofNat (w width n : Nat) (h : w ≤ width) :
    -- Induction on the number of bits.
    (ofNat width n).take w = ofNat w (n / 2 ^ (width - w)) := by
  induction w generalizing width with
  | zero => rfl
  | succ w ih =>
    obtain ⟨width, rfl⟩ : ∃ k, width = k + 1 := ⟨width - 1, by omega⟩
    -- The first bit is that of the highest place, which the division moves down.
    have hbit : (n / 2 ^ (width - w)).testBit w = n.testBit width := by
      rw [Nat.testBit_div_two_pow]
      congr 1
      omega
    rw [ofNat, List.take_succ_cons, ih width (by omega), Nat.add_sub_add_right, ofNat, hbit]

namespace Dictionary

/-! ## Leading digits -/

/-- The number that the first `width` binary digits of `n` write; a number that has no more digits
    is left as it is. -/
def leading (width n : Nat) : Nat := n / 2 ^ (Label.digitCount n - width)

example : leading 2 4 = 2 ∧ leading 2 7 = 3 ∧ leading 2 1 = 1 := by decide

/-- A number is written in its digits. -/
private theorem lt_two_pow_digitCount (n : Nat) : n < 2 ^ Label.digitCount n := by
  unfold Label.digitCount
  split
  · rename_i hzero
    rw [hzero]
    exact Nat.two_pow_pos 0
  · exact Nat.lt_log2_self

/-- The leading digits write a number of the width. -/
theorem leading_lt (width n : Nat) : leading width n < 2 ^ width := by
  have hlt := lt_two_pow_digitCount n
  rw [leading, Nat.div_lt_iff_lt_mul (Nat.two_pow_pos _), ← Nat.pow_add]
  exact Nat.lt_of_lt_of_le hlt (Nat.pow_le_pow_right (by decide) (by omega))

/-- The first digits of a number that is written in at least as many. -/
theorem take_atLeast (width n : Nat) :
    (Label.atLeast width n).take width = Bits.ofNat width (leading width n) := by
  rw [Label.atLeast, Bits.take_ofNat _ _ _ (Nat.le_max_left _ _), leading]
  congr 3
  omega

/-! ## Digits that are looked at -/

/-- A search looks at no more digits than there are key bits left. -/
theorem after_take (node : Cell) (m : Nat) (digits : List Digit) (pre : Bits) :
    after node m (digits.take m) pre = after node m digits pre := by
  -- On the key bits that are left: below a fork there are fewer.
  induction m using Nat.strongRecOn generalizing node digits pre with
  | ind m ih =>
    conv_lhs => rw [after]
    conv_rhs => rw [after]
    -- The label is loaded from the same cell on both sides, and it is compared with the same
    -- digits.
    cases hload : Label.load node.toSlice m with
    | error e => rfl
    | ok result =>
      obtain ⟨label, s⟩ := result
      have hle : label.length ≤ m := by
        have := Label.length_le_of_load hload
        omega
      simp only [bind, Except.bind, List.take_take, Nat.min_eq_left hle]
      -- Only where they are equal does the search go on, with the digits behind them.
      cases compareDigits (label.map .bit) (digits.take label.length) with
      | lt => rfl
      | gt => rfl
      | eq =>
        by_cases hleaf : (m : Int) - label.length ≤ 0
        · simp only [if_pos hleaf]
        have hlt : label.length < m := by omega
        simp only [if_neg hleaf, List.drop_take]
        cases digits.drop label.length with
        | nil => rw [List.take_nil]
        | cons digit rest =>
          -- Of the digits behind the label one is looked at here, and the others further down.
          rw [show m - label.length = (m - label.length - 1) + 1 by omega, List.take_succ_cons]
          simp only [bits_left hlt, ih _ (show m - label.length - 1 < m by omega)]

/-- A key that is not negative is looked up by its leading digits. -/
theorem findNext_leading (c : Cell) (width key : Nat) (hwidth : 0 < width) :
    findNext (some c) width key = findNext (some c) width (leading width key : Nat) := by
  -- The leading digits are the first ones of the key, as many as the keys have.
  have hdigits : (keyDigits key width).take width = keyDigits (leading width key : Nat) width := by
    rw [keyDigits_of_lt _ _ (leading_lt width key), keyDigits]
    simp only [Int.toNat_natCast, Int.natAbs_natCast]
    rw [if_neg (by omega), if_neg (by omega), ← List.map_take, take_atLeast]
  simp only [findNext]
  rw [← after_take c width (keyDigits key width), hdigits]

/-! ## Signs -/

section Sign

variable {c : Cell} {m : Nat} {label : Bits} {s : Slice}

/-- A label that is not empty comes after a sign, and so do all entries behind it. -/
theorem after_sign (load : Label.load c.toSlice m = .ok (label, s)) (hlabel : label ≠ [])
    (digits : List Digit) (pre : Bits) :
    after c m (.sign :: digits) pre = some <$> leftmost c m pre := by
  apply after_gt load
  cases label with
  | nil => exact absurd rfl hlabel
  | cons bit label => cases bit <;> rfl

/-- Behind an empty label a sign is taken for a one. -/
theorem after_sign_of_empty (load : Label.load c.toSlice m = .ok ([], s))
    (digits : List Digit) (pre : Bits) :
    after c m (.sign :: digits) pre = after c m (.bit true :: digits) pre := by
  rw [after, after, load]
  rfl

end Sign

/-- The key with a one in front of the leading digits of `n`. -/
def upperKey (width n : Nat) : Nat := 2 ^ (width - 1) + leading (width - 1) n

/-- A one in front of fewer digits is in range. -/
theorem upperKey_lt (width n : Nat) (hwidth : 0 < width) : upperKey width n < 2 ^ width := by
  have hlt := leading_lt (width - 1) n
  have hpow : 2 ^ width = 2 ^ (width - 1) + 2 ^ (width - 1) := by
    rw [← Nat.two_mul, ← Nat.pow_add_one', Nat.sub_add_cancel hwidth]
  rw [upperKey]
  omega

/-- So a negative key is looked up with a one in place of its sign. -/
theorem findNext_of_empty {c : Cell} {width : Nat} {s : Slice}
    (load : Label.load c.toSlice width = .ok ([], s)) (hwidth : 0 < width) (key : Int)
    (hkey : key < 0) :
    findNext (some c) width key = findNext (some c) width (upperKey width key.natAbs : Nat) := by
  obtain ⟨w, rfl⟩ : ∃ w, width = w + 1 := ⟨width - 1, by omega⟩
  -- The sign takes the place of the first digit.
  have hdigits : keyDigits key (w + 1 : Nat) = .sign :: (Label.atLeast w key.natAbs).map .bit := by
    rw [keyDigits]
    simp only [Int.toNat_natCast]
    rw [if_neg (by omega), if_pos hkey, Nat.add_sub_cancel]
  -- The key with a one has the same digits behind it.
  have hupper : keyDigits (upperKey (w + 1) key.natAbs : Nat) (w + 1 : Nat) =
      .bit true :: (Bits.ofNat w (leading w key.natAbs)).map .bit := by
    rw [keyDigits_of_lt _ _ (upperKey_lt _ _ hwidth), upperKey, Nat.add_sub_cancel]
    -- A one and the digits behind it write half the range and more.
    have hbits : Bits.ofNat (w + 1) (2 ^ w + leading w key.natAbs) =
        true :: Bits.ofNat w (leading w key.natAbs) := by
      apply Bits.eq_of_toNat_eq
      · simp
      · have hlt := leading_lt w key.natAbs
        rw [Bits.toNat_cons, Bits.toNat_ofNat, Bits.toNat_ofNat, Bits.length_ofNat,
          Nat.mod_eq_of_lt hlt, Nat.mod_eq_of_lt]
        · simp
        · rw [Nat.pow_succ]
          omega
    rw [hbits]
    rfl
  simp only [findNext]
  rw [hdigits, after_sign_of_empty load, ← after_take, List.take_succ_cons, ← List.map_take,
    take_atLeast, hupper]

/-! ## Dictionaries -/

/-- The keys lie in one half of the range, so they have the same first bit. -/
def InOneHalf (width : Nat) (keys : List Nat) : Prop :=
  (∀ k ∈ keys, k < 2 ^ (width - 1)) ∨ ∀ k ∈ keys, 2 ^ (width - 1) ≤ k

instance (width : Nat) (keys : List Nat) : Decidable (InOneHalf width keys) :=
  inferInstanceAs (Decidable (_ ∨ _))

variable {m : Nat} {entries : List (Bits × Slice)} {c : Cell}

/-- Bits that start with a zero are in the lower half. -/
private theorem toNat_zero_lt (rest : Bits) (hrest : rest.length = m - 1) :
    Bits.toNat (false :: rest) < 2 ^ (m - 1) := by
  -- The other bits write less than half the range.
  have hlt := Bits.toNat_lt rest
  rw [hrest] at hlt
  simpa [Bits.toNat_cons] using hlt

/-- Bits that start with a one are in the upper half. -/
private theorem le_toNat_one (rest : Bits) (hrest : rest.length = m - 1) :
    2 ^ (m - 1) ≤ Bits.toNat (true :: rest) := by
  rw [Bits.toNat_cons, hrest]
  simp

/-- Keys with the same first bit lie in one half. -/
theorem inOneHalf_of_bit (bit : Bool)
    (h : ∀ e ∈ entries, ∃ rest, e.1 = bit :: rest ∧ rest.length = m - 1) :
    InOneHalf m (entries.map (·.1.toNat)) := by
  cases bit with
  | false =>
    refine .inl (List.forall_mem_map.mpr fun e he => ?_)
    obtain ⟨rest, hkey, hrest⟩ := h e he
    rw [hkey]
    exact toNat_zero_lt rest hrest
  | true =>
    refine .inr (List.forall_mem_map.mpr fun e he => ?_)
    obtain ⟨rest, hkey, hrest⟩ := h e he
    rw [hkey]
    exact le_toNat_one rest hrest

/-- Keys of which one starts with a zero and one with a one lie in both halves. -/
theorem not_inOneHalf_of_bits {lower upper : Bits × Slice} (hlower : lower ∈ entries)
    (hupper : upper ∈ entries) {rest rest' : Bits} (hzero : lower.1 = false :: rest)
    (hone : upper.1 = true :: rest') (hrest : rest.length = m - 1) (hrest' : rest'.length = m - 1) :
    ¬ InOneHalf m (entries.map (·.1.toNat)) := by
  have hlt := toNat_zero_lt rest hrest
  have hle := le_toNat_one rest' hrest'
  rw [← hzero] at hlt
  rw [← hone] at hle
  -- Neither half has both keys.
  rintro (hall | hall)
  · have := hall _ (List.mem_map_of_mem hupper)
    omega
  · have := hall _ (List.mem_map_of_mem hlower)
    omega

/-- The root has an empty label exactly when there are keys in both halves of the range. -/
theorem Walk.label (h : Walk m [] entries c) (hm : 0 < m) :
    ∃ label s, Label.load c.toSlice m = .ok (label, s) ∧
      (label = [] ↔ ¬ InOneHalf m (entries.map (·.1.toNat))) := by
  cases h with
  -- A single key lies in one half, and its label is all of it.
  | @leaf _ _ label _ s load width =>
    refine ⟨label, s, load, ?_⟩
    cases label with
    | nil => exact absurd width (by simp; omega)
    | cons bit label =>
      simp only [List.length_cons] at width
      refine ⟨nofun, fun h => absurd (inOneHalf_of_bit bit ?_) h⟩
      simpa using (show label.length = m - 1 by omega)
  | @fork _ _ label _ zeros ones s lower upper load width left right hlowerWalk hupperWalk =>
    refine ⟨label, s, load, ?_⟩
    cases label with
    -- Behind an empty label there are entries on both sides.
    | nil =>
      obtain ⟨first, _, rfl, _⟩ := leftmost_walk hlowerWalk
      obtain ⟨first', _, rfl, _⟩ := leftmost_walk hupperWalk
      obtain ⟨rest, hkey, hrest⟩ := hlowerWalk.key first (by simp)
      obtain ⟨rest', hkey', hrest'⟩ := hupperWalk.key first' (by simp)
      refine ⟨fun _ => ?_, fun _ => rfl⟩
      exact not_inOneHalf_of_bits (List.mem_append_left _ List.mem_cons_self)
        (List.mem_append_right _ List.mem_cons_self) hkey hkey' hrest hrest'
    | cons bit label =>
      simp only [List.length_cons] at width
      -- Behind a label that is not empty all keys have its first bit.
      have hhalf : InOneHalf m ((lower ++ upper).map (·.1.toNat)) := by
        apply inOneHalf_of_bit bit
        intro e he
        obtain ⟨rest, hkey, hrest⟩ := hlowerWalk.key_fork hupperWalk e he
        refine ⟨label ++ rest, by simp [hkey], ?_⟩
        rw [List.length_append, hrest, List.length_cons]
        omega
      exact ⟨nofun, fun h => absurd hhalf h⟩

/-- From any key that is not negative the search goes on as from its leading digits. -/
theorem findNext_walk_leading (h : Walk m [] entries c) (hm : 0 < m) (key : Nat) :
    findNext (some c) m key =
      .ok ((entries.find? fun e => leading m key < e.1.toNat).map fun e => .of e.1 e.2) := by
  rw [findNext_leading c m key hm, findNext_walk h _ (leading_lt m key)]

/-- From a negative key the smallest entry is found where all keys lie in one half. -/
theorem findNext_walk_sign (h : Walk m [] entries c) (hm : 0 < m) (key : Int) (hkey : key < 0)
    (hhalf : InOneHalf m (entries.map (·.1.toNat))) :
    findNext (some c) m key = findMin (some c) m := by
  obtain ⟨label, s, load, hlabel⟩ := h.label hm
  -- The key starts with its sign, which the label of the root comes after.
  have hdigits : keyDigits key m = .sign :: (Label.atLeast (m - 1) key.natAbs).map .bit := by
    rw [keyDigits]
    simp only [Int.toNat_natCast]
    rw [if_neg (by omega), if_pos hkey]
  simp only [findNext, findMin]
  rw [hdigits, after_sign load fun hempty => hlabel.mp hempty hhalf]
  cases leftmost c m [] <;> rfl

/-- Where they do not, nothing of the lower half is found. -/
theorem findNext_walk_upper (h : Walk m [] entries c) (hm : 0 < m) (key : Int) (hkey : key < 0)
    (hhalf : ¬ InOneHalf m (entries.map (·.1.toNat))) :
    findNext (some c) m key =
      .ok ((entries.find? fun e => upperKey m key.natAbs < e.1.toNat).map
        fun e => .of e.1 e.2) := by
  obtain ⟨label, s, load, hlabel⟩ := h.label hm
  obtain rfl := hlabel.mpr hhalf
  rw [findNext_of_empty load hm key hkey, findNext_walk h _ (upperKey_lt m _ hm)]

/-- Among ascending keys from both halves the smallest one is in the lower half, so it is not what
    the search from a negative key finds. -/
theorem findNext_ne_findMin (h : Walk m [] entries c) (hm : 0 < m) (key : Int) (hkey : key < 0)
    (hhalf : ¬ InOneHalf m (entries.map (·.1.toNat))) :
    findNext (some c) m key ≠ findMin (some c) m := by
  obtain ⟨first, others, rfl, hmin⟩ := findMin_walk h
  -- Were the first key in the upper half, all of them would be.
  have hfirst : first.1.toNat < 2 ^ (m - 1) := by
    by_contra hge
    refine hhalf (.inr (List.forall_mem_map.mpr fun e he => ?_))
    rcases List.mem_cons.mp he with rfl | he
    · omega
    · have := (List.pairwise_cons.mp h.ascending).1 e he
      omega
  rw [findNext_walk_upper h hm key hkey hhalf, hmin]
  intro hsame
  obtain ⟨e, hfound, hentry⟩ := Option.map_eq_some_iff.mp (Except.ok.inj hsame)
  -- What is found is in the upper half.
  have hbeyond : upperKey m key.natAbs < e.1.toNat := by
    simpa using List.find?_some hfound
  have hkeys : e.1.toNat = first.1.toNat := congrArg Entry.key hentry
  rw [upperKey] at hbeyond
  omega

/-- A dictionary of keys with at least one bit is searched from a key out of range. From a key
    beyond the range the first entry beyond its leading digits is found, and none exactly if no
    entry is beyond them. From a negative key the smallest entry is found exactly if all keys lie
    in one half of the range; else the first entry beyond the key with a one for the sign. -/
theorem findNext_outside_of_build (mapping : Mapping) (width : Nat) (root : Cell) (key : Int)
    (hwidth : 0 < width) (hkeys : mapping.Pairwise fun a b => a.1 ≠ b.1)
    (hvalues : ∀ e ∈ mapping, e.2.Valid) (hbuild : build mapping width = .ok (some root)) :
    ∃ listed, items (some root) width = .ok listed ∧
      (listed.Pairwise fun a b => a.key < b.key) ∧
      (listed.map fun e => (e.key : Int)).Perm (mapping.map (·.1)) ∧
      findMin (some root) width = .ok listed.head? ∧
      (2 ^ width ≤ key →
        findNext (some root) width key =
          .ok (listed.find? fun e => leading width key.toNat < e.key) ∧
        (findNext (some root) width key = .ok none ↔
          ∀ e ∈ listed, e.key ≤ leading width key.toNat)) ∧
      (key < 0 →
        (findNext (some root) width key = findMin (some root) width ↔
          InOneHalf width (listed.map (·.key))) ∧
        (¬ InOneHalf width (listed.map (·.key)) → findNext (some root) width key =
          .ok (listed.find? fun e => upperKey width key.natAbs < e.key))) := by
  obtain ⟨_, entries, htrie, hperm⟩ := build_trie mapping width root hkeys hvalues hbuild
  rw [Int.toNat_natCast] at htrie
  obtain ⟨found, hwalk, hfound⟩ := htrie.walk []
  -- The entries that are listed are those of the walk.
  have hlisted : List.Forall₂ IsListed entries (found.map fun e => .of e.1 e.2) := by
    rw [List.forall₂_map_right_iff]
    exact hfound.imp fun _ _ he => he.isListed
  have hnumbers := keys_of_isListed entries _ hlisted
  -- What is found among the entries of the walk is found among the listed ones.
  have hfind (n : Nat) : ((found.find? fun e => n < e.1.toNat).map fun e => Entry.of e.1 e.2) =
      (found.map fun e => Entry.of e.1 e.2).find? fun e => n < e.key := by
    rw [List.find?_map]
    rfl
  have hhalves : InOneHalf width ((found.map fun e => Entry.of e.1 e.2).map (·.key)) ↔
      InOneHalf width (found.map (·.1.toNat)) := by
    rw [List.map_map]
    rfl
  refine ⟨_, items_walk hwalk, ?_, ?_, ?_, fun hbeyond => ?_, fun hnegative => ?_⟩
  · rw [List.pairwise_map]
    exact hwalk.ascending
  · have hints := congrArg (List.map (Nat.cast (R := Int))) hnumbers
    have hkeysPerm := hperm.map Prod.fst
    simp only [List.map_map] at hints hkeysPerm ⊢
    exact (List.Perm.of_eq hints).trans hkeysPerm
  · -- The smallest entry is the first one listed.
    obtain ⟨first, others, rfl, hmin⟩ := findMin_walk hwalk
    exact hmin
  · -- The key is not negative, so it is looked up by its leading digits.
    have hpos : 0 ≤ key := Int.le_trans (Int.natCast_nonneg (2 ^ width)) (by simpa using hbeyond)
    have hnext := findNext_walk_leading hwalk hwidth key.toNat
    rw [Int.toNat_of_nonneg hpos, hfind] at hnext
    refine ⟨hnext, ?_⟩
    rw [hnext, Except.ok.injEq, List.find?_eq_none]
    simp only [decide_eq_true_eq, Nat.not_lt]
  · rw [hhalves]
    refine ⟨⟨fun hsame => ?_, findNext_walk_sign hwalk hwidth key hnegative⟩, fun hboth => ?_⟩
    · -- Where the smallest entry is found, the keys cannot lie in both halves.
      by_contra hboth
      exact findNext_ne_findMin hwalk hwidth key hnegative hboth hsame
    · rw [findNext_walk_upper hwalk hwidth key hnegative hboth, hfind]

/-- Two keys of two bits, one in each half of the range. -/
def bothHalves : Mapping := [(0, .bits [true]), (3, .bits [false])]

/-- The dictionary of `bothHalves`. -/
def bothHalvesRoot : Cell :=
  .mk [false, false] [
    .mk [false, true, false, false, true] [], .mk [false, true, false, true, false] []]

/-- The dictionary can be computed. -/
private theorem build_bothHalves : build bothHalves (2 : Nat) = .ok (some bothHalvesRoot) := by
  cbv

/-- From key 4, which has three digits, the search goes on as from key 2. From key -1 it goes on as
    from key 3, since the keys lie in both halves. -/
theorem findNext_outside_of_bothHalves :
    0 < 2 ∧ (bothHalves.Pairwise fun a b => a.1 ≠ b.1) ∧ (∀ e ∈ bothHalves, e.2.Valid) ∧
      build bothHalves (2 : Nat) = .ok (some bothHalvesRoot) ∧
      ∃ listed, items (some bothHalvesRoot) (2 : Nat) = .ok listed ∧
        (listed.map fun e => (e.key : Int)).Perm [0, 3] ∧
        findNext (some bothHalvesRoot) (2 : Nat) 4 = .ok (listed.find? fun e => 2 < e.key) ∧
        findNext (some bothHalvesRoot) (2 : Nat) (-1) = .ok (listed.find? fun e => 3 < e.key) := by
  have hkeys : bothHalves.Pairwise fun a b => a.1 ≠ b.1 := by decide
  have hvalues : ∀ e ∈ bothHalves, e.2.Valid := by
    intro e he
    simp only [bothHalves, List.mem_cons, List.not_mem_nil, or_false] at he
    rcases he with rfl | rfl <;> trivial
  -- Both keys to be looked up are covered by the general theorem, for one and the same listing.
  obtain ⟨listed, hitems, _, hperm, _, hbeyond, _⟩ :=
    findNext_outside_of_build bothHalves 2 bothHalvesRoot 4 (by decide) hkeys hvalues
      build_bothHalves
  obtain ⟨listed', hitems', _, _, _, _, hnegative⟩ :=
    findNext_outside_of_build bothHalves 2 bothHalvesRoot (-1) (by decide) hkeys hvalues
      build_bothHalves
  obtain rfl : listed = listed' := Except.ok.inj (hitems.symm.trans hitems')
  have hnumbers : (listed.map fun e => (e.key : Int)).Perm [0, 3] := hperm
  -- The keys 0 and 3 lie in different halves.
  have hboth : ¬ InOneHalf 2 (listed.map (·.key)) := by
    obtain ⟨low, hlow, hzero⟩ := List.mem_map.mp (hnumbers.mem_iff.mpr (.head _))
    obtain ⟨high, hhigh, hthree⟩ := List.mem_map.mp (hnumbers.mem_iff.mpr (.tail _ (.head _)))
    rintro (h | h)
    · have := h high.key (List.mem_map_of_mem hhigh)
      omega
    · have := h low.key (List.mem_map_of_mem hlow)
      omega
  exact ⟨by decide, hkeys, hvalues, build_bothHalves, listed, hitems, hnumbers,
    (hbeyond (by decide)).1, (hnegative (by decide)).2 hboth⟩

/-- The smallest entry has key 0, and none has a key beyond 3. But the search from key -1 finds
    nothing, and the search from key 4 finds the entry of key 3. -/
theorem findNext_of_bothHalves_wrong :
    build bothHalves (2 : Nat) = .ok (some bothHalvesRoot) ∧
      (findMin (some bothHalvesRoot) 2).map (·.map (·.key)) = .ok (some 0) ∧
      (findNext (some bothHalvesRoot) 2 (-1)).map (·.map (·.key)) = .ok none ∧
      (findNext (some bothHalvesRoot) 2 4).map (·.map (·.key)) = .ok (some 3) :=
  ⟨build_bothHalves, by cbv, by cbv, by cbv⟩

end Dictionary

end CellCode
