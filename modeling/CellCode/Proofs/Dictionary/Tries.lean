import CellCode.Dictionary.Build
import CellCode.Proofs.Cell.Storing
import CellCode.Proofs.Dictionary.Labels
import CellCode.Proofs.Lists

/-!
# Dictionaries as tries

Building splits entries in ascending order by what their keys share. What comes out is a trie:
a leaf holds the rest of one key and then its value, and a fork holds what its keys share and
has one branch for each bit that may follow. `Trie m entries c` says so of the cell `c`, with
`m` key bits left, and names the entries below it in ascending order.

## Key results

* `Trie.ascending`   the entries of a trie stand in ascending order
* `node_trie`        the node for entries in ascending order is a trie of these entries
* `build_trie`       a dictionary is a trie of its mapping's entries
-/

namespace CellCode

-- Powers are those of the standard library, whatever else is in scope.
attribute [local instance (high)] instPowNat

/-! ## Order of keys -/

namespace Bits

/-- The first parts decide, whatever stands behind them. -/
theorem toNat_append_lt (a b x y : Bits) (hlen : x.length = y.length) (h : a.toNat < b.toNat) :
    (a ++ x).toNat < (b ++ y).toNat := by
  have hx := toNat_lt x
  rw [toNat_append, toNat_append, ← hlen]
  calc a.toNat * 2 ^ x.length + x.toNat
      < (a.toNat + 1) * 2 ^ x.length := by rw [Nat.add_one_mul]; omega
    _ ≤ b.toNat * 2 ^ x.length := Nat.mul_le_mul_right _ h
    _ ≤ b.toNat * 2 ^ x.length + y.toNat := Nat.le_add_right _ _

/-- Behind the same start the rests decide. -/
theorem toNat_append_lt_iff (a x y : Bits) (hlen : x.length = y.length) :
    (a ++ x).toNat < (a ++ y).toNat ↔ x.toNat < y.toNat := by
  rw [toNat_append, toNat_append, hlen]
  omega

/-- A key that goes on with a zero comes before one that goes on with a one. -/
theorem toNat_false_lt_true (x y : Bits) (hlen : x.length = y.length) :
    toNat (false :: x) < toNat (true :: y) :=
  toNat_append_lt [false] [true] x y hlen (by decide)

/-- Bit strings of one length are equal when the numbers are. -/
theorem eq_of_toNat_eq (a b : Bits) (hlen : a.length = b.length) (h : a.toNat = b.toNat) :
    a = b := by
  rw [← ofNat_toNat a, ← ofNat_toNat b, hlen, h]

end Bits

/-- Bits and references, as a value of a dictionary has them. -/
structure Content where
  bits : Bits
  refs : List Cell

/-- What remains of a slice. -/
def Slice.content (s : Slice) : Content := ⟨s.data, s.refs⟩

namespace Dictionary

/-! ## What keys share -/

/-- What starts both of two bit strings starts what they have in common. -/
theorem prefix_commonStart (p a b : Bits) : p <+: commonStart a b ↔ p <+: a ∧ p <+: b := by
  -- Induction on the first string; the second one and the prefix are split along with it.
  induction a generalizing p b with
  | nil =>
    simp only [commonStart, List.prefix_nil]
    exact ⟨fun h => ⟨h, h ▸ List.nil_prefix⟩, fun h => h.1⟩
  | cons x a ih =>
    cases b with
    | nil =>
      simp only [commonStart, List.prefix_nil]
      exact ⟨fun h => ⟨h ▸ List.nil_prefix, h⟩, fun h => h.2⟩
    | cons y b =>
      cases p with
      | nil => simp
      | cons z p =>
        unfold commonStart
        split
        · rename_i hxy
          -- Equal first bits belong to the common start, so the prefix takes one off each of them.
          rw [List.cons_prefix_cons, List.cons_prefix_cons, List.cons_prefix_cons, ih, hxy]
          tauto
        · rename_i hxy
          -- At different first bits the common start ends, and no prefix goes on behind it.
          simp only [List.prefix_nil, reduceCtorEq, List.cons_prefix_cons, false_iff, not_and]
          rintro ⟨rfl, _⟩ rfl
          exact absurd rfl hxy

/-- The shared label is the longest bit string that starts all keys. -/
theorem prefix_sharedLabel (p : Bits) (entries : List (Bits × Slice)) (hne : entries ≠ []) :
    p <+: sharedLabel entries ↔ ∀ e ∈ entries, p <+: e.1 := by
  -- Folding over the other keys keeps what starts the label so far and all keys seen.
  have hfold (others : List (Bits × Slice)) (label : Bits) :
      p <+: others.foldl (fun label entry => commonStart label entry.1) label ↔
        p <+: label ∧ ∀ e ∈ others, p <+: e.1 := by
    induction others generalizing label with
    | nil => simp
    | cons e others ih =>
      rw [List.foldl_cons, ih, prefix_commonStart, List.forall_mem_cons, and_assoc]
  cases entries with
  | nil => exact absurd rfl hne
  | cons e others =>
    obtain ⟨key, value⟩ := e
    rw [sharedLabel, hfold, List.forall_mem_cons]

/-- Entries to be put into a dictionary: there are some, their keys have `m` bits and ascend,
    and each value is a slice with a window inside its cell. -/
structure Ascending (m : Nat) (entries : List (Bits × Slice)) : Prop where
  nonempty : entries ≠ []
  width : ∀ e ∈ entries, e.1.length = m
  ascending : entries.Pairwise fun a b => a.1.toNat < b.1.toNat
  valid : ∀ e ∈ entries, e.2.Valid

/-- A key has a bit at each place within its width. -/
private theorem Ascending.exists_bit {m : Nat} {entries : List (Bits × Slice)}
    (h : Ascending m entries) (e : Bits × Slice) (he : e ∈ entries) (i : Nat) (hi : i < m) :
    ∃ bit, e.1[i]? = some bit :=
  ⟨_, List.getElem?_eq_getElem (by rw [h.width e he]; exact hi)⟩

/-- Two keys that differ leave a bit to tell them apart. -/
private theorem sharedLabel_lt (m : Nat) (a b : Bits × Slice) (others : List (Bits × Slice))
    (h : Ascending m (a :: b :: others)) : (sharedLabel (a :: b :: others)).length < m := by
  have hall := (prefix_sharedLabel _ _ h.nonempty).mp (List.prefix_refl _)
  have ha := hall a (by simp)
  have hb := hall b (by simp)
  have hwa := h.width a (by simp)
  have hwb := h.width b (by simp)
  by_contra hge
  -- A label as long as the keys would be both of them.
  have hlen : (sharedLabel (a :: b :: others)).length = m := by
    have := ha.length_le
    omega
  have hkeys : a.1 = b.1 := by
    rw [← ha.eq_of_length (by omega), ← hb.eq_of_length (by omega)]
  have hlt := (List.pairwise_cons.mp h.ascending).1 b (by simp)
  rw [hkeys] at hlt
  omega

/-- A key that starts with the label and goes on with a bit. -/
private theorem key_eq (label key : Bits) (bit : Bool) (hpre : label <+: key)
    (hbit : key[label.length]? = some bit) :
    key = label ++ bit :: key.drop (label.length + 1) := by
  -- The key ends with the label, where it would have no next bit, or it goes on.
  obtain ⟨rest, rfl⟩ := hpre
  cases rest with
  | nil => simp at hbit
  | cons b rest =>
    rw [List.getElem?_append_right (Nat.le_refl _), Nat.sub_self] at hbit
    cases hbit
    simp

/-- An entry of a branch is an entry with that bit behind the label, less the label and the bit. -/
theorem mem_branch (entries : List (Bits × Slice)) (n : Nat) (bit : Bool) (e : Bits × Slice) :
    e ∈ branch entries n bit ↔ ∃ key, (key, e.2) ∈ entries ∧ key[n]? = some bit ∧
      e.1 = key.drop (n + 1) := by
  simp only [branch, List.mem_map, List.mem_filter, beq_iff_eq, Prod.exists]
  constructor
  · rintro ⟨key, value, ⟨hmem, hbit⟩, rfl⟩
    exact ⟨key, hmem, hbit, rfl⟩
  · rintro ⟨key, hmem, hbit, hdrop⟩
    exact ⟨key, e.2, ⟨hmem, hbit⟩, by rw [← hdrop]⟩

/-- Some key goes on with each bit, since the shared label is the longest. -/
private theorem branch_ne_nil (m : Nat) (entries : List (Bits × Slice)) (h : Ascending m entries)
    (hlt : (sharedLabel entries).length < m) (bit : Bool) :
    branch entries (sharedLabel entries).length bit ≠ [] := by
  have hlongest (p : Bits) := prefix_sharedLabel p _ h.nonempty
  generalize sharedLabel entries = label at hlt hlongest
  have hpre := (hlongest label).mp (List.prefix_refl _)
  intro hnil
  -- If no key went on with this bit, all would go on with the other and share it too.
  have hother : ∀ e ∈ entries, label ++ [!bit] <+: e.1 := by
    intro e he
    obtain ⟨next, hnext⟩ := h.exists_bit e he label.length hlt
    have hne : next ≠ bit := by
      intro heq
      have hmem := (mem_branch entries label.length next (e.1.drop (label.length + 1), e.2)).mpr
        ⟨e.1, he, hnext, rfl⟩
      rw [heq, hnil] at hmem
      cases hmem
    have hnot : next = !bit := by
      cases next <;> cases bit <;> simp_all
    rw [key_eq label e.1 next (hpre e he) hnext, hnot]
    exact ⟨e.1.drop (label.length + 1), by simp⟩
  have hlonger := ((hlongest _).mpr hother).length_le
  rw [List.length_append, List.length_singleton] at hlonger
  omega

/-- The entries of a branch are again such as can be put into a dictionary. -/
private theorem ascending_branch (m : Nat) (entries : List (Bits × Slice))
    (h : Ascending (m + 1) entries) (hlt : (sharedLabel entries).length < m + 1) (bit : Bool) :
    Ascending (m - (sharedLabel entries).length)
      (branch entries (sharedLabel entries).length bit) where
  nonempty := branch_ne_nil (m + 1) entries h hlt bit
  -- The label and one more bit are gone from each key.
  width := by
    intro e he
    obtain ⟨key, hmem, _, hdrop⟩ := (mem_branch _ _ _ _).mp he
    have hwidth : key.length = m + 1 := h.width _ hmem
    rw [hdrop, List.length_drop, hwidth]
    omega
  ascending := by
    -- Taking off what two keys share does not change which is less.
    have hpre := (prefix_sharedLabel _ _ h.nonempty).mp (List.prefix_refl _)
    rw [branch, List.pairwise_map]
    apply List.Pairwise.imp_of_mem _ (h.ascending.filter _)
    intro x y hx hy hless
    obtain ⟨hx, hbitx⟩ := List.mem_filter.mp hx
    obtain ⟨hy, hbity⟩ := List.mem_filter.mp hy
    have hwx := h.width x hx
    have hwy := h.width y hy
    -- Both keys start with the label and the bit, so the rests decide.
    rw [key_eq _ x.1 bit (hpre x hx) (eq_of_beq hbitx),
      key_eq _ y.1 bit (hpre y hy) (eq_of_beq hbity), List.append_cons,
      List.append_cons _ bit (y.1.drop _)] at hless
    exact (Bits.toNat_append_lt_iff _ _ _ (by simp [hwx, hwy])).mp hless
  valid := by
    intro e he
    obtain ⟨key, hmem, _⟩ := (mem_branch _ _ _ _).mp he
    exact h.valid (key, e.2) hmem

/-! ## Tries -/

/-- The entries with some bits put in front of each key. -/
def under (pre : Bits) (entries : List (Bits × Content)) : List (Bits × Content) :=
  entries.map fun e => (pre ++ e.1, e.2)

/-- A dictionary with `m` key bits left that holds these entries. -/
inductive Trie : Nat → List (Bits × Content) → Cell → Prop
  | leaf {m : Nat} {c : Cell} (label : Bits) (value : Content) (width : label.length = m)
      (bits : c.bits = Label.encode label m ++ value.bits) (refs : c.refs = value.refs)
      (fits : c.Fits) : Trie m [(label, value)] c
  | fork {m : Nat} {c : Cell} (label : Bits) (zeros ones : Cell)
      (lower upper : List (Bits × Content)) (width : label.length < m)
      (bits : c.bits = Label.encode label m) (refs : c.refs = [zeros, ones]) (fits : c.Fits)
      (zeros_trie : Trie (m - label.length - 1) lower zeros)
      (ones_trie : Trie (m - label.length - 1) upper ones) :
      Trie m (under (label ++ [false]) lower ++ under (label ++ [true]) upper) c

namespace Trie

variable {m : Nat} {entries : List (Bits × Content)} {c : Cell}

/-- All keys have the bits that are left. -/
theorem width (h : Trie m entries c) : ∀ e ∈ entries, e.1.length = m := by
  -- Induction on the trie: the keys of a fork have the label, one bit and what is left below it.
  induction h with
  | leaf label value width => simpa using width
  | fork label zeros ones lower upper width _ _ _ _ _ ihzeros ihones =>
    intro e he
    simp only [under, List.mem_append, List.mem_map] at he
    rcases he with ⟨x, hx, rfl⟩ | ⟨x, hx, rfl⟩
    · have := ihzeros x hx
      simp only [List.length_append, List.length_singleton]
      omega
    · have := ihones x hx
      simp only [List.length_append, List.length_singleton]
      omega

/-- Bits put in front of all keys keep them in order. -/
private theorem ascending_under (pre : Bits) (n : Nat) (entries : List (Bits × Content))
    (hwidth : ∀ e ∈ entries, e.1.length = n)
    (h : entries.Pairwise fun a b => a.1.toNat < b.1.toNat) :
    (under pre entries).Pairwise fun a b => a.1.toNat < b.1.toNat := by
  rw [under, List.pairwise_map]
  apply List.Pairwise.imp_of_mem _ h
  intro x y hx hy hless
  rwa [Bits.toNat_append_lt_iff _ _ _ (by rw [hwidth x hx, hwidth y hy])]

/-- The entries stand in ascending order. -/
theorem ascending (h : Trie m entries c) :
    entries.Pairwise fun a b => a.1.toNat < b.1.toNat := by
  induction h with
  | leaf => simp
  | fork label zeros ones lower upper _ _ _ _ hzeros hones ihzeros ihones =>
    rw [List.pairwise_append]
    -- Each branch ascends by itself, and all keys of the first one come before those of the second.
    refine ⟨ascending_under _ _ lower hzeros.width ihzeros,
      ascending_under _ _ upper hones.width ihones, ?_⟩
    intro x hx y hy
    simp only [under, List.mem_map] at hx hy
    obtain ⟨x, hx, rfl⟩ := hx
    obtain ⟨y, hy, rfl⟩ := hy
    have hlen : x.1.length = y.1.length := (hzeros.width x hx).trans (hones.width y hy).symm
    -- Both keys start with the label, and then a zero stands against a one.
    show ((label ++ [false]) ++ x.1).toNat < ((label ++ [true]) ++ y.1).toNat
    rw [List.append_assoc, List.append_assoc, Bits.toNat_append_lt_iff _ _ _ (by simp [hlen])]
    exact Bits.toNat_false_lt_true x.1 y.1 hlen

end Trie

/-! ## Building -/

/-- Entries by what they hold. -/
def stored (entries : List (Bits × Slice)) : List (Bits × Content) :=
  entries.map fun e => (e.1, e.2.content)

/-- A list in which the kept members come first is its kept members and then the others. -/
private theorem filter_append_filter {α : Type} (p q : α → Bool) (as : List α)
    (hother : ∀ a ∈ as, q a = !p a) (hfirst : as.Pairwise fun a b => p b → p a) :
    as.filter p ++ as.filter q = as := by
  -- Induction on the list.
  induction as with
  | nil => rfl
  | cons a as ih =>
    rw [List.pairwise_cons] at hfirst
    rw [List.forall_mem_cons] at hother
    have hrest := ih hother.2 hfirst.2
    cases hp : p a with
    | true => simp [hp, hother.1, hrest]
    | false =>
      -- Behind a member that is left out nothing is kept.
      have hnone : as.filter p = [] := by
        rw [List.filter_eq_nil_iff]
        intro b hb hkept
        have := hfirst.1 b hb hkept
        rw [hp] at this
        cases this
      rw [hnone, List.nil_append] at hrest
      simp [hp, hother.1, hnone, hrest]

/-- The entries of both branches, with the label and the bit back in front of them, are the
    entries that were split. -/
private theorem stored_branches (m : Nat) (entries : List (Bits × Slice)) (label : Bits)
    (h : Ascending m entries) (hpre : ∀ e ∈ entries, label <+: e.1) (hlt : label.length < m) :
    under (label ++ [false]) (stored (branch entries label.length false)) ++
      under (label ++ [true]) (stored (branch entries label.length true)) = stored entries := by
  -- Putting back what a branch took off gives the entries that were filtered for it.
  have hback (bit : Bool) : under (label ++ [bit]) (stored (branch entries label.length bit)) =
      stored (entries.filter fun e => e.1[label.length]? == some bit) := by
    simp only [under, stored, branch, List.map_map]
    apply List.map_congr_left
    intro e he
    obtain ⟨he, hbit⟩ := List.mem_filter.mp he
    have hkey := key_eq label e.1 bit (hpre e he) (eq_of_beq hbit)
    simp only [Function.comp_apply, List.append_assoc, List.singleton_append]
    rw [← hkey]
  rw [hback, hback, stored, stored, ← List.map_append, filter_append_filter, stored]
  · -- Every key goes on with a zero or with a one.
    intro e he
    obtain ⟨next, hnext⟩ := h.exists_bit e he label.length hlt
    rw [hnext]
    cases next <;> rfl
  · apply List.Pairwise.imp_of_mem _ h.ascending
    intro x y hx hy hless hzero
    by_contra hone
    -- A key that goes on with a one does not come before one that goes on with a zero.
    obtain ⟨next, hnext⟩ := h.exists_bit x hx label.length hlt
    have hnext' : x.1[label.length]? = some true := by
      cases next with
      | true => exact hnext
      | false => rw [hnext] at hone; exact absurd rfl hone
    have hx' := key_eq label x.1 true (hpre x hx) hnext'
    have hy' := key_eq label y.1 false (hpre y hy) (eq_of_beq hzero)
    have hlen : (y.1.drop (label.length + 1)).length = (x.1.drop (label.length + 1)).length := by
      rw [List.length_drop, List.length_drop, h.width x hx, h.width y hy]
    rw [hx', hy', Bits.toNat_append_lt_iff _ _ _ (by simpa using hlen.symm)] at hless
    have := Bits.toNat_false_lt_true _ _ hlen
    omega

/-- A value is stored behind a label. -/
private theorem trie_of_leaf (m : Nat) (label : Bits) (value : Slice) (b : Builder) (c : Cell)
    (hlabel : label.length = m) (hvalue : value.Valid)
    (hb : Builder.empty.storeBits (Label.encode label m) = .ok b)
    (h : (do (← b.storeSlice value).build) = Except.ok c) :
    Trie m [(label, value.content)] c := by
  -- Each of the three steps has to succeed, and what they leave is read off them.
  obtain ⟨_, rfl⟩ := (Builder.storeBits_eq_ok _ b _ (Nat.zero_le _)).mp hb
  obtain ⟨b', hb', hc⟩ := (bind_eq_ok _ _ _).mp h
  obtain ⟨_, rfl⟩ := (Builder.storeSlice_eq_ok _ b' value hvalue).mp hb'
  obtain ⟨hbuildable, rfl⟩ := Builder.build_eq_ok.mp hc
  apply Trie.leaf label value.content hlabel
  · simp [Builder.empty, Slice.content]
  · simp [Builder.empty, Slice.content]
  · exact Builder.fits_cell.mpr hbuildable.1

/-- The node for entries in ascending order is a trie of these entries. -/
theorem node_trie (m : Nat) (entries : List (Bits × Slice)) (c : Cell)
    -- Strong induction on the key bits that are left, since a label may take any number of them.
    (hentries : Ascending m entries) (h : node m entries = .ok c) : Trie m (stored entries) c := by
  induction m using Nat.strongRecOn generalizing entries c with
  | ind m ih =>
    rw [node] at h
    obtain ⟨b, hb, h⟩ := (bind_eq_ok _ _ _).mp h
    -- Several entries differ behind the label that they share, so bits are left for a fork.
    match m, entries, hentries with
    | _, [], hentries => exact absurd rfl hentries.nonempty
    | m, [e], hentries =>
      exact trie_of_leaf m e.1 e.2 b c (hentries.width e (by simp)) (hentries.valid e (by simp))
        hb h
    | 0, a :: e :: others, hentries =>
      exact absurd (sharedLabel_lt 0 a e others hentries) (Nat.not_lt_zero _)
    | m + 1, a :: e :: others, hentries =>
      have hlt := sharedLabel_lt (m + 1) a e others hentries
      have hpre := (prefix_sharedLabel _ _ hentries.nonempty).mp (List.prefix_refl _)
      -- The entries are those of both branches, where the label and one more bit are gone.
      have hsplit := stored_branches (m + 1) _ _ hentries hpre hlt
      have hzeros := ascending_branch m _ hentries hlt false
      have hones := ascending_branch m _ hentries hlt true
      obtain ⟨hroom, rfl⟩ := (Builder.storeBits_eq_ok _ b _ (Nat.zero_le _)).mp hb
      obtain ⟨zeros, hz, h⟩ := (bind_eq_ok _ _ _).mp h
      obtain ⟨ones, ho, h⟩ := (bind_eq_ok _ _ _).mp h
      obtain ⟨b₁, hb₁, h⟩ := (bind_eq_ok _ _ _).mp h
      obtain ⟨b₂, hb₂, hc⟩ := (bind_eq_ok _ _ _).mp h
      obtain ⟨hbuildable, rfl⟩ := Builder.build_eq_ok.mp hc
      have hbits : (Builder.empty.bits ++
          Label.encode (sharedLabel (a :: e :: others)) ((m + 1 : Nat) : Int)).length ≤
          Cell.maxBits := by
        simpa using hroom
      obtain ⟨_, rfl⟩ := (Builder.storeRef_eq_ok _ b₁ zeros hbits).mp hb₁
      obtain ⟨_, rfl⟩ := (Builder.storeRef_eq_ok _ b₂ ones hbits).mp hb₂
      have hleft : m + 1 - (sharedLabel (a :: e :: others)).length - 1 =
          m - (sharedLabel (a :: e :: others)).length := by
        -- The references of a fork go down with what the label and the bit leave.
        omega
      rw [← hsplit]
      apply Trie.fork _ zeros ones _ _ hlt
      · simp [Builder.empty]
      · simp [Builder.empty]
      · exact Builder.fits_cell.mpr hbuildable.1
      · rw [hleft]
        exact ih _ (by omega) _ zeros hzeros hz
      · rw [hleft]
        exact ih _ (by omega) _ ones hones ho

/-! ## Mappings -/

/-- The bits and references of a value. -/
def Value.content : Value → Content
  | bits b => ⟨b, []⟩
  | cell c => ⟨c.bits, c.refs⟩
  | slice s => s.content

/-- A value that is a slice has its window inside its cell. -/
def Value.Valid : Value → Prop
  | slice s => s.Valid
  | _ => True

/-- The slice to be stored has the content of the value. -/
theorem Value.content_of_toSlice (v : Value) (s : Slice) (h : v.toSlice = .ok s) :
    s.content = v.content := by
  -- A bit string is stored as a cell of its own, a cell and a slice as they are.
  cases v with
  | bits b =>
    obtain ⟨c, hc, h⟩ := (bind_eq_ok _ _ _).mp h
    cases h
    obtain ⟨rfl, _⟩ := Cell.make_eq_ok_iff.mp hc
    simp [Slice.content, content]
  | cell c =>
    cases h
    simp [Slice.content, content]
  | slice t =>
    cases h
    rfl

/-- Its window lies inside its cell if that of the value does. -/
theorem Value.valid_of_toSlice (v : Value) (s : Slice) (hv : v.Valid) (h : v.toSlice = .ok s) :
    s.Valid := by
  -- The slice of a whole cell is valid, and a slice that was given is so by assumption.
  cases v with
  | bits b =>
    obtain ⟨c, _, h⟩ := (bind_eq_ok _ _ _).mp h
    cases h
    exact Slice.valid_toSlice c
  | cell c =>
    cases h
    exact Slice.valid_toSlice c
  | slice t =>
    cases h
    exact hv

/-- What is taken from an entry of a mapping whose key fits the width. -/
theorem keyed_eq_ok (width : Int) (entry : Int × Value) (result : Int × Bits × Slice)
    (h : keyed width entry = .ok result) :
    0 ≤ width ∧ result.1 = entry.1 ∧ (result.2.1.toNat : Int) = entry.1 ∧
      result.2.1.length = width.toNat ∧ entry.2.toSlice = .ok result.2.2 := by
  obtain ⟨key, value⟩ := entry
  unfold keyed at h
  dsimp only at h
  -- A negative width, a negative key and a key that is too large are refused.
  split at h
  · cases h
  split at h
  · cases h
  split at h
  · cases h
  obtain ⟨s, hs, h⟩ := (bind_eq_ok _ _ _).mp h
  cases h
  have hpow : ((2 ^ width.toNat : Nat) : Int) = 2 ^ width.toNat := Int.natCast_pow 2 width.toNat
  refine ⟨by omega, rfl, ?_, Bits.length_ofNat _ _, hs⟩
  rw [Bits.toNat_ofNat, Nat.mod_eq_of_lt (by omega)]
  omega

/-- The entries that were taken, in ascending order of their keys, can be put into a
    dictionary. -/
private theorem ascending_sorted (width : Int) (mapping : Mapping)
    (entries sorted : List (Int × Bits × Slice)) (hne : mapping ≠ [])
    (hkeys : mapping.Pairwise fun a b => a.1 ≠ b.1) (hvalues : ∀ e ∈ mapping, e.2.Valid)
    (hentries : List.Forall₂ (fun e x => keyed width e = .ok x) mapping entries)
    (hperm : sorted.Perm entries) (hsorted : sorted.Pairwise fun a b => a.1 ≤ b.1) :
    Ascending width.toNat (sorted.map (·.2)) := by
  have hkeyed : ∀ x ∈ sorted, ∃ e ∈ mapping, keyed width e = .ok x :=
    fun x hx => forall₂_mem_right _ _ hentries x (hperm.mem_iff.mp hx)
  -- Sorting moves keys only, so they still differ, and sorted keys that differ ascend.
  have hdistinct : sorted.Pairwise fun a b => a.1 ≠ b.1 := by
    have hsame : entries.map (·.1) = mapping.map (·.1) := by
      rw [← List.forall₂_eq_eq_eq, List.forall₂_map_left_iff, List.forall₂_map_right_iff]
      exact hentries.flip.imp fun x e h => (keyed_eq_ok width e x h).2.1
    rw [hperm.pairwise_iff fun h => h.symm, ← List.pairwise_map (R := (· ≠ ·)), hsame,
      List.pairwise_map]
    exact hkeys
  -- There are entries since the mapping has some; their keys have the width; they ascend; and the
  -- values are valid.
  refine ⟨?_, ?_, ?_, ?_⟩
  · intro hnil
    rw [List.map_eq_nil_iff] at hnil
    rw [hnil, List.nil_perm] at hperm
    rw [hperm, List.forall₂_nil_right_iff] at hentries
    exact hne hentries
  · intro x hx
    obtain ⟨y, hy, rfl⟩ := List.mem_map.mp hx
    obtain ⟨e, _, hkey⟩ := hkeyed y hy
    exact (keyed_eq_ok width e y hkey).2.2.2.1
  · rw [List.pairwise_map]
    apply List.Pairwise.imp_of_mem _ (hsorted.and hdistinct)
    intro x y hx hy hxy
    obtain ⟨hle, hdiffer⟩ := hxy
    obtain ⟨e, _, hx⟩ := hkeyed x hx
    obtain ⟨e', _, hy⟩ := hkeyed y hy
    have hx := keyed_eq_ok width e x hx
    have hy := keyed_eq_ok width e' y hy
    omega
  · intro x hx
    obtain ⟨y, hy, rfl⟩ := List.mem_map.mp hx
    obtain ⟨e, he, hkey⟩ := hkeyed y hy
    exact e.2.valid_of_toSlice _ (hvalues e he) (keyed_eq_ok width e y hkey).2.2.2.2

/-- A dictionary that was built from a mapping is a trie of the mapping's entries. -/
theorem build_trie (mapping : Mapping) (width : Int) (c : Cell)
    (hkeys : mapping.Pairwise fun a b => a.1 ≠ b.1) (hvalues : ∀ e ∈ mapping, e.2.Valid)
    (h : build mapping width = .ok (some c)) :
    0 ≤ width ∧ ∃ entries, Trie width.toNat entries c ∧
      (entries.map fun e => ((e.1.toNat : Int), e.2)).Perm
        (mapping.map fun e => (e.1, e.2.content)) := by
  unfold build at h
  split at h
  · cases h
  rename_i hne
  have hne : mapping ≠ [] := by simpa using hne
  obtain ⟨entries, hentries, h⟩ := (bind_eq_ok _ _ _).mp h
  obtain ⟨root, hroot, h⟩ := (bind_eq_ok _ _ _).mp h
  cases h
  -- The keys are encoded, the entries sorted by their keys, and the node built from them.
  rw [mapM_eq_ok] at hentries
  have hperm := List.mergeSort_perm entries fun a b => decide (a.1 ≤ b.1)
  have hsorted : (entries.mergeSort fun a b => decide (a.1 ≤ b.1)).Pairwise
      fun a b => a.1 ≤ b.1 := by
    have horder : (entries.mergeSort fun a b => decide (a.1 ≤ b.1)).Pairwise
        fun a b => decide (a.1 ≤ b.1) = true :=
      List.pairwise_mergeSort (by simp only [decide_eq_true_eq]; omega)
        (by simp only [Bool.or_eq_true, decide_eq_true_eq]; omega) entries
    simpa using horder
  have hascending :=
    ascending_sorted width mapping entries _ hne hkeys hvalues hentries hperm hsorted
  refine ⟨?_, _, node_trie width.toNat _ c hascending hroot, ?_⟩
  · -- The mapping has an entry, whose key was taken, so the width is not negative.
    cases hentries with
    | nil => exact absurd rfl hne
    | cons hkey _ => exact (keyed_eq_ok width _ _ hkey).1
  · -- What is stored for an entry of the mapping is its key and its content.
    have hstored : (entries.map fun x => ((x.2.1.toNat : Int), x.2.2.content)) =
        mapping.map fun e => (e.1, e.2.content) := by
      rw [← List.forall₂_eq_eq_eq, List.forall₂_map_left_iff, List.forall₂_map_right_iff]
      apply forall₂_imp_mem _ _ _ hentries.flip
      intro x _ e he hkey
      obtain ⟨_, _, hnat, _, hslice⟩ := keyed_eq_ok width e x hkey
      rw [hnat, e.2.content_of_toSlice _ hslice]
    rw [← hstored, stored, List.map_map, List.map_map]
    exact hperm.map _

/-- So is a dictionary of cells, whatever is in them: its width is a number of bits. -/
theorem build_trie_of_cells (mapping : Mapping) (width : Int) (c : Cell)
    (hkeys : mapping.Pairwise fun a b => a.1 ≠ b.1) (hcells : ∀ e ∈ mapping, ∃ v, e.2 = .cell v)
    (h : build mapping width = .ok (some c)) :
    ∃ m : Nat, width = m ∧ ∃ entries, Trie m entries c ∧
      (entries.map fun e => ((e.1.toNat : Int), e.2)).Perm
        (mapping.map fun e => (e.1, e.2.content)) := by
  -- A cell is taken as a whole, so its slice is valid.
  have hvalues : ∀ e ∈ mapping, e.2.Valid := by
    intro e he
    obtain ⟨v, hv⟩ := hcells e he
    rw [hv]
    trivial
  obtain ⟨hwidth, entries, htrie, hperm⟩ := build_trie mapping width c hkeys hvalues h
  obtain ⟨m, rfl⟩ := Int.eq_ofNat_of_zero_le hwidth
  rw [Int.toNat_natCast] at htrie
  exact ⟨m, rfl, entries, htrie, hperm⟩

end Dictionary

end CellCode
