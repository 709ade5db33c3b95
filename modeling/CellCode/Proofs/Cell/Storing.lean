import CellCode.Proofs.Cell.Reading

/-!
# Storing within the room of a builder

A store succeeds when what it adds fits, and then it adds just that. Numbers are stored as bits: an
unsigned number by its digits, a signed one by the digits of its two's complement.

* `storeBits_eq_ok` and the like   a store succeeds exactly when there is room
* `storeUInt_eq_ok`, `storeInt_eq_ok`   a number is stored if its field can hold it
* `storeUInt_eq`, `storeInt_eq`      numbers are checked first, and a signed one is stored as the
                                   unsigned one in its place
* `storeBits_eq_error` and the like   what a store fails with
* `build_eq_error`                   what building fails with
-/

namespace CellCode

-- Powers are those of the standard library, whatever else is in scope.
attribute [local instance (high)] instPowNat

/-- The error is one of room, of what is stored, or of its arithmetic. No store reads anything, and
    none writes down a depth. -/
def CellError.FromStore (e : CellError) : Prop :=
  e.kind = .overflow ∨ e.kind = .misuse ∨ e.kind = .arithmetic

/-- The error is that a reference is too deep for its depth to be written. -/
def CellError.IsTooDeep (e : CellError) : Prop :=
  ∃ depth, Cell.maxRefDepth < depth ∧ e = .referenceTooDeep depth

/-- A window shows no more bits than it is wide, wherever its ends are. -/
theorem Slice.length_data_le (s : Slice) : (s.data.length : Int) ≤ max 0 s.remainingBits := by
  rw [data, List.length_take, remainingBits]
  omega

/-- It shows no more references than it is wide either. -/
theorem Slice.length_refs_le (s : Slice) : (s.refs.length : Int) ≤ max 0 s.remainingRefs := by
  rw [refs, List.length_take, remainingRefs]
  omega

namespace Builder

/-! ## Bits and references -/

/-- A builder that holds nothing is in capacity. -/
theorem fits_empty : empty.Fits := ⟨Nat.zero_le _, Nat.zero_le _⟩

/-- There is room exactly when bits and references both fit. -/
theorem checkRoom_eq_ok (b : Builder) (m n : Nat) (u : Unit) :
    b.checkRoom m n = .ok u ↔
      b.bits.length + m ≤ Cell.maxBits ∧ b.refs.length + n ≤ Cell.maxRefs := by
  -- The three cases are those of the check: too many bits, too many references, or room for both.
  unfold checkRoom spareBits spareRefs
  split
  · constructor
    · intro h; cases h
    · intro h; omega
  · split
    · constructor
      · intro h; cases h
      · intro h; omega
    · constructor
      · intro _; omega
      · intro _; rfl

/-- Storing bits succeeds exactly when they fit. -/
theorem storeBits_eq_ok (b c : Builder) (bits : Bits) (h : b.refs.length ≤ Cell.maxRefs) :
    b.storeBits bits = .ok c ↔
      b.bits.length + bits.length ≤ Cell.maxBits ∧ c = ⟨b.bits ++ bits, b.refs⟩ := by
  rw [storeBits, bind_eq_ok]
  constructor
  · -- The check has passed and left the room that it asked for.
    rintro ⟨u, hroom, hc⟩
    have := (checkRoom_eq_ok b bits.length 0 u).mp hroom
    cases hc
    exact ⟨this.1, rfl⟩
  · rintro ⟨hbits, rfl⟩
    exact ⟨(), (checkRoom_eq_ok b bits.length 0 ()).mpr ⟨hbits, h⟩, rfl⟩

/-- Storing a reference succeeds exactly when it fits. -/
theorem storeRef_eq_ok (b c : Builder) (ref : Cell) (h : b.bits.length ≤ Cell.maxBits) :
    b.storeRef ref = .ok c ↔
      b.refs.length + 1 ≤ Cell.maxRefs ∧ c = ⟨b.bits, b.refs ++ [ref]⟩ := by
  rw [storeRef, bind_eq_ok]
  constructor
  · rintro ⟨u, hroom, hc⟩
    have := (checkRoom_eq_ok b 0 1 u).mp hroom
    cases hc
    exact ⟨this.2, rfl⟩
  · rintro ⟨hrefs, rfl⟩
    exact ⟨(), (checkRoom_eq_ok b 0 1 ()).mpr ⟨h, hrefs⟩, rfl⟩

/-- Storing references one by one succeeds exactly when all of them fit. -/
theorem storeRefs_eq_ok (b c : Builder) (refs : List Cell) (h : b.Fits) :
    refs.foldlM storeRef b = .ok c ↔
      b.refs.length + refs.length ≤ Cell.maxRefs ∧ c = ⟨b.bits, b.refs ++ refs⟩ := by
  -- Induction on the references.
  induction refs generalizing b with
  | nil =>
    have := h.2
    simp only [List.foldlM_nil, List.length_nil, List.append_nil, Nat.add_zero, this, true_and]
    constructor
    · intro hc; cases hc; rfl
    · rintro rfl; rfl
  | cons ref refs ih =>
    rw [foldlM_cons_eq_ok]
    constructor
    · -- The first one fits, and the others fit behind it.
      rintro ⟨b', hb', hc⟩
      obtain ⟨hroom, rfl⟩ := (storeRef_eq_ok b b' ref h.1).mp hb'
      obtain ⟨hall, rfl⟩ := (ih ⟨b.bits, b.refs ++ [ref]⟩ ⟨h.1, by simpa using hroom⟩).mp hc
      simp only [List.length_append, List.length_cons, List.length_nil] at hall
      exact ⟨by simp only [List.length_cons]; omega, by simp⟩
    · -- All fit, so each of them does on the way.
      rintro ⟨hall, rfl⟩
      simp only [List.length_cons] at hall
      refine ⟨⟨b.bits, b.refs ++ [ref]⟩, (storeRef_eq_ok b _ ref h.1).mpr ⟨by omega, rfl⟩, ?_⟩
      refine (ih ⟨b.bits, b.refs ++ [ref]⟩ ⟨h.1, ?_⟩).mpr ⟨?_, ?_⟩
      · simp only [List.length_append, List.length_cons, List.length_nil]; omega
      · simp only [List.length_append, List.length_cons, List.length_nil]; omega
      · simp

/-- Storing what a slice shows succeeds exactly when it fits. -/
theorem storeSlice_eq_ok (b c : Builder) (s : Slice) (hs : s.Valid) :
    b.storeSlice s = .ok c ↔
      (b.bits.length + s.data.length ≤ Cell.maxBits ∧
        b.refs.length + s.refs.length ≤ Cell.maxRefs) ∧
      c = ⟨b.bits ++ s.data, b.refs ++ s.refs⟩ := by
  -- A valid slice shows just the bits and references that its window promises.
  have hshows := hs.shows
  rw [storeSlice, hshows.remainingBits, hshows.remainingRefs, bind_eq_ok]
  constructor
  · intro h
    obtain ⟨u, hroom, hc⟩ := h
    cases hc
    exact ⟨(checkRoom_eq_ok b _ _ u).mp hroom, rfl⟩
  · intro h
    obtain ⟨hroom, rfl⟩ := h
    exact ⟨(), (checkRoom_eq_ok b _ _ ()).mpr hroom, rfl⟩

/-- Storing the content of a whole cell succeeds exactly when it fits. -/
theorem storeSlice_toSlice_eq_ok (b c : Builder) (cell : Cell) :
    b.storeSlice cell.toSlice = .ok c ↔
      (b.bits.length + cell.bits.length ≤ Cell.maxBits ∧
        b.refs.length + cell.refs.length ≤ Cell.maxRefs) ∧
      c = ⟨b.bits ++ cell.bits, b.refs ++ cell.refs⟩ := by
  rw [storeSlice_eq_ok b c _ (Slice.valid_toSlice cell), Slice.data_toSlice, Slice.refs_toSlice]

/-- What a window shows is stored where there is room for the whole window, wherever its ends
    are. -/
theorem of_storeSlice (b c : Builder) (s : Slice) (hb : b.Fits) (h : b.storeSlice s = .ok c) :
    (b.bits.length + s.data.length ≤ Cell.maxBits ∧
      b.refs.length + s.refs.length ≤ Cell.maxRefs) ∧
    c = ⟨b.bits ++ s.data, b.refs ++ s.refs⟩ := by
  obtain ⟨_, hroom, hc⟩ := (bind_eq_ok _ _ _).mp h
  cases hc
  -- The check asks for as much as the window is wide, which is no less than what it shows.
  have hbits := s.length_data_le
  have hrefs := s.length_refs_le
  refine ⟨?_, rfl⟩
  obtain ⟨hb, hr⟩ := hb
  unfold checkRoom spareBits spareRefs at hroom
  split at hroom
  · cases hroom
  split at hroom
  · cases hroom
  omega

/-! ## Numbers -/

/-- Refuses an unsigned number that a field of `width` bits cannot hold. -/
def checkUnsigned (value width : Int) : Except CellError Unit :=
  if value < 0 then .error (.unsignedRange value width)
  else if width < 0 then .error .negativeWidth
  else if 2 ^ width.toNat ≤ value then .error (.unsignedRange value width)
  else .ok ()

/-- Refuses a signed number that a field of `width` bits cannot hold. -/
def checkSigned (value width : Int) : Except CellError Unit :=
  if width = 0 then .error (.signedRange value width)
  else if width < 0 then .error .negativeWidth
  else if value < -2 ^ (width.toNat - 1) ∨ 2 ^ (width.toNat - 1) ≤ value then
    .error (.signedRange value width)
  else .ok ()

/-- An unsigned number passes if it is neither negative nor too large for the field. -/
theorem checkUnsigned_eq_ok (value width : Int) (u : Unit) :
    checkUnsigned value width = .ok u ↔ 0 ≤ width ∧ 0 ≤ value ∧ value < 2 ^ width.toNat := by
  -- The cases are those of the check.
  unfold checkUnsigned
  split
  · exact ⟨nofun, fun h => absurd h.2.1 (by omega)⟩
  · split
    · exact ⟨nofun, fun h => absurd h.1 (by omega)⟩
    · split
      · exact ⟨nofun, fun h => absurd h.2.2 (by omega)⟩
      · exact ⟨fun _ => by omega, fun _ => rfl⟩

/-- A signed number passes if its two's complement fits into the field. -/
theorem checkSigned_eq_ok (value width : Int) (u : Unit) :
    checkSigned value width = .ok u ↔
      0 < width ∧ -(2 ^ (width.toNat - 1)) ≤ value ∧ value < 2 ^ (width.toNat - 1) := by
  unfold checkSigned
  split
  · exact ⟨nofun, fun h => absurd h.1 (by omega)⟩
  · split
    · exact ⟨nofun, fun h => absurd h.1 (by omega)⟩
    · split
      · exact ⟨nofun, fun h => absurd h.2 (by omega)⟩
      · exact ⟨fun _ => by omega, fun _ => rfl⟩

/-- An unsigned number is checked and stored as its bits. -/
theorem storeUInt_eq (b : Builder) (value width : Int) :
    b.storeUInt value width =
      checkUnsigned value width >>= fun _ => b.storeBits (.ofNat width.toNat value.toNat) := by
  -- The three checks stand in the same order on both sides.
  unfold storeUInt checkUnsigned
  split
  · rfl
  · split
    · rfl
    · split <;> rfl

/-- The unsigned number in the place of a signed one has the same digits, and its field can always
    hold it. -/
theorem storeUInt_emod (b : Builder) (value width : Int) (hwidth : 0 ≤ width) :
    b.storeUInt (value % 2 ^ width.toNat) width = b.storeBits (.ofInt width.toNat value) := by
  -- The remainder lies in the range of the field, so the check passes.
  have hpos : (0 : Int) < 2 ^ width.toNat := Int.pow_pos (by omega)
  have hnonneg := Int.emod_nonneg value (Int.ne_of_gt hpos)
  have hlt := Int.emod_lt_of_pos value hpos
  rw [storeUInt_eq, (checkUnsigned_eq_ok _ _ ()).mpr ⟨hwidth, hnonneg, hlt⟩, Bits.ofInt]
  rfl

/-- A signed number is checked and stored as the unsigned one in its place. -/
theorem storeInt_eq (b : Builder) (value width : Int) :
    b.storeInt value width =
      checkSigned value width >>= fun _ => b.storeUInt (value % 2 ^ width.toNat) width := by
  unfold storeInt checkSigned
  split
  · rfl
  · split
    · rfl
    · dsimp only
      split
      · rfl
      · -- The width is positive by now, so the unsigned number can be stored where the signed one
        -- can.
        exact (b.storeUInt_emod value width (by omega)).symm

/-- An unsigned number is stored if its field can hold it. -/
theorem storeUInt_eq_ok (b c : Builder) (value width : Int) :
    b.storeUInt value width = .ok c ↔
      (0 ≤ width ∧ 0 ≤ value ∧ value < 2 ^ width.toNat) ∧
        b.storeBits (.ofNat width.toNat value.toNat) = .ok c := by
  rw [storeUInt_eq, bind_eq_ok]
  simp only [checkUnsigned_eq_ok, exists_and_left, exists_const]

/-- A signed number is stored if its field can hold it. -/
theorem storeInt_eq_ok (b c : Builder) (value width : Int) :
    b.storeInt value width = .ok c ↔
      (0 < width ∧ -(2 ^ (width.toNat - 1)) ≤ value ∧ value < 2 ^ (width.toNat - 1)) ∧
        b.storeBits (.ofInt width.toNat value) = .ok c := by
  rw [storeInt_eq, bind_eq_ok]
  simp only [checkSigned_eq_ok, exists_and_left, exists_const]
  apply and_congr_right
  intro hrange
  rw [b.storeUInt_emod value width (by omega)]

/-! ## How stores fail -/

/-- Room is refused as an overflow, for bits and for references. -/
theorem checkRoom_eq_error (b : Builder) (bits refs : Int) (e : CellError)
    (h : b.checkRoom bits refs = .error e) : e.kind = .overflow := by
  unfold checkRoom at h
  split at h
  · cases h
    rfl
  · split at h
    · cases h
      rfl
    · cases h

/-- A store of bits fails in its check of the room. -/
theorem storeBits_eq_error (b : Builder) (bits : Bits) (e : CellError)
    (h : b.storeBits bits = .error e) : e.kind = .overflow := by
  rcases (bind_eq_error _ _ _).mp h with h | ⟨_, _, h⟩
  · exact b.checkRoom_eq_error _ _ e h
  · cases h

theorem storeRef_eq_error (b : Builder) (ref : Cell) (e : CellError)
    (h : b.storeRef ref = .error e) : e.kind = .overflow := by
  rcases (bind_eq_error _ _ _).mp h with h | ⟨_, _, h⟩
  · exact b.checkRoom_eq_error _ _ e h
  · cases h

theorem storeSlice_eq_error (b : Builder) (s : Slice) (e : CellError)
    (h : b.storeSlice s = .error e) : e.kind = .overflow := by
  rcases (bind_eq_error _ _ _).mp h with h | ⟨_, _, h⟩
  · exact b.checkRoom_eq_error _ _ e h
  · cases h

/-- A number does not fit into its field, or the bits of the field do not fit. -/
theorem storeUInt_eq_error (b : Builder) (value width : Int) (e : CellError)
    (h : b.storeUInt value width = .error e) : e.FromStore := by
  rw [storeUInt_eq] at h
  rcases (bind_eq_error _ _ _).mp h with h | ⟨_, _, h⟩
  · unfold checkUnsigned at h
    split_ifs at h <;> cases h <;> simp [CellError.FromStore, CellError.kind]
  · exact .inl (b.storeBits_eq_error _ e h)

/-- A signed number fails in its own check or as the unsigned one in its place. -/
theorem storeInt_eq_error (b : Builder) (value width : Int) (e : CellError)
    (h : b.storeInt value width = .error e) : e.FromStore := by
  rw [storeInt_eq] at h
  rcases (bind_eq_error _ _ _).mp h with h | ⟨_, _, h⟩
  · unfold checkSigned at h
    split_ifs at h <;> cases h <;> simp [CellError.FromStore, CellError.kind]
  · exact b.storeUInt_eq_error _ _ e h

/-- Bytes that are fewer than their count are refused, and then their bits are stored. -/
theorem storeRaw_eq_error (b : Builder) (bytes : List UInt8) (count : Int) (e : CellError)
    (h : b.storeRaw bytes count = .error e) : e.FromStore := by
  rcases (bind_eq_error _ _ _).mp h with h | ⟨bits, _, h⟩
  · unfold bitsOfBytes at h
    split_ifs at h
    cases h
    exact .inr (.inl rfl)
  · exact .inl (b.storeBits_eq_error bits e h)

/-! ## How builds fail -/

/-- A builder in capacity cannot be built only because a reference is too deep. -/
theorem Fits.build_eq_error {b : Builder} {e : CellError} (hfits : b.Fits)
    (h : b.build = .error e) : e.IsTooDeep := by
  -- A builder that fits is built, or it has a reference that is too deep.
  rcases build_of_fits hfits with ⟨_, hok⟩ | ⟨r, _, hdeep, herror⟩
  · cases h.symm.trans hok
  · cases h.symm.trans herror
    exact ⟨r.depth, hdeep, rfl⟩

/-- Another builder holds too much, which is found out first. -/
theorem build_eq_error {b : Builder} {e : CellError} (h : b.build = .error e) :
    e.kind = .overflow ∨ e.IsTooDeep := by
  -- The capacity is looked at first, and only then the depth.
  by_cases hfits : b.Fits
  · exact .inr (hfits.build_eq_error h)
  · -- Bits or references are too many, each of which is an overflow.
    rw [← fits_cell, Builder.cell, ← Cell.checkCapacity_eq_ok] at hfits
    rw [build, Cell.make] at h
    unfold Cell.checkCapacity at h hfits
    split_ifs at h hfits
    · cases h
      exact .inl rfl
    · cases h
      exact .inl rfl
    · exact absurd rfl hfits

end Builder

end CellCode
