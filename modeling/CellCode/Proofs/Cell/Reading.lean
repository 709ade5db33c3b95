import CellCode.Cell.Builder
import CellCode.Proofs.Result

/-!
# Reading what a slice shows

A slice whose window lies inside its cell shows a string of bits and a list of references.
Reads take from the front of both, so what a slice shows is all that a reader needs to know
about it: where the window stands in the cell does not matter.

* `Shows.loadBits` and the like   a read of what stands at the front succeeds
* `leaves_of_loadBits` and the like   a read that succeeds took what stood at the front
* `loadBits_eq_error` and the like   a read that fails went past the end
-/

namespace CellCode.Slice

/-- The window lies inside the cell and holds these bits and references. -/
structure Shows (s : Slice) (bits : Bits) (refs : List Cell) : Prop where
  valid : s.Valid
  data_eq : s.data = bits
  refs_eq : s.refs = refs

/-- The whole cell is shown by its slice. -/
theorem shows_toSlice (c : Cell) : c.toSlice.Shows c.bits c.refs :=
  ⟨valid_toSlice c, data_toSlice c, refs_toSlice c⟩

/-- The slice of a built cell shows what was collected for it. -/
theorem shows_cell (b : Builder) : b.cell.toSlice.Shows b.bits b.refs := by
  have hshows := shows_toSlice b.cell
  rwa [Builder.cell, Cell.bits_mk, Cell.refs_mk] at hshows

/-- A slice inside its cell shows what remains of it. -/
theorem Valid.shows (s : Slice) (h : s.Valid) : s.Shows s.data s.refs := ⟨h, rfl, rfl⟩

namespace Shows

variable {s : Slice} {bits more : Bits} {refs : List Cell}

/-- As many bits remain as are shown. -/
theorem remainingBits (h : s.Shows bits refs) : s.remainingBits = (bits.length : Nat) := by
  have hv := h.valid
  have := hv.bitPos_le
  have := hv.bitEnd_le
  rw [← h.data_eq]
  simp only [Slice.remainingBits, data, List.length_take, List.length_drop]
  omega

/-- As many references remain as are shown. -/
theorem remainingRefs (h : s.Shows bits refs) : s.remainingRefs = (refs.length : Nat) := by
  have hv := h.valid
  have := hv.refPos_le
  have := hv.refEnd_le
  rw [← h.refs_eq]
  simp only [Slice.remainingRefs, Slice.refs, List.length_take, List.length_drop]
  omega

/-- As many bits may be asked for as are shown. -/
theorem requireBits (h : s.Shows (bits ++ more) refs) (n : Int) (hn : n = (bits.length : Nat)) :
    s.requireBits n = .ok () := by
  have hr := h.remainingBits
  rw [List.length_append] at hr
  unfold Slice.requireBits
  rw [if_neg]
  omega

/-- Moving on by as many bits leaves the others. -/
theorem advance (h : s.Shows (bits ++ more) refs) : (s.advance bits.length).Shows more refs := by
  obtain ⟨hv, hd, hr⟩ := h
  have h1 := hv.bitPos_le
  have h2 := hv.bitEnd_le
  have hlen := congrArg List.length hd
  -- The window is moved at one end, so its other ends stay inside the cell.
  simp only [data, List.length_take, List.length_drop, List.length_append] at hlen
  refine ⟨⟨?_, h2, hv.refPos_le, hv.refEnd_le⟩, ?_, hr⟩
  · show s.bitPos + bits.length ≤ s.bitEnd
    omega
  · -- What is behind the bits in the cell stands behind them in the window too.
    have hdrop := congrArg (List.drop bits.length) hd
    rw [List.drop_left, data, List.drop_take, List.drop_drop] at hdrop
    rw [← hdrop]
    show (s.cell.bits.drop (s.bitPos + bits.length)).take
      (s.bitEnd - (s.bitPos + bits.length)) = _
    congr 1
    omega

/-- The bits in front, without moving. -/
theorem preloadBits (h : s.Shows (bits ++ more) refs) (n : Int) (hn : n = (bits.length : Nat)) :
    s.preloadBits n = .ok bits := by
  have hd := h.data_eq
  -- Cutting off as many bits as are asked for leaves those in front.
  have hlen := congrArg List.length hd
  simp only [data, List.length_take, List.length_drop, List.length_append] at hlen
  have htake := congrArg (List.take bits.length) hd
  rw [List.take_left, data, List.take_take, Nat.min_eq_left (by omega)] at htake
  unfold Slice.preloadBits
  rw [h.requireBits n hn, hn]
  show Except.ok _ = _
  rw [Int.toNat_natCast, htake]

/-- Reading bits takes them from the front. -/
theorem loadBits (h : s.Shows (bits ++ more) refs) (n : Int) (hn : n = (bits.length : Nat)) :
    ∃ rest, s.loadBits n = .ok (bits, rest) ∧ rest.Shows more refs := by
  refine ⟨s.advance bits.length, ?_, h.advance⟩
  unfold Slice.loadBits
  rw [h.preloadBits n hn, hn]
  rfl

/-- Reading a bit takes the first one. -/
theorem loadBit {bit : Bool} (h : s.Shows (bit :: bits) refs) :
    ∃ rest, s.loadBit = .ok (bit, rest) ∧ rest.Shows bits refs := by
  rw [← List.singleton_append] at h
  obtain ⟨rest, hload, hrest⟩ := h.loadBits 1 rfl
  refine ⟨rest, ?_, hrest⟩
  unfold Slice.loadBit
  rw [hload]
  cases bit <;> rfl

/-- Skipping bits leaves what is behind them. -/
theorem skipBits (h : s.Shows (bits ++ more) refs) (n : Int) (hn : n = (bits.length : Nat)) :
    ∃ rest, s.skipBits n = .ok rest ∧ rest.Shows more refs := by
  refine ⟨s.advance bits.length, ?_, h.advance⟩
  unfold Slice.skipBits
  rw [h.requireBits n hn, hn]
  rfl

/-- Reading a number takes its bits from the front. -/
theorem loadUInt (h : s.Shows (bits ++ more) refs) (n : Int) (hn : n = (bits.length : Nat)) :
    ∃ rest, s.loadUInt n = .ok (bits.toNat, rest) ∧ rest.Shows more refs := by
  refine ⟨s.advance bits.length, ?_, h.advance⟩
  unfold Slice.loadUInt Slice.preloadUInt
  rw [h.preloadBits n hn, hn]
  rfl

/-- Reading a signed number takes its bits from the front. -/
theorem loadInt (h : s.Shows (bits ++ more) refs) (n : Int) (hn : n = (bits.length : Nat)) :
    ∃ rest, s.loadInt n = .ok (Bits.signed bits.length bits.toNat, rest) ∧
      rest.Shows more refs := by
  obtain ⟨rest, hload, hrest⟩ := h.loadUInt n hn
  refine ⟨rest, ?_, hrest⟩
  unfold Slice.loadInt
  rw [hload, hn]
  rfl

/-- A reference is found by its place among those that are shown. -/
theorem getReference {ref : Cell} (h : s.Shows bits refs) (i : Nat) (hi : refs[i]? = some ref) :
    s.getReference i = .ok ref := by
  obtain ⟨hlt, _⟩ := List.getElem?_eq_some_iff.mp hi
  have hremaining := h.remainingRefs
  unfold Slice.getReference
  rw [if_neg (by omega)]
  -- The window's reference `i` is reference `refPos + i` of its cell.
  rw [← h.refs_eq, Slice.refs, List.getElem?_take] at hi
  split at hi
  · rw [List.getElem?_drop] at hi
    unfold Cell.reference
    rw [if_neg (by omega), show ((s.refPos : Int) + (i : Int)).toNat = s.refPos + i by omega, hi]
  · cases hi

/-- Reading a reference takes the first one. -/
theorem loadRef {ref : Cell} (h : s.Shows bits (ref :: refs)) :
    ∃ rest, s.loadRef = .ok (ref, rest) ∧ rest.Shows bits refs := by
  obtain ⟨hv, hd, hr⟩ := h
  have hle := hv.refEnd_le
  have hlen := congrArg List.length hr
  simp only [Slice.refs, List.length_take, List.length_drop, List.length_cons] at hlen
  have hlt : s.refPos < s.cell.refs.length := by omega
  -- There is a first reference, so the window can be moved by one.
  have hcons := hr
  rw [Slice.refs, List.drop_eq_getElem_cons hlt,
    show s.refEnd - s.refPos = (s.refEnd - (s.refPos + 1)) + 1 by omega,
    List.take_succ_cons] at hcons
  obtain ⟨href, hrefs⟩ := List.cons.inj hcons
  refine ⟨{ s with refPos := s.refPos + 1 }, ?_, ⟨hv.bitPos_le, hv.bitEnd_le, ?_, hle⟩, hd, hrefs⟩
  · have hget : s.getReference 0 = .ok ref := getReference ⟨hv, hd, hr⟩ 0 rfl
    unfold Slice.loadRef
    rw [hget]
    rfl
  · show s.refPos + 1 ≤ s.refEnd
    omega

end Shows

/-! ## Taking from the front of a slice -/

variable {s rest : Slice} {bits : Bits} {refs : List Cell}

/-- These bits and references are taken from the front of a slice, and the rest is left. -/
structure Leaves (s : Slice) (bits : Bits) (refs : List Cell) (rest : Slice) : Prop where
  data_eq : s.data = bits ++ rest.data
  refs_eq : s.refs = refs ++ rest.refs
  rest_eq : rest = { s with bitPos := s.bitPos + bits.length, refPos := s.refPos + refs.length }

/-- Taking nothing leaves everything. -/
theorem leaves_refl (s : Slice) : s.Leaves [] [] s := ⟨rfl, rfl, rfl⟩

/-- Taking twice takes what was taken first and then what was taken next. -/
theorem Leaves.trans {s₁ s₂ : Slice} {bits₁ bits₂ : Bits} {refs₁ refs₂ : List Cell}
    (h₁ : s.Leaves bits₁ refs₁ s₁) (h₂ : s₁.Leaves bits₂ refs₂ s₂) :
    s.Leaves (bits₁ ++ bits₂) (refs₁ ++ refs₂) s₂ where
  data_eq := by rw [h₁.data_eq, h₂.data_eq, List.append_assoc]
  refs_eq := by rw [h₁.refs_eq, h₂.refs_eq, List.append_assoc]
  rest_eq := by
    rw [h₂.rest_eq, h₁.rest_eq]
    simp only [List.length_append, Nat.add_assoc]

/-- What is left of a window inside its cell is inside it as well. -/
theorem Leaves.valid (h : s.Leaves bits refs rest) (hs : s.Valid) : rest.Valid := by
  -- The four ends stay in order since what was taken was there.
  have hbits := congrArg List.length h.data_eq
  have hrefs := congrArg List.length h.refs_eq
  have h₁ := hs.bitPos_le
  have h₂ := hs.bitEnd_le
  have h₃ := hs.refPos_le
  have h₄ := hs.refEnd_le
  simp only [data, List.length_append, List.length_take, List.length_drop] at hbits
  simp only [Slice.refs, List.length_append, List.length_take, List.length_drop] at hrefs
  rw [h.rest_eq]
  constructor <;> dsimp only <;> omega

/-- What is taken is determined by what there was and what is left. -/
theorem Leaves.eq_of_shows {taken more : Bits} {takenRefs moreRefs : List Cell}
    (h : s.Leaves taken takenRefs rest) (hs : s.Shows (bits ++ more) (refs ++ moreRefs))
    (hrest : rest.Shows more moreRefs) : taken = bits ∧ takenRefs = refs := by
  have hdata := h.data_eq
  have hrefs := h.refs_eq
  rw [hs.data_eq, hrest.data_eq] at hdata
  rw [hs.refs_eq, hrest.refs_eq] at hrefs
  exact ⟨(List.append_cancel_right hdata).symm, (List.append_cancel_right hrefs).symm⟩

/-- As many bits as may be asked for stand at the front. -/
theorem Valid.leaves (hs : s.Valid) (n : Int) (h : s.requireBits n = .ok ()) :
    ∃ bits, n = (bits.length : Nat) ∧ s.preloadBits n = .ok bits ∧
      s.Leaves bits [] (s.advance n.toNat) := by
  have hshows : s.Shows (s.data.take n.toNat ++ s.data.drop n.toNat) s.refs := by
    rw [List.take_append_drop]
    exact hs.shows
  -- The window is inside its cell, so it shows as many bits as its ends are apart.
  have hn : n = ((s.data.take n.toNat).length : Nat) := by
    have hremaining := hs.shows.remainingBits
    unfold requireBits at h
    split at h
    · cases h
    · rw [List.length_take]
      omega
  have hlength : (s.data.take n.toNat).length = n.toNat := by omega
  have hadvance := hshows.advance
  rw [hlength] at hadvance
  refine ⟨_, hn, hshows.preloadBits n hn, ?_, rfl, ?_⟩
  · rw [hadvance.data_eq, List.take_append_drop]
  · rw [hlength]
    rfl

/-- Skipping takes as many bits as were asked for. -/
theorem leaves_of_skipBits (hs : s.Valid) (n : Int) (h : s.skipBits n = .ok rest) :
    ∃ bits, n = (bits.length : Nat) ∧ s.Leaves bits [] rest := by
  obtain ⟨⟨⟩, hrequire, h⟩ := (bind_eq_ok _ _ _).mp h
  obtain ⟨bits, hn, -, hleaves⟩ := hs.leaves n hrequire
  cases h
  exact ⟨bits, hn, hleaves⟩

/-- The bits that were read stood at the front, as many as were asked for. -/
theorem leaves_of_loadBits (hs : s.Valid) (n : Int) (h : s.loadBits n = .ok (bits, rest)) :
    n = (bits.length : Nat) ∧ s.Leaves bits [] rest := by
  obtain ⟨taken, hpreload, h⟩ := (bind_eq_ok _ _ _).mp h
  obtain ⟨⟨⟩, hrequire, -⟩ := (bind_eq_ok _ _ _).mp hpreload
  obtain ⟨bits, hn, hbits, hleaves⟩ := hs.leaves n hrequire
  rw [hpreload] at hbits
  cases hbits
  cases h
  exact ⟨hn, hleaves⟩

/-- A bit that was read was the first one. -/
theorem leaves_of_loadBit {bit : Bool} (hs : s.Valid) (h : s.loadBit = .ok (bit, rest)) :
    s.Leaves [bit] [] rest := by
  obtain ⟨⟨bits, s'⟩, hload, h⟩ := (bind_eq_ok _ _ _).mp h
  cases h
  -- The bit is one that was read as a string of one bit.
  obtain ⟨hn, hleaves⟩ := leaves_of_loadBits hs 1 hload
  obtain ⟨bit, rfl⟩ := List.length_eq_one_iff.mp (show bits.length = 1 by omega)
  cases bit <;> exact hleaves

/-- A number that was read is that of the bits at the front. -/
theorem leaves_of_loadUInt {v : Nat} (hs : s.Valid) (n : Int)
    (h : s.loadUInt n = .ok (v, rest)) :
    ∃ bits : Bits, n = (bits.length : Nat) ∧ v = bits.toNat ∧ s.Leaves bits [] rest := by
  obtain ⟨v, hv, h⟩ := (bind_eq_ok _ _ _).mp h
  obtain ⟨bits, hbits, hv⟩ := (bind_eq_ok _ _ _).mp hv
  cases h
  cases hv
  have hload : s.loadBits n = .ok (bits, s.advance n.toNat) := by
    rw [loadBits, hbits]
    rfl
  obtain ⟨hn, hleaves⟩ := leaves_of_loadBits hs n hload
  exact ⟨bits, hn, rfl, hleaves⟩

/-- A signed number is that of the bits at the front, as two's complement. -/
theorem leaves_of_loadInt {v : Int} (hs : s.Valid) (n : Int) (h : s.loadInt n = .ok (v, rest)) :
    ∃ bits : Bits, n = (bits.length : Nat) ∧ v = Bits.signed bits.length bits.toNat ∧
      s.Leaves bits [] rest := by
  obtain ⟨⟨u, s₁⟩, hload, h⟩ := (bind_eq_ok _ _ _).mp h
  obtain ⟨bits, hn, rfl, hleaves⟩ := leaves_of_loadUInt hs n hload
  cases h
  refine ⟨bits, hn, ?_, hleaves⟩
  rw [show n.toNat = bits.length by omega]

/-- A reference that was read was the first one. -/
theorem leaves_of_loadRef {c : Cell} (h : s.loadRef = .ok (c, rest)) : s.Leaves [] [c] rest := by
  have hrefs := (refs_of_loadRef h).1
  obtain ⟨c', -, h⟩ := (bind_eq_ok _ _ _).mp h
  cases h
  exact ⟨rfl, hrefs, rfl⟩

/-! ## Reads that fail -/

variable {n : Int} {e : CellError}

/-- Bits are refused only when too many are asked for. -/
theorem requireBits_eq_error (h : s.requireBits n = .error e) : e.kind = .underflow := by
  unfold requireBits at h
  split at h
  · cases h
    rfl
  · cases h

/-- A look at the bits in front fails only past the end. -/
theorem preloadBits_eq_error (h : s.preloadBits n = .error e) : e.kind = .underflow := by
  rcases (bind_eq_error _ _ _).mp h with h | ⟨_, _, h⟩
  · exact requireBits_eq_error h
  · cases h

theorem loadBits_eq_error (h : s.loadBits n = .error e) : e.kind = .underflow := by
  rcases (bind_eq_error _ _ _).mp h with h | ⟨_, _, h⟩
  · exact preloadBits_eq_error h
  · cases h

theorem loadBit_eq_error (h : s.loadBit = .error e) : e.kind = .underflow := by
  rcases (bind_eq_error _ _ _).mp h with h | ⟨_, _, h⟩
  · exact loadBits_eq_error h
  · cases h

theorem loadUInt_eq_error (h : s.loadUInt n = .error e) : e.kind = .underflow := by
  rcases (bind_eq_error _ _ _).mp h with h | ⟨_, _, h⟩
  · rcases (bind_eq_error _ _ _).mp h with h | ⟨_, _, h⟩
    · exact preloadBits_eq_error h
    · cases h
  · cases h

/-- A reference is refused only when it is not there. -/
theorem getReference_eq_error (h : s.getReference n = .error e) : e.kind = .underflow := by
  unfold getReference at h
  split at h
  · cases h
    rfl
  · unfold Cell.reference at h
    split at h
    · cases h
    · cases h
      rfl

end CellCode.Slice
