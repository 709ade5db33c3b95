import CellCode.Dictionary.Label
import CellCode.Proofs.Cell.Reading

/-!
# Labels are read back

A label that is not longer than the key bits left is read as it was written, in whichever of the
three forms that was, and nothing of what stands behind it is touched. A label that was read,
whoever wrote it, is not longer than the key bits left. Where none can be read, the cell ends too
early or a label is longer than that.
-/

namespace CellCode.Label

-- Powers are those of the standard library, whatever else is in scope.
attribute [local instance (high)] instPowNat

variable {s : Slice} {more : Bits} {refs : List Cell}

/-- The field of a label's length holds every length up to the key bits left. -/
theorem lengthField_holds (m n : Nat) (h : n ≤ m) :
    (lengthField m n).length = lengthWidth m ∧ (lengthField m n).toNat = n := by
  by_cases hm : m = 0
  · subst hm
    obtain rfl := Nat.le_zero.mp h
    exact ⟨rfl, rfl⟩
  · -- Numbers up to the key bits left have no more digits than these.
    have hwidth : lengthWidth m = m.log2 + 1 := by
      simp [lengthWidth, digitCount, hm]
    have hmax : max (m.log2 + 1) (digitCount n) = m.log2 + 1 := by
      apply Nat.max_eq_left
      unfold digitCount
      split
      · omega
      · rename_i hn
        exact (Nat.log2_lt hn).mpr (Nat.lt_of_le_of_lt h Nat.lt_log2_self)
    have hfield : lengthField m n = Bits.ofNat (m.log2 + 1) n := by
      rw [lengthField, hwidth, if_neg (by omega), atLeast, hmax]
    rw [hfield, hwidth, Bits.length_ofNat, Bits.toNat_ofNat]
    refine ⟨rfl, Nat.mod_eq_of_lt ?_⟩
    exact Nat.lt_of_le_of_lt h Nat.lt_log2_self

/-- Ones up to a zero are counted. -/
private theorem loadUnary_shows (n : Nat)
    (h : s.Shows (List.replicate n true ++ false :: more) refs) :
    ∃ rest, loadUnary s = .ok (n, rest) ∧ rest.Shows more refs := by
  have hones : (s.data.takeWhile id).length = n := by
    rw [h.data_eq, List.takeWhile_append_of_pos (by simp), List.takeWhile_cons_of_neg (by simp),
      List.append_nil, List.length_replicate]
  have hadvance := h.advance
  rw [List.length_replicate] at hadvance
  obtain ⟨rest, hbit, hrest⟩ := hadvance.loadBit
  refine ⟨rest, ?_, hrest⟩
  rw [loadUnary, hones, hbit]
  rfl

/-- A length that is not too long passes. -/
private theorem checkLength_of_le (form : LabelForm) (n m : Nat) (h : n ≤ m) :
    checkLength form n m = .ok () := by
  rw [checkLength, if_neg (by omega)]

/-- The short form is read back: a zero, the length in ones, and the label. -/
private theorem load_short (label : Bits) (m : Nat) (hle : label.length ≤ m)
    (h : s.Shows (short label ++ more) refs) :
    ∃ rest, load s m = .ok (label, rest) ∧ rest.Shows more refs := by
  simp only [short, List.cons_append, List.append_assoc] at h
  obtain ⟨s₁, hfirst, h₁⟩ := h.loadBit
  obtain ⟨s₂, hcount, h₂⟩ := loadUnary_shows label.length h₁
  obtain ⟨rest, hlabel, hrest⟩ := h₂.loadBits label.length rfl
  refine ⟨rest, ?_, hrest⟩
  refine (bind_eq_ok _ _ _).mpr ⟨_, hfirst, ?_⟩
  refine (bind_eq_ok _ _ _).mpr ⟨_, hcount, ?_⟩
  exact (bind_eq_ok _ _ _).mpr ⟨(), checkLength_of_le .short _ m hle, hlabel⟩

/-- The long form is read back: its length has a field of its own. -/
private theorem load_long (label : Bits) (m : Nat) (hle : label.length ≤ m)
    (h : s.Shows (long label m ++ more) refs) :
    ∃ rest, load s m = .ok (label, rest) ∧ rest.Shows more refs := by
  obtain ⟨hwidth, hcount⟩ := lengthField_holds m label.length hle
  simp only [long, List.cons_append, List.append_assoc] at h
  obtain ⟨s₁, hfirst, h₁⟩ := h.loadBit
  obtain ⟨s₂, hsecond, h₂⟩ := h₁.loadBit
  obtain ⟨s₃, hlength, h₃⟩ := h₂.loadUInt (lengthWidth m) (by rw [hwidth])
  obtain ⟨rest, hlabel, hrest⟩ := h₃.loadBits label.length rfl
  rw [hcount] at hlength
  refine ⟨rest, ?_, hrest⟩
  refine (bind_eq_ok _ _ _).mpr ⟨_, hfirst, ?_⟩
  refine (bind_eq_ok _ _ _).mpr ⟨_, hsecond, ?_⟩
  refine (bind_eq_ok _ _ _).mpr ⟨_, hlength, ?_⟩
  exact (bind_eq_ok _ _ _).mpr ⟨(), checkLength_of_le .long _ m hle, hlabel⟩

/-- The form for equal bits is read back: the bit, and how often it stands there. -/
private theorem load_same (label same : Bits) (m : Nat) (hle : label.length ≤ m)
    (hsame : same? label m = some same) (h : s.Shows (same ++ more) refs) :
    ∃ rest, load s m = .ok (label, rest) ∧ rest.Shows more refs := by
  obtain ⟨hwidth, hcount⟩ := lengthField_holds m label.length hle
  -- The label repeats its first bit.
  obtain ⟨bit, hlabel, rfl⟩ : ∃ bit, label = List.replicate label.length bit ∧
      same = true :: true :: bit :: lengthField m label.length := by
    cases label with
    | nil => cases hsame
    | cons bit rest =>
      simp only [same?] at hsame
      split at hsame
      · rename_i hall
        cases hsame
        refine ⟨bit, ?_, rfl⟩
        have hrest : rest = List.replicate rest.length bit :=
          List.eq_replicate_of_mem fun b hb => eq_of_beq (List.all_eq_true.mp hall b hb)
        rw [List.length_cons, List.replicate_succ, ← hrest]
      · cases hsame
  simp only [List.cons_append] at h
  obtain ⟨s₁, hfirst, h₁⟩ := h.loadBit
  obtain ⟨s₂, hsecond, h₂⟩ := h₁.loadBit
  obtain ⟨s₃, hthird, h₃⟩ := h₂.loadBit
  obtain ⟨rest, hlength, hrest⟩ := h₃.loadUInt (lengthWidth m) (by rw [hwidth])
  rw [hcount] at hlength
  refine ⟨rest, ?_, hrest⟩
  refine (bind_eq_ok _ _ _).mpr ⟨_, hfirst, ?_⟩
  refine (bind_eq_ok _ _ _).mpr ⟨_, hsecond, ?_⟩
  refine (bind_eq_ok _ _ _).mpr ⟨_, hthird, ?_⟩
  refine (bind_eq_ok _ _ _).mpr ⟨_, hlength, ?_⟩
  refine (bind_eq_ok _ _ _).mpr ⟨(), checkLength_of_le .same _ m hle, ?_⟩
  rw [← hlabel]
  rfl

/-- A label is read back from where it was written. -/
theorem load_encode (label : Bits) (m : Nat) (hle : label.length ≤ m)
    (h : s.Shows (encode label m ++ more) refs) :
    ∃ rest, load s m = .ok (label, rest) ∧ rest.Shows more refs := by
  -- Without equal bits the shorter one of two forms was written.
  have hbest (h : s.Shows (shorter (short label) (long label m) ++ more) refs) :
      ∃ rest, load s m = .ok (label, rest) ∧ rest.Shows more refs := by
    unfold shorter at h
    split at h
    · exact load_long label m hle h
    · exact load_short label m hle h
  unfold encode at h
  cases hsame : same? label m with
  | none =>
    rw [hsame] at h
    exact hbest h
  | some same =>
    rw [hsame] at h
    dsimp only at h
    rw [shorter] at h
    split at h
    · exact load_same label same m hle hsame h
    · exact hbest h

/-! ## Labels of any origin -/

/-- What passed is not too long. -/
theorem le_of_checkLength {form : LabelForm} {n : Nat} {m : Int} {u : Unit}
    (h : checkLength form n m = .ok u) : (n : Int) ≤ m := by
  unfold checkLength at h
  split at h
  · cases h
  · omega

/-- Bits that were read are no more than were asked for. -/
private theorem length_le_of_loadBits {n : Nat} {m : Int} {label : Bits} {rest : Slice}
    (hle : (n : Int) ≤ m) (h : s.loadBits n = .ok (label, rest)) : (label.length : Int) ≤ m := by
  have := (Slice.loadBits_eq_ok h).1
  omega

/-- A label that was read, in any form, is not longer than the key bits left. -/
theorem length_le_of_load {m : Int} {label : Bits} {rest : Slice}
    (h : load s m = .ok (label, rest)) : (label.length : Int) ≤ m := by
  -- The first bits tell the form; in each form the length is checked before the label is taken.
  obtain ⟨⟨first, s₁⟩, _, h⟩ := (bind_eq_ok _ _ _).mp h
  cases first with
  | false =>
    obtain ⟨⟨n, s₂⟩, _, h⟩ := (bind_eq_ok _ _ _).mp h
    obtain ⟨_, hcheck, h⟩ := (bind_eq_ok _ _ _).mp h
    exact length_le_of_loadBits (le_of_checkLength hcheck) h
  | true =>
    obtain ⟨⟨second, s₂⟩, _, h⟩ := (bind_eq_ok _ _ _).mp h
    cases second with
    | false =>
      obtain ⟨⟨n, s₃⟩, _, h⟩ := (bind_eq_ok _ _ _).mp h
      obtain ⟨_, hcheck, h⟩ := (bind_eq_ok _ _ _).mp h
      exact length_le_of_loadBits (le_of_checkLength hcheck) h
    | true =>
      obtain ⟨⟨bit, s₃⟩, _, h⟩ := (bind_eq_ok _ _ _).mp h
      obtain ⟨⟨n, s₄⟩, _, h⟩ := (bind_eq_ok _ _ _).mp h
      obtain ⟨_, hcheck, h⟩ := (bind_eq_ok _ _ _).mp h
      cases h
      have := le_of_checkLength hcheck
      simpa using this

/-! ## Labels that cannot be read -/

/-- A read past the end of a cell, or a label longer than the key bits left. -/
def Unreadable (e : CellError) : Prop :=
  e.kind = .underflow ∨ ∃ form n m, e = .labelTooLong form n m

variable {e : CellError} {m : Int}

/-- A length is checked and then read on with. -/
private theorem checkLength_bind_eq_error {α : Type} {form : LabelForm} {n : Nat}
    {f : Unit → Except CellError α} (hf : f () = .error e → Unreadable e)
    (h : (checkLength form n m >>= f) = .error e) : Unreadable e := by
  unfold checkLength at h
  split at h
  · cases h
    exact .inr ⟨form, n, m, rfl⟩
  · exact hf h

/-- A label that cannot be read ends too early or is too long. -/
theorem load_eq_error (h : load s m = .error e) : Unreadable e := by
  have hlabel {s : Slice} {n : Nat} (h : s.loadBits n = .error e) : Unreadable e :=
    .inl (Slice.loadBits_eq_error h)
  rcases (bind_eq_error _ _ _).mp h with h | ⟨⟨first, s₁⟩, _, h⟩
  · exact .inl (Slice.loadBit_eq_error h)
  -- In every form a field cannot be read, the label is too long, or its bits are missing.
  cases first with
  | false =>
    rcases (bind_eq_error _ _ _).mp h with h | ⟨⟨n, s₂⟩, _, h⟩
    · rcases (bind_eq_error _ _ _).mp h with h | ⟨_, _, h⟩
      · exact .inl (Slice.loadBit_eq_error h)
      · cases h
    · exact checkLength_bind_eq_error hlabel h
  | true =>
    rcases (bind_eq_error _ _ _).mp h with h | ⟨⟨second, s₂⟩, _, h⟩
    · exact .inl (Slice.loadBit_eq_error h)
    cases second with
    | false =>
      rcases (bind_eq_error _ _ _).mp h with h | ⟨⟨n, s₃⟩, _, h⟩
      · exact .inl (Slice.loadUInt_eq_error h)
      · exact checkLength_bind_eq_error hlabel h
    | true =>
      rcases (bind_eq_error _ _ _).mp h with h | ⟨⟨bit, s₃⟩, _, h⟩
      · exact .inl (Slice.loadBit_eq_error h)
      rcases (bind_eq_error _ _ _).mp h with h | ⟨⟨n, s₄⟩, _, h⟩
      · exact .inl (Slice.loadUInt_eq_error h)
      · exact checkLength_bind_eq_error (fun h => by cases h) h

end CellCode.Label
