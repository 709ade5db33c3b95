import CellCode.Proofs.Dictionary.Tries
import Mathlib.Data.List.TakeWhile

/-!
# The forms of a label

A label may be written in three forms, and reading accepts all of them, whichever is shortest.
`Form m label bits` says that the bits are the label in one of its forms, with `m` key bits left.
Reading a label takes exactly such bits, so no bits from which a label can be read are fewer than
those in which `Label.encode` writes it.

## Key results

* `load_forms`        what reading a label takes is the label in one of its forms
* `encode_shortest`   a label is read back, and nothing shorter is read as this label
-/

namespace CellCode.Label

variable {s rest : Slice} {label front : Bits} {m n : Nat}

/-- The bits are the label in one of its forms, with `m` key bits left. -/
inductive Form (m : Nat) (label : Bits) : Bits → Prop
  | short : Form m label (short label)
  | long : Form m label (long label m)
  | same (bit : Bool) (repeats : label = List.replicate label.length bit) :
      Form m label (true :: true :: bit :: lengthField m label.length)

/-! ## What reading takes -/

/-- Counting ones takes them and the zero behind them. -/
private theorem leaves_of_loadUnary (hs : s.Valid) (h : loadUnary s = .ok (n, rest)) :
    s.Leaves (List.replicate n true ++ [false]) [] rest := by
  obtain ⟨⟨bit, s'⟩, hbit, h⟩ := (bind_eq_ok _ _ _).mp h
  cases h
  have hones : s.data.takeWhile id = List.replicate (s.data.takeWhile id).length true :=
    List.eq_replicate_of_mem fun b hb => List.mem_takeWhile_imp hb
  have hsplit : s.data.takeWhile id ++ s.data.dropWhile id = s.data :=
    List.takeWhile_append_dropWhile
  have hshows : s.Shows (s.data.takeWhile id ++ s.data.dropWhile id) s.refs := by
    rw [hsplit]
    exact hs.shows
  have hleaves : s.Leaves (s.data.takeWhile id) [] (s.advance (s.data.takeWhile id).length) :=
    ⟨by rw [hshows.advance.data_eq, hsplit], rfl, rfl⟩
  have hzero := Slice.leaves_of_loadBit hshows.advance.valid hbit
  -- The ones end where a bit is no one.
  have hfalse : bit = false := by
    have hhead := hzero.data_eq
    rw [hshows.advance.data_eq, List.singleton_append] at hhead
    simpa [hhead] using List.head_dropWhile_not id (l := s.data) (by simp [hhead])
  rw [← hones, ← hfalse]
  exact hleaves.trans hzero

/-- A length in range was read from the field that holds it. -/
private theorem leaves_of_length (hs : s.Valid) (h : s.loadUInt (lengthWidth m) = .ok (n, rest))
    (hle : n ≤ m) : s.Leaves (lengthField m n) [] rest := by
  obtain ⟨bits, hwidth, hvalue, hleaves⟩ := Slice.leaves_of_loadUInt hs _ h
  obtain ⟨hwidth', hvalue'⟩ := lengthField_holds m n hle
  have hbits : bits = lengthField m n := Bits.eq_of_toNat_eq _ _ (by omega) (by omega)
  rwa [← hbits]

/-- What reading a label takes is the label in one of its forms. -/
theorem load_forms (hs : s.Valid) (h : load s m = .ok (label, rest)) :
    ∃ front, Form m label front ∧ s.Leaves front [] rest := by
  obtain ⟨⟨first, s₁⟩, hfirst, h⟩ := (bind_eq_ok _ _ _).mp h
  have hleaves₁ := Slice.leaves_of_loadBit hs hfirst
  have hs₁ := hleaves₁.valid hs
  -- The first bits tell the forms apart.
  cases first with
  | false =>
    obtain ⟨⟨n, s₂⟩, hcount, h⟩ := (bind_eq_ok _ _ _).mp h
    obtain ⟨_, _, h⟩ := (bind_eq_ok _ _ _).mp h
    have hleaves₂ := leaves_of_loadUnary hs₁ hcount
    obtain ⟨hn, hleaves₃⟩ := Slice.leaves_of_loadBits (hleaves₂.valid hs₁) n h
    obtain rfl := Int.ofNat_inj.mp hn
    refine ⟨_, .short, ?_⟩
    simpa [short] using hleaves₁.trans (hleaves₂.trans hleaves₃)
  | true =>
    obtain ⟨⟨second, s₂⟩, hsecond, h⟩ := (bind_eq_ok _ _ _).mp h
    have hleaves₂ := Slice.leaves_of_loadBit hs₁ hsecond
    have hs₂ := hleaves₂.valid hs₁
    cases second with
    | false =>
      obtain ⟨⟨n, s₃⟩, hlength, h⟩ := (bind_eq_ok _ _ _).mp h
      obtain ⟨_, hcheck, h⟩ := (bind_eq_ok _ _ _).mp h
      have hle := Int.ofNat_le.mp (le_of_checkLength hcheck)
      have hleaves₃ := leaves_of_length hs₂ hlength hle
      obtain ⟨hn, hleaves₄⟩ := Slice.leaves_of_loadBits (hleaves₃.valid hs₂) n h
      obtain rfl := Int.ofNat_inj.mp hn
      refine ⟨_, .long, ?_⟩
      simpa [long] using hleaves₁.trans (hleaves₂.trans (hleaves₃.trans hleaves₄))
    | true =>
      obtain ⟨⟨bit, s₃⟩, hbit, h⟩ := (bind_eq_ok _ _ _).mp h
      obtain ⟨⟨n, s₄⟩, hlength, h⟩ := (bind_eq_ok _ _ _).mp h
      obtain ⟨_, hcheck, h⟩ := (bind_eq_ok _ _ _).mp h
      cases h
      have hle := Int.ofNat_le.mp (le_of_checkLength hcheck)
      have hleaves₃ := Slice.leaves_of_loadBit hs₂ hbit
      have hleaves₄ := leaves_of_length (hleaves₃.valid hs₂) hlength hle
      refine ⟨_, .same bit (by rw [List.length_replicate]), ?_⟩
      simpa using hleaves₁.trans (hleaves₂.trans (hleaves₃.trans hleaves₄))

/-! ## The shortest form -/

private theorem length_shorter (a b : Bits) :
    (shorter a b).length = min a.length b.length := by
  unfold shorter
  split <;> omega

private theorem length_encode_le_short (label : Bits) (m : Nat) :
    (encode label m).length ≤ (short label).length := by
  unfold encode
  cases same? label m <;> simp only [length_shorter] <;> omega

private theorem length_encode_le_long (label : Bits) (m : Nat) :
    (encode label m).length ≤ (long label m).length := by
  unfold encode
  cases same? label m <;> simp only [length_shorter] <;> omega

private theorem length_encode_le_same {bits : Bits} (h : same? label m = some bits) :
    (encode label m).length ≤ bits.length := by
  unfold encode
  rw [h]
  dsimp only
  rw [length_shorter]
  omega

/-- A label is not written in more bits than any of its forms has. -/
theorem Form.length_encode_le (h : Form m label front) :
    (encode label m).length ≤ front.length := by
  cases h with
  | short => exact length_encode_le_short label m
  | long => exact length_encode_le_long label m
  | same bit repeats =>
    cases label with
    | nil =>
      -- The short form of the empty label has two bits only.
      have hshort := length_encode_le_short [] m
      have : (Label.short []).length = 2 := rfl
      simp only [List.length_cons]
      omega
    | cons first others =>
      rw [List.length_cons, List.replicate_succ, List.cons.injEq] at repeats
      obtain ⟨rfl, hothers⟩ := repeats
      apply length_encode_le_same
      rw [same?, if_pos]
      rw [hothers]
      simp

/-- A label that is not longer than the key bits left is read from what was written, and what
    follows it is left. Whatever bits are read as this label, in any form, are no fewer than those
    that are written. -/
theorem encode_shortest (label : Bits) (m : Nat) (hle : label.length ≤ m) :
    (∀ (s : Slice) (more : Bits) (refs : List Cell), s.Shows (encode label m ++ more) refs →
      ∃ rest, load s m = .ok (label, rest) ∧ rest.Shows more refs) ∧
    ∀ s rest : Slice, s.Valid → load s m = .ok (label, rest) →
      (encode label m).length + rest.data.length ≤ s.data.length := by
  refine ⟨fun s more refs => load_encode label m hle, ?_⟩
  intro s rest hs hload
  obtain ⟨front, hform, hleaves⟩ := load_forms hs hload
  rw [hleaves.data_eq, List.length_append]
  exact Nat.add_le_add_right hform.length_encode_le _

/-- Three ones of at most five key bits take six bits in the same form, and eight in both others.
    They are read back in front of two more bits, and no bits that are read as three ones are
    fewer. -/
theorem encode_shortest_threeOnes :
    [true, true, true].length ≤ 5 ∧
      encode [true, true, true] (5 : Nat) = [true, true, true, false, true, true] ∧
      (∃ rest, load (Cell.mk (encode [true, true, true] (5 : Nat) ++ [false, true]) []).toSlice
          (5 : Nat) = .ok ([true, true, true], rest) ∧ rest.Shows [false, true] []) ∧
      load (Cell.mk (short [true, true, true]) []).toSlice (5 : Nat) =
        .ok ([true, true, true], ⟨.mk (short [true, true, true]) [], 8, 8, 0, 0⟩) ∧
      (encode [true, true, true] (5 : Nat)).length ≤ (short [true, true, true]).length := by
  have hle : [true, true, true].length ≤ 5 := by decide
  obtain ⟨hread, hleast⟩ := encode_shortest [true, true, true] 5 hle
  have hshows := Slice.shows_toSlice
    (.mk (encode [true, true, true] (5 : Nat) ++ [false, true]) [])
  rw [Cell.bits_mk, Cell.refs_mk] at hshows
  have hload : load (Cell.mk (short [true, true, true]) []).toSlice (5 : Nat) =
      .ok ([true, true, true], ⟨.mk (short [true, true, true]) [], 8, 8, 0, 0⟩) := by
    decide +kernel
  have hlength := hleast _ _ (Slice.valid_toSlice _) hload
  rw [Slice.data_toSlice, Cell.bits_mk] at hlength
  exact ⟨hle, by decide +kernel, hread _ _ _ hshows, hload, hlength⟩

end CellCode.Label
