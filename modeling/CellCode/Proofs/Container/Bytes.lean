import CellCode.Container.Reader

/-!
# Numbers and bits in bytes

A number is read back from the bytes it was written in, in either order of bytes, if it fits
their number. Bits are read back from whole bytes; a string that does not fill its last byte is
closed by a tag, and the tag is taken off again.

## Key results

- `ofBigEndian_bigEndian`, `ofLittleEndian_littleEndian`: numbers are read back
- `lt_pow_byteWidth`, `byteWidth_le`: the least number of bytes for a number
- `Bits.ofBytes_toBytes`: bits are read back from whole bytes
- `Bits.length_toTaggedBytes`: how many bytes the bits of a cell take
-/

namespace CellCode

-- Powers are those of the standard library, whatever else is in scope.
attribute [local instance (high)] instPowNat

namespace Container

/-! ## Numbers -/

/-- A number in a given width takes that many bytes. -/
@[simp] theorem length_bigEndian (width n : Nat) : (bigEndian width n).length = width := by
  induction width with
  | zero => rfl
  | succ width ih => rw [bigEndian, List.length_cons, ih]

/-- In either order. -/
@[simp] theorem length_littleEndian (width n : Nat) : (littleEndian width n).length = width := by
  induction width generalizing n with
  | zero => rfl
  | succ width ih => rw [littleEndian, List.length_cons, ih]

/-- The first byte counts as often as the others can tell apart. -/
theorem ofBigEndian_cons (b : UInt8) (bytes : List UInt8) :
    ofBigEndian (b :: bytes) = b.toNat * 256 ^ bytes.length + ofBigEndian bytes := by
  -- The bytes after the first are added to what came before, moved up by all of them.
  have hfold (n : Nat) : bytes.foldl (fun n b => 256 * n + b.toNat) n =
      n * 256 ^ bytes.length + bytes.foldl (fun n b => 256 * n + b.toNat) 0 := by
    induction bytes generalizing n with
    | nil => simp
    | cons c bytes ih =>
      simp only [List.foldl_cons, List.length_cons, Nat.pow_succ]
      rw [ih (256 * n + c.toNat), ih (256 * 0 + c.toNat), Nat.add_mul, Nat.mul_zero, Nat.zero_add,
        Nat.add_assoc, Nat.mul_comm 256 n, Nat.mul_assoc, Nat.mul_comm 256]
  simp only [ofBigEndian, List.foldl_cons, Nat.mul_zero, Nat.zero_add]
  exact hfold b.toNat

theorem ofBigEndian_concat (bytes : List UInt8) (b : UInt8) :
    ofBigEndian (bytes ++ [b]) = 256 * ofBigEndian bytes + b.toNat := by
  simp [ofBigEndian]

/-- A number that fits the bytes is read back, the largest byte first. -/
theorem ofBigEndian_bigEndian (width n : Nat) (h : n < 256 ^ width) :
    ofBigEndian (bigEndian width n) = n := by
  -- Without the bound the number is read as far as its bytes go.
  have hmod : ofBigEndian (bigEndian width n) = n % 256 ^ width := by
    clear h
    induction width with
    | zero => simp [bigEndian, ofBigEndian, Nat.mod_one]
    | succ width ih =>
      rw [bigEndian, ofBigEndian_cons, length_bigEndian, ih, UInt8.toNat_ofNat',
        Nat.pow_succ 256 width, Nat.mod_mul (a := 256 ^ width),
        Nat.mul_comm (n / 256 ^ width % 2 ^ 8), Nat.add_comm]
  rw [hmod, Nat.mod_eq_of_lt h]

/-- A number that fits the bytes is read back, the smallest byte first. -/
theorem ofLittleEndian_littleEndian (width n : Nat) (h : n < 256 ^ width) :
    ofLittleEndian (littleEndian width n) = n := by
  -- Induction on the width; the rest is the number without its smallest byte.
  induction width generalizing n with
  | zero =>
    rw [Nat.pow_zero] at h
    simp [littleEndian, ofLittleEndian, ofBigEndian]
    omega
  | succ width ih =>
    have hrest := ih (n / 256) (by rw [Nat.pow_succ] at h; omega)
    rw [ofLittleEndian] at hrest
    rw [littleEndian, ofLittleEndian, List.reverse_cons, ofBigEndian_concat, hrest,
      UInt8.toNat_ofNat']
    omega

/-! ## The least number of bytes -/

theorem one_le_byteWidth (n : Nat) : 1 ≤ byteWidth n := by
  rw [byteWidth]
  split <;> omega

/-- A number fits the bytes it takes. -/
theorem lt_pow_byteWidth (n : Nat) : n < 256 ^ byteWidth n := by
  induction n using Nat.strongRecOn with
  | ind n ih =>
    rw [byteWidth]
    split
    · omega
    · have := ih (n / 256) (by omega)
      rw [Nat.pow_succ]
      omega

/-- And it takes no more than any width it fits. -/
theorem byteWidth_le (n width : Nat) (hwidth : 1 ≤ width) (h : n < 256 ^ width) :
    byteWidth n ≤ width := by
  induction width generalizing n with
  | zero => omega
  | succ width ih =>
    rw [byteWidth]
    split
    · omega
    · rename_i hlarge
      have hpow : n / 256 < 256 ^ width := by
        rw [Nat.pow_succ] at h
        omega
      have hone : 1 ≤ width := by
        apply Nat.pos_of_ne_zero
        intro hzero
        rw [hzero, Nat.pow_zero] at hpow
        omega
      have := ih (n / 256) hone hpow
      omega

end Container

/-! ## Bits in bytes -/

namespace Bits

/-- Eight bits are read back from their byte. -/
theorem ofByte_ofNat_toNat (bits : Bits) (h : bits.length = 8) :
    ofByte (UInt8.ofNat bits.toNat) = bits := by
  have hlt := toNat_lt bits
  rw [h] at hlt
  rw [ofByte, UInt8.toNat_ofNat', Nat.mod_eq_of_lt hlt, ← h, ofNat_toNat]

/-- Bits that do not start with a whole byte are fewer than eight. -/
private theorem length_lt_eight (bits : Bits)
    (h : ∀ a b c d e f g i rest, bits = a :: b :: c :: d :: e :: f :: g :: i :: rest → False) :
    bits.length < 8 := by
  match bits, h with
  | [], _ => simp
  | [_], _ => simp
  | [_, _], _ => simp
  | [_, _, _], _ => simp
  | [_, _, _, _], _ => simp
  | [_, _, _, _, _], _ => simp
  | [_, _, _, _, _, _], _ => simp
  | [_, _, _, _, _, _, _], _ => simp
  | _ :: _ :: _ :: _ :: _ :: _ :: _ :: _ :: _, h => exact (h _ _ _ _ _ _ _ _ _ rfl).elim

/-- Bits that fill whole bytes are read back from them. -/
theorem ofBytes_toBytes (bits : Bits) (h : bits.length % 8 = 0) :
    ofBytes (toBytes bits) = bits := by
  fun_induction toBytes bits with
  | case1 => rfl
  | case2 a b c d e f g i rest ih =>
    have hrest := ih (by simp only [List.length_cons] at h; omega)
    rw [ofBytes, List.flatMap_cons, ofByte_ofNat_toNat _ rfl]
    rw [ofBytes] at hrest
    rw [hrest]
    rfl
  | case3 tail hne hshort =>
    -- Fewer than eight bits fill whole bytes only if there are none.
    have hlt := length_lt_eight tail hshort
    have hzero : tail.length = 0 := by omega
    exact absurd (List.length_eq_zero_iff.mp hzero) hne

/-- Whole bytes are taken, the last one perhaps in part. -/
theorem length_toBytes (bits : Bits) : (toBytes bits).length = (bits.length + 7) / 8 := by
  fun_induction toBytes bits with
  | case1 => rfl
  | case2 a b c d e f g i rest ih =>
    simp only [List.length_cons, ih]
    omega
  | case3 tail hne hshort =>
    have hlt := length_lt_eight tail hshort
    have hpos : 0 < tail.length := List.length_pos_iff.mpr hne
    rw [List.length_singleton]
    omega

/-! ## Tagged bits -/

/-- Filled up with a tag, the bits take whole bytes, and as many as before. -/
theorem length_fill (bits : Bits) :
    (bits.fill 8).length % 8 = 0 ∧ (bits.fill 8).length / 8 = (bits.length + 7) / 8 := by
  rw [fill]
  split
  · omega
  · rw [tag, List.length_append, List.length_cons, List.length_replicate]
    omega

/-- So what is read back is the bits with their tag. -/
theorem ofBytes_toTaggedBytes (bits : Bits) : ofBytes bits.toTaggedBytes = bits.fill 8 :=
  ofBytes_toBytes _ (length_fill bits).1

/-- The tag takes no further byte. -/
theorem length_toTaggedBytes (bits : Bits) : bits.toTaggedBytes.length = (bits.length + 7) / 8 := by
  have h := length_fill bits
  rw [toTaggedBytes, length_toBytes]
  omega

/-- Taking the tag off takes off a bit at least. -/
theorem length_of_untag? (bits rest : Bits) (h : bits.untag? = some rest) :
    rest.length < bits.length := by
  have hle := (List.dropWhile_suffix (!·) (l := bits.reverse)).length_le
  rw [untag?] at h
  split at h
  · cases h
  · rename_i bit tail hdrop
    cases h
    rw [hdrop] at hle
    simp at hle ⊢
    omega

end Bits

end CellCode
