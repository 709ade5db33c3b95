import CellCode.Checksum
import CellCode.Proofs.Container.Bytes
import Mathlib.Data.Nat.Bitwise

/-!
# Checksums by the table and bit by bit

A shift of the remainder is linear in exclusive or, and it can be undone, since the highest bit
of the polynomial is set. So a whole byte is eight shifts, of which the table holds those of the
low byte; and up to four bytes, read as one little-endian number, can be added to the remainder at
once before it is shifted. Two messages that differ in such a piece and nowhere else leave different
remainders there, and what follows keeps them apart.

The same linearity takes a byte apart again: instead of being added at once before eight shifts, its
bits may be fed to the remainder one at a time, the least significant first.

## Key results

- `shift_xor`, `eq_zero_of_shift`: a shift is linear and can be undone
- `tableStep_eq`: a step by the table is eight shifts
- `crc32c_serial`: the checksum by the table is the one that takes the message bit by bit
- `foldl_window`: up to four bytes are one number
- `crc32c_ne_of_window`: messages that differ in up to four bytes in a row have different checksums
-/

namespace CellCode.Checksum

open Container (ofBigEndian ofBigEndian_concat ofLittleEndian)

-- Powers are those of the standard library, whatever else is in scope.
attribute [local instance (high)] instPowNat

/-! ## Single shifts -/

theorem low_bit (c : UInt32) : c &&& 1 = 1 ↔ c.toNat % 2 = 1 := by
  rw [← UInt32.toNat_inj, UInt32.toNat_and]
  show c.toNat &&& 1 = 1 ↔ _
  rw [Nat.and_one_is_mod]

/-- What a shift takes away when a one drops out. -/
theorem shift_eq (c : UInt32) :
    shift c = (c >>> 1) ^^^ (if c.toNat % 2 = 1 then polynomial else 0) := by
  simp only [shift, low_bit]
  split <;> simp

theorem shift_xor (a b : UInt32) : shift (a ^^^ b) = shift a ^^^ shift b := by
  -- A one drops out of the sum when it drops out of just one of both.
  have hparity : (a ^^^ b).toNat % 2 = (a.toNat + b.toNat) % 2 := by
    rw [UInt32.toNat_xor, Nat.xor_mod_two_eq]
  rw [shift_eq, shift_eq a, shift_eq b, UInt32.shiftRight_xor]
  by_cases ha : a.toNat % 2 = 1
  · by_cases hb : b.toNat % 2 = 1
    · -- The polynomial is taken away twice, which is not at all.
      rw [if_neg (by omega), if_pos ha, if_pos hb, UInt32.xor_zero,
        UInt32.xor_comm (b >>> 1), UInt32.xor_assoc, ← UInt32.xor_assoc polynomial,
        UInt32.xor_self, UInt32.zero_xor]
    · rw [if_pos (by omega), if_pos ha, if_neg hb, UInt32.xor_zero,
        UInt32.xor_assoc, UInt32.xor_comm (b >>> 1), ← UInt32.xor_assoc]
  · by_cases hb : b.toNat % 2 = 1
    · rw [if_pos (by omega), if_neg ha, if_pos hb, UInt32.xor_zero,
        UInt32.xor_assoc]
    · rw [if_neg (by omega), if_neg ha, if_neg hb, UInt32.xor_zero,
        UInt32.xor_zero, UInt32.xor_zero]

/-- A remainder with the lowest bit clear is halved. -/
theorem toNat_shift (c : UInt32) (h : c.toNat % 2 = 0) : (shift c).toNat = c.toNat / 2 := by
  rw [shift_eq, if_neg (by omega), UInt32.xor_zero, UInt32.toNat_shiftRight]
  show c.toNat >>> 1 = _
  rw [Nat.shiftRight_eq_div_pow, Nat.pow_one]

/-- Only nothing is shifted to nothing: the highest bit of the polynomial shows whether it was
    taken away. -/
theorem eq_zero_of_shift (c : UInt32) (h : shift c = 0) : c = 0 := by
  have hlt := c.toNat_lt
  have hhalf : (c >>> 1).toNat = c.toNat / 2 := by
    rw [UInt32.toNat_shiftRight]
    show c.toNat >>> 1 = _
    rw [Nat.shiftRight_eq_div_pow, Nat.pow_one]
  by_cases hodd : c.toNat % 2 = 1
  · -- Half of a remainder is never as large as the polynomial.
    rw [shift_eq, if_pos hodd, UInt32.xor_eq_zero_iff] at h
    have hpolynomial : polynomial.toNat = 0x82F63B78 := rfl
    rw [h] at hhalf
    omega
  · have hzero := toNat_shift c (by omega)
    rw [h, UInt32.toNat_zero] at hzero
    apply UInt32.toNat_inj.mp
    rw [UInt32.toNat_zero]
    omega

/-! ## Several shifts -/

theorem shifts_add (m n : Nat) (c : UInt32) : shifts (m + n) c = shifts n (shifts m c) := by
  induction m generalizing c with
  | zero => rw [Nat.zero_add, shifts]
  | succ m ih => rw [Nat.succ_add, shifts, ih, shifts]

theorem shifts_xor (n : Nat) (a b : UInt32) : shifts n (a ^^^ b) = shifts n a ^^^ shifts n b := by
  induction n generalizing a b with
  | zero => rfl
  | succ n ih => rw [shifts, shift_xor, ih, shifts, shifts]

/-- Shifts can be undone. -/
theorem shifts_inj (n : Nat) (a b : UInt32) : shifts n a = shifts n b ↔ a = b := by
  have hzero (c : UInt32) (h : shifts n c = 0) : c = 0 := by
    induction n generalizing c with
    | zero => exact h
    | succ n ih => exact eq_zero_of_shift c (ih (shift c) h)
  constructor
  · intro h
    rw [← UInt32.xor_eq_zero_iff] at h ⊢
    rw [← shifts_xor] at h
    exact hzero _ h
  · rintro rfl
    rfl

/-- Where no one drops out, shifts divide. -/
theorem toNat_shifts (n : Nat) (c : UInt32) (h : c.toNat % 2 ^ n = 0) :
    (shifts n c).toNat = c.toNat / 2 ^ n := by
  induction n generalizing c with
  | zero => rw [shifts, Nat.pow_zero, Nat.div_one]
  | succ n ih =>
    rw [Nat.pow_succ', Nat.mod_mul] at h
    have hshift := toNat_shift c (by omega)
    have hpow := Nat.pow_pos (n := n) (show 0 < 2 by omega)
    rw [shifts, ih _ (by rw [hshift]; omega), hshift, Nat.div_div_eq_div_mul, Nat.pow_succ']

/-- A number moved up comes down again. -/
theorem shifts_ofNat (n m : Nat) (h : 2 ^ n * m < 2 ^ 32) :
    shifts n (UInt32.ofNat (2 ^ n * m)) = UInt32.ofNat m := by
  have hle : m ≤ 2 ^ n * m := Nat.le_mul_of_pos_left m (Nat.two_pow_pos n)
  have hup : (UInt32.ofNat (2 ^ n * m)).toNat = 2 ^ n * m := by
    rw [UInt32.toNat_ofNat', Nat.mod_eq_of_lt h]
  apply UInt32.toNat_inj.mp
  rw [toNat_shifts _ _ (by rw [hup, Nat.mul_mod_right]), hup,
    Nat.mul_div_cancel_left m (Nat.two_pow_pos n), UInt32.toNat_ofNat', Nat.mod_eq_of_lt (by omega)]

/-! ## Whole bytes -/

/-- The low bits and the rest of a number do not meet. -/
theorem xor_two_pow_mul (k b n : Nat) (h : b < 2 ^ k) : b ^^^ (2 ^ k * n) = b + 2 ^ k * n := by
  have hmod : (b ^^^ (2 ^ k * n)) % 2 ^ k = b := by
    rw [Nat.xor_mod_two_pow, Nat.mul_mod_right, Nat.xor_zero, Nat.mod_eq_of_lt h]
  have hdiv : (b ^^^ (2 ^ k * n)) / 2 ^ k = n := by
    rw [Nat.xor_div_two_pow, Nat.mul_div_cancel_left n (by omega), Nat.div_eq_of_lt h,
      Nat.zero_xor]
  have hparts := Nat.mod_add_div (b ^^^ (2 ^ k * n)) (2 ^ k)
  rw [hmod, hdiv] at hparts
  exact hparts.symm

theorem toNat_low (c : UInt32) : (c &&& (0xFF : UInt32)).toNat = c.toNat % 256 := by
  rw [UInt32.toNat_and]
  exact Nat.and_two_pow_sub_one_eq_mod c.toNat 8

theorem toNat_high (c : UInt32) : (c >>> 8).toNat = c.toNat / 256 := by
  rw [UInt32.toNat_shiftRight]
  exact Nat.shiftRight_eq_div_pow c.toNat 8

/-- Eight shifts are those of the low byte, and the rest moved down. -/
theorem shifts_eight (c : UInt32) : shifts 8 c = shifts 8 (c &&& 0xFF) ^^^ (c >>> 8) := by
  have hlow := toNat_low c
  have hhigh := toNat_high c
  have hlt := c.toNat_lt
  -- The rest, in its place above the low byte.
  have hrest : ((c >>> 8) <<< 8).toNat = 256 * (c.toNat / 256) := by
    rw [UInt32.toNat_shiftLeft, hhigh]
    show (c.toNat / 256) <<< 8 % 2 ^ 32 = _
    rw [Nat.shiftLeft_eq]
    omega
  have hsplit : c = (c &&& (0xFF : UInt32)) ^^^ ((c >>> 8) <<< 8) := by
    apply UInt32.toNat_inj.mp
    rw [UInt32.toNat_xor, hlow, hrest, xor_two_pow_mul 8 _ _ (by omega)]
    omega
  have hmoved : shifts 8 ((c >>> 8) <<< 8) = c >>> 8 := by
    apply UInt32.toNat_inj.mp
    have hshifts := toNat_shifts 8 ((c >>> 8) <<< 8) (by rw [hrest]; omega)
    rw [hshifts, hrest, hhigh]
    omega
  rw [← hmoved, ← shifts_xor, ← hsplit]

/-- The table has eight shifts of every byte. -/
theorem table_getD (n : Nat) (h : n < 256) : table.getD n 0 = shifts 8 (UInt32.ofNat n) := by
  rw [table, Array.getD, dif_pos (by simpa using h), Array.getInternal_eq_getElem,
    Array.getElem_ofFn]

/-- A step by the table is eight shifts. -/
theorem tableStep_eq (c : UInt32) (b : UInt8) : tableStep c b = bitSerialStep c b := by
  have hbyte : b.toUInt32 >>> 8 = 0 := by
    apply UInt32.toNat_inj.mp
    rw [toNat_high, UInt8.toNat_toUInt32, UInt32.toNat_zero]
    have := b.toNat_lt
    omega
  have hlow := toNat_low (c ^^^ b.toUInt32)
  rw [bitSerialStep, shifts_eight, UInt32.shiftRight_xor, hbyte, UInt32.xor_zero, tableStep,
    table_getD _ (by omega), UInt32.ofNat_toNat]

/-- The checksum by the table is the checksum bit by bit, from any remainder on. -/
theorem foldl_tableStep (c : UInt32) (bytes : List UInt8) :
    bytes.foldl tableStep c = bytes.foldl bitSerialStep c := by
  congr 1
  funext c b
  exact tableStep_eq c b

/-! ## Single bits -/

/-- The bits of a message, byte after byte, each byte from its least significant bit on. -/
def serialBits (message : List UInt8) : Bits :=
  message.flatMap fun b => (List.range 8).map b.toNat.testBit

/-- The remainder after one more bit. It is shifted by one place, and the polynomial is taken away
    if the bit that drops out is not the bit of the message. -/
def feed (c : UInt32) (bit : Bool) : UInt32 :=
  if c.toNat.testBit 0 != bit then (c >>> 1) ^^^ 0x82F63B78 else c >>> 1

/-- A bit is fed by adding it before a shift. -/
theorem feed_eq (c : UInt32) (bit : Bool) :
    feed c bit = shift (c ^^^ UInt32.ofNat bit.toNat) := by
  rw [feed, Nat.testBit_zero]
  cases bit with
  | false =>
    show _ = shift (c ^^^ 0)
    rw [UInt32.xor_zero, shift_eq]
    by_cases h : c.toNat % 2 = 1 <;> simp [h, polynomial]
  | true =>
    -- The one that is added drops out, so the polynomial is taken away once more.
    have hone : shift (UInt32.ofNat true.toNat) = polynomial := rfl
    rw [shift_xor, hone, shift_eq]
    by_cases h : c.toNat % 2 = 1
    · rw [if_pos h, UInt32.xor_assoc, UInt32.xor_self, UInt32.xor_zero, if_neg (by simp [h])]
    · simp [h, polynomial]

/-- One more bit of a number is added to the lower ones in its own place. -/
theorem ofNat_mod_succ (x n : Nat) (h : n < 32) :
    UInt32.ofNat (x % 2 ^ (n + 1)) =
      UInt32.ofNat (x % 2 ^ n) ^^^ UInt32.ofNat (2 ^ n * (x.testBit n).toNat) := by
  have hlow : x % 2 ^ n < 2 ^ n := Nat.mod_lt _ (Nat.two_pow_pos n)
  have hsplit : x % 2 ^ (n + 1) = x % 2 ^ n + 2 ^ n * (x.testBit n).toNat := by
    rw [Nat.toNat_testBit, Nat.mod_pow_succ]
  have hall : x % 2 ^ (n + 1) < 2 ^ 32 :=
    Nat.lt_of_lt_of_le (Nat.mod_lt _ (Nat.two_pow_pos _)) (Nat.pow_le_pow_right (by omega) h)
  have hbelow : x % 2 ^ n < 2 ^ 32 := by omega
  have hplace : 2 ^ n * (x.testBit n).toNat < 2 ^ 32 := by omega
  apply UInt32.toNat_inj.mp
  rw [UInt32.toNat_xor, UInt32.toNat_ofNat_of_lt' hall, UInt32.toNat_ofNat_of_lt' hbelow,
    UInt32.toNat_ofNat_of_lt' hplace, xor_two_pow_mul n _ _ hlow, hsplit]

/-- The lowest bits of a number are fed one at a time. When it is a bit's turn, the shifts so far
    would have brought it to the lowest place, had all of them been added at once. -/
theorem foldl_feed (c : UInt32) (x n : Nat) (h : n ≤ 32) :
    ((List.range n).map x.testBit).foldl feed c = shifts n (c ^^^ UInt32.ofNat (x % 2 ^ n)) := by
  induction n with
  | zero =>
    rw [Nat.pow_zero, Nat.mod_one]
    exact (UInt32.xor_zero).symm
  | succ n ih =>
    have hplace : 2 ^ n * (x.testBit n).toNat < 2 ^ 32 := by
      have hpow : 2 ^ n ≤ 2 ^ 31 := Nat.pow_le_pow_right (by omega) (by omega)
      have := Nat.mul_le_mul_left (2 ^ n) (Bool.toNat_le (x.testBit n))
      omega
    rw [List.range_succ, List.map_append, List.foldl_append, ih (by omega), List.map_singleton,
      List.foldl_cons, List.foldl_nil, feed_eq, ofNat_mod_succ x n (by omega), ← UInt32.xor_assoc,
      shifts_add, shifts_xor n (c ^^^ _), shifts_ofNat n _ hplace]
    rfl

/-- A byte is fed bit by bit. -/
theorem foldl_serialBits (c : UInt32) (message : List UInt8) :
    (serialBits message).foldl feed c = message.foldl bitSerialStep c := by
  rw [serialBits, List.foldl_flatMap]
  congr 1
  funext c b
  have hbyte : UInt32.ofNat b.toNat = b.toUInt32 := by
    apply UInt32.toNat_inj.mp
    have := b.toNat_lt
    rw [UInt32.toNat_ofNat', UInt8.toNat_toUInt32, Nat.mod_eq_of_lt (by omega)]
  rw [foldl_feed c b.toNat 8 (by omega), bitSerialStep, Nat.mod_eq_of_lt b.toNat_lt, hbyte]

/-- The checksum by the table is CRC-32C. It is what eight shifts for each byte make of the message,
    and what comes of feeding the message bit by bit to a remainder of 32 ones, each byte from its
    least significant bit on, and turning all bits over at the end. -/
theorem crc32c_serial (message : List UInt8) :
    crc32c message = bitSerial message ∧
      bitSerial message = (serialBits message).foldl feed 0xFFFFFFFF ^^^ 0xFFFFFFFF := by
  refine ⟨?_, ?_⟩
  · rw [crc32c, foldl_tableStep, bitSerial]
  · rw [bitSerial, foldl_serialBits]

/-- The check value of the checksum. -/
example : crc32c "123456789".toUTF8.toList = 0xE3069283 := by decide +kernel

/-! ## Windows of up to four bytes -/

/-- The first byte counts once. -/
theorem ofLittleEndian_cons (b : UInt8) (bytes : List UInt8) :
    ofLittleEndian (b :: bytes) = b.toNat + 256 * ofLittleEndian bytes := by
  rw [ofLittleEndian, List.reverse_cons, ofBigEndian_concat, ofLittleEndian, Nat.add_comm]

theorem ofLittleEndian_lt (bytes : List UInt8) : ofLittleEndian bytes < 256 ^ bytes.length := by
  induction bytes with
  | nil => simp [ofLittleEndian, ofBigEndian]
  | cons b bytes ih =>
    have := b.toNat_lt
    rw [ofLittleEndian_cons, List.length_cons, Nat.pow_succ]
    omega

/-- Bytes can be told from the number they write, if it is known how many they are. -/
theorem ofLittleEndian_inj (bytes bytes' : List UInt8) (hlength : bytes.length = bytes'.length)
    (h : ofLittleEndian bytes = ofLittleEndian bytes') : bytes = bytes' := by
  induction bytes generalizing bytes' with
  | nil => exact (List.length_eq_zero_iff.mp hlength.symm).symm
  | cons b bytes ih =>
    cases bytes' with
    | nil => cases hlength
    | cons b' bytes' =>
      rw [ofLittleEndian_cons, ofLittleEndian_cons] at h
      have hb := b.toNat_lt
      have hb' := b'.toNat_lt
      have hfirst : b = b' := UInt8.toNat_inj.mp (by omega)
      rw [hfirst, ih bytes' (Nat.succ.inj hlength) (by omega)]

/-- Up to four bytes are added to the remainder as one number. -/
theorem foldl_window (c : UInt32) (window : List UInt8) (h : window.length ≤ 4) :
    window.foldl bitSerialStep c =
      shifts (8 * window.length) (c ^^^ UInt32.ofNat (ofLittleEndian window)) := by
  induction window generalizing c with
  | nil => exact (UInt32.xor_zero).symm
  | cons b window ih =>
    rw [List.length_cons] at h
    have hb := b.toNat_lt
    have hlt := ofLittleEndian_lt window
    have hlt' : 256 ^ window.length ≤ 256 ^ 3 := Nat.pow_le_pow_right (by omega) (by omega)
    -- The later bytes, moved up, are added before the first byte is shifted out.
    generalize hn : ofLittleEndian window = n at *
    have hmoved : shifts 8 (UInt32.ofNat (256 * n)) = UInt32.ofNat n :=
      shifts_ofNat 8 n (by omega)
    have hnumber : b.toUInt32 ^^^ UInt32.ofNat (256 * n) = UInt32.ofNat (b.toNat + 256 * n) := by
      apply UInt32.toNat_inj.mp
      rw [UInt32.toNat_xor, UInt8.toNat_toUInt32, UInt32.toNat_ofNat', UInt32.toNat_ofNat',
        Nat.mod_eq_of_lt (by omega), xor_two_pow_mul 8 _ _ hb, Nat.mod_eq_of_lt (by omega)]
    rw [List.foldl_cons, ih _ (by omega), bitSerialStep, ← hmoved, ← shifts_xor, UInt32.xor_assoc,
      hnumber, ofLittleEndian_cons, hn, List.length_cons, Nat.mul_succ,
      Nat.add_comm (8 * window.length), shifts_add]

/-- What follows keeps remainders apart. -/
theorem foldl_bitSerialStep_inj (bytes : List UInt8) (c c' : UInt32)
    (h : bytes.foldl bitSerialStep c = bytes.foldl bitSerialStep c') : c = c' := by
  induction bytes generalizing c c' with
  | nil => exact h
  | cons b bytes ih =>
    have hstep := ih _ _ h
    rw [bitSerialStep, bitSerialStep, shifts_inj, UInt32.xor_left_inj] at hstep
    exact hstep

/-- Messages that differ in up to four bytes in a row, and nowhere else, have different
    checksums. -/
theorem crc32c_ne_of_window (before window window' after : List UInt8) (hle : window.length ≤ 4)
    (hlength : window'.length = window.length) (hne : window ≠ window') :
    crc32c (before ++ window ++ after) ≠ crc32c (before ++ window' ++ after) := by
  intro h
  rw [crc32c, crc32c, UInt32.xor_left_inj, foldl_tableStep, foldl_tableStep, List.foldl_append,
    List.foldl_append, List.foldl_append, List.foldl_append] at h
  -- The windows start at one remainder, and what follows them cannot bring two together.
  have hwindow := foldl_bitSerialStep_inj after _ _ h
  generalize before.foldl bitSerialStep 0xFFFFFFFF = c at hwindow
  rw [foldl_window _ _ hle, foldl_window _ _ (by omega), hlength, shifts_inj, UInt32.xor_right_inj,
    ← UInt32.toNat_inj, UInt32.toNat_ofNat', UInt32.toNat_ofNat'] at hwindow
  have hlt := ofLittleEndian_lt window
  have hlt' := ofLittleEndian_lt window'
  have hpow : 256 ^ window.length ≤ 256 ^ 4 := Nat.pow_le_pow_right (by omega) hle
  rw [hlength] at hlt'
  rw [Nat.mod_eq_of_lt (by omega), Nat.mod_eq_of_lt (by omega)] at hwindow
  exact hne (ofLittleEndian_inj window window' hlength.symm hwindow)

end CellCode.Checksum
