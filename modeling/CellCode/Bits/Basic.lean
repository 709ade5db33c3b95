/-!
# Bit strings

Bits are lists of booleans, most significant first. This module relates them to numbers and
to bytes, and holds the completion tag: a single one followed by zeros, which closes a bit
string whose length is not a whole number of units and is taken off again by `untag?`.

* `toNat_ofNat`, `ofNat_toNat`   numbers below `2 ^ width` and bit strings of `width` bits agree
* `signed_ofInt`                 a number in two's complement reads back, if it is in range
* `untag?_tag`                   taking the tag off gives back what was tagged
-/

namespace CellCode

-- Powers are those of the standard library, whatever else is in scope.
attribute [local instance (high)] instPowNat

/-- A string of bits, most significant first. -/
abbrev Bits := List Bool

namespace Bits

/-! ## Numbers -/

/-- The number that the bits write in base two; no bits write zero. -/
def toNat (bits : Bits) : Nat := bits.foldl (fun n b => 2 * n + b.toNat) 0

/-- The `width` lowest bits of `n`. -/
def ofNat : (width : Nat) → Nat → Bits
  | 0, _ => []
  | width + 1, n => n.testBit width :: ofNat width n

/-- The signed number that `n` stands for in a field of `width` bits in two's complement. -/
def signed (width n : Nat) : Int :=
  if 0 < width ∧ 2 ^ (width - 1) ≤ n then (n : Int) - 2 ^ width else n

/-- The `width` lowest bits of `v` in two's complement. -/
def ofInt (width : Nat) (v : Int) : Bits := ofNat width (v % 2 ^ width).toNat

@[simp] theorem length_ofNat (width n : Nat) : (ofNat width n).length = width := by
  induction width with
  | zero => rfl
  | succ width ih => simp [ofNat, ih]

@[simp] theorem length_ofInt (width : Nat) (v : Int) : (ofInt width v).length = width := by
  simp [ofInt]

/-- Reading on from a number already read shifts it up by the length of what follows. -/
theorem foldl_digits (bits : Bits) (n : Nat) :
    bits.foldl (fun n b => 2 * n + b.toNat) n = n * 2 ^ bits.length + bits.toNat := by
  induction bits generalizing n with
  | nil => simp [toNat]
  | cons b bits ih =>
    simp only [toNat, List.foldl_cons, List.length_cons, ih (2 * n + b.toNat),
      ih (2 * 0 + b.toNat), Nat.pow_succ]
    grind

@[simp] theorem toNat_nil : toNat [] = 0 := rfl

theorem toNat_cons (b : Bool) (bits : Bits) :
    toNat (b :: bits) = b.toNat * 2 ^ bits.length + toNat bits := by
  simp only [toNat, List.foldl_cons, Nat.mul_zero, Nat.zero_add]
  exact foldl_digits bits b.toNat

theorem toNat_append (a b : Bits) : toNat (a ++ b) = toNat a * 2 ^ b.length + toNat b := by
  simp only [toNat, List.foldl_append]
  exact foldl_digits b _

theorem toNat_lt (bits : Bits) : bits.toNat < 2 ^ bits.length := by
  induction bits with
  | nil => simp
  | cons b bits ih =>
    rw [toNat_cons, List.length_cons, Nat.pow_succ]
    cases b <;> simp <;> omega

/-- Writing a number in `width` bits and reading it back keeps its `width` lowest bits. -/
theorem toNat_ofNat (width n : Nat) : (ofNat width n).toNat = n % 2 ^ width := by
  induction width with
  | zero => simp [ofNat, Nat.mod_one]
  | succ width ih =>
    rw [ofNat, toNat_cons, ih, length_ofNat, Nat.pow_succ, Nat.mod_mul,
      Nat.testBit_eq_decide_div_mod_eq]
    have : n / 2 ^ width % 2 < 2 := Nat.mod_lt _ (by decide)
    rcases (by omega : n / 2 ^ width % 2 = 0 ∨ n / 2 ^ width % 2 = 1) with h | h <;> simp [h]
    omega

theorem ofNat_toNat (bits : Bits) : ofNat bits.length bits.toNat = bits := by
  induction bits with
  | nil => rfl
  | cons b bits ih =>
    have hlt := toNat_lt bits
    have hcong : ∀ (w n m : Nat), (∀ i < w, n.testBit i = m.testBit i) → ofNat w n = ofNat w m := by
      intro w n m h
      induction w with
      | zero => rfl
      | succ w ihw => rw [ofNat, ofNat, h w (by omega), ihw (fun i hi => h i (by omega))]
    rw [toNat_cons, List.length_cons, ofNat]
    congr 1
    · rw [Nat.mul_comm, Nat.testBit_two_pow_mul_add _ hlt]
      cases b <;> simp
    · rw [hcong _ _ (toNat bits), ih]
      intro i hi
      rw [Nat.mul_comm, Nat.testBit_two_pow_mul_add _ hlt]
      simp [hi]

/-- A number in two's complement reads back, if it is in range. -/
theorem signed_ofInt (width : Nat) (value : Int) (hwidth : 0 < width)
    (hrange : -(2 ^ (width - 1) : Int) ≤ value ∧ value < 2 ^ (width - 1)) :
    signed width (ofInt width value).toNat = value := by
  obtain ⟨k, rfl⟩ : ∃ k, width = k + 1 := ⟨width - 1, by omega⟩
  have hpow : ((2 ^ k : Nat) : Int) = 2 ^ k := Int.natCast_pow 2 k
  have hpos : 0 < 2 ^ k := Nat.two_pow_pos k
  have hdouble : (2 : Int) ^ (k + 1) = 2 * 2 ^ k := by rw [Int.pow_succ]; omega
  have hdoubleNat : 2 ^ (k + 1) = 2 * 2 ^ k := by rw [Nat.pow_succ]; omega
  simp only [Nat.add_sub_cancel] at hrange
  have hmod : value % 2 ^ (k + 1) = if 0 ≤ value then value else value + 2 ^ (k + 1) := by
    split
    · exact Int.emod_eq_of_lt (by omega) (by omega)
    · rw [← Int.add_emod_right, Int.emod_eq_of_lt (by omega) (by omega)]
  have hnat : (ofInt (k + 1) value).toNat = (value % 2 ^ (k + 1)).toNat := by
    rw [ofInt, toNat_ofNat, Nat.mod_eq_of_lt]
    rw [hmod, hdoubleNat]
    split <;> omega
  rw [hnat, hmod]
  unfold signed
  simp only [Nat.add_sub_cancel]
  split <;> split <;> omega

/-! ## Bytes -/

/-- The eight bits of a byte. -/
def ofByte (b : UInt8) : Bits := ofNat 8 b.toNat

/-- The bits of a byte string. -/
def ofBytes (bytes : List UInt8) : Bits := bytes.flatMap ofByte

/-- The bits in whole bytes, the last one filled up with zeros. -/
def toBytes : Bits → List UInt8
  | [] => []
  | a :: b :: c :: d :: e :: f :: g :: h :: rest =>
    UInt8.ofNat (toNat [a, b, c, d, e, f, g, h]) :: toBytes rest
  | tail => [UInt8.ofNat (toNat (tail ++ List.replicate (8 - tail.length) false))]

/-! ## Completion tags -/

/-- The bits closed by a completion tag that fills the last unit of `unit` bits. -/
def tag (unit : Nat) (bits : Bits) : Bits :=
  bits ++ true :: List.replicate ((unit - (bits.length + 1) % unit) % unit) false

/-- The bits as they are when they fill whole units, tagged otherwise. -/
def fill (unit : Nat) (bits : Bits) : Bits :=
  if bits.length % unit = 0 then bits else bits.tag unit

/-- The bits before the completion tag, if there is one. -/
def untag? (bits : Bits) : Option Bits :=
  match bits.reverse.dropWhile (!·) with
  | [] => none
  | _ :: rest => some rest.reverse

/-- The bits in whole bytes, closed by a completion tag unless they fill them. -/
def toTaggedBytes (bits : Bits) : List UInt8 := (bits.fill 8).toBytes

/-- Taking the tag off gives back what was tagged. -/
theorem untag?_append_tag (bits : Bits) (zeros : Nat) :
    untag? (bits ++ true :: List.replicate zeros false) = some bits := by
  have h : (List.replicate zeros false ++ true :: bits.reverse).dropWhile (!·)
      = true :: bits.reverse := by
    induction zeros with
    | zero => rfl
    | succ zeros ih => simp [List.replicate_succ, ih]
  simp [untag?, h]

@[simp] theorem untag?_tag (unit : Nat) (bits : Bits) : untag? (bits.tag unit) = some bits :=
  untag?_append_tag bits _

end Bits

end CellCode
