import CellCode.Proofs.Lists
import CellCode.Text.Digit

/-!
# Written numbers are read back

The digits in which numbers are written are ASCII digits, which are among the digits that can be
read. So what is written as a number is read as this number, with a sign or without.

* `decimalNat?_toDigits`   the digits of a number are read as the number
* `decimalInt?_toString`   so is the text of a number that may be negative
* `trim_append_blanks`     blank characters around a text do not count
-/

namespace CellCode.Text

/-! ## Digits -/

theorem toNat_of_isDigit (c : Char) (h : c.isDigit) : 0x30 ≤ c.toNat ∧ c.toNat < 0x30 + 10 := by
  simp only [Char.isDigit, Bool.and_eq_true, decide_eq_true_eq, ge_iff_le,
    UInt32.le_iff_toNat_le] at h
  have h48 : '0'.val.toNat = 48 := rfl
  have h57 : '9'.val.toNat = 57 := rfl
  simp only [Char.toNat]
  omega

/-- Numbers are written in ASCII digits. -/
theorem isDigit_toDigits (n : Nat) : ∀ c ∈ Nat.toDigits 10 n, c.isDigit :=
  fun _ hc => Nat.isDigit_of_mem_toDigits (by decide) (by decide) hc

/-- An ASCII digit has the value that its code point says. -/
theorem decimalValue?_of_isDigit (c : Char) (h : c.isDigit) :
    decimalValue? c = some (c.toNat - 48) := by
  have hrange := toNat_of_isDigit c h
  unfold decimalValue? decimalZeros
  rw [List.find?_cons_of_pos (by simp [hrange.1, hrange.2])]
  rfl

theorem decimalNat?_digits (cs : List Char) (hne : cs ≠ []) (h : ∀ c ∈ cs, c.isDigit) :
    decimalNat? cs = some (Nat.ofDigitChars 10 cs 0) := by
  have hfold (cs : List Char) (n : Nat) (h : ∀ c ∈ cs, c.isDigit) :
      cs.foldlM (fun n c => (decimalValue? c).map (10 * n + ·)) n =
        some (Nat.ofDigitChars 10 cs n) := by
    induction cs generalizing n with
    | nil => rfl
    | cons c cs ih =>
      rw [List.foldlM_cons, decimalValue?_of_isDigit c (h c (by simp))]
      show cs.foldlM _ (10 * n + (c.toNat - 48)) = _
      rw [ih _ (fun d hd => h d (by simp [hd])), Nat.ofDigitChars_cons]
      rfl
  unfold decimalNat?
  rw [if_neg (by simpa using hne), hfold cs 0 h]

/-- The digits of a number are read back as the number. -/
theorem decimalNat?_toDigits (n : Nat) :
    decimalNat? (Nat.toDigits 10 n) = some n := by
  rw [decimalNat?_digits _ Nat.toDigits_ne_nil (isDigit_toDigits n),
    Nat.ofDigitChars_ten_toDigits]

theorem isDecimal_of_isDigit (c : Char) (h : c.isDigit) : isDecimal c := by
  rw [isDecimal, decimalValue?_of_isDigit c h]
  rfl

theorem isBlank_of_isDigit (c : Char) (h : c.isDigit) : isBlank c = false := by
  have hrange := toNat_of_isDigit c h
  simp only [isBlank, Bool.or_eq_false_iff, Bool.and_eq_false_iff, decide_eq_false_iff_not,
    beq_eq_false_iff_ne]
  omega

/-! ## Trimming -/

/-- Blank characters around a text make no difference once it is trimmed. -/
theorem trim_append_blanks (before cs after : List Char) (hbefore : ∀ c ∈ before, isBlank c)
    (hafter : ∀ c ∈ after, isBlank c) : trim (before ++ cs ++ after) = trim cs := by
  have hnone : after.dropWhile isBlank = [] := by
    simpa using dropWhile_stop after [] hafter nofun
  rw [trim, List.append_assoc, List.dropWhile_append_of_pos hbefore, List.dropWhile_append, trim]
  split
  · -- The text itself is blank, so all of it is taken off from the front.
    rename_i hblank
    rw [List.isEmpty_iff.mp hblank, hnone]
  · rw [List.reverse_append, List.dropWhile_append_of_pos (by simpa using hafter)]

/-- Without blank characters there is nothing to trim. -/
theorem trim_eq_self (cs : List Char) (h : ∀ c ∈ cs, isBlank c = false) : trim cs = cs := by
  have hfront := dropWhile_stop [] cs (p := isBlank) nofun fun c hc => h c (List.mem_of_head? hc)
  have hback := dropWhile_stop [] cs.reverse (p := isBlank) nofun
    fun c hc => h c (List.mem_reverse.mp (List.mem_of_head? hc))
  rw [List.nil_append] at hfront hback
  rw [trim, hfront, hback, List.reverse_reverse]

/-! ## Numbers with a sign -/

theorem toList_toString_ofNat (n : Nat) :
    (toString (Int.ofNat n)).toList = Nat.toDigits 10 n := Nat.toList_repr

theorem toList_toString_negSucc (n : Nat) :
    (toString (Int.negSucc n)).toList = '-' :: Nat.toDigits 10 (n + 1) := by
  show ("-" ++ Nat.repr (n + 1)).toList = _
  rw [String.toList_append, Nat.toList_repr]
  rfl

/-- Digits that stand without underscores stay as they are. -/
theorem joinDigitGroups_digits (cs : List Char) (hne : cs ≠ []) (h : ∀ c ∈ cs, c.isDigit) :
    joinDigitGroups cs = some cs := by
  fun_induction joinDigitGroups cs with
  | case1 => exact absurd rfl hne
  | case2 c hc => rfl
  | case3 c hc => exact absurd (isDecimal_of_isDigit c (h c List.mem_cons_self)) hc
  | case4 c rest => exact absurd (h '_' (by simp)) (by decide)
  | case5 c rest => exact absurd (h '_' (by simp)) (by decide)
  | case6 c rest hone _ hc ih =>
    rw [List.forall_mem_cons] at h
    rw [ih (fun hnil => hone hnil) h.2]
    rfl
  | case7 c rest _ _ hc => exact absurd (isDecimal_of_isDigit c (h c List.mem_cons_self)) hc

/-- The text of a number is read back as the number. -/
theorem decimalInt?_toString (v : Int) : decimalInt? (toString v) = some v := by
  have hread (n : Nat) : joinDigitGroups (Nat.toDigits 10 n) >>= decimalNat? = some n := by
    rw [joinDigitGroups_digits _ Nat.toDigits_ne_nil (isDigit_toDigits n)]
    exact decimalNat?_toDigits n
  unfold decimalInt?
  cases v with
  | ofNat n =>
    rw [toList_toString_ofNat,
      trim_eq_self _ fun c hc => isBlank_of_isDigit c (isDigit_toDigits n c hc)]
    -- A digit is no sign.
    split
    · rename_i rest hplus
      exact absurd (isDigit_toDigits n '+' (hplus ▸ List.mem_cons_self)) (by decide)
    · rename_i rest hminus
      exact absurd (isDigit_toDigits n '-' (hminus ▸ List.mem_cons_self)) (by decide)
    · show (joinDigitGroups (Nat.toDigits 10 n) >>= decimalNat?).map _ = _
      rw [hread]
      rfl
  | negSucc n =>
    rw [toList_toString_negSucc, trim_eq_self]
    · show (joinDigitGroups (Nat.toDigits 10 (n + 1)) >>= decimalNat?).map _ = _
      rw [hread]
      rfl
    · rw [List.forall_mem_cons]
      exact ⟨rfl, fun c hc => isBlank_of_isDigit c (isDigit_toDigits _ c hc)⟩

end CellCode.Text
