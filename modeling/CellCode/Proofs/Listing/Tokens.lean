import CellCode.Listing.Literal
import CellCode.Listing.Token
import CellCode.Proofs.Bits.Hex
import CellCode.Proofs.Lists
import CellCode.Proofs.Text.Digits

/-!
# Tokens of printed text

The pieces of which listings are printed are read as the tokens they stand for. Names and
numbers take as many characters as they can, so they are read back only when a character
follows that ends them (`Stops`); all other tokens end by themselves.

* `lexFrom_token`           one token
* `tokenAt_mnemonic`, `tokenAt_integer`, `tokenAt_register`, `tokenAt_bitsText`   its kinds
* `lexFrom_blank`, `lexFrom_comment`   what is passed over
* `ofHex_bitsText`          bits in hexadecimal are the bits that were written
-/

namespace CellCode

/-! ## Hexadecimal -/

/-- Hexadecimal digits are read as such. -/
private theorem digitChar_isHexDigit (n : Nat) (h : n < 16) :
    Listing.isHexDigit (Nat.digitChar n) := by
  have hall : ∀ m < 16, Listing.isHexDigit (Nat.digitChar m) := by decide
  exact hall n h

/-- A hash consists of hexadecimal digits. -/
theorem Cell.isHexDigit_hash (c : Cell) : ∀ ch ∈ c.hash.toList, Listing.isHexDigit ch := by
  intro ch hch
  -- Each byte is two digits.
  simp only [Cell.hash, Digest.toHex, String.toList_ofList, List.mem_flatMap, Digest.byteHex,
    List.mem_cons, List.not_mem_nil, or_false] at hch
  obtain ⟨byte, _, hbyte⟩ := hch
  have hlt := byte.toNat_lt
  rcases hbyte with rfl | rfl
  · exact digitChar_isHexDigit _ (by omega)
  · exact digitChar_isHexDigit _ (by omega)

namespace Bits

private theorem isHexDigit_upper (ch : Char) (h : ch ∈ upperDigits) : Listing.isHexDigit ch := by
  have hall : upperDigits.all Listing.isHexDigit := by decide
  exact List.all_eq_true.mp hall ch h

/-- Bits in hexadecimal are digits, and perhaps the mark of a tag. -/
theorem isHexDigit_toHex (bits : Bits) :
    ∀ ch ∈ bits.toHex.toList, Listing.isHexDigit ch ∨ ch = '_' := by
  intro ch hch
  rcases List.mem_cons.mp (mem_digits_of_mem_toHex bits ch hch) with hmark | hdigit
  · exact .inr hmark
  · exact .inl (isHexDigit_upper ch hdigit)

/-- Bits in hexadecimal are the bits that were written. -/
theorem ofHex_bitsText (bits : Bits) : ofHex (Listing.bitsText bits) = .ok bits := by
  have hform : Listing.bitsText bits = "" ++ HexForm.braced.write bits ++ "" := by
    rw [String.empty_append, String.append_empty]
    rfl
  rw [hform]
  exact HexForm.braced.ofHex_write bits "" "" nofun nofun

end Bits

namespace Listing

/-! ## Single tokens -/

/-- A text that does not go on with a name or a number: it is empty or starts with a blank, a
    comma or a line end. -/
def Stops (cs : List Char) : Prop := ∀ c, cs.head? = some c → c = ' ' ∨ c = ',' ∨ c = '\n'

/-- A text stops where a blank, a comma or a line end stands. -/
theorem stops_cons (c : Char) (cs : List Char) (h : c = ' ' ∨ c = ',' ∨ c = '\n') :
    Stops (c :: cs) := by
  intro d hd
  cases hd
  exact h

/-- A class of characters that no stopping character belongs to ends there. -/
private theorem Stops.not_mem {rest : List Char} (h : Stops rest) (p : Char → Bool)
    (hp : p ' ' = false ∧ p ',' = false ∧ p '\n' = false) :
    ∀ c, rest.head? = some c → p c = false := by
  intro c hc
  rcases h c hc with rfl | rfl | rfl
  · exact hp.1
  · exact hp.2.1
  · exact hp.2.2

/-- A name is read to where the text stops. -/
theorem tokenAt_mnemonic (c : Char) (cs rest : List Char) (hc : startsName c)
    (hcs : ∀ d ∈ cs, continuesName d) (hrest : Stops rest) :
    tokenAt c (cs ++ rest) = (.mnemonic (String.ofList (c :: cs)), rest) := by
  have hstop := hrest.not_mem continuesName (by decide)
  unfold tokenAt
  rw [if_pos hc, takeWhile_stop cs rest hcs hstop, dropWhile_stop cs rest hcs hstop]

/-- A digit starts no name. -/
private theorem startsName_of_isDigit (c : Char) (h : c.isDigit) : startsName c = false := by
  simp only [Char.isDigit, Bool.and_eq_true, decide_eq_true_eq, ge_iff_le,
    UInt32.le_iff_toNat_le] at h
  have h57 : '9'.val.toNat = 57 := rfl
  have h65 : 'A'.val.toNat = 65 := rfl
  simp only [startsName, Bool.and_eq_false_iff, decide_eq_false_iff_not, Char.le_def,
    UInt32.le_iff_toNat_le]
  omega

/-- Digits in front of a stop are read as their number. -/
private theorem integerToken_toDigits (negative : Bool) (n : Nat) (rest : List Char)
    (hrest : Stops rest) :
    integerToken negative (Nat.toDigits 10 n ++ rest) =
      (.integer (if negative then -n else n), rest) := by
  have hdigits := Text.isDigit_toDigits n
  have hstop := hrest.not_mem Char.isDigit (by decide)
  unfold integerToken
  rw [takeWhile_stop _ rest hdigits hstop, dropWhile_stop _ rest hdigits hstop,
    Text.decimalNat?_toDigits]

/-- A printed number is read as the number. -/
theorem tokenAt_integer (v : Int) (rest : List Char) (hrest : Stops rest) :
    ∃ c cs, (toString v).toList = c :: cs ∧ isSpace c = false ∧ c ≠ ';' ∧
      tokenAt c (cs ++ rest) = (.integer v, rest) := by
  cases v with
  -- Without a sign the number starts with its first digit.
  | ofNat n =>
    have htext := Text.toList_toString_ofNat n
    cases hdigits : Nat.toDigits 10 n with
    | nil => exact absurd hdigits Nat.toDigits_ne_nil
    | cons c cs =>
      have hc : c.isDigit := Text.isDigit_toDigits n c (hdigits ▸ List.mem_cons_self ..)
      -- A digit is no blank and does not start a comment.
      have hspace : isSpace c = false ∧ c ≠ ';' := by
        constructor
        · cases hs : isSpace c with
          | false => rfl
          | true =>
            simp only [isSpace, Bool.or_eq_true, beq_iff_eq] at hs
            rcases hs with (((rfl | rfl) | rfl) | rfl) | rfl <;> cases hc
        · rintro rfl
          cases hc
      refine ⟨c, cs, by rw [htext, hdigits], hspace.1, hspace.2, ?_⟩
      unfold tokenAt
      rw [if_neg (by rw [startsName_of_isDigit c hc]; decide), if_pos hc, ← List.cons_append,
        ← hdigits, integerToken_toDigits false n rest hrest]
      rfl
  | negSucc n =>
    refine ⟨'-', _, Text.toList_toString_negSucc n, by decide, by decide, ?_⟩
    show integerToken true (Nat.toDigits 10 (n + 1) ++ rest) = _
    rw [integerToken_toDigits true (n + 1) rest hrest]
    rfl

/-- Digits behind the letter of a register are its number. -/
private theorem registerToken_toDigits (register : Nat → Token) (n : Nat) (rest : List Char)
    (hrest : Stops rest) :
    registerToken register (Nat.toDigits 10 n ++ rest) = (register n, rest) := by
  have hdigits : ∀ c ∈ Nat.toDigits 10 n, Text.isDecimal c := fun c hc =>
    Text.isDecimal_of_isDigit c (Text.isDigit_toDigits n c hc)
  have hstop := hrest.not_mem Text.isDecimal (by decide)
  unfold registerToken
  rw [takeWhile_stop _ rest hdigits hstop, dropWhile_stop _ rest hdigits hstop,
    Text.decimalNat?_toDigits]

theorem tokenAt_stack (n : Nat) (rest : List Char) (hrest : Stops rest) :
    tokenAt 's' (Nat.toDigits 10 n ++ rest) = (.stack n, rest) :=
  registerToken_toDigits .stack n rest hrest

theorem tokenAt_control (n : Nat) (rest : List Char) (hrest : Stops rest) :
    tokenAt 'c' (Nat.toDigits 10 n ++ rest) = (.control n, rest) :=
  registerToken_toDigits .control n rest hrest

/-- Printed bits are read as the literal they were printed as. -/
theorem tokenAt_bitsText (bits : Bits) (rest : List Char) :
    ∃ cs, (bitsText bits).toList = 'x' :: cs ∧
      tokenAt 'x' (cs ++ rest) = (.literal (bitsText bits), rest) := by
  have htext : (bitsText bits).toList = 'x' :: '\x7b' :: (bits.toHex.toList ++ ['\x7d']) := by
    simp [bitsText, String.toList_append]
  -- The digits end before the brace, or before the tag in front of it.
  have hfront : hexFront (bits.toHex.toList ++ '\x7d' :: rest) =
      (bits.toHex.toList, '\x7d' :: rest) := by
    obtain ⟨digits, hdigits, hchars⟩ := Bits.toHex_chars bits
    have hhex : ∀ c ∈ digits, isHexDigit c := fun c hc => Bits.isHexDigit_upper c (hdigits c hc)
    obtain ⟨hplain, _⟩ | ⟨htagged, _⟩ := hchars
    · have hstop : ∀ c, ('\x7d' :: rest).head? = some c → isHexDigit c = false := by
        intro c hc
        cases hc
        decide
      unfold hexFront
      rw [hplain, takeWhile_stop _ _ hhex hstop, dropWhile_stop _ _ hhex hstop]
      rfl
    · have hstop : ∀ c, ('_' :: '\x7d' :: rest).head? = some c → isHexDigit c = false := by
        intro c hc
        cases hc
        decide
      unfold hexFront
      rw [htagged, List.append_assoc, List.singleton_append,
        takeWhile_stop _ _ hhex hstop,
        dropWhile_stop _ _ hhex hstop]
      rfl
  refine ⟨_, htext, ?_⟩
  show literalToken ('\x7b' :: (bits.toHex.toList ++ ['\x7d']) ++ rest) = _
  rw [List.cons_append, List.append_assoc, List.singleton_append]
  simp only [literalToken, hfront]
  rw [← String.ofList_toList (s := bitsText bits), htext]
  rfl

/-! ## All tokens -/

/-- One token, and what follows it. -/
theorem lexFrom_token (line : Nat) (c : Char) (cs rest : List Char) (token : Token)
    (hspace : isSpace c = false) (hcomment : c ≠ ';') (htoken : tokenAt c cs = (token, rest))
    (hknown : token ≠ .unknown) :
    lexFrom line (c :: cs) = ⟨line, token⟩ :: lexFrom line rest := by
  rw [lexFrom, if_neg (by rw [hspace]; decide), if_neg (fun h => hcomment h.1), htoken]
  dsimp only
  rw [if_neg hknown]

theorem lexFrom_space (line : Nat) (rest : List Char) :
    lexFrom line (' ' :: rest) = lexFrom line rest := by
  rw [lexFrom, if_pos (by decide), if_neg (by decide)]

/-- A line end is passed over and counted. -/
theorem lexFrom_newline (line : Nat) (rest : List Char) :
    lexFrom line ('\n' :: rest) = lexFrom (line + 1) rest := by
  rw [lexFrom, if_pos (by decide), if_pos rfl]

/-- Blanks are passed over. -/
theorem lexFrom_blank (line : Nat) (cs rest : List Char) (h : ∀ c ∈ cs, c = ' ') :
    lexFrom line (cs ++ rest) = lexFrom line rest := by
  induction cs with
  | nil => rfl
  | cons c cs ih =>
    obtain rfl := h c (by simp)
    rw [List.cons_append, lexFrom_space, ih (fun d hd => h d (by simp [hd]))]

/-- A comment is passed over up to the end of its line. -/
theorem lexFrom_comment (line : Nat) (cs rest : List Char) (h : ∀ c ∈ cs, c ≠ '\n') :
    lexFrom line (';' :: ';' :: (cs ++ '\n' :: rest)) = lexFrom (line + 1) rest := by
  -- The comment goes on for as long as there is no line end.
  have hstop : ∀ c, ('\n' :: rest).head? = some c → decide (c ≠ '\n') = false := by
    intro c hc
    cases hc
    decide
  have hdrop : (';' :: (cs ++ '\n' :: rest)).dropWhile (· ≠ '\n') = '\n' :: rest := by
    rw [← List.cons_append]
    refine dropWhile_stop _ _ ?_ hstop
    intro c hc
    rcases List.mem_cons.mp hc with rfl | hc
    · decide
    · simpa using h c hc
  rw [lexFrom, if_neg (by decide), if_pos ⟨rfl, rfl⟩, hdrop, lexFrom_newline]

end Listing

end CellCode
