import CellCode.Bits.Hex
import CellCode.Proofs.Text.Digits

/-!
# Hexadecimal text is exact

A bit string is written as upper case digits, with an underscore behind them when the last digit
holds the completion tag. None of these characters is blank or a mark of a literal, so trimming
and taking off the marks leave the digits and the underscore alone, and the tag comes off again
where it was put on.

* `mem_digits_of_mem_toHex`   the characters of hexadecimal text
* `ofHex_of_strip`            the text is read back once its surroundings are gone
* `HexForm.ofHex_write`       so it is from each form, with blanks around it
* `ofHex_exact`               no bit string is lost, and no two are written alike
-/

namespace CellCode.Bits

/-! ## Digits -/

/-- The digits in which bits are written. -/
def upperDigits : List Char :=
  ['0', '1', '2', '3', '4', '5', '6', '7', '8', '9', 'A', 'B', 'C', 'D', 'E', 'F']

theorem mem_upperDigits (bits : Bits) : ∀ ch ∈ hexDigits bits, ch ∈ upperDigits := by
  fun_induction hexDigits bits with
  | case1 a b c d rest ih =>
    intro ch hch
    rcases List.mem_cons.mp hch with rfl | hch
    · clear hch ih
      revert a b c d
      decide
    · exact ih ch hch
  | case2 => exact nofun

private theorem hexValue?_hexDigit (a b c d : Bool) :
    (Text.hexValue? (Nat.digitChar (toNat [a, b, c, d])).toUpper).map (ofNat 4) =
      some [a, b, c, d] := by
  revert a b c d
  decide

private theorem ofHexDigits?_hexDigits (bits : Bits) (h : bits.length % 4 = 0) :
    ofHexDigits? (hexDigits bits) = some bits := by
  fun_induction hexDigits bits with
  | case1 a b c d rest ih =>
    have hrest := ih (by simp only [List.length_cons] at h; omega)
    simp only [ofHexDigits?, Option.map_eq_some_iff] at hrest
    obtain ⟨parts, hparts, rfl⟩ := hrest
    simp only [ofHexDigits?, List.mapM_cons, hexValue?_hexDigit, hparts]
    rfl
  | case2 bits hshort =>
    -- Fewer than four bits that fill whole digits are none.
    match bits, hshort with
    | [], _ => rfl
    | [_], _ => simp at h
    | [_, _], _ => simp at h
    | [_, _, _], _ => simp at h
    | a :: b :: c :: d :: rest, hshort => exact absurd rfl (hshort a b c d rest)

private theorem length_tag_mod (bits : Bits) : (bits.tag 4).length % 4 = 0 := by
  simp only [tag, List.length_append, List.length_cons, List.length_replicate]
  omega

/-- The characters of a bit string in hexadecimal: digits, and perhaps the mark of a tag. -/
theorem toHex_chars (bits : Bits) :
    ∃ digits, (∀ c ∈ digits, c ∈ upperDigits) ∧
      ((bits.toHex.toList = digits ∧ ofHexDigits? digits = some bits) ∨
        (bits.toHex.toList = digits ++ ['_'] ∧
          ∃ tagged, ofHexDigits? digits = some tagged ∧ tagged.untag? = some bits)) := by
  unfold toHex
  rw [String.toList_ofList]
  split
  · rename_i hlength
    exact ⟨_, mem_upperDigits bits, .inl ⟨rfl, ofHexDigits?_hexDigits bits hlength⟩⟩
  · exact ⟨_, mem_upperDigits _, .inr ⟨rfl, _,
      ofHexDigits?_hexDigits _ (length_tag_mod bits), untag?_tag 4 bits⟩⟩

theorem mem_digits_of_mem_toHex (bits : Bits) :
    ∀ ch ∈ bits.toHex.toList, ch ∈ '_' :: upperDigits := by
  intro ch hch
  obtain ⟨digits, hdigits, ⟨hplain, _⟩ | ⟨htagged, _⟩⟩ := toHex_chars bits
  · rw [hplain] at hch
    exact List.mem_cons_of_mem _ (hdigits ch hch)
  · rw [htagged] at hch
    rcases List.mem_append.mp hch with hch | hch
    · exact List.mem_cons_of_mem _ (hdigits ch hch)
    · exact List.mem_singleton.mp hch ▸ List.mem_cons_self

/-! ## Reading back -/

/-- Hexadecimal text is read back from any text that it is left of when blanks and marks are
    taken off. -/
theorem ofHex_of_strip (bits : Bits) (text : String)
    (h : stripLiteralMarks (Text.trim text.toList) = bits.toHex.toList) :
    ofHex text = .ok bits := by
  obtain ⟨digits, hdigits, ⟨hplain, hbits⟩ | ⟨htagged, tagged, hbits, huntag⟩⟩ := toHex_chars bits
  · -- No digit is an underscore, so nothing is taken for a tag.
    have hlast : digits.getLast? ≠ some '_' := by
      intro hmark
      exact absurd (hdigits '_' (List.mem_of_getLast? hmark)) (by decide)
    unfold ofHex
    rw [h, hplain]
    simp only [hlast, if_false, hbits]
  · unfold ofHex
    rw [h, htagged]
    simp only [List.getLast?_concat, if_true, List.dropLast_concat, hbits, huntag]

/-! ## Forms -/

/-- The forms in which bits are written: digits alone, digits behind the mark of a literal, and
    digits in the braces of a literal. -/
inductive HexForm where
  | bare
  | marked
  | braced
  deriving DecidableEq, Repr

namespace HexForm

/-- What stands before the digits. -/
def opening : HexForm → String
  | bare => ""
  | marked => "x"
  | braced => "x\x7b"

/-- What stands behind the digits. -/
def closing : HexForm → String
  | bare | marked => ""
  | braced => "\x7d"

/-- The text of a bit string in this form. -/
def write (form : HexForm) (bits : Bits) : String := form.opening ++ bits.toHex ++ form.closing

/-- No form has a blank character in it. -/
theorem isBlank_write (form : HexForm) (bits : Bits) :
    ∀ ch ∈ (form.write bits).toList, Text.isBlank ch = false := by
  have hopening : form.opening.toList.all (!Text.isBlank ·) := by cases form <;> decide
  have hclosing : form.closing.toList.all (!Text.isBlank ·) := by cases form <;> decide
  have hdigits : ('_' :: upperDigits).all (!Text.isBlank ·) := by decide
  intro ch hch
  rw [write, String.toList_append, String.toList_append, List.mem_append, List.mem_append] at hch
  rw [← Bool.not_eq_true']
  obtain (hch | hch) | hch := hch
  · exact List.all_eq_true.mp hopening ch hch
  · exact List.all_eq_true.mp hdigits ch (mem_digits_of_mem_toHex bits ch hch)
  · exact List.all_eq_true.mp hclosing ch hch

/-- Taking the marks off leaves the digits. -/
theorem strip_write (form : HexForm) (bits : Bits) :
    stripLiteralMarks (form.write bits).toList = bits.toHex.toList := by
  have hhead : ∀ ch, bits.toHex.toList.head? = some ch → ch ∈ '_' :: upperDigits := by
    intro ch hch
    exact mem_digits_of_mem_toHex bits ch (List.mem_of_head? hch)
  -- A digit opens no braces.
  have hbraces : ¬ (bits.toHex.toList.head? = some '\x7b' ∧
      bits.toHex.toList.getLast? = some '\x7d') := fun h => absurd (hhead _ h.1) (by decide)
  cases form with
  | bare =>
    have htext : (bare.write bits).toList = bits.toHex.toList := by
      simp [write, opening, closing]
    rw [htext]
    unfold stripLiteralMarks
    dsimp only
    -- Nor is it the mark of a literal.
    split
    · rename_i rest hx
      exact absurd (hhead 'x' (by rw [hx]; rfl)) (by decide)
    · rename_i rest hx
      exact absurd (hhead 'X' (by rw [hx]; rfl)) (by decide)
    · exact if_neg hbraces
  | marked =>
    have htext : (marked.write bits).toList = 'x' :: bits.toHex.toList := by
      simp [write, opening, closing]
    rw [htext]
    exact if_neg hbraces
  | braced =>
    have htext : (braced.write bits).toList = 'x' :: '\x7b' :: (bits.toHex.toList ++ ['\x7d']) := by
      simp [write, opening, closing]
    have hlast : ('\x7b' :: (bits.toHex.toList ++ ['\x7d'])).getLast? = some '\x7d' := by
      rw [← List.cons_append, List.getLast?_concat]
    rw [htext]
    simp only [stripLiteralMarks, hlast]
    simp

/-- Bits are read back from each form, with any blank characters around it. -/
theorem ofHex_write (form : HexForm) (bits : Bits) (before after : String)
    (hbefore : ∀ ch ∈ before.toList, Text.isBlank ch)
    (hafter : ∀ ch ∈ after.toList, Text.isBlank ch) :
    ofHex (before ++ form.write bits ++ after) = .ok bits := by
  apply ofHex_of_strip
  rw [String.toList_append, String.toList_append, Text.trim_append_blanks _ _ _ hbefore hafter,
    Text.trim_eq_self _ (form.isBlank_write bits), strip_write]

end HexForm

/-- Bits are known from their hexadecimal text. -/
theorem toHex_inj (a b : Bits) (h : a.toHex = b.toHex) : a = b := by
  have hread (bits : Bits) : ofHex bits.toHex = .ok bits := by
    simpa [HexForm.write, HexForm.opening, HexForm.closing] using
      HexForm.bare.ofHex_write bits "" ""
  have hsame : (Except.ok a : Except CellError Bits) = .ok b := by rw [← hread a, ← hread b, h]
  exact Except.ok.inj hsame

/-- Hexadecimal text is exact for bit strings of any length.

    (a) It is read back as the bits that were written, from each form and with any blank
    characters around it.
    (b) Different bit strings have different texts.
    (c) This holds in particular for bits and the same bits with zeros behind them, although the
    tag is followed by zeros as well. -/
theorem ofHex_exact (bits : Bits) :
    (∀ (form : HexForm) (before after : String), (∀ ch ∈ before.toList, Text.isBlank ch) →
      (∀ ch ∈ after.toList, Text.isBlank ch) →
      ofHex (before ++ form.write bits ++ after) = .ok bits) ∧
    (∀ other : Bits, other ≠ bits → other.toHex ≠ bits.toHex) ∧
    ∀ zeros, 0 < zeros → (bits ++ List.replicate zeros false).toHex ≠ bits.toHex := by
  refine ⟨fun form => form.ofHex_write bits, ?_, ?_⟩
  · exact fun other hne htext => hne (toHex_inj other bits htext)
  · intro zeros hzeros htext
    have hlength := congrArg List.length (toHex_inj _ _ htext)
    rw [List.length_append, List.length_replicate] at hlength
    omega

/-- A one and two zeros make `9_`, unlike a one alone and unlike a one and three zeros. -/
theorem ofHex_exact_zeros :
    (∀ ch ∈ "\t ".toList, Text.isBlank ch) ∧ (∀ ch ∈ "\u00a0\n".toList, Text.isBlank ch) ∧
    HexForm.braced.write [true, false, false] = "x\x7b9_\x7d" ∧
    ofHex ("\t " ++ HexForm.braced.write [true, false, false] ++ "\u00a0\n") =
      .ok [true, false, false] ∧
    [true] ≠ [true, false, false] ∧ toHex [true] ≠ toHex [true, false, false] ∧
    0 < 1 ∧ toHex ([true, false, false] ++ List.replicate 1 false) ≠ toHex [true, false, false] :=
  have hbefore : ∀ ch ∈ "\t ".toList, Text.isBlank ch := List.all_eq_true.mp (by decide)
  have hafter : ∀ ch ∈ "\u00a0\n".toList, Text.isBlank ch := List.all_eq_true.mp (by decide)
  have hexact := ofHex_exact [true, false, false]
  ⟨hbefore, hafter, by decide, hexact.1 .braced "\t " "\u00a0\n" hbefore hafter, by decide,
    hexact.2.1 [true] (by decide), by decide, hexact.2.2 1 (by decide)⟩

end CellCode.Bits
