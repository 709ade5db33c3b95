import CellCode.Json.Parser
import CellCode.Proofs.Lists
import Mathlib.Data.Option.Basic

/-!
# Nested objects of texts are read back

The text of a value whose leaves are texts, and in whose objects no name comes twice, is read as
this value. Three things make sure of it:

* Every character of a text is written so that it can be told from a quotation mark, and a character
  that needs two units is written as a pair that is put together again.
* A value ends with its own last character, whatever follows it, so what comes behind it does not
  matter.
* Names that are all different are added one behind the other.

## Key results

* `stringBody_escapedChar`   one character is read back
* `value?_quoted`            a text is read back
* `members?_render`          the members of an object are read back, if their values are
* `parse?_render`            a value is read back from its text
-/

namespace CellCode.Json

-- Powers are those of the standard library, whatever else is in scope.
attribute [local instance (high)] instPowNat

/-! ## Units -/

theorem hexValue?_hexDigit (d : Nat) : hexValue? (Text.hexDigit d) = some (d % 16) := by
  have hdigits : ∀ n < 16, hexValue? (Nat.digitChar n) = some n := by decide
  exact hdigits _ (Nat.mod_lt _ (by decide))

/-- The four digits of a unit. -/
theorem exists_unitEscape (n : Nat) (hn : n < 0x10000) :
    ∃ a b c d, unitEscape n = ['\\', 'u', a, b, c, d] ∧ unit? a b c d = some n := by
  refine ⟨_, _, _, _, rfl, ?_⟩
  simp only [unit?, hexValue?_hexDigit, Option.bind_eq_bind, Option.bind_some, Option.pure_def,
    Option.some.injEq]
  omega

/-! ## Characters -/

section Characters

variable {rest more chars : List Char}

/-- The escape of a unit that starts no pair stands for one character, also in front of another
    such escape. -/
theorem stringBody_unit (a b c d : Char) (unit : Nat) (hunit : unit? a b c d = some unit)
    (hhigh : isHighSurrogate unit = false) (h : stringBody rest = some (chars, more)) :
    stringBody ('\\' :: 'u' :: a :: b :: c :: d :: rest) =
      some (charOfUnit unit :: chars, more) := by
  by_cases hnext : ∃ e f g i after, rest = '\\' :: 'u' :: e :: f :: g :: i :: after
  · obtain ⟨e, f, g, i, after, rfl⟩ := hnext
    -- Whatever the next escape is, the two make no pair.
    have hpaired : (do
        let second ← unit? e f g i
        guard (isHighSurrogate unit && isLowSurrogate second)
        return Char.ofNat (0x10000 + 0x400 * (unit - 0xD800) + (second - 0xDC00))) = none := by
      rw [hhigh]
      cases unit? e f g i <;> rfl
    rw [stringBody, hunit, Option.bind_eq_bind, Option.bind_some, hpaired, h]
    rfl
  · rw [stringBody, hunit, h]
    · rfl
    · intro e f g i after hrest
      exact hnext ⟨e, f, g, i, after, hrest⟩

/-- The escapes of a pair stand for one character. -/
theorem stringBody_pair (a b c d e f g i : Char) (high low : Nat)
    (hhigh : unit? a b c d = some high) (hlow : unit? e f g i = some low)
    (hpair : isHighSurrogate high && isLowSurrogate low)
    (h : stringBody rest = some (chars, more)) :
    stringBody ('\\' :: 'u' :: a :: b :: c :: d :: '\\' :: 'u' :: e :: f :: g :: i :: rest) =
      some (Char.ofNat (0x10000 + 0x400 * (high - 0xD800) + (low - 0xDC00)) :: chars, more) := by
  have hpaired : (do
      let second ← unit? e f g i
      guard (isHighSurrogate high && isLowSurrogate second)
      return Char.ofNat (0x10000 + 0x400 * (high - 0xD800) + (second - 0xDC00))) =
        some (Char.ofNat (0x10000 + 0x400 * (high - 0xD800) + (low - 0xDC00))) := by
    rw [hlow, Option.bind_eq_bind, Option.bind_some, hpair]
    rfl
  rw [stringBody, hhigh, Option.bind_eq_bind, Option.bind_some, hpaired, h]
  rfl

/-- The escape by a letter stands for one character. -/
theorem stringBody_letter (letter c : Char) (hletter : letter ≠ 'u')
    (hc : simpleEscape? letter = some c) (h : stringBody rest = some (chars, more)) :
    stringBody ('\\' :: letter :: rest) = some (c :: chars, more) := by
  rw [stringBody, hc, h]
  · rfl
  · exact fun _ _ _ _ _ _ _ _ _ hu => absurd hu hletter
  · exact fun _ _ _ _ _ hu => absurd hu hletter

/-- A character that is not escaped stands for itself. -/
theorem stringBody_plain (c : Char) (hquote : c ≠ '"') (hslash : c ≠ '\\') (hc : 0x20 ≤ c.toNat)
    (h : stringBody rest = some (chars, more)) :
    stringBody (c :: rest) = some (c :: chars, more) := by
  have hguard : (decide (0x20 ≤ c.toNat) && c != '\\') = true := by simp [hc, hslash]
  rw [stringBody, hguard, h]
  · rfl
  · exact hquote
  · exact fun _ _ _ _ _ _ _ _ _ hs => absurd hs hslash
  · exact fun _ _ _ _ _ hs => absurd hs hslash
  · exact fun _ _ hs => absurd hs hslash

/-- A character is no unit of a pair. -/
theorem not_surrogate (c : Char) :
    isHighSurrogate c.toNat = false ∧ isLowSurrogate c.toNat = false := by
  have hvalid : c.toNat < 0xD800 ∨ 0xDFFF < c.toNat ∧ c.toNat < 0x110000 := c.valid
  simp only [isHighSurrogate, isLowSurrogate, Bool.and_eq_false_iff, decide_eq_false_iff_not]
  omega

/-- A character beyond the first plane is put together from its two units. -/
theorem stringBody_beyond (c : Char) (hc : 0x10000 ≤ c.toNat)
    (h : stringBody rest = some (chars, more)) :
    stringBody (unitEscape (0xD800 + (c.toNat - 0x10000) / 0x400) ++
      (unitEscape (0xDC00 + (c.toNat - 0x10000) % 0x400) ++ rest)) = some (c :: chars, more) := by
  have hvalid : c.toNat < 0xD800 ∨ 0xDFFF < c.toNat ∧ c.toNat < 0x110000 := c.valid
  obtain ⟨a, b, c', d, hescape, hhigh⟩ :=
    exists_unitEscape (0xD800 + (c.toNat - 0x10000) / 0x400) (by omega)
  obtain ⟨e, f, g, i, hescape', hlow⟩ :=
    exists_unitEscape (0xDC00 + (c.toNat - 0x10000) % 0x400) (by omega)
  have hpair : isHighSurrogate (0xD800 + (c.toNat - 0x10000) / 0x400) &&
      isLowSurrogate (0xDC00 + (c.toNat - 0x10000) % 0x400) := by
    simp only [isHighSurrogate, isLowSurrogate, Bool.and_eq_true, decide_eq_true_eq]
    omega
  have hwhole := stringBody_pair a b c' d e f g i _ _ hhigh hlow hpair h
  rw [show 0x10000 + 0x400 * (0xD800 + (c.toNat - 0x10000) / 0x400 - 0xD800) +
    (0xDC00 + (c.toNat - 0x10000) % 0x400 - 0xDC00) = c.toNat by omega, Char.ofNat_toNat] at hwhole
  rw [hescape, hescape']
  exact hwhole

/-- A character is read back, whatever follows it. -/
theorem stringBody_escapedChar (c : Char) (h : stringBody rest = some (chars, more)) :
    stringBody (escapedChar c ++ rest) = some (c :: chars, more) := by
  have hletter (letter : Char) {d : Char} (hd : simpleEscape? letter = some d) (hu : letter ≠ 'u')
      (hc : c = d) : stringBody (['\\', letter] ++ rest) = some (c :: chars, more) :=
    stringBody_letter letter c hu (by rw [hc, hd]) h
  have hofNat (n : Nat) (hn : c.toNat == n) : c = Char.ofNat n := by
    rw [← eq_of_beq hn, Char.ofNat_toNat]
  unfold escapedChar
  -- Seven characters are written as a letter behind a backslash.
  split
  · rename_i hc
    exact hletter '"' rfl (by decide) (eq_of_beq hc)
  rename_i hquote
  split
  · rename_i hc
    exact hletter '\\' rfl (by decide) (eq_of_beq hc)
  rename_i hslash
  split
  · rename_i hc
    exact hletter 'n' rfl (by decide) (eq_of_beq hc)
  split
  · rename_i hc
    exact hletter 'r' rfl (by decide) (eq_of_beq hc)
  split
  · rename_i hc
    exact hletter 't' rfl (by decide) (eq_of_beq hc)
  split
  · rename_i hc
    exact hletter 'b' rfl (by decide) (hofNat 8 hc)
  split
  · rename_i hc
    exact hletter 'f' rfl (by decide) (hofNat 12 hc)
  -- The others stand for themselves, or are written as one unit or as two.
  split
  · rename_i hc
    rw [Bool.and_eq_true, decide_eq_true_eq, decide_eq_true_eq] at hc
    exact stringBody_plain c (by simpa using hquote) (by simpa using hslash) hc.1 h
  split
  · rename_i hc
    obtain ⟨hhigh, hlow⟩ := not_surrogate c
    obtain ⟨a, b, c', d, hescape, hunit⟩ := exists_unitEscape c.toNat hc
    have hchar : charOfUnit c.toNat = c := by
      rw [charOfUnit, hhigh, hlow, Bool.or_false, if_neg Bool.false_ne_true, Char.ofNat_toNat]
    rw [hescape]
    have hwhole := stringBody_unit a b c' d _ hunit hhigh h
    rwa [hchar] at hwhole
  · rename_i hc
    rw [List.append_assoc]
    exact stringBody_beyond c (by omega) h

end Characters

/-! ## Texts -/

/-- A text is read back up to its closing quotation mark. -/
theorem stringBody_quoted (cs rest : List Char) :
    stringBody (cs.flatMap escapedChar ++ '"' :: rest) = some (cs, rest) := by
  induction cs with
  | nil => rw [List.flatMap_nil, List.nil_append, stringBody]
  | cons c cs ih =>
    rw [List.flatMap_cons, List.append_assoc]
    exact stringBody_escapedChar c ih

theorem toList_quoted (s : String) :
    (quoted s).toList = '"' :: (s.toList.flatMap escapedChar ++ ['"']) := by
  rw [quoted, String.toList_ofList, List.cons_append]

/-- A text is a value that ends with its closing quotation mark. -/
theorem value?_quoted (depth : Nat) (s : String) (rest : List Char) :
    value? (depth + 1) ((quoted s).toList ++ rest) = some (.string s, rest) := by
  rw [toList_quoted, List.cons_append, List.append_assoc, List.singleton_append, value?,
    stringBody_quoted]
  show some (Json.string (String.ofList s.toList), rest) = _
  rw [String.ofList_toList]

/-! ## Blanks -/

/-- The characters that set a line in are blanks. -/
def IsPad (pad : String) : Prop := ∀ c ∈ pad.toList, isBlank c

theorem isPad_empty : IsPad "" := by
  simp [IsPad]

theorem IsPad.inner {pad : String} (h : IsPad pad) : IsPad (pad ++ indentStep) := by
  intro c hc
  rw [String.toList_append, List.mem_append] at hc
  rcases hc with hc | hc
  · exact h c hc
  · obtain rfl : c = ' ' := by simpa [indentStep] using hc
    rfl

/-- A line break and what sets the next line in are skipped in front of a token. -/
theorem skipBlanks_line {pad : String} (h : IsPad pad) (c : Char) (cs : List Char)
    (hc : isBlank c = false) : skipBlanks ('\n' :: (pad.toList ++ c :: cs)) = c :: cs := by
  rw [skipBlanks, List.dropWhile_cons_of_pos (by rfl), List.dropWhile_append_of_pos h,
    List.dropWhile_cons_of_neg (by simp [hc])]

/-! ## Values -/

/-- The value is read back from its text: the text starts with a token, and whatever follows it, a
    depth of its length is enough to read it. -/
structure ReadBack (v : Json) : Prop where
  starts : ∀ pad, ∃ c cs, (renderIn pad v).toList = c :: cs ∧ isBlank c = false
  reads : ∀ pad depth rest, IsPad pad → (renderIn pad v).toList.length ≤ depth →
    value? depth ((renderIn pad v).toList ++ rest) = some (v, rest)

theorem readBack_string (s : String) : ReadBack (.string s) where
  starts pad := ⟨_, _, toList_quoted s, rfl⟩
  reads pad depth rest _ hdepth := by
    simp only [renderIn] at hdepth ⊢
    have hpos : 0 < (quoted s).toList.length := by
      rw [toList_quoted]
      exact Nat.zero_lt_succ _
    obtain ⟨d, rfl⟩ : ∃ d, depth = d + 1 := ⟨depth - 1, by omega⟩
    exact value?_quoted d s rest

/-- A new name comes behind the others. -/
theorem insertMember_new (before : List (String × Json)) (name : String) (value : Json)
    (hnew : name ∉ before.map (·.1)) :
    insertMember before name value = before ++ [(name, value)] := by
  rw [insertMember, if_neg]
  rw [List.any_eq_true]
  intro h
  obtain ⟨member, hmember, hname⟩ := h
  exact hnew (List.mem_map.mpr ⟨member, hmember, eq_of_beq hname⟩)

/-! ## Members -/

/-- The text of a member of an object. -/
def memberText (pad name : String) (value : Json) : String :=
  quoted name ++ ": " ++ renderIn pad value

theorem toList_memberText (pad name : String) (value : Json) :
    (memberText pad name value).toList = '"' :: (name.toList.flatMap escapedChar ++
      '"' :: ':' :: ' ' :: (renderIn pad value).toList) := by
  rw [memberText, String.toList_append, String.toList_append, toList_quoted,
    show ": ".toList = [':', ' '] from rfl]
  simp only [List.cons_append, List.append_assoc, List.nil_append]

/-- Each further member stands behind a comma on a line of its own. -/
theorem toList_renderMembers (pad name : String) (value : Json) (members : List (String × Json)) :
    (renderMembers pad ((name, value) :: members)).toList =
      ',' :: '\n' :: (pad.toList ++ ((memberText pad name value).toList ++
        (renderMembers pad members).toList)) := by
  rw [renderMembers, memberText]
  simp only [String.toList_append, List.append_assoc]
  rfl

/-- An object that is not empty has its first member on a line of its own, and so its end. -/
theorem toList_renderIn_object (pad name : String) (value : Json)
    (members : List (String × Json)) :
    (renderIn pad (.object ((name, value) :: members))).toList =
      '\x7b' :: '\n' :: ((pad ++ indentStep).toList ++
        ((memberText (pad ++ indentStep) name value).toList ++
          ((renderMembers (pad ++ indentStep) members).toList ++
            '\n' :: (pad.toList ++ ['\x7d'])))) := by
  rw [renderIn, memberText]
  simp only [String.toList_append, List.append_assoc]
  rfl

section Members

variable {pad : String} {depth : Nat} {before : List (String × Json)} {rest : List Char}

theorem skipBlanks_member (hpad : IsPad pad) (name : String) (value : Json) (cs : List Char) :
    skipBlanks ('\n' :: (pad.toList ++ ((memberText pad name value).toList ++ cs))) =
      (memberText pad name value).toList ++ cs := by
  rw [toList_memberText, List.cons_append]
  exact skipBlanks_line hpad _ _ rfl

/-- A value has a shorter text than a member that has it. -/
private theorem exists_depth {name : String} {value : Json} (n : Nat)
    (hdepth : (memberText pad name value).toList.length + n ≤ depth) :
    ∃ d, depth = d + 1 ∧ (renderIn pad value).toList.length + n ≤ d := by
  rw [toList_memberText] at hdepth
  simp only [List.length_append, List.length_cons] at hdepth
  exact ⟨depth - 1, by omega, by omega⟩

private theorem new_of_nodup {name : String} {value : Json} {members : List (String × Json)}
    (hnames : ((before ++ (name, value) :: members).map (·.1)).Nodup) :
    name ∉ before.map (·.1) := by
  rw [List.map_append, List.nodup_append] at hnames
  exact fun hmem => hnames.2.2 name hmem name List.mem_cons_self rfl

/-- A member is read; what is behind it tells whether another one follows. -/
theorem members?_member (hpad : IsPad pad) {name : String} {value : Json} (tail : List Char)
    (hvalue : ReadBack value) (hnew : name ∉ before.map (·.1))
    (hdepth : (renderIn pad value).toList.length ≤ depth) :
    members? (depth + 1) before ((memberText pad name value).toList ++ tail) =
      match skipBlanks tail with
      | '\x7d' :: rest => some (before ++ [(name, value)], rest)
      | ',' :: rest => members? depth (before ++ [(name, value)]) (skipBlanks rest)
      | _ => none := by
  obtain ⟨c, cs, htext, hc⟩ := hvalue.starts pad
  have hblank : skipBlanks (' ' :: ((renderIn pad value).toList ++ tail)) =
      (renderIn pad value).toList ++ tail := by
    rw [htext, List.cons_append, skipBlanks, List.dropWhile_cons_of_pos (by rfl),
      List.dropWhile_cons_of_neg (by simp [hc])]
  -- Between a name and its value stand a colon and a blank.
  have hcolon : skipBlanks (':' :: ' ' :: ((renderIn pad value).toList ++ tail)) =
      ':' :: ' ' :: ((renderIn pad value).toList ++ tail) := rfl
  rw [toList_memberText]
  simp only [List.cons_append, List.append_assoc]
  rw [members?, stringBody_quoted]
  simp only [Option.bind_eq_bind, Option.bind_some, hcolon, hblank,
    hvalue.reads pad depth tail hpad hdepth, String.ofList_toList,
    insertMember_new before name value hnew]
  rfl

/-- The members of an object are read up to what closes it. -/
theorem members?_render (hpad : IsPad pad) (members : List (String × Json)) (name : String)
    (value : Json) (close : List Char) (hclose : skipBlanks close = '\x7d' :: rest)
    (hvalue : ReadBack value) (hread : ∀ m ∈ members, ReadBack m.2)
    (hnames : ((before ++ (name, value) :: members).map (·.1)).Nodup)
    (hdepth : (memberText pad name value).toList.length +
      (renderMembers pad members).toList.length ≤ depth) :
    members? depth before ((memberText pad name value).toList ++
      ((renderMembers pad members).toList ++ close)) =
        some (before ++ (name, value) :: members, rest) := by
  -- On the members that follow: the one that was read moves to those before.
  induction members generalizing before name value depth with
  | nil =>
    obtain ⟨d, rfl, hd⟩ := exists_depth _ hdepth
    rw [members?_member hpad _ hvalue (new_of_nodup hnames) (by omega), renderMembers,
      String.toList_empty, List.nil_append, hclose]
    rfl
  | cons member members ih =>
    obtain ⟨name', value'⟩ := member
    rw [List.forall_mem_cons] at hread
    obtain ⟨d, rfl, hd⟩ := exists_depth _ hdepth
    rw [toList_renderMembers] at hd ⊢
    simp only [List.length_cons, List.length_append] at hd
    have hcomma (cs : List Char) : skipBlanks (',' :: cs) = ',' :: cs := rfl
    rw [members?_member hpad _ hvalue (new_of_nodup hnames) (by omega)]
    simp only [List.cons_append, List.append_assoc, hcomma, skipBlanks_member hpad]
    rw [ih name' value' hread.1 hread.2 (by rwa [List.append_cons] at hnames) (by omega),
      List.append_assoc, List.singleton_append]

end Members

/-! ## Whole values -/

/-- An object is read back if its values are. -/
theorem readBack_object (members : List (String × Json)) (hnames : (members.map (·.1)).Nodup)
    (hread : ∀ m ∈ members, ReadBack m.2) : ReadBack (.object members) := by
  cases members with
  | nil =>
    have htext (pad : String) : (renderIn pad (.object [])).toList = ['\x7b', '\x7d'] := by
      rw [renderIn]
      rfl
    refine ⟨fun pad => ⟨_, _, htext pad, rfl⟩, fun pad depth rest _ hdepth => ?_⟩
    rw [htext] at hdepth ⊢
    obtain ⟨d, rfl⟩ : ∃ d, depth = d + 1 := ⟨depth - 1, by simp at hdepth; omega⟩
    rw [List.cons_append, value?]
    rfl
  | cons member members =>
    obtain ⟨name, value⟩ := member
    rw [List.forall_mem_cons] at hread
    refine ⟨fun pad => ⟨_, _, toList_renderIn_object pad name value members, rfl⟩,
      fun pad depth rest hpad hdepth => ?_⟩
    rw [toList_renderIn_object] at hdepth ⊢
    simp only [List.length_cons, List.length_append] at hdepth
    obtain ⟨d, rfl⟩ : ∃ d, depth = d + 1 := ⟨depth - 1, by omega⟩
    have hmembers : members? d [] _ = some ([] ++ (name, value) :: members, rest) :=
      members?_render hpad.inner members name value _ (skipBlanks_line hpad '\x7d' rest rfl)
        hread.1 hread.2 hnames (by omega)
    simp only [List.cons_append, List.append_assoc, List.nil_append]
    rw [value?, skipBlanks_member hpad.inner]
    -- The first member starts with a quotation mark, so the object is not empty.
    rw [toList_memberText, List.cons_append] at hmembers ⊢
    show (members? d [] ('"' :: _) >>= _) = _
    rw [hmembers]
    rfl

/-- The leaves of the value are texts, and no object has two members of one name. -/
inductive OfTexts : Json → Prop
  | string (s : String) : OfTexts (.string s)
  | object (members : List (String × Json)) (names : (members.map (·.1)).Nodup)
      (nested : ∀ m ∈ members, OfTexts m.2) : OfTexts (.object members)

theorem OfTexts.readBack {v : Json} (h : OfTexts v) : ReadBack v := by
  induction h with
  | string s => exact readBack_string s
  | object members names _ ih => exact readBack_object members names ih

/-- Such a value is read back from its text. -/
theorem parse?_render (v : Json) (h : OfTexts v) : parse? v.render = some v := by
  obtain ⟨c, cs, htext, hc⟩ := h.readBack.starts ""
  have hread := h.readBack.reads "" ((render v).toList.length + 1) [] isPad_empty (Nat.le_succ _)
  -- There is nothing to skip in front of the value.
  have hstart : skipBlanks (render v).toList = (render v).toList := by
    rw [render, htext, skipBlanks, List.dropWhile_cons_of_neg (by simp [hc])]
  rw [List.append_nil] at hread
  rw [render] at hstart hread ⊢
  simp only [parse?, hstart, hread, Option.bind_eq_bind, Option.bind_some]
  rfl

end CellCode.Json
