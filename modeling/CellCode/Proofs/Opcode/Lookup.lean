import CellCode.Opcode.Standard
import CellCode.Proofs.Result

/-!
# Finding the format of an instruction

A table keeps its formats grouped by opcode length, the longest first, and takes the first
group in which an opcode starts the bits. This module says what that finds: the format with
the longest opcode that starts the bits. A format whose bits are looked up is found again unless
a longer opcode starts them too, and that is what the check against shadowing looks for.

* `findLonger?_eq_none`, `findLonger?_eq_some`   what a look-up finds
* `ofFormats_eq_ok`, `exists_of_ofFormats_eq_error`   which formats make up a table, and which of
  them is refused
* `ofFormats_lookup`   building, looking up and shadowing in any table
-/

namespace CellCode.Opcode.Table

/-- Leaving out repetitions leaves out elements. -/
private theorem eraseDups_sublist {α : Type} [BEq α] [LawfulBEq α] (l : List α) :
    l.eraseDups.Sublist l := by
  -- The list without its head is shorter, also when the repetitions of the head are left out.
  match l with
  | [] => exact .slnil
  | a :: l =>
    rw [List.eraseDups_cons]
    have hlen := List.length_filter_le (fun b => !b == a) l
    have ih := eraseDups_sublist (l.filter fun b => !b == a)
    exact (ih.trans List.filter_sublist).cons_cons a
termination_by l.length

/-- The lengths of the opcodes descend. -/
private theorem lengths_pairwise (formats : List Format) :
    (lengths formats).Pairwise fun m n => n ≤ m := by
  -- Sorting puts the lengths in order, and leaving out repetitions keeps it.
  have hsorted : ((formats.map (·.opcode.length)).mergeSort fun a b => decide (b ≤ a)).Pairwise
      fun a b => decide (b ≤ a) :=
    List.pairwise_mergeSort
      (by intro a b c; simp only [decide_eq_true_eq]; omega)
      (by intro a b; simp only [Bool.or_eq_true, decide_eq_true_eq]; omega) _
  refine ((hsorted.imp ?_).sublist (eraseDups_sublist _))
  intro a b h
  exact of_decide_eq_true h

/-- The lengths of the groups are those of the opcodes. -/
private theorem mem_lengths (formats : List Format) (n : Nat) :
    n ∈ lengths formats ↔ ∃ h ∈ formats, h.opcode.length = n := by
  rw [lengths, List.mem_eraseDups, List.mem_mergeSort, List.mem_map]

/-- What one group of a table offers: a format of the group's length whose opcode starts the
    bits. -/
private theorem group_eq_some (formats : List Format) (bits : Bits) (n : Nat) (h : Format)
    (hf : (formats.filter (·.opcode.length == n)).find? (·.opcode == bits.take n) = some h) :
    h ∈ formats ∧ h.opcode.length = n ∧ h.opcode <+: bits := by
  have hmem := List.mem_filter.mp (List.mem_of_find?_eq_some hf)
  have hop := List.find?_some hf
  simp only [beq_iff_eq] at hop
  exact ⟨hmem.1, by simpa using hmem.2, by rw [hop]; exact List.take_prefix n bits⟩

/-- A group that offers nothing has no opcode that starts the bits. -/
private theorem group_eq_none (formats : List Format) (bits : Bits) (n : Nat)
    (hf : (formats.filter (·.opcode.length == n)).find? (·.opcode == bits.take n) = none)
    (h : Format) (hmem : h ∈ formats) (hlen : h.opcode.length = n) : ¬ h.opcode <+: bits := by
  intro hpre
  -- An opcode that started them would be their first bits, and the group would offer it.
  have hnot := List.find?_eq_none.mp hf h (by simp [hmem, hlen])
  rw [← hlen, ← List.prefix_iff_eq_take.mp hpre] at hnot
  simp at hnot

/-- Nothing is found exactly when no opcode that is long enough starts the bits. -/
theorem findLonger?_eq_none (formats : List Format) (bits : Bits) (least : Int) :
    (ofDistinct formats).findLonger? bits least = none ↔
      ∀ h ∈ formats, h.opcode <+: bits → ¬ least < h.opcode.length := by
  -- Every group is looked at, and nothing is found exactly when none offers anything.
  unfold findLonger?
  simp only [ofDistinct, List.findSome?_eq_none_iff, List.mem_map, forall_exists_index, and_imp,
    forall_apply_eq_imp_iff₂]
  constructor
  · -- The group of the opcode's length is looked at if the length is large enough.
    intro hall h hmem hpre hleast
    have hgroup := hall h.opcode.length ((mem_lengths _ _).mpr ⟨h, hmem, rfl⟩)
    rw [if_pos ⟨hleast, hpre.length_le⟩] at hgroup
    exact group_eq_none formats bits _ hgroup h hmem rfl hpre
  · -- What a group offers has an opcode of its length, which is excluded.
    intro hall n _
    split
    · rename_i hn
      cases hf : (formats.filter (·.opcode.length == n)).find? (·.opcode == bits.take n) with
      | none => rfl
      | some h =>
        obtain ⟨hmem, hlen, hpre⟩ := group_eq_some formats bits n h hf
        exact absurd (hlen ▸ hn.1) (hall h hmem hpre)
    · rfl

/-- What is found starts the bits and is long enough, and nothing longer does. -/
private theorem findLonger?_sound (formats : List Format) (bits : Bits) (least : Int)
    (h : Format) (hf : (ofDistinct formats).findLonger? bits least = some h) :
    h ∈ formats ∧ h.opcode <+: bits ∧ least < h.opcode.length ∧
      ∀ g ∈ formats, g.opcode <+: bits → g.opcode.length ≤ h.opcode.length := by
  unfold findLonger? at hf
  obtain ⟨before, ⟨n, group⟩, after, hgroups, hgroup, hbefore⟩ := List.findSome?_eq_some_iff.mp hf
  simp only [ofDistinct] at hgroups
  -- The groups are those of the lengths, so they split where the lengths do.
  obtain ⟨longer, rest, hlengths, rfl, hrest⟩ := List.map_eq_append_iff.mp hgroups
  obtain ⟨_, shorter, rfl, hm, rfl⟩ := List.map_eq_cons_iff.mp hrest
  cases hm
  dsimp only at hgroup
  split at hgroup
  · rename_i hn
    obtain ⟨hmem, hlen, hpre⟩ := group_eq_some formats bits n h hgroup
    refine ⟨hmem, hpre, hlen ▸ hn.1, ?_⟩
    -- Any other opcode belongs to the same group, to one before it or to one behind it.
    intro g hg hgpre
    have hgl : g.opcode.length ∈ longer ++ n :: shorter := by
      rw [← hlengths]
      exact (mem_lengths _ _).mpr ⟨g, hg, rfl⟩
    have hsorted := lengths_pairwise formats
    rw [hlengths, List.pairwise_append, List.pairwise_cons] at hsorted
    rcases List.mem_append.mp hgl with hlonger | hshort
    · -- A longer opcode that started the bits would have been found before.
      have hge : n ≤ g.opcode.length := hsorted.2.2 _ hlonger n (by simp)
      have hnone := hbefore _ (List.mem_map_of_mem hlonger)
      dsimp only at hnone
      rw [if_pos ⟨by omega, hgpre.length_le⟩] at hnone
      exact absurd hgpre (group_eq_none formats bits _ hnone g hg rfl)
    · -- The lengths of the groups behind are no larger.
      rcases List.mem_cons.mp hshort with heq | hshort
      · omega
      · have := hsorted.2.1.1 _ hshort
        omega
  · cases hgroup

/-- Formats of a table with distinct opcodes are told apart by them. -/
private theorem eq_of_opcode_eq (formats : List Format) (hnodup : (formats.map (·.opcode)).Nodup)
    (g h : Format) (hg : g ∈ formats) (hh : h ∈ formats) (hop : g.opcode = h.opcode) : g = h := by
  -- With different opcodes at different places, equal ones stand in the same place.
  have hpair := List.pairwise_iff_getElem.mp (List.pairwise_map.mp hnodup)
  obtain ⟨i, hi, rfl⟩ := List.getElem_of_mem hg
  obtain ⟨j, hj, rfl⟩ := List.getElem_of_mem hh
  rcases Nat.lt_trichotomy i j with hlt | rfl | hlt
  · exact absurd hop (hpair i j hi hj hlt)
  · rfl
  · exact absurd hop.symm (hpair j i hj hi hlt)

/-- What is found is the format with the longest opcode that starts the bits. -/
theorem findLonger?_eq_some (formats : List Format) (bits : Bits) (least : Int) (h : Format)
    (hnodup : (formats.map (·.opcode)).Nodup) :
    (ofDistinct formats).findLonger? bits least = some h ↔
      h ∈ formats ∧ h.opcode <+: bits ∧ least < h.opcode.length ∧
        ∀ g ∈ formats, g.opcode <+: bits → g.opcode.length ≤ h.opcode.length := by
  constructor
  · exact findLonger?_sound formats bits least h
  · rintro ⟨hmem, hpre, hleast, hmax⟩
    -- What is found instead has an opcode as long, so it has the same.
    cases hf : (ofDistinct formats).findLonger? bits least with
    | none => exact absurd hleast ((findLonger?_eq_none formats bits least).mp hf h hmem hpre)
    | some g =>
      obtain ⟨gmem, gpre, _, gmax⟩ := findLonger?_sound formats bits least g hf
      have hlen : g.opcode.length = h.opcode.length :=
        Nat.le_antisymm (hmax g gmem gpre) (gmax h hmem hpre)
      have hop : g.opcode = h.opcode := by
        rw [List.prefix_iff_eq_take.mp gpre, List.prefix_iff_eq_take.mp hpre, hlen]
      rw [eq_of_opcode_eq formats hnodup g h gmem hmem hop]

/-! ## Building a table -/

variable {formats before : List Format} {h : Format} {t : Table}

/-- The opcodes of the formats differ. -/
def Distinct (formats : List Format) : Prop := formats.Pairwise fun g h => g.opcode ≠ h.opcode

/-- Opcodes still differ with one more if it differs from those before. -/
theorem distinct_append_singleton :
    Distinct (before ++ [h]) ↔ Distinct before ∧ ∀ g ∈ before, g.opcode ≠ h.opcode := by
  simp [Distinct, List.pairwise_append]

/-- A format passes if no earlier one has its opcode. -/
private theorem checkDistinct_eq_ok {all : List Format} :
    checkDistinct before h = .ok all ↔
      (∀ g ∈ before, g.opcode ≠ h.opcode) ∧ all = before ++ [h] := by
  -- The check looks for an earlier format with the same opcode.
  unfold checkDistinct
  cases hf : before.find? (·.opcode == h.opcode) with
  | none =>
    have hnone := List.find?_eq_none.mp hf
    simp only [beq_iff_eq] at hnone
    constructor
    · intro hall
      cases hall
      exact ⟨hnone, rfl⟩
    · rintro ⟨_, rfl⟩
      rfl
  | some g =>
    have hsame := List.find?_some hf
    simp only [beq_iff_eq] at hsame
    constructor
    · intro hall
      cases hall
    · rintro ⟨hne, _⟩
      exact absurd hsame (hne g (List.mem_of_find?_eq_some hf))

/-- A format is refused with the name of an earlier one that has its opcode. -/
private theorem checkDistinct_eq_error {e : TableError} (he : checkDistinct before h = .error e) :
    ∃ g ∈ before, g.opcode = h.opcode ∧ e = .reused h.name g.name := by
  unfold checkDistinct at he
  split at he
  · rename_i g hf
    cases he
    exact ⟨g, List.mem_of_find?_eq_some hf, by simpa using List.find?_some hf, rfl⟩
  · cases he

/-- Formats pass one by one if all opcodes differ. -/
private theorem foldlM_checkDistinct_eq_ok (hbefore : Distinct before) (formats all : List Format) :
    formats.foldlM checkDistinct before = .ok all ↔
      Distinct (before ++ formats) ∧ all = before ++ formats := by
  -- Induction on the formats, with those that have passed.
  induction formats generalizing before with
  | nil =>
    rw [List.append_nil]
    constructor
    · intro hall
      cases hall
      exact ⟨hbefore, rfl⟩
    · rintro ⟨_, rfl⟩
      rfl
  | cons h formats ih =>
    rw [foldlM_cons_eq_ok, List.append_cons]
    constructor
    · rintro ⟨_, hcheck, hrest⟩
      obtain ⟨hne, rfl⟩ := checkDistinct_eq_ok.mp hcheck
      exact (ih (distinct_append_singleton.mpr ⟨hbefore, hne⟩)).mp hrest
    · rintro ⟨hdistinct, rfl⟩
      have hnew : Distinct (before ++ [h]) := (List.pairwise_append.mp hdistinct).1
      have hne := (distinct_append_singleton.mp hnew).2
      exact ⟨_, checkDistinct_eq_ok.mpr ⟨hne, rfl⟩, (ih hnew).mpr ⟨hdistinct, rfl⟩⟩

/-- Formats make up a table exactly when their opcodes differ. -/
theorem ofFormats_eq_ok :
    ofFormats formats = .ok t ↔ Distinct formats ∧ t = ofDistinct formats := by
  unfold ofFormats
  rw [bind_eq_ok]
  constructor
  · rintro ⟨all, hall, ht⟩
    -- The formats start behind none.
    obtain ⟨hdistinct, rfl⟩ := (foldlM_checkDistinct_eq_ok .nil formats all).mp hall
    cases ht
    exact ⟨hdistinct, rfl⟩
  · rintro ⟨hdistinct, rfl⟩
    exact ⟨formats, (foldlM_checkDistinct_eq_ok .nil formats formats).mpr ⟨hdistinct, rfl⟩, rfl⟩

/-- Behind formats that differ the first one to be refused has the opcode of one before it. -/
private theorem exists_of_foldlM_checkDistinct_eq_error {e : TableError} (hbefore : Distinct before)
    (he : formats.foldlM checkDistinct before = .error e) :
    ∃ more h after, formats = more ++ h :: after ∧ Distinct (before ++ more) ∧
      ∃ g ∈ before ++ more, g.opcode = h.opcode ∧ e = .reused h.name g.name := by
  -- Induction on the formats: the first one is refused, or one of the others is.
  induction formats generalizing before with
  | nil => cases he
  | cons h formats ih =>
    rw [List.foldlM_cons, bind_eq_error] at he
    rcases he with he | ⟨_, hcheck, he⟩
    · refine ⟨[], h, formats, rfl, ?_, ?_⟩ <;> rw [List.append_nil]
      · exact hbefore
      · exact checkDistinct_eq_error he
    · obtain ⟨hne, rfl⟩ := checkDistinct_eq_ok.mp hcheck
      obtain ⟨more, g, after, rfl, hdistinct, hsame⟩ :=
        ih (distinct_append_singleton.mpr ⟨hbefore, hne⟩) he
      rw [← List.append_cons] at hdistinct hsame
      exact ⟨h :: more, g, after, rfl, hdistinct, hsame⟩

/-- What is refused is a format with the opcode of an earlier one, and both are named. -/
theorem exists_of_ofFormats_eq_error {e : TableError} (he : ofFormats formats = .error e) :
    ∃ before h after, formats = before ++ h :: after ∧ Distinct before ∧
      ∃ g ∈ before, g.opcode = h.opcode ∧ e = .reused h.name g.name := by
  rcases (bind_eq_error _ _ _).mp he with he | ⟨_, _, he⟩
  · exact exists_of_foldlM_checkDistinct_eq_error .nil he
  · cases he

/-! ## Looking up in a table -/

/-- The format has the longest opcode that starts the bits. -/
structure IsLongest (formats : List Format) (bits : Bits) (h : Format) : Prop where
  mem : h ∈ formats
  starts : h.opcode <+: bits
  longest : ∀ g ∈ formats, g.opcode <+: bits → g.opcode.length ≤ h.opcode.length

/-- The look-up finds the format with the longest opcode that starts the bits. -/
theorem find?_eq_some (hdistinct : Distinct formats) (bits : Bits) (h : Format) :
    (ofDistinct formats).find? bits = some h ↔ IsLongest formats bits h := by
  -- Every length is more than the one that a look-up starts with.
  rw [find?, findLonger?_eq_some _ _ _ _ (List.pairwise_map.mpr hdistinct)]
  constructor
  · rintro ⟨hmem, hstarts, _, hlongest⟩
    exact ⟨hmem, hstarts, hlongest⟩
  · rintro ⟨hmem, hstarts, hlongest⟩
    exact ⟨hmem, hstarts, by omega, hlongest⟩

/-- The look-up finds nothing exactly when no opcode starts the bits. -/
theorem find?_eq_none (formats : List Format) (bits : Bits) :
    (ofDistinct formats).find? bits = none ↔ ∀ h ∈ formats, ¬ h.opcode <+: bits := by
  rw [find?, findLonger?_eq_none]
  refine forall₂_congr fun h _ => ?_
  constructor
  · intro hnot hstarts
    exact hnot hstarts (by omega)
  · intro hnot hstarts
    exact absurd hstarts hnot

/-- The bits of a format are looked up as the format that shadows it, or else as itself. -/
theorem find?_eq_shadowing? (hdistinct : Distinct formats) (hmem : h ∈ formats) (bits : Bits)
    (hstarts : h.opcode <+: bits) :
    (ofDistinct formats).find? bits = some (((ofDistinct formats).shadowing? h bits).getD h) := by
  rw [find?_eq_some hdistinct]
  cases hshadow : (ofDistinct formats).shadowing? h bits with
  | none =>
    -- No longer opcode starts the bits, so this one is the longest.
    have hnone := (findLonger?_eq_none _ _ _).mp hshadow
    refine ⟨hmem, hstarts, ?_⟩
    intro g hg hgstarts
    have := hnone g hg hgstarts
    rw [Option.getD_none]
    omega
  | some g =>
    obtain ⟨hg, hgstarts, _, hlongest⟩ :=
      (findLonger?_eq_some _ _ _ _ (List.pairwise_map.mpr hdistinct)).mp hshadow
    exact ⟨hg, hgstarts, hlongest⟩

/-- Formats are refused as a table exactly when two of them have the same opcode. In a table, a
    look-up finds the format with the longest opcode that starts the bits, and nothing exactly when
    no opcode does; the bits of a format are found as the format that shadows it there, and as
    itself if there is none. -/
theorem ofFormats_lookup (formats : List Format) :
    ((∃ e, ofFormats formats = .error e) ↔ ¬ Distinct formats) ∧
    ∀ t, ofFormats formats = .ok t → ∀ bits : Bits,
      (∀ h, t.find? bits = some h ↔ IsLongest formats bits h) ∧
      (t.find? bits = none ↔ ∀ h ∈ formats, ¬ h.opcode <+: bits) ∧
      ∀ h ∈ formats, h.opcode <+: bits → t.find? bits = some ((t.shadowing? h bits).getD h) := by
  refine ⟨⟨?_, ?_⟩, ?_⟩
  · -- A table that is refused has a format with the opcode of an earlier one.
    rintro ⟨e, he⟩ hdistinct
    obtain ⟨before, h, after, rfl, _, g, hg, hsame, _⟩ := exists_of_ofFormats_eq_error he
    exact (List.pairwise_append.mp hdistinct).2.2 g hg h (by simp) hsame
  · -- Opcodes that differ make a table, so if they do not, it is refused.
    intro hshared
    cases hformats : ofFormats formats with
    | error e => exact ⟨e, rfl⟩
    | ok t => exact absurd (ofFormats_eq_ok.mp hformats).1 hshared
  · intro t ht bits
    obtain ⟨hdistinct, rfl⟩ := ofFormats_eq_ok.mp ht
    exact ⟨find?_eq_some hdistinct bits, find?_eq_none formats bits,
      fun h hmem hstarts => find?_eq_shadowing? hdistinct hmem bits hstarts⟩

/-- Formats of which each opcode goes on where the one before ends; the first one is empty. -/
def nested : List Format := [⟨"ANY", [], []⟩, ⟨"ONE", [true], []⟩, ⟨"TWO", [true, false], []⟩]

/-- The bits 100 start with all three opcodes and are found as the last format, which shadows the
    one before; the bits 11 are found as that one. With a second opcode 1 there is no table. -/
theorem ofFormats_lookup_nested :
    ofFormats nested = .ok (ofDistinct nested) ∧
      (ofDistinct nested).find? [true, false, false] = some ⟨"TWO", [true, false], []⟩ ∧
      (ofDistinct nested).shadowing? ⟨"ONE", [true], []⟩ [true, false, false] =
        some ⟨"TWO", [true, false], []⟩ ∧
      (ofDistinct nested).find? [true, true] = some ⟨"ONE", [true], []⟩ ∧
      ∃ e, ofFormats (nested ++ [⟨"UNIT", [true], []⟩]) = .error e := by
  have hdistinct : Distinct nested := by unfold Distinct; decide
  have hok := ofFormats_eq_ok.mpr ⟨hdistinct, rfl⟩
  obtain ⟨-, hlookup⟩ := ofFormats_lookup nested
  have hshadowed : (ofDistinct nested).shadowing? ⟨"ONE", [true], []⟩ [true, false, false] =
      some ⟨"TWO", [true, false], []⟩ := by
    rw [shadowing?, findLonger?_eq_some _ _ _ _ (List.pairwise_map.mpr hdistinct)]
    decide
  obtain ⟨-, -, hself⟩ := hlookup _ hok [true, false, false]
  have htwo := hself ⟨"ONE", [true], []⟩ (by decide) (by decide)
  rw [hshadowed] at htwo
  obtain ⟨hfind, -, -⟩ := hlookup _ hok [true, true]
  have hone := (hfind ⟨"ONE", [true], []⟩).mpr ⟨by decide, by decide, by decide⟩
  refine ⟨hok, htwo, hshadowed, hone, (ofFormats_lookup _).1.mpr ?_⟩
  unfold Distinct
  decide

end CellCode.Opcode.Table
