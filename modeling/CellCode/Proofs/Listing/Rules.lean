import CellCode.Proofs.Listing.Capacity
import CellCode.Proofs.Listing.Tables

/-!
# Listings that can be written again

Raw bits outside of cells may be anything, a cell may be given where code is expected, and what a
program jumps through need not be a dictionary. Listings that do none of this come from a program
that tells its cells from its code and has code in all its jump tables.

* `Obeys`           the rules for items
* `Obeys.program`   what such items are assembled from
-/

namespace CellCode

/-- The instruction has a dictionary, with keys as wide as its number says, and values with a
    property. -/
def Program.Instruction.TakesTable (has : Cell → Prop) (i : Program.Instruction) : Prop :=
  ∃ width c, i.operands = [.integer width, .cell c] ∧ 0 ≤ width ∧
    Dictionary.Tree has width.toNat c

/-- All jump tables in a code have values with a property. -/
def Program.Tabled (has : Cell → Prop) (p : Program) : Prop :=
  ∀ i next, [i, next] <:+: p → i.name ∈ dictionaryConstants → next.name ∈ dictionaryJumps →
    i.TakesTable has

namespace Listing

/-! ## The rules -/

/-- The mnemonics for which cells may be written out. -/
def cellTakers : List String := ["PUSHREF", "PUSHREFSLICE", "DICTPUSHCONST", "PFXDICTSWITCH"]

/-- An operand of an instruction, given which codes keep to the rules. A cell may hold
    anything. -/
inductive Term.Obeys (obeys : List Item → Prop) (name : String) : Term → Prop
  | integer (v : Int) : Obeys obeys name (.integer v)
  | stack (n : Nat) : Obeys obeys name (.stack n)
  | control (n : Nat) : Obeys obeys name (.control n)
  | bits (literal : String) : Obeys obeys name (.bits literal)
  | cell (t : CellTerm) (h : name ∈ cellTakers) : Obeys obeys name (.cell t)
  | dict (line : Nat) (entries : List (Int × List Item)) (h : ∀ entry ∈ entries, obeys entry.2) :
      Obeys obeys name (.dict line entries)

/-- An instruction; raw bits stand in cells only. -/
inductive Item.Obeys (obeys : List Item → Prop) : Item → Prop
  | instruction (line : Nat) (name : String) (terms : List Term) (blocks : List (List Item))
      (terms_obey : ∀ t ∈ terms, t.Obeys obeys name) (blocks_obey : ∀ block ∈ blocks, obeys block) :
      Obeys obeys (.instruction line name terms blocks)

/-- The item is an instruction with one of these names. -/
def Item.IsNamed (names : List String) : Item → Prop
  | .instruction _ name _ _ => name ∈ names
  | .blob _ => False

/-- One of the operands is a dictionary. -/
def Item.TakesDict : Item → Prop
  | .instruction _ _ terms _ => ∃ line entries, .dict line entries ∈ terms
  | .blob _ => False

/-- The items keep to the rules: each of them does, nested codes do, and a constant that the next
    instruction jumps through is written as a dictionary. -/
inductive Obeys : List Item → Prop
  | intro {items : List Item} (obeys : List Item → Prop) (nested : ∀ body, obeys body → Obeys body)
      (each : ∀ item ∈ items, item.Obeys obeys)
      (tables : ∀ item next, [item, next] <:+: items → item.IsNamed dictionaryConstants →
        next.IsNamed dictionaryJumps → item.TakesDict) : Obeys items

/-! ## Operands -/

/-- Where an assembled operand comes from: code is a program, or the format has no place for
    programs. -/
private inductive Origin (good : Program → Fragment → Prop) (format : Opcode.Format) :
    Operand Fragment → Prop
  | integer (v : Int) : Origin good format (.integer v)
  | stack (i : Int) : Origin good format (.stack i)
  | control (i : Int) : Origin good format (.control i)
  | bits (b : Bits) : Origin good format (.bits b)
  | code (body : Program) (f : Fragment) (h : good body f) : Origin good format (.code f none)
  | cell (f : Fragment) (h : ∀ field ∈ format.fields, field.takesCode → field = .cell) :
      Origin good format (.code f none)

variable {good : Program → Fragment → Prop}

/-- The field decides whether code is taken for a program or for a cell. -/
private theorem Origin.given (format : Opcode.Format) (field : Field) (o : Operand Fragment)
    (h : Origin good format o) (hfield : field ∈ format.fields) (hkind : field.SameKind o) :
    ∃ p : Program.Operand, p.Given good o ∧ p.MayStandIn field := by
  cases h with
  | integer v => exact ⟨_, .integer v, trivial⟩
  | stack i => exact ⟨_, .stack i, trivial⟩
  | control i => exact ⟨_, .control i, trivial⟩
  | bits b => exact ⟨_, .bits b, trivial⟩
  | code body f h =>
    by_cases hcell : field = .cell
    · exact ⟨_, .cell f, hcell⟩
    · exact ⟨_, .code h, hcell⟩
  | cell f h => exact ⟨_, .cell f, h field hfield hkind⟩

/-- The instructions that take a cell take no code. -/
private theorem cellTakers_fields : ∀ h ∈ Opcode.instructions, h.name ∈ cellTakers →
    ∀ field ∈ h.fields, field.takesCode → field = .cell := by
  decide +kernel

/-- Constant dictionaries have their width before them. -/
private theorem dictionaryConstants_fields : ∀ h ∈ Opcode.instructions,
    h.name ∈ dictionaryConstants → h.fields = [.unsigned 10 0, .cell] := by
  decide +kernel

variable (file : String) {obeys : List Item → Prop}

/-- What the rules make of an operand. -/
private theorem Term.Obeys.origin (format : Opcode.Format) (hmem : format ∈ Opcode.instructions)
    (arguments : List Argument) (operands : List (Operand Fragment))
    (hresolve : List.Forall₂ (fun argument o => argument.resolve arguments = .ok o) arguments
      operands) (hkinds : List.Forall₂ Field.SameKind format.fields operands)
    (t : Term) (argument : Argument) (o : Operand Fragment) (h : t.Obeys obeys format.name)
    (hargument : assembleTerm file t = .ok argument) (ho : argument.resolve arguments = .ok o) :
    Origin good format o := by
  cases h with
  | integer v =>
    rw [assembleTerm] at hargument
    cases hargument
    cases ho
    exact .integer v
  | stack n =>
    rw [assembleTerm] at hargument
    cases hargument
    cases ho
    exact .stack n
  | control n =>
    rw [assembleTerm] at hargument
    cases hargument
    cases ho
    exact .control n
  | bits literal =>
    rw [assembleTerm] at hargument
    obtain ⟨b, _, hargument⟩ := (bind_eq_ok _ _ _).mp hargument
    cases hargument
    cases ho
    exact .bits b
  | cell t hname =>
    rw [assembleTerm] at hargument
    obtain ⟨f, _, hargument⟩ := (bind_eq_ok _ _ _).mp hargument
    cases hargument
    cases ho
    exact .cell f (cellTakers_fields format hmem hname)
  | dict line entries _ =>
    rw [assembleTerm] at hargument
    obtain ⟨assembled, _, hargument⟩ := (bind_eq_ok _ _ _).mp hargument
    cases hargument
    obtain ⟨f, hf, ho⟩ := (bind_eq_ok _ _ _).mp ho
    cases ho
    exact .cell f (buildDictionary_fields format hmem arguments operands hresolve hkinds line
      assembled f hf)

/-- A dictionary among the operands of a constant is its cell. -/
private theorem takesTable_of_dict {has : Cell → Prop} (arguments : List Argument)
    (operands : List (Operand Fragment)) (ps : List Program.Operand)
    (hresolve : List.Forall₂ (fun argument o => argument.resolve arguments = .ok o) arguments
      operands) (hkinds : List.Forall₂ Field.SameKind [.unsigned 10 0, .cell] operands)
    (hgiven : List.Forall₂ (Program.Operand.Given good) ps operands)
    (hstand : List.Forall₂ Program.Operand.MayStandIn [.unsigned 10 0, .cell] ps)
    (line : Nat) (entries : List (Int × Fragment)) (hdict : .dict line entries ∈ arguments)
    (hentries : ∀ e ∈ entries, e.2.builder.Buildable → has e.2.builder.cell) :
    ∃ width c, ps = [.integer width, .cell c] ∧ 0 ≤ width ∧ Dictionary.Tree has width.toNat c := by
  obtain ⟨o, ho, hresolved⟩ := forall₂_mem_left _ _ hresolve _ hdict
  obtain ⟨f, hf, hfo⟩ := (bind_eq_ok _ _ _).mp hresolved
  cases hfo
  obtain ⟨width, hwidth, hpos, htree⟩ := buildDictionary_tree line entries arguments f hentries hf
  have hinteger := firstInteger?_mem arguments operands width hresolve hwidth
  -- The number stands in the first place and the dictionary in the second.
  cases hkinds with
  | @cons _ o₁ _ _ hkind₁ hkinds =>
    cases hkinds with
    | @cons _ o₂ _ _ hkind₂ hnil =>
      cases hnil
      obtain rfl : .integer width = o₁ := by
        rcases List.mem_cons.mp hinteger with h | h
        · exact h
        · obtain rfl := List.mem_singleton.mp h
          cases hkind₂
      obtain rfl : .code f none = o₂ := by
        rcases List.mem_cons.mp ho with h | h
        · cases h
        · exact List.mem_singleton.mp h
      cases hgiven with
      | cons hfirst hgiven =>
        cases hgiven with
        | cons hsecond hnil =>
          cases hnil
          cases hfirst
          cases hsecond with
          | cell f => exact ⟨width, _, rfl, hpos, htree⟩
          | code h =>
            cases hstand with
            | cons _ hstand =>
              cases hstand with
              | cons hcell _ => exact absurd rfl hcell

/-! ## Instructions -/

/-- What the rules say of the instruction that an item stands for. -/
private structure Item.StandsFor (has : Cell → Prop) (item : Item) (i : Program.Instruction) :
    Prop where
  named : ∀ names, i.name ∈ names → item.IsNamed names
  wellKinded : i.WellKinded
  table : item.TakesDict → i.name ∈ dictionaryConstants → i.TakesTable has

/-- An item that keeps to the rules is assembled from an instruction. -/
private theorem Item.Obeys.standsFor {has : Cell → Prop}
    (hgood : ∀ body f, obeys body → (assembleItems file body >>= pack) = .ok f →
      (∃ p, good p f) ∧ (f.builder.Buildable → has f.builder.cell))
    (item : Item) (command : Command) (h : item.Obeys obeys)
    (hcommand : assembleItem file item = .ok command) :
    ∃ i, item.StandsFor has i ∧ i.Given good command := by
  obtain ⟨line, name, terms, blocks, hterms, hblocks⟩ := h
  obtain ⟨arguments, fragments, e, harguments, hfragments, hencode, rfl⟩ :=
    (assembleItem_eq_ok file line name terms blocks command).mp hcommand
  generalize hall : arguments ++ fragments.map (fun code => Argument.operand (.code code none)) =
    all at hencode
  obtain ⟨operands, hresolve, hencoded⟩ := (encodeInstruction_eq_ok line name all e).mp hencode
  obtain ⟨format, hcandidate, hformat, _⟩ := firstEncoding_eq_ok operands _ none e hencoded
  obtain ⟨hmem, hname⟩ := List.mem_filter.mp hcandidate
  obtain rfl := eq_of_beq hname
  obtain ⟨hkinds, _⟩ := format.encode_holds operands e hformat
  -- An operand comes from a term or from a block in braces.
  have horigin : ∀ o ∈ operands, Origin good format o := by
    intro o ho
    obtain ⟨argument, hargument, hresolved⟩ := forall₂_mem_right _ _ hresolve o ho
    rw [← hall] at hargument
    rcases List.mem_append.mp hargument with hargument | hargument
    · obtain ⟨t, ht, hassemble⟩ := forall₂_mem_right _ _ harguments argument hargument
      exact (hterms t ht).origin file format hmem all operands hresolve hkinds t argument o
        hassemble hresolved
    · obtain ⟨f, hf, rfl⟩ := List.mem_map.mp hargument
      obtain ⟨block, hblock, hassemble⟩ := forall₂_mem_right _ _ hfragments f hf
      obtain ⟨⟨body, hbody⟩, _⟩ := hgood block f (hblocks block hblock) hassemble
      cases hresolved
      exact .code body f hbody
  obtain ⟨ps, hstand, hgiven⟩ := forall₂_exists
    (s := fun p field => Program.Operand.MayStandIn field p)
    (t := fun p o => Program.Operand.Given good p o)
    (fun field o ⟨p, hgiven, hstand⟩ => ⟨p, hstand, hgiven⟩) format.fields operands
    (forall₂_imp_mem
      (s := fun field o => ∃ p : Program.Operand, p.Given good o ∧ p.MayStandIn field)
      _ _ (fun field hfield o ho hkind => (horigin o ho).given format field o hfield hkind) hkinds)
  refine ⟨.mk format.name ps, ⟨fun _ hnames => hnames, ?_, ?_⟩,
    .intro operands e _ hgiven hencoded⟩
  · exact Program.Instruction.wellKinded_of_format _ format hmem rfl hstand.flip
  · -- The values of the table are the codes of the entries, which keep to the rules.
    rintro ⟨dictLine, entries, hdict⟩ hconstant
    have hfields := dictionaryConstants_fields format hmem hconstant
    rw [hfields] at hkinds hstand
    obtain ⟨argument, hargument, hassemble⟩ := forall₂_mem_left _ _ harguments _ hdict
    rw [assembleTerm] at hassemble
    obtain ⟨assembled, hassembled, hassemble⟩ := (bind_eq_ok _ _ _).mp hassemble
    cases hassemble
    refine takesTable_of_dict all operands ps hresolve hkinds hgiven hstand.flip dictLine assembled
      (hall ▸ List.mem_append_left _ hargument) ?_
    intro result hresult
    obtain ⟨entry, hentry, hassemble⟩ := forall₂_mem_right _ _
      ((assembleEntries_eq_ok file entries assembled).mp hassembled) result hresult
    obtain ⟨f, hf, rfl⟩ := (assembleEntry_eq_ok file entry result).mp hassemble
    cases hterms _ hdict with
    | dict _ _ hbodies => exact (hgood entry.2 f (hbodies entry hentry) hf).2

/-! ## Programs -/

/-- The program tells cells from code, and its jump tables hold code. -/
structure Orderly (p : Program) (f : Fragment) : Prop where
  assembles : p.Assembles f
  wellKinded : p.WellKinded
  tabled : ∀ q, p.Contains q → q.Tabled IsCode

private theorem body_of_given (i : Program.Instruction) (command : Command) (body : Program)
    (h : i.Given good command) (hbody : .code body ∈ i.operands) : ∃ f, good body f := by
  obtain ⟨operands, e, position, hgiven, _⟩ := h
  obtain ⟨o, _, ho⟩ := forall₂_mem_left _ _ hgiven _ hbody
  cases ho with
  | code h => exact ⟨_, h⟩

/-- Items that keep to the rules are assembled from an orderly program. -/
theorem Obeys.program (items : List Item) (f : Fragment) (h : Obeys items)
    (hf : (assembleItems file items >>= pack) = .ok f) : ∃ p, Orderly p f := by
  -- Induction on the rules: codes inside the items keep to them too, so they have programs.
  induction h generalizing f with
  | @intro items obeys _ each tables ih =>
    have hgood (body : List Item) (g : Fragment) (hbody : obeys body)
        (hg : (assembleItems file body >>= pack) = .ok g) :
        (∃ p, Orderly p g) ∧ (g.builder.Buildable → IsCode g.builder.cell) := by
      obtain ⟨p, hp⟩ := ih body hbody g hg
      refine ⟨⟨p, hp⟩, fun hbuild => ⟨?_, p, g, hp.assembles, hp.wellKinded, rfl⟩⟩
      exact Cell.makeable_of_buildable hbuild (assembleItems_inCapacity file body g hg)
    obtain ⟨commands, hcommands, hpack⟩ := (bind_eq_ok _ _ _).mp hf
    rw [assembleItems_eq_ok] at hcommands
    obtain ⟨p, hitems, hgiven⟩ := forall₂_exists (s := fun i item => Item.StandsFor IsCode item i)
      (t := fun i command => Program.Instruction.Given Orderly i command) (fun _ _ h => h)
      items commands
      (forall₂_imp_mem (s := fun item command => ∃ i, Item.StandsFor IsCode item i ∧
          Program.Instruction.Given Orderly i command) _ _ (fun item hitem command _ hcommand =>
        (each item hitem).standsFor file hgood item command hcommand) hcommands)
    have hbodies (i : Program.Instruction) (hi : i ∈ p) (body : Program)
        (hbody : .code body ∈ i.operands) : ∃ g, Orderly body g := by
      obtain ⟨command, _, hcommand⟩ := forall₂_mem_left _ _ hgiven i hi
      exact body_of_given i command body hcommand hbody
    refine ⟨p, .intro Orderly (fun _ _ h => h.assembles) commands hgiven hpack, ?_, ?_⟩
    · refine (Program.wellKinded_iff p).mpr ?_
      intro i hi
      obtain ⟨item, _, hstands⟩ := forall₂_mem_left _ _ hitems i hi
      refine ⟨hstands.wellKinded, ?_⟩
      intro body hbody
      obtain ⟨g, hg⟩ := hbodies i hi body hbody
      exact hg.wellKinded
    · intro q hq
      cases hq with
      -- Neighbours in the program stand for neighbours among the items.
      | self =>
        intro i next hpair hconstant hjump
        obtain ⟨row, hrow, hstand⟩ := forall₂_row items p [i, next] hitems.flip hpair
        match row, hstand with
        | [item, other], .cons hitem (.cons hother .nil) =>
          exact hitem.table (tables item other hrow (hitem.named _ hconstant)
            (hother.named _ hjump)) hconstant
      | inside i hi hbody hq =>
        obtain ⟨g, hg⟩ := hbodies i hi _ hbody
        exact hg.tabled q hq

end Listing

end CellCode
