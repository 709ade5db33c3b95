import CellCode.Code.Loader
import CellCode.Proofs.Lists

/-!
# Program trees

A program tree is a list of instructions whose nested code is again a program tree. Cells hold
code as bits and references, and a store holds it as a graph of codes; both unfold to a program
tree when nested code is entered wherever it is met.

* `Program.Unfolds`      an instruction list, with a way to enter nested code, is this program
* `Program.Unfolds.eq`   it is no other program
* `CodeStore.Holds`      the program in a place of a store
* `Slice.Decodes`        the program that a slice shows
* `Program.Contains`     the program itself and the programs nested in it
-/

namespace CellCode

mutual

/-- An operand of a program tree. -/
inductive Program.Operand
  | integer (value : Int)
  | stack (index : Int)
  | control (index : Int)
  | bits (bits : Bits)
  /-- A cell that is not looked into. -/
  | cell (cell : Cell)
  /-- A program of its own. -/
  | code (body : List Program.Instruction)

/-- An instruction of a program tree. -/
inductive Program.Instruction
  | mk (name : String) (operands : List Program.Operand)

end

/-- A list of instructions, with programs nested to any depth. -/
abbrev Program := List Program.Instruction

namespace Program

/-- The mnemonic of an instruction. -/
def Instruction.name : Program.Instruction → String
  | mk name _ => name

/-- The operands of an instruction. -/
def Instruction.operands : Program.Instruction → List Program.Operand
  | mk _ operands => operands

/-- The program itself, and every program nested in it. -/
inductive Contains : Program → Program → Prop
  | self (p : Program) : Contains p p
  | inside {p body q : Program} (i : Program.Instruction) (mem : i ∈ p)
      (nested : .code body ∈ i.operands) (below : Contains body q) : Contains p q

/-! ## Unfolding -/

variable {κ : Type}

/-- The operand is this one of a program, given which nested codes are which programs. -/
inductive Operand.Is (same : Program → κ → Prop) : Program.Operand → CellCode.Operand κ → Prop
  | integer (v : Int) : Is same (.integer v) (.integer v)
  | stack (i : Int) : Is same (.stack i) (.stack i)
  | control (i : Int) : Is same (.control i) (.control i)
  | bits (b : Bits) : Is same (.bits b) (.bits b)
  | cell (c : Cell) : Is same (.cell c) (.cell c)
  | code {body : Program} {k : κ} (source : Option Cell) (h : same body k) :
      Is same (.code body) (.code k source)

/-- The instruction is this one of a program; marks of jump tables are not part of it. -/
structure Instruction.Is (same : Program → κ → Prop) (p : Program.Instruction)
    (i : CellCode.Instruction κ) : Prop where
  name_eq : p.name = i.name
  operands : List.Forall₂ (Operand.Is same) p.operands (i.operands.filter (!·.isMarker))

/-- The instructions are those of the program, when nested code is entered by `enter`. -/
inductive Unfolds (enter : κ → Option (List (CellCode.Instruction κ))) :
    Program → List (CellCode.Instruction κ) → Prop
  | intro {p : Program} {is : List (CellCode.Instruction κ)} (same : Program → κ → Prop)
      (entered : ∀ body k, same body k → (enter k).isSome)
      (nested : ∀ body k, same body k → ∀ code, enter k = some code → Unfolds enter body code)
      (instructions : List.Forall₂ (Instruction.Is same) p is) : Unfolds enter p is

variable {enter : κ → Option (List (CellCode.Instruction κ))} {same same' : Program → κ → Prop}

/-- Nested codes matter only as far as they occur. -/
theorem Instruction.Is.imp_mem (p : Program.Instruction) (i : CellCode.Instruction κ)
    (hp : p.Is same i)
    (h : ∀ body k, .code body ∈ p.operands → k ∈ i.bodies → same body k → same' body k) :
    p.Is same' i := by
  refine ⟨hp.name_eq, forall₂_imp_mem _ _ ?_ hp.operands⟩
  -- Only code can be told apart by what is nested in it.
  intro p hp o ho hpo
  cases hpo with
  | integer v => exact .integer v
  | stack i => exact .stack i
  | control i => exact .control i
  | bits b => exact .bits b
  | cell c => exact .cell c
  | code source hsame =>
    refine .code source (h _ _ hp ?_ hsame)
    exact List.mem_filterMap.mpr ⟨_, List.mem_of_mem_filter ho, rfl⟩

/-- A wider way to tell nested codes gives the same instruction. -/
theorem Instruction.Is.imp (h : ∀ body k, same body k → same' body k) (p : Program.Instruction)
    (i : CellCode.Instruction κ) (hp : p.Is same i) : p.Is same' i :=
  hp.imp_mem p i fun body k _ _ => h body k

/-- Instructions unfold to a program exactly when they are its instructions and the codes
    nested in them unfold to its nested programs. -/
theorem unfolds_iff (p : Program) (is : List (CellCode.Instruction κ)) :
    Unfolds enter p is ↔ List.Forall₂
      (Instruction.Is fun body k => ∃ code, enter k = some code ∧ Unfolds enter body code)
      p is := by
  constructor
  · -- What was told apart by some relation unfolds by what was entered.
    rintro ⟨same, entered, nested, h⟩
    refine h.imp (Instruction.Is.imp ?_)
    intro body k hsame
    obtain ⟨code, hcode⟩ := Option.isSome_iff_exists.mp (entered body k hsame)
    exact ⟨code, hcode, nested body k hsame code hcode⟩
  · intro h
    refine .intro _ ?_ ?_ h
    · rintro body k ⟨code, hcode, _⟩
      rw [hcode]
      rfl
    · rintro body k ⟨code, hcode, hbody⟩ code' hcode'
      cases hcode.symm.trans hcode'
      exact hbody

private theorem eq_of_forall₂ {α : Type} (as bs : List α) (h : List.Forall₂ (· = ·) as bs) :
    as = bs := by
  rwa [List.forall₂_eq_eq_eq] at h

/-- An operand is one of a program in one way, if nested codes are. -/
private theorem Operand.Is.eq (h : ∀ p q k, same p k → same' q k → p = q) (p q : Program.Operand)
    (o : CellCode.Operand κ) (hp : p.Is same o) (hq : q.Is same' o) : p = q := by
  cases hp with
  | code source hbody =>
    cases hq with
    | code _ hbody' => rw [h _ _ _ hbody hbody']
  | _ => cases hq; rfl

/-- Instructions unfold to one program only. -/
theorem Unfolds.eq (p q : Program) (is : List (CellCode.Instruction κ))
    (hp : Unfolds enter p is) (hq : Unfolds enter q is) : p = q := by
  -- Induction on the first unfolding.
  induction hp generalizing q with
  | intro same entered _ instructions ih =>
    refine eq_of_forall₂ _ _ (forall₂_comp ?_ _ _ _ instructions ((unfolds_iff q _).mp hq))
    rintro ⟨name, operands⟩ i ⟨name', operands'⟩ ⟨hname, hoperands⟩ ⟨hname', hoperands'⟩
    have hnames : name = name' := hname.trans hname'.symm
    -- Nested programs agree by induction, since both are what their code unfolds to.
    have hbodies (p q : Program) (k : κ) (hp : same p k)
        (hq : ∃ code, enter k = some code ∧ Unfolds enter q code) : p = q := by
      obtain ⟨code, hcode, hq⟩ := hq
      exact ih p k hp code hcode q hq
    rw [hnames, show operands = operands' from
      eq_of_forall₂ _ _ (forall₂_comp (fun p o q => Operand.Is.eq hbodies p q o) _ _ _
        hoperands hoperands')]

end Program

/-! ## Stores and slices -/

/-- The store has this program in a place. -/
def CodeStore.Holds (store : CodeStore) (id : CodeId) (program : Program) : Prop :=
  Program.Unfolds (fun id => some (store.get id)) program (store.get id)

/-- A store has one program in each place. -/
theorem CodeStore.Holds.eq (store : CodeStore) (id : CodeId) (p q : Program)
    (hp : store.Holds id p) (hq : store.Holds id q) : p = q :=
  Program.Unfolds.eq p q _ hp hq

/-- What a place of a store holds, by what the places nested in it hold. -/
theorem CodeStore.holds_iff (store : CodeStore) (id : CodeId) (p : Program) :
    store.Holds id p ↔
      List.Forall₂ (Program.Instruction.Is fun body k => store.Holds k body) p (store.get id) := by
  rw [Holds, Program.unfolds_iff]
  simp only [Option.some.injEq, exists_eq_left']
  rfl

/-- A cell in a place of a store is one of the program there. -/
theorem CodeStore.Holds.cell (store : CodeStore) (id : CodeId) (p : Program)
    (h : store.Holds id p) (j : Instruction CodeId) (hj : j ∈ store.get id) (c : Cell)
    (hc : .cell c ∈ j.operands) : ∃ i ∈ p, .cell c ∈ i.operands := by
  obtain ⟨i, hi, hij⟩ := forall₂_mem_right _ _ ((store.holds_iff id p).mp h) j hj
  obtain ⟨o, ho, hcell⟩ := forall₂_mem_right _ _ hij.operands (.cell c)
    (List.mem_filter.mpr ⟨hc, rfl⟩)
  cases hcell with
  | cell c => exact ⟨i, hi, ho⟩

/-- The instructions of a slice that can be followed to its end. -/
def Decode.instructions? (s : Slice) : Option (List (Instruction Cell)) :=
  if (scan s).failure.isNone then some (scan s).instructions else none

/-- The slice shows this program: it can be followed to its end, and so can all code nested
    in it. -/
def Slice.Decodes (s : Slice) (program : Program) : Prop :=
  ∃ is, Decode.instructions? s = some is ∧
    Program.Unfolds (fun body => Decode.instructions? body.toSlice) program is

/-- What a slice shows, by what the cells nested in it show. -/
theorem Slice.decodes_iff (s : Slice) (p : Program) :
    s.Decodes p ↔ ∃ is, Decode.instructions? s = some is ∧
      List.Forall₂ (Program.Instruction.Is fun body k => k.toSlice.Decodes body) p is := by
  constructor
  · rintro ⟨is, his, h⟩
    exact ⟨is, his, (Program.unfolds_iff p is).mp h⟩
  · rintro ⟨is, his, h⟩
    exact ⟨is, his, (Program.unfolds_iff p is).mpr h⟩

end CellCode
