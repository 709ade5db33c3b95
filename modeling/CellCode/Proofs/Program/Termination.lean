import CellCode.Proofs.Cell.Identity
import CellCode.Proofs.Opcode.Spelling
import CellCode.Proofs.Program.Windows

/-!
# Loading always ends

A loader has no counter: it takes up the code that waits in front, decodes one instruction after
the other, follows the code into further cells, and lets nested code wait. `Machine` is the loader
taken apart into these steps, with every check on the way: fronts of the slice are read one by one
when the opcode is looked up, cells are made for code that lies inside an instruction, and each
operand is given its place as soon as it is read. A step that cannot be taken has a fault of its
own unless it is an error of decoding.

On windows inside their cells the machine ends within twice the size of its slice, with what
`Loader.load` returns: no other fault can happen.

## Key results

- `lookUp_eq`: the look-up reads no front that is not there
- `Field.makeBody_of_decode`: the cell of a body can always be made
- `Machine.advance_eq`: a step on the code at hand does what `Decode.step` finds
- `Machine.step_keeps`: what one step keeps, and that it leaves less to be done
- `Machine.run_of_measure`: what becomes of a whole run
- `load_total`: every load ends with its code or with an error of decoding
-/

namespace CellCode

-- Powers and sums are those of the standard library, whatever else is in scope.
attribute [local instance (high)] instPowNat Zero.ofOfNat0

/-! ## Making cells for bodies -/

/-- Why an operand cannot be had. -/
inductive OperandFault
  /-- It cannot be read, or its body does not fit into a cell. -/
  | operand (e : OperandError)
  /-- The body refers to a cell whose depth cannot be written in two bytes. -/
  | tooDeep (depth : Nat)

namespace Operand

/-- Makes the cell of a body that lies inside an instruction. Its capacity is checked, and then the
    depths of its references are written down, which is no fault of reading if it fails. -/
def makeBody : Operand Cell → Except OperandFault (Operand Cell)
  | .code body none =>
    match Cell.make body.bits body.refs with
    | .ok c => .ok (.code c none)
    | .error (.referenceTooDeep depth) => .error (.tooDeep depth)
    | .error e => .error (.operand (.cell e))
  | operand => .ok operand

/-- A body that fits and whose references are shallow is made into its own cell. -/
theorem makeBody_code (body : Cell) (hfits : body.Fits) (hdepth : body.ShallowRefs) :
    makeBody (.code body none) = .ok (.code body none) := by
  have hmake : Cell.make body.bits body.refs = .ok body :=
    Cell.make_eq_ok_iff.mpr ⟨(Cell.mk_bits_refs body).symm, hfits, hdepth⟩
  simp only [makeBody, hmake]

end Operand

namespace Field

/-- The cell of a body that was read can be made: counts of four, two and seven bits never announce
    more than a cell holds. -/
theorem makeBody_of_decode (field : Field) (s rest : Slice) (operand : Operand Cell) (hs : s.Valid)
    (hdepth : ∀ r ∈ s.refs, r.depth ≤ Cell.maxRefDepth) (h : field.decode s = .ok (operand, rest)) :
    operand.makeBody = .ok operand := by
  obtain ⟨bits, refs, hspells, hleaves⟩ := field.decode_spells s rest operand hs h
  -- Only code that stands inline is made into a cell of its own.
  cases hspells with
  | inlineCode count body hcount hbytes =>
    -- Four bits count at most 15 bytes.
    have hlt := Bits.toNat_lt count
    rw [hcount] at hlt
    apply Operand.makeBody_code
    · simp only [Cell.Fits, Cell.bits_data, Cell.refs_data, List.length_nil, Cell.maxBits,
        Cell.maxRefs]
      omega
    · intro r hr
      rw [Cell.refs_data] at hr
      cases hr
  | longInlineCode refCount count body refs hcounts hbytes hattached =>
    -- Two bits count at most 3 references, and seven at most 127 bytes.
    have hlt := Bits.toNat_lt refCount
    have hlt' := Bits.toNat_lt count
    rw [hcounts.1] at hlt
    rw [hcounts.2] at hlt'
    apply Operand.makeBody_code
    · simp only [Cell.Fits, Cell.bits_mk, Cell.refs_mk, Cell.maxBits, Cell.maxRefs]
      omega
    · -- The references of the body are among those of the slice.
      intro r hr
      rw [Cell.refs_mk] at hr
      apply hdepth r
      rw [hleaves.refs_eq]
      exact List.mem_append_left _ hr
  | _ => rfl

end Field

/-! ## Looking up the opcode -/

open Opcode (Format standard)

/-- The format with the longest opcode that starts the slice: fronts of the given lengths are read
    and compared with all opcodes, as far as the slice has so many bits. -/
def lookUp (s : Slice) : List Nat → Except CellError (Option Format)
  | [] => .ok none
  | n :: lengths =>
    if (n : Int) ≤ s.remainingBits then do
      let front ← s.preloadBits n
      match Opcode.instructions.find? (·.opcode == front) with
      | some h => return some h
      | none => lookUp s lengths
    else lookUp s lengths

/-- Among all opcodes only those of its length are equal to a front. -/
private theorem find?_group (formats : List Format) (front : Bits) :
    (formats.filter (·.opcode.length == front.length)).find? (·.opcode == front) =
      formats.find? (·.opcode == front) := by
  rw [List.find?_filter]
  congr 1
  funext h
  -- An opcode equal to the front has its length, so the filter drops none of these.
  by_cases heq : h.opcode = front
  · simp [heq]
  · simp [heq]

/-- The look-up reads no front that is not there, and finds what the table finds. -/
theorem lookUp_eq (s : Slice) (hs : s.Valid) :
    lookUp s (Opcode.Table.lengths Opcode.instructions) = .ok (standard.find? s.data) := by
  have hremaining := hs.shows.remainingBits
  unfold standard Opcode.Table.find? Opcode.Table.findLonger? Opcode.Table.ofDistinct
  -- What is compared are the lengths of all opcodes, in any order, so any list of lengths will do.
  generalize Opcode.Table.lengths Opcode.instructions = lengths
  induction lengths with
  | nil => rfl
  | cons n lengths ih =>
    rw [lookUp, List.map_cons, List.findSome?_cons]
    -- A front of this length is read only if the slice has it.
    by_cases hn : n ≤ s.data.length
    · have hfront : s.preloadBits n = .ok (s.data.take n) := by
        have hshows := hs.shows
        rw [← List.take_append_drop n s.data] at hshows
        exact hshows.preloadBits n (by rw [List.length_take]; omega)
      have hgroup := find?_group Opcode.instructions (s.data.take n)
      rw [List.length_take, Nat.min_eq_left hn] at hgroup
      rw [if_pos (by omega), hfront]
      simp only [if_pos (show (-1 : Int) < n ∧ n ≤ s.data.length by omega), hgroup]
      -- An opcode is found among all, or the shorter fronts are tried.
      cases hfind : Opcode.instructions.find? (·.opcode == s.data.take n) with
      | some h => simp [bind, Except.bind, hfind]; rfl
      | none => simpa [bind, Except.bind, hfind] using ih
    · -- The slice is shorter, so the table finds nothing of this length either.
      rw [if_neg (by omega)]
      simp only [if_neg (show ¬ ((-1 : Int) < n ∧ n ≤ s.data.length) by omega)]
      exact ih

/-- The cell can be referred to, and so can every cell below it. -/
def Cell.Shallow (c : Cell) : Prop := c.depth ≤ maxRefDepth ∧ ∀ d, c.Reaches d → d.ShallowRefs

/-- Cells below one that can be referred to can be referred to. -/
theorem Cell.Shallow.refs (c : Cell) (h : c.Shallow) : ∀ r ∈ c.refs, r.Shallow := by
  intro r hr
  exact ⟨h.2 c (.self c) r hr, fun d hd => h.2 d (.ref hr hd)⟩

namespace Loader

/-! ## Reading operands in place -/

/-- Reads one operand after the other and gives its code a place at once. -/
def Work.readOperands (w : Work) :
    List Field → Slice → Work × Except OperandFault (List (Operand CodeId) × Slice)
  | [], s => (w, .ok ([], s))
  | field :: fields, s =>
    match field.decode s with
    | .error e => (w, .error (.operand e))
    | .ok (operand, rest) =>
      match operand.makeBody with
      | .error fault => (w, .error fault)
      | .ok operand =>
        let placed := w.place operand
        let others := placed.2.readOperands fields rest
        (others.1, others.2.map fun (operands, rest) => (placed.1 :: operands, rest))

/-- Reads the operands of an instruction whose opcode starts the slice. -/
def Work.readInstruction (w : Work) (h : Format) (s : Slice) :
    Work × Except OperandFault (List (Operand CodeId) × Slice) :=
  match s.skipBits h.opcode.length with
  | .error e => (w, .error (.operand (.cell e)))
  | .ok rest => w.readOperands h.fields rest

/-- What reading in place comes to: the operands are read, and those that were are placed. -/
def Work.placeDecoded (w : Work) (decoded : Format.Decoded) :
    Work × Except OperandFault (List (Operand CodeId) × Slice) :=
  let placed := w.placeAll decoded.operands
  (placed.2, match decoded.outcome with
    | .ok rest => .ok (placed.1, rest)
    | .error e => .error (.operand e))

/-- Reading operands in place comes to decoding them and placing those that were read. -/
theorem Work.readOperands_eq (w : Work) (fields : List Field) (s : Slice) (hs : s.Valid)
    (hdepth : ∀ r ∈ s.refs, r.depth ≤ Cell.maxRefDepth) :
    w.readOperands fields s = w.placeDecoded (Format.decodeFields fields s) := by
  -- Induction on the fields: the body of an operand can be made, and behind the operand the slice
  -- is open as before.
  induction fields generalizing w s with
  | nil => rfl
  | cons field fields ih =>
    unfold readOperands Format.decodeFields
    cases hdecode : field.decode s with
    | error e => rfl
    | ok read =>
      obtain ⟨operand, rest⟩ := read
      obtain ⟨_, _, _, hleaves⟩ := field.decode_spells s rest operand hs hdecode
      have hothers := ih (w.place operand).2 rest (hleaves.valid hs) fun r hr =>
        hdepth r (by rw [hleaves.refs_eq]; exact List.mem_append_right _ hr)
      simp only [field.makeBody_of_decode s rest operand hs hdepth hdecode, hothers]
      simp only [placeDecoded, placeAll]
      cases (Format.decodeFields fields rest).outcome <;> rfl

theorem Work.readInstruction_eq (w : Work) (h : Format) (s : Slice) (hs : s.Valid)
    (hdepth : ∀ r ∈ s.refs, r.depth ≤ Cell.maxRefDepth) :
    w.readInstruction h s = w.placeDecoded (h.decode s) := by
  unfold readInstruction Format.decode
  cases hskip : s.skipBits h.opcode.length with
  | error e => rfl
  | ok rest =>
    obtain ⟨_, _, hleaves⟩ := Slice.leaves_of_skipBits hs _ hskip
    apply w.readOperands_eq h.fields rest (hleaves.valid hs)
    -- Skipping the opcode takes up no references.
    have hrefs : s.refs = rest.refs := hleaves.refs_eq
    rwa [← hrefs]

/-! ## The machine -/

/-- What can stop a loader that takes nothing for granted. -/
inductive Fault
  /-- The code cannot be decoded. -/
  | undecodable (e : DecodeError)
  /-- A read outside of an instruction that goes past the end. -/
  | read (e : CellError)
  /-- A cell to be made whose reference is too deep. -/
  | tooDeep (depth : Nat)

/-- A loader between two steps: the work that waits, and the code that is being decoded, with its
    place, the instructions found so far and what is left of its slice. -/
structure Machine where
  work : Work
  current : Option (CodeId × Code × Slice)

/-- What comes of a step. -/
inductive Next
  /-- There is more to do. -/
  | go (m : Machine)
  /-- All is decoded. -/
  | done (l : Loader)
  /-- The loader stops; what was decoded until then stays. -/
  | stopped (l : Loader) (fault : Fault)

namespace Machine

/-- One step on the code at hand: it ends, goes on in another cell, or has one more instruction. -/
def advance (w : Work) (id : CodeId) (code : Code) (s : Slice) : Next :=
  if s.remainingBits = 0 then
    if s.remainingRefs = 0 then .go ⟨w.fill id code, none⟩
    else if s.remainingRefs = 1 then
      match s.loadRef with
      | .error e => .stopped (w.fill id code).loader (.read e)
      | .ok (next, _) => .go ⟨w, some (id, code, next.toSlice)⟩
    else
      .stopped (w.fill id code).loader
        (.undecodable (.unconsumed s.cell.shortHash s.remainingRefs))
  else
    match lookUp s (Opcode.Table.lengths Opcode.instructions) with
    | .error e => .stopped (w.fill id code).loader (.read e)
    | .ok none =>
      .stopped (w.fill id code).loader
        (.undecodable (.unknownOpcode s.cell.shortHash s.bitPos s.hex))
    | .ok (some h) =>
      match w.readInstruction h s with
      | (w, .ok (operands, rest)) => .go ⟨w, some (id, code ++ [⟨h.name, operands⟩], rest)⟩
      | (w, .error (.operand e)) =>
        .stopped (w.fill id code).loader (.undecodable (Decode.operandError h s e))
      | (w, .error (.tooDeep depth)) => .stopped (w.fill id code).loader (.tooDeep depth)

/-- One step: the code at hand is taken further, or the code that waits in front is taken up. -/
def step (m : Machine) : Next :=
  match m.current with
  | some (id, code, s) => advance m.work id code s
  | none =>
    match m.work.pending with
    | [] => .done m.work.loader
    | (id, s) :: pending => .go ⟨{ m.work with pending := pending }, some (id, [], s)⟩

/-- What comes of at most `n` steps. -/
def run : Nat → Machine → Next
  | 0, m => .go m
  | n + 1, m =>
    match m.step with
    | .go m => run n m
    | ended => ended

/-! ## One step -/

/-- On a window inside its cell a step does what stands at the front of the slice. -/
theorem advance_eq (w : Work) (id : CodeId) (code : Code) (s : Slice) (hs : s.Valid)
    (hdepth : ∀ r ∈ s.refs, r.depth ≤ Cell.maxRefDepth) :
    advance w id code s = match Decode.step s with
      | .finished => .go ⟨w.fill id code, none⟩
      | .jump next => .go ⟨w, some (id, code, next.toSlice)⟩
      | .instruction i rest =>
        .go ⟨(w.placeAll i.operands).2,
          some (id, code ++ [⟨i.name, (w.placeAll i.operands).1⟩], rest)⟩
      | .failed e operands =>
        .stopped ((w.placeAll operands).2.fill id code).loader (.undecodable e) := by
  -- Outside of instructions a read can fail only as a window error, which `hwindow` excludes.
  have hwindow := Decode.step_ne_window hs
  unfold advance
  unfold Decode.step at hwindow ⊢
  split
  · split
    · rfl
    · split
      · -- The slice has one reference, so it can be loaded.
        rename_i hbits hrefs hone
        simp only [if_pos hbits, if_neg hrefs, if_pos hone] at hwindow
        cases hload : s.loadRef with
        | error e =>
          rw [hload] at hwindow
          exact absurd rfl (hwindow e [])
        | ok read => rfl
      · rfl
  · rw [lookUp_eq s hs]
    cases hfind : standard.find? s.data with
    | none => rfl
    | some h =>
      -- The operands in place are those that decoding finds, and its outcome decides.
      simp only [w.readInstruction_eq h s hs hdepth, Work.placeDecoded]
      cases (h.decode s).outcome <;> rfl

/-- The window lies inside its cell, and no cell below it is too deep to be referred to. -/
structure Open (s : Slice) : Prop where
  valid : s.Valid
  below : ∀ r ∈ s.refs, r.Shallow

/-- All slices of the machine are open. -/
structure Inv (m : Machine) : Prop where
  pending : ∀ p ∈ m.work.pending, Open p.2
  current : ∀ id code s, m.current = some (id, code, s) → Open s

/-- How many steps are left at most: two for each bit and cell that waits, one less for the code at
    hand, which was taken up already. -/
def measure (m : Machine) : Nat :=
  2 * m.work.size + match m.current with
    | none => 0
    | some (_, _, s) => 2 * s.size - 1

/-- What loading makes of a machine, with the rest of the code at hand decoded at once. -/
def outcome (m : Machine) : Loader × Option DecodeError :=
  match m.current with
  | none => m.work.run
  | some (id, code, s) =>
    let placed := m.work.placeCode (Decode.scan s).instructions
    match (Decode.scan s).failure with
    | none => (placed.2.fill id (code ++ placed.1)).run
    | some (e, operands) =>
      (((placed.2.placeAll operands).2.fill id (code ++ placed.1)).loader, some e)

/-- What one step keeps: the slices stay open, there is less to be done, and loading comes to the
    same. The machine stops only at the end, or where the code cannot be decoded. -/
def Next.Keeps (m : Machine) : Next → Prop
  | .go m' => m'.Inv ∧ m'.measure < m.measure ∧ m'.outcome = m.outcome
  | .done l => m.outcome = (l, none)
  | .stopped l fault =>
    ∃ e, fault = .undecodable e ∧ (∀ e', e ≠ .window e') ∧ m.outcome = (l, some e)

/-- Taking up the code that waits in front. -/
private theorem takeUp_keeps (w : Work) (id : CodeId) (s : Slice)
    (pending : List (CodeId × Slice)) (hpending : w.pending = (id, s) :: pending)
    (h : (Machine.mk w none).Inv) :
    Next.Keeps ⟨w, none⟩ (.go ⟨{ w with pending := pending }, some (id, [], s)⟩) := by
  have hopen := h.pending
  simp only [hpending, List.forall_mem_cons] at hopen
  have hpos := s.size_pos
  -- What waits and what is at hand stay open; one step is taken; and the work that was in front is
  -- what is decoded now.
  refine ⟨⟨hopen.2, ?_⟩, ?_, ?_⟩
  · intro id' code' s' heq
    cases heq
    exact hopen.1
  · -- The code taken up counts as before, less one.
    simp only [measure, Work.size, hpending, List.map_cons, List.sum_cons]
    omega
  · simp only [outcome, List.nil_append]
    obtain ⟨l, _⟩ := w
    cases hpending
    cases hscan : Decode.scan s with
    | mk is failure =>
      cases failure with
      | none => rw [Work.run_cons l id s pending is hscan]
      | some failed => rw [Work.run_cons_failed l id s pending is failed.1 failed.2 hscan]

/-- A step on the code at hand. -/
private theorem advance_keeps (w : Work) (id : CodeId) (code : Code) (s : Slice)
    (h : (Machine.mk w (some (id, code, s))).Inv) :
    Next.Keeps ⟨w, some (id, code, s)⟩ (advance w id code s) := by
  have hopen := h.current id code s rfl
  have hdepth : ∀ r ∈ s.refs, r.depth ≤ Cell.maxRefDepth := fun r hr => (hopen.below r hr).1
  have hinside := Decode.step_inside s Cell.Shallow Cell.Shallow.refs hopen.below
  have hwindow := Decode.step_ne_window hopen.valid
  have hrest := Decode.step_alike hopen.valid.alike
  have hscan := Decode.scan_eq s
  have hpos := s.size_pos
  -- All cells below are shallow, so the bodies can be made and the machine steps as decoding does.
  rw [advance_eq w id code s hopen.valid hdepth]
  cases hstep : Decode.step s with
  -- The code has ended. Its size was at least one, so the measure gets less.
  | finished =>
    rw [hstep] at hscan
    refine ⟨⟨h.pending, nofun⟩, ?_, ?_⟩
    · simp only [measure, Work.size, Work.fill]
      omega
    · simp [outcome, hscan, Work.placeCode]
  -- The jump leads to a cell below, which is smaller.
  | jump next =>
    rw [hstep] at hscan hinside
    have hless := Decode.step_jump_size hstep
    refine ⟨⟨h.pending, ?_⟩, ?_, ?_⟩
    · intro id' code' s' heq
      cases heq
      refine ⟨Slice.valid_toSlice next, ?_⟩
      rw [Slice.refs_toSlice]
      exact Cell.Shallow.refs next hinside
    · simp only [measure]
      omega
    · simp only [outcome, hscan]
  -- The instruction is placed, and its bodies wait.
  | instruction i rest =>
    rw [hstep] at hscan hinside hrest
    have hless := Decode.step_instruction_size hstep
    -- The bodies are put off and the rest is at hand next. Together they are less than the slice.
    have hplaced := w.size_placeAll i.operands
    refine ⟨⟨?_, ?_⟩, ?_, ?_⟩
    · -- What waits waited before, or it is a body, whose references are below the slice.
      intro p hp
      rcases pending_placeAll w i.operands p hp with hp | ⟨body, source, hbody, heq⟩
      · exact h.pending p hp
      · rw [heq]
        refine ⟨Slice.valid_toSlice body, ?_⟩
        rw [Slice.refs_toSlice]
        exact (hinside.2.1 _ hbody).2
    · intro id' code' s' heq
      cases heq
      cases hrest with
      | instruction _ hrest => exact ⟨hrest.valid_left, hinside.2.2⟩
    · simp only [measure, Decode.bodySize] at hless ⊢
      omega
    · -- The rest of the code at hand is what the scan finds behind the instruction.
      simp only [outcome, hscan, Work.placeCode]
      cases (Decode.scan rest).failure <;> simp
  -- The code cannot be decoded, and not for a read outside of its window.
  | failed e operands =>
    rw [hstep] at hscan hwindow
    refine ⟨e, rfl, ?_, ?_⟩
    · rintro e' rfl
      exact hwindow e' operands rfl
    · simp [outcome, hscan, Work.placeCode]

/-- A step keeps the invariant, leaves less to be done, and loading comes to the same. -/
theorem step_keeps (m : Machine) (h : m.Inv) : Next.Keeps m m.step := by
  obtain ⟨⟨l, pending⟩, current⟩ := m
  -- A code is at hand, or one is taken up, or all is done.
  cases current with
  | some current =>
    obtain ⟨id, code, s⟩ := current
    exact advance_keeps _ id code s h
  | none =>
    cases pending with
    | nil =>
      show Work.run ⟨l, []⟩ = (l, none)
      rw [Work.run]
    | cons first pending => exact takeUp_keeps _ first.1 first.2 pending rfl h

/-! ## A whole run -/

/-- After more steps than the measure allows the machine has ended, with what loading comes to. -/
theorem run_of_measure (n : Nat) (m : Machine) (h : m.Inv) (hn : m.measure < n) :
    (∃ l, m.run n = .done l ∧ m.outcome = (l, none)) ∨
      ∃ l e, m.run n = .stopped l (.undecodable e) ∧ (∀ e', e ≠ .window e') ∧
        m.outcome = (l, some e) := by
  -- Induction on the number of steps: each of them lowers the measure.
  induction n generalizing m with
  | zero => omega
  | succ n ih =>
    have hkeeps := step_keeps m h
    rw [run]
    cases hstep : m.step with
    | go m' =>
      rw [hstep] at hkeeps
      obtain ⟨hinv, hless, houtcome⟩ := hkeeps
      rw [← houtcome]
      exact ih m' hinv (by omega)
    | done l =>
      rw [hstep] at hkeeps
      exact .inl ⟨l, rfl, hkeeps⟩
    | stopped l fault =>
      rw [hstep] at hkeeps
      obtain ⟨e, rfl, hwindow, houtcome⟩ := hkeeps
      exact .inr ⟨l, e, rfl, hwindow, houtcome⟩

end Machine

/-- The machine that loads a slice. -/
def machine (l : Loader) (s : Slice) : Machine := ⟨l.begin s, none⟩

/-- Every load of a window inside its cell ends, within twice the size of the slice. It ends with
    the place of the code, or because the code cannot be decoded, and `Loader.load` returns what
    it ends with. -/
theorem load_total (l : Loader) (s : Slice) (n : Nat) (hs : s.Valid)
    (hcell : ∀ c, s.cell.Reaches c → c.ShallowRefs) (hn : 2 * s.size < n) :
    (∃ root, (l.machine s).run n = .done (l.load s).1 ∧ (l.load s).2 = .ok root) ∨
      ∃ e, (l.machine s).run n = .stopped (l.load s).1 (.undecodable e) ∧
        (l.load s).2 = .error e ∧ ∀ e', e ≠ .window e' := by
  -- References of the slice are references of its cell, so all below them is shallow.
  have hbelow : ∀ r ∈ s.refs, r.Shallow := by
    intro r hr
    have hmem : r ∈ s.cell.refs := List.mem_of_mem_drop (List.mem_of_mem_take hr)
    exact ⟨hcell s.cell (.self _) r hmem, fun d hd => hcell d (.ref hmem hd)⟩
  -- When a load starts only its slice waits.
  have hinv : (l.machine s).Inv := by
    refine ⟨?_, nofun⟩
    intro p hp
    obtain rfl := List.mem_singleton.mp hp
    exact ⟨hs, hbelow⟩
  have hmeasure : (l.machine s).measure = 2 * s.size := by
    simp [Machine.measure, machine, begin, Work.size]
  -- What the machine ends with is what the work of the load comes to.
  rw [load_eq]
  rcases Machine.run_of_measure n _ hinv (by omega) with
    ⟨l', hrun, houtcome⟩ | ⟨l', e, hrun, hwindow, houtcome⟩
  · have hload : (l.begin s).run = (l', none) := houtcome
    rw [hrun, hload]
    exact .inl ⟨_, rfl, rfl⟩
  · have hload : (l.begin s).run = (l', some e) := houtcome
    rw [hrun, hload]
    exact .inr ⟨e, rfl, rfl, hwindow⟩

/-- A constant in which no bit is set. -/
private def untagged : Cell := .data (Opcode.hexBits "8B00")

/-- Code that goes on with that constant. -/
def leadsToUntagged : Cell := .mk [] [untagged]

private theorem step_untagged : Decode.step untagged.toSlice = .failed (.missingTag 16) [] := by
  -- The opcode is the one that starts the cell, and the constant behind it has no tag.
  have hfind : standard.find? untagged.toSlice.data =
      some (Opcode.op "PUSHSLICE" "8B" [.shortSlice]) := by
    rw [standard, Opcode.Table.find?,
      Opcode.Table.findLonger?_eq_some _ _ _ _ Opcode.instructions_opcodes_nodup]
    decide +kernel
  have hbits : untagged.toSlice.remainingBits ≠ 0 := by decide +kernel
  rw [Decode.step, if_neg hbits, hfind]
  rfl

/-- The machine goes on in the cell below, finds no tag there and stops, as loading does. -/
theorem load_total_leadsToUntagged :
    leadsToUntagged.toSlice.Valid ∧
      (∀ c, leadsToUntagged.toSlice.cell.Reaches c → c.ShallowRefs) ∧
      2 * leadsToUntagged.toSlice.size < 37 ∧
      ((Loader.new true).load leadsToUntagged.toSlice).2 = .error (.missingTag 16) ∧
      ((Loader.new true).machine leadsToUntagged.toSlice).run 37 =
        .stopped ((Loader.new true).load leadsToUntagged.toSlice).1
          (.undecodable (.missingTag 16)) := by
  have hvalid := Slice.valid_toSlice leadsToUntagged
  have hshallow (c : Cell) (hc : leadsToUntagged.toSlice.cell.Reaches c) : c.ShallowRefs := by
    have hmem : c ∈ [leadsToUntagged, untagged] :=
      hc.mem_of_closed (by decide +kernel) (by decide +kernel)
    rcases (by simpa using hmem : c = leadsToUntagged ∨ c = untagged) with rfl | rfl
    · unfold Cell.ShallowRefs
      decide +kernel
    · exact nofun
  have hsize : 2 * leadsToUntagged.toSlice.size < 37 := by decide +kernel
  -- Following the code leads to the cell below, and there the step fails.
  have hscan : Decode.scan leadsToUntagged.toSlice = ⟨[], some (.missingTag 16, [])⟩ := by
    have hjump : Decode.step leadsToUntagged.toSlice = .jump untagged := rfl
    rw [Decode.scan_eq, hjump]
    show Decode.scan untagged.toSlice = _
    rw [Decode.scan_eq, step_untagged]
  have hload : ((Loader.new true).load leadsToUntagged.toSlice).2 = .error (.missingTag 16) := by
    rw [load_eq, begin, Work.run_cons_failed _ _ _ _ _ _ _ hscan]
  refine ⟨hvalid, hshallow, hsize, hload, ?_⟩
  -- Loading fails, so the machine cannot have ended with a code.
  rcases (Loader.new true).load_total leadsToUntagged.toSlice 37 hvalid hshallow hsize with
    ⟨root, _, hok⟩ | ⟨e, hrun, herror, _⟩
  · rw [hload] at hok
    cases hok
  · rw [hload] at herror
    cases herror
    exact hrun

end Loader

end CellCode
