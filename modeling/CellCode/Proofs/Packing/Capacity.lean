import CellCode.Proofs.Packing.Runs

/-!
# Writing within the capacity of cells

A chain is written in place: a call stores its command in the last unit, or seals that unit and
goes on with another, and a call that is refused must not have touched anything. Bits are checked
before they are stored, but a command with references is stored piece by piece and may run out of
room halfway, so it is stored in a copy of the unit first.

`Call.perform` follows a call through these steps with all that they leave behind, and is shown to
be `Call.write` on a chain that is kept. Along every sequence of calls, accepted or refused, the
units then keep to the capacity of a cell with a reference to spare. That is nearly all that folding
the chain needs: what is left to go wrong is that a cell gets too deep.

## Key results

- `Chain.Call.perform_eq`: what a call leaves behind is the new chain, or the old one if it fails
- `Chain.Call.Proper.perform_of_accepted`, `Chain.Call.Proper.perform_of_not_fitsCell`,
  `Chain.Call.Proper.perform_of_deep`: a call is refused exactly when its command fits into no cell
  or a reference is too deep
- `Chain.Holds.performAll`: a chain holds the commands that were not refused
- `Chain.performAll_capacity`: all of this for every sequence of calls
- `Chain.performAll_deepCalls`: two calls after which the chain cannot be folded
-/

namespace CellCode

/-! ## Storing in place -/

namespace Builder

/-- Stores references one after the other: the builder afterwards, and whether all of them were
    stored. Those stored before the room ran out stay. -/
def putRefs (b : Builder) : List Cell → Builder × Bool
  | [] => (b, true)
  | ref :: refs =>
    match b.storeRef ref with
    | .ok b => b.putRefs refs
    | .error _ => (b, false)

/-- Stores bits and then references: the builder afterwards, and whether all was stored. -/
def put (b : Builder) (bits : Bits) (refs : List Cell) : Builder × Bool :=
  match b.storeBits bits with
  | .ok b => b.putRefs refs
  | .error _ => (b, false)

/-- Stores bits and references if that leaves a reference free. -/
def putKeepingLink (b : Builder) (bits : Bits) (refs : List Cell) : Builder × Bool :=
  if b.spareRefs ≤ refs.length then (b, false) else b.put bits refs

/-- Bits are stored or leave the builder as it was. -/
theorem put_nil (b : Builder) (bits : Bits) :
    b.put bits [] = match b.storeBits bits with
      | .ok b' => (b', true)
      | .error _ => (b, false) := by
  unfold put
  cases b.storeBits bits <;> rfl

/-- References stored one by one end with the same builder if all of them are stored. -/
private theorem putRefs_eq (b : Builder) (refs : List Cell) :
    (match refs.foldlM storeRef b with | .ok b' => some b' | .error _ => none) =
      if (b.putRefs refs).2 then some (b.putRefs refs).1 else none := by
  -- Induction on the references: a failed store ends both, and else both go on from the same
  -- builder.
  induction refs generalizing b with
  | nil => rfl
  | cons ref refs ih =>
    rw [putRefs, List.foldlM_cons]
    cases b.storeRef ref with
    | error e => rfl
    | ok b' => exact ih b'

/-- Storing in place ends with the builder that storing at once returns. -/
theorem putKeepingLink_eq (b : Builder) (bits : Bits) (refs : List Cell) :
    Chain.storeKeepingLink? b bits refs =
      if (b.putKeepingLink bits refs).2 then some (b.putKeepingLink bits refs).1 else none := by
  unfold Chain.storeKeepingLink? putKeepingLink put
  -- Without a reference to spare neither side stores anything. Otherwise the bits may fail first.
  split
  · rfl
  · cases b.storeBits bits with
    | error e => rfl
    | ok b' => exact putRefs_eq b' refs

end Builder

namespace Chain

namespace Call

/-! ## Calls in place -/

/-- The bytes of a call. -/
def bytes : Call → List UInt8
  | bits bytes _ _ => bytes
  | composite bytes _ _ _ => bytes

/-- The number of bits of the command. -/
def count : Call → Int
  | bits _ count _ => count
  | composite _ _ _ count => count

/-- The builders of the command's references. -/
def refs : Call → List Builder
  | bits _ _ _ => []
  | composite _ refs _ _ => refs

/-- The debug node of the command. -/
def dbg : Call → Debug.Node
  | bits _ _ dbg => dbg
  | composite _ _ dbg _ => dbg

/-- Carries out a call on a chain that is kept: the chain afterwards, and why the call was refused,
    if it was. -/
def perform (c : Chain) : Call → Chain × Option PackError
  | bits bytes count dbg =>
    match Builder.bitsOfBytes bytes count with
    | .error e => (c, some (.cell e))
    | .ok payload =>
      let tried := c.last.builder.put payload []
      if tried.2 then
        ({ c with last := ⟨tried.1, c.last.dbg.inlined c.last.builder.bits.length dbg⟩ }, none)
      else
        -- The last unit was written in place and keeps what the attempt left in it.
        let c := { c with last := ⟨tried.1, c.last.dbg⟩ }
        let fresh := Builder.empty.put payload []
        if fresh.2 then (c.push ⟨fresh.1, dbg⟩, none) else (c, some (.bits payload.length))
  | composite bytes refs dbg count =>
    if refs.length ≠ dbg.children.length then
      (c, some (.debugShape refs.length dbg.children.length))
    else
      match refs.mapM Builder.build with
      | .error e => (c, some (.cell e))
      | .ok cells =>
        match Builder.bitsOfBytes bytes count with
        | .error e =>
          (c, some (if Cell.maxRefs ≤ refs.length then .payload count refs.length else .cell e))
        | .ok payload =>
          -- A copy of the last unit is written, and dropped if the attempt fails.
          let copy := c.last.builder.putKeepingLink payload cells
          if copy.2 then
            ({ c with last := ⟨copy.1, c.last.dbg.inlined c.last.builder.bits.length dbg⟩ }, none)
          else
            let fresh := Builder.empty.putKeepingLink payload cells
            if fresh.2 then (c.push ⟨fresh.1, dbg⟩, none)
            else (c, some (.payload payload.length cells.length))

/-- A call leaves behind the chain that it writes, and the old chain if it is refused. -/
theorem perform_eq (c : Chain) (call : Call) :
    call.perform c = match call.write c with
      | .ok c' => (c', none)
      | .error e => (c, some e) := by
  -- By the kind of call. The attempts are the same ones, so each outcome of an attempt gives the
  -- same answer on both sides.
  cases call with
  | bits bytes count dbg =>
    simp only [perform, write, writeRaw]
    cases Builder.bitsOfBytes bytes count with
    | error e => rfl
    | ok bits =>
      simp only [writeBits, Builder.put_nil]
      cases c.last.builder.storeBits bits with
      | ok b => rfl
      -- The last unit has no room, so the empty unit decides.
      | error e => cases Builder.empty.storeBits bits <;> rfl
  | composite bytes refs dbg count =>
    simp only [perform, write, writeRawComposite, writeComposite]
    cases Builder.bitsOfBytes bytes count with
    -- The bytes do not have the bits. Whether this or the depth is reported first depends on the
    -- same tests on both sides.
    | error e =>
      dsimp only
      split
      · rfl
      · cases refs.mapM Builder.build with
        | error tooDeep => rfl
        | ok cells =>
          dsimp only
          split <;> rfl
    | ok bits =>
      dsimp only
      split
      · rfl
      · cases refs.mapM Builder.build with
        | error tooDeep => rfl
        | ok cells =>
          -- By `putKeepingLink_eq` an attempt in place stores what an attempt on options stores.
          simp only [writeBuilt, Builder.putKeepingLink_eq]
          cases (c.last.builder.putKeepingLink bits cells).2 with
          | true => rfl
          | false => cases (Builder.empty.putKeepingLink bits cells).2 <;> rfl

/-! ## Calls that are refused -/

/-- The call asks for no more bits than its bytes have, its debug node has a child for each
    reference, and each reference is a builder in capacity, as all builders are. All bits of the
    bytes are asked for when a command of whole bytes is written. -/
structure Proper (call : Call) : Prop where
  count_nonneg : 0 ≤ call.count
  count_le : call.count ≤ 8 * call.bytes.length
  children : call.dbg.children.length = call.refs.length
  fits : ∀ r ∈ call.refs, r.Fits

/-- The command fits into a cell and leaves a reference free. -/
def FitsCell (call : Call) : Prop := call.count ≤ 1023 ∧ call.refs.length ≤ 3

instance (call : Call) : Decidable call.FitsCell := inferInstanceAs (Decidable (_ ∧ _))

/-- No reference is too deep to be built. -/
def Shallow (call : Call) : Prop := ∀ r ∈ call.refs, ∀ s ∈ r.refs, s.depth ≤ 65535

instance (call : Call) : Decidable call.Shallow :=
  inferInstanceAs (Decidable (∀ r ∈ call.refs, ∀ s ∈ r.refs, _))

/-- Why a call is refused whose command fits into no cell. -/
def refusal : Call → PackError
  | bits _ count _ => .bits count
  | composite _ refs _ count => .payload count refs.length

/-- The command of a call has the bits asked for and the cells of the references. -/
theorem command_eq (call : Call) :
    call.command =
      ⟨⟨(Bits.ofBytes call.bytes).take call.count.toNat, call.refs.map Builder.cell⟩,
        call.dbg⟩ := by
  cases call <;> rfl

/-- A command has as many bits as the call asks for. -/
theorem Proper.length_bits {call : Call} (h : call.Proper) :
    (((Bits.ofBytes call.bytes).take call.count.toNat).length : Int) = call.count := by
  have hbytes : (Bits.ofBytes call.bytes).length = 8 * call.bytes.length := by
    rw [Bits.ofBytes, List.length_flatMap]
    simp [Bits.ofByte, Nat.mul_comm]
  have hnonneg := h.count_nonneg
  have hle := h.count_le
  -- The call asks for no more bits than the bytes have, so `take` gives all of them.
  rw [List.length_take, hbytes]
  omega

/-- The command of a proper call leaves a reference free exactly when its numbers say so. -/
theorem Proper.keepsLink_iff {call : Call} (h : call.Proper) :
    call.command.KeepsLink ↔ call.FitsCell := by
  have hlength := h.length_bits
  rw [command_eq]
  simp only [Fragment.KeepsLink, FitsCell, Cell.maxBits, Cell.maxRefs, List.length_map]
  omega

/-- The bits of the command are those that the call asks for. -/
theorem Proper.bitsOfBytes {call : Call} (h : call.Proper) :
    Builder.bitsOfBytes call.bytes call.count =
      .ok ((Bits.ofBytes call.bytes).take call.count.toNat) := by
  have hnonneg := h.count_nonneg
  have hle := h.count_le
  rw [Builder.bitsOfBytes, if_neg (by omega)]

/-- The references can be built, if they are not too deep. -/
theorem Proper.buildable_iff {call : Call} (h : call.Proper) :
    (∀ r ∈ call.refs, r.Buildable) ↔ call.Shallow :=
  -- The builders are in capacity, so only the depth of their references matters.
  forall₂_congr fun r hr => and_iff_right (h.fits r hr)

/-- References that are too deep are what building stops at. -/
theorem Proper.mapM_build_of_deep {call : Call} (h : call.Proper) (hdeep : ¬ call.Shallow) :
    ∃ r ∈ call.refs, ∃ s ∈ r.refs, 65535 < s.depth ∧
      call.refs.mapM Builder.build = .error (.referenceTooDeep s.depth) := by
  cases hbuild : call.refs.mapM Builder.build with
  | ok cells => exact absurd (h.buildable_iff.mp ((mapM_build_eq_ok _ _).mp hbuild).1) hdeep
  -- The first reference that cannot be built is in capacity, so it is its depth that building stops
  -- at.
  | error e =>
    obtain ⟨r, hr, he⟩ := exists_of_mapM_eq_error _ _ e hbuild
    rcases Builder.build_of_fits (h.fits r hr) with ⟨_, hok⟩ | ⟨s, hs, htoo, herror⟩
    · cases hok.symm.trans he
    · cases herror.symm.trans he
      exact ⟨r, hr, s, hs, htoo, rfl⟩

end Call

/-- A command that was added fits into a cell of its own. -/
theorem Added.keepsLink {c c' : Chain} {command : Fragment} (h : c.Added command c') :
    command.KeepsLink := by
  cases h with
  -- A unit that holds the command behind others has room for the command alone.
  | inside room =>
    obtain ⟨hbits, hrefs⟩ := room
    simp only [Fragment.takeOver, List.length_append] at hbits hrefs
    exact ⟨by omega, by omega⟩
  | fresh _ room => exact room

/-- A command that fits into a cell can be added. -/
theorem exists_added (c : Chain) (command : Fragment) (h : command.KeepsLink) :
    ∃ c', c.Added command c' := by
  -- The last unit takes the command if it can. If not, an empty unit does.
  by_cases hroom : (c.last.takeOver command).KeepsLink
  · exact ⟨_, .inside hroom⟩
  · exact ⟨_, .fresh hroom h⟩

/-- A command without references is refused for its bits. -/
theorem writeBits_eq_error (c : Chain) (bits : Bits) (dbg : Debug.Node) (e : PackError)
    (h : c.writeBits bits dbg = .error e) : e = .bits bits.length := by
  unfold writeBits at h
  -- Only the end of both attempts gives an error.
  dsimp only at h
  split at h
  · cases h
  · split at h
    · cases h
    · cases h
      rfl

/-- A command whose references are built is refused for its bits and references. -/
theorem writeBuilt_eq_error (c : Chain) (bits : Bits) (refs : List Cell) (dbg : Debug.Node)
    (e : PackError) (h : c.writeBuilt bits refs dbg = .error e) :
    e = .payload bits.length refs.length := by
  unfold writeBuilt at h
  dsimp only at h
  split at h
  · cases h
  · split at h
    · cases h
    · cases h
      rfl

/-- A command with a debug child for each reference fails because a reference cannot be built, or
    because it fits into no cell. -/
theorem writeComposite_eq_error (c : Chain) (bits : Bits) (refs : List Builder) (dbg : Debug.Node)
    (e : PackError) (hshape : refs.length = dbg.children.length)
    (h : c.writeComposite bits refs dbg = .error e) :
    (∃ r ∈ refs, ∃ e', r.build = .error e' ∧ e = .cell e') ∨
      e = .payload bits.length refs.length := by
  rw [writeComposite, if_neg (by omega)] at h
  -- The references are built first, so their error comes first.
  cases hbuild : refs.mapM Builder.build with
  | error e' =>
    rw [hbuild] at h
    cases h
    obtain ⟨r, hr, he'⟩ := exists_of_mapM_eq_error _ _ e' hbuild
    exact .inl ⟨r, hr, e', he', rfl⟩
  | ok cells =>
    rw [hbuild] at h
    obtain ⟨_, rfl⟩ := (mapM_build_eq_ok refs cells).mp hbuild
    rw [writeBuilt_eq_error c bits _ dbg e h, List.length_map]
    exact .inr rfl

namespace Call

/-- A call whose references can be built adds its command, or is refused because the command fits
    into no cell. -/
theorem Proper.write_iff {call : Call} (h : call.Proper) (hshallow : call.Shallow) (c : Chain)
    (hlast : c.last.KeepsLink) :
    (∀ c', call.write c = .ok c' ↔ c.Added call.command c') ∧
      ∀ e, call.write c = .error e → e = call.refusal := by
  have hbits := h.bitsOfBytes
  have hlength := h.length_bits
  have hbuildable := h.buildable_iff.mpr hshallow
  -- Both kinds come down to one write of the command's bits, of which `Runs` says when it adds
  -- them.
  cases call with
  | bits bytes count dbg =>
    -- The bytes have the bits, so the call writes them.
    have hwrite : (Call.bits bytes count dbg).write c =
        c.writeBits ((Bits.ofBytes bytes).take count.toNat) dbg := by
      rw [write, writeRaw]
      simp only [Call.bytes, Call.count] at hbits
      rw [hbits]
    rw [hwrite]
    refine ⟨fun c' => writeBits_eq_ok c c' _ dbg hlast, ?_⟩
    intro e he
    -- It is refused for as many bits as the call asks for.
    rw [writeBits_eq_error c _ dbg e he]
    exact congrArg PackError.bits hlength
  | composite bytes refs dbg count =>
    have hshape : refs.length = dbg.children.length := h.children.symm
    -- The debug node has the right shape and the references can be built, so what is left is the
    -- write of the cells.
    have hwrite : (Call.composite bytes refs dbg count).write c =
        c.writeBuilt ((Bits.ofBytes bytes).take count.toNat) (refs.map Builder.cell) dbg := by
      rw [write, writeRawComposite]
      simp only [Call.bytes, Call.count] at hbits
      rw [hbits]
      show c.writeComposite _ refs dbg = _
      rw [writeComposite, if_neg (not_not.mpr hshape),
        (mapM_build_eq_ok refs _).mpr ⟨hbuildable, rfl⟩]
    rw [hwrite]
    refine ⟨fun c' => writeBuilt_eq_ok c c' _ _ dbg hlast, ?_⟩
    intro e he
    rw [writeBuilt_eq_error c _ _ dbg e he, List.length_map]
    exact congrArg (PackError.payload · refs.length) hlength

/-- A call whose command fits into a cell, with references that can be built, adds it to the
    chain. -/
theorem Proper.perform_of_accepted {call : Call} (h : call.Proper) (c : Chain)
    (hlast : c.last.KeepsLink) (hshallow : call.Shallow) (hfits : call.FitsCell) :
    ∃ c', call.perform c = (c', none) ∧ c.Added call.command c' := by
  -- There is a chain with the command added, and the write that is `perform` finds it.
  obtain ⟨c', hadded⟩ := c.exists_added call.command (h.keepsLink_iff.mpr hfits)
  refine ⟨c', ?_, hadded⟩
  rw [perform_eq, ((h.write_iff hshallow c hlast).1 c').mpr hadded]

/-- A call whose command fits into no cell is refused and leaves the chain as it was. -/
theorem Proper.perform_of_not_fitsCell {call : Call} (h : call.Proper) (c : Chain)
    (hlast : c.last.KeepsLink) (hshallow : call.Shallow) (hfits : ¬ call.FitsCell) :
    call.perform c = (c, some call.refusal) := by
  obtain ⟨hok, herror⟩ := h.write_iff hshallow c hlast
  rw [perform_eq]
  -- A write that succeeds adds the command, and what is added fits into a cell.
  cases hwrite : call.write c with
  | ok c' => exact absurd (h.keepsLink_iff.mp ((hok c').mp hwrite).keepsLink) hfits
  | error e => rw [herror e hwrite]

theorem Proper.perform_of_deep {call : Call} (h : call.Proper) (c : Chain)
    (hdeep : ¬ call.Shallow) :
    ∃ r ∈ call.refs, ∃ s ∈ r.refs, 65535 < s.depth ∧
      call.perform c = (c, some (.cell (.referenceTooDeep s.depth))) := by
  obtain ⟨r, hr, s, hs, htoo, hbuild⟩ := h.mapM_build_of_deep hdeep
  refine ⟨r, hr, s, hs, htoo, ?_⟩
  -- Only a call with references can have one that is too deep.
  cases call with
  | bits bytes count dbg => cases hr
  | composite bytes refs dbg count =>
    have hshape : refs.length = dbg.children.length := h.children.symm
    change refs.mapM Builder.build = _ at hbuild
    -- Nothing was stored when the references are built, so the chain is the old one.
    rw [perform, if_neg (not_not.mpr hshape), hbuild]

/-- The calls that are not refused. -/
def Accepted (call : Call) : Prop := call.Shallow ∧ call.FitsCell

instance (call : Call) : Decidable call.Accepted := inferInstanceAs (Decidable (_ ∧ _))

end Call

/-! ## Sequences of calls -/

/-- The chain after some calls, whether they were refused or not. -/
def performAll (c : Chain) (calls : List Call) : Chain :=
  calls.foldl (fun c call => (call.perform c).1) c

/-- Calls that succeed one after the other leave the chain that they write. -/
theorem performAll_of_writes {c chain : Chain} {calls : List Call}
    (h : calls.foldlM Call.write c = .ok chain) : c.performAll calls = chain := by
  -- Induction on the calls: a call that succeeds leaves the chain that it writes.
  induction calls generalizing c with
  | nil => cases h; rfl
  | cons call calls ih =>
    obtain ⟨c', hwrite, hrest⟩ := (foldlM_cons_eq_ok _ _ _ _ _).mp h
    show (call.perform c).1.performAll calls = chain
    rw [call.perform_eq, hwrite]
    exact ih hrest

/-- After some calls a chain holds the commands that were not refused. -/
theorem Holds.performAll {c : Chain} {runs : List (List Fragment)} {run : List Fragment}
    (h : c.Holds runs run) (calls : List Call) (hproper : ∀ call ∈ calls, call.Proper) :
    ∃ runs' run', (c.performAll calls).Holds runs' run' ∧
      runs'.reverse.flatten ++ run' =
        runs.reverse.flatten ++ run ++ (calls.filter (·.Accepted)).map Call.command := by
  -- Induction on the calls, for any runs that the chain holds so far.
  induction calls generalizing c runs run with
  | nil => exact ⟨runs, run, h, by simp⟩
  | cons call calls ih =>
    rw [List.forall_mem_cons] at hproper
    have hlast : c.last.KeepsLink := h.room _ (by simp)
    have hfirst : c.performAll (call :: calls) = (call.perform c).1.performAll calls := rfl
    rw [hfirst]
    by_cases haccepted : call.Accepted
    · -- The command is added behind the runs, and the rest of the calls goes on from there.
      obtain ⟨c', hc', hadded⟩ :=
        hproper.1.perform_of_accepted c hlast haccepted.1 haccepted.2
      obtain ⟨runs₁, run₁, hholds₁, heq₁⟩ := h.added c c' runs run _ hadded
      obtain ⟨runs₂, run₂, hholds₂, heq₂⟩ := ih hholds₁ hproper.2
      rw [hc', List.filter_cons_of_pos (by simpa using haccepted)]
      exact ⟨runs₂, run₂, hholds₂, by rw [heq₂, heq₁]; simp⟩
    · -- Whatever the call is refused for, the chain is what it was.
      have hkept : (call.perform c).1 = c := by
        by_cases hshallow : call.Shallow
        · rw [hproper.1.perform_of_not_fitsCell c hlast hshallow fun hfits =>
            haccepted ⟨hshallow, hfits⟩]
        · obtain ⟨_, _, _, _, _, hperform⟩ := hproper.1.perform_of_deep c hshallow
          rw [hperform]
      rw [hkept, List.filter_cons_of_neg (by simpa using haccepted)]
      exact ih h hproper.2

/-! ## Folding within the capacity -/

/-- Takes the units of a chain and folds them: the chain that is left, a new one, and the root. -/
def close (c : Chain) : Chain × Except CellError Fragment := (start, c.finalize)

/-- Each unit of a chain holds a run of its commands. -/
theorem Holds.exists_run {c : Chain} {runs : List (List Fragment)} {run : List Fragment}
    (h : c.Holds runs run) {unit : Fragment} (hunit : unit ∈ c.units) :
    ∃ r, unit = Fragment.ofRun r ∧ r ⊆ runs.reverse.flatten ++ run := by
  -- The units in front are the runs in order of their cells, and the last unit is the last run.
  rcases List.mem_append.mp hunit with hearlier | hlast
  · rw [List.mem_reverse, h.earlier, List.mem_map] at hearlier
    obtain ⟨r, hr, rfl⟩ := hearlier
    refine ⟨r, rfl, fun f hf => List.mem_append_left _ ?_⟩
    exact List.mem_flatten.mpr ⟨r, List.mem_reverse.mpr hr, hf⟩
  · rw [List.mem_singleton.mp hlast]
    exact ⟨run, h.last, fun f hf => List.mem_append_right _ hf⟩

/-- Writing keeps to the capacity of cells, and a refused call leaves no trace. Take any calls on a
    new chain, refused or not. The chain then has a unit, and each unit keeps to the capacity with a
    reference to spare and has a debug child for each reference. The next call is refused exactly
    if a reference is too deep to be built, or its command has more than 1023 bits or more than 3
    references, and then the chain stays as it is. Folding the chain leaves an empty one behind. It
    gives cells that keep to the capacity and hold the commands that were not refused, in order,
    unless one of them has a reference that is more than 65535 deep. -/
theorem performAll_capacity (calls : List Call) (hproper : ∀ call ∈ calls, call.Proper) :
    let c := start.performAll calls
    (c.units ≠ [] ∧ ∀ unit ∈ c.units, unit.builder.bits.length ≤ 1023 ∧
      unit.builder.refs.length ≤ 3 ∧ unit.dbg.children.length = unit.builder.refs.length) ∧
    (∀ call : Call, call.Proper →
      (call.Shallow ∧ call.perform c =
          if 1023 < call.count ∨ 3 < call.refs.length then (c, some call.refusal)
          else ((call.perform c).1, none)) ∨
        ∃ r ∈ call.refs, ∃ s ∈ r.refs, 65535 < s.depth ∧
          call.perform c = (c, some (.cell (.referenceTooDeep s.depth)))) ∧
    start.units = [⟨.empty, .empty⟩] ∧
    ∃ runs, runs.flatten = (calls.filter (·.Accepted)).map Call.command ∧
      Fragment.Fitting runs c.root ∧
      ((∀ f ∈ c.built, ∀ r ∈ f.builder.refs, r.depth ≤ 65535) ∧ c.close = (start, .ok c.root) ∨
        ∃ f ∈ c.built, ∃ r ∈ f.builder.refs, 65535 < r.depth ∧
          c.close = (start, .error (.referenceTooDeep r.depth))) := by
  intro c
  obtain ⟨runs, run, hholds, hcommands⟩ := holds_start.performAll calls hproper
  have hroom : ∀ unit ∈ c.units, unit.KeepsLink := by
    intro unit hunit
    exact hholds.room unit (by simpa [units, or_comm] using hunit)
  refine ⟨⟨by simp [units], ?_⟩, ?_, rfl, ?_⟩
  · -- A unit keeps room for a link. Its children come from the commands of its run, each of
    -- which has a child for each reference.
    intro unit hunit
    obtain ⟨hbits, hrefs⟩ := hroom unit hunit
    obtain ⟨r, rfl, hr⟩ := hholds.exists_run hunit
    refine ⟨hbits, Nat.le_of_lt_succ hrefs, Fragment.length_children_ofRun r ?_⟩
    intro f hf
    obtain ⟨call, hcall, rfl⟩ : ∃ call ∈ calls.filter (·.Accepted), call.command = f := by
      simpa [hcommands] using hr hf
    rw [Call.command_eq]
    simpa using (hproper call (List.mem_of_mem_filter hcall)).children
  · -- The next call: first whether its references can be built, and then whether the command fits
    -- into a cell.
    intro call hcall
    have hlast : c.last.KeepsLink := hroom c.last (by simp [units])
    by_cases hshallow : call.Shallow
    · refine .inl ⟨hshallow, ?_⟩
      split
      · rename_i hmore
        exact hcall.perform_of_not_fitsCell c hlast hshallow (by simp only [Call.FitsCell]; omega)
      · rename_i hfits
        obtain ⟨c', hc', -⟩ :=
          hcall.perform_of_accepted c hlast hshallow (by simp only [Call.FitsCell]; omega)
        rw [hc']
    · exact .inr (hcall.perform_of_deep c hshallow)
  · -- Folding keeps to the capacity; it may only fail for the depth.
    obtain ⟨-, all, hall, hfitting⟩ := hholds.root_fitting
    refine ⟨all, by rw [hall, hcommands]; simp, hfitting, ?_⟩
    rcases hholds.finalize_cases with ⟨hbuilt, hroot⟩ | ⟨f, hf, r, hr, hdeep, herror⟩
    · exact .inl ⟨fun f hf => (hbuilt f hf).2, by rw [close, hroot]⟩
    · exact .inr ⟨f, hf, r, hr, hdeep, by rw [close, herror]⟩

/-- Three references fill the room of the first unit, a command with four references and one of
    1024 bits are refused, and a command of 1023 bits opens the second unit. -/
theorem performAll_capacity_fourCalls :
    let call (refs : Nat) : Call :=
      .composite [0x88] (.replicate refs .empty) (.mk [] (.replicate refs .empty)) 8
    let raw (count : Int) : Call := .bits (.replicate 128 0) count .empty
    let calls := [call 3, call 4, raw 1024, raw 1023]
    (∀ a ∈ calls, a.Proper) ∧
      let c := start.performAll calls
      (c.units ≠ [] ∧ ∀ unit ∈ c.units, unit.builder.bits.length ≤ 1023 ∧
        unit.builder.refs.length ≤ 3 ∧ unit.dbg.children.length = unit.builder.refs.length) ∧
      (∀ a : Call, a.Proper →
        (a.Shallow ∧ a.perform c =
            if 1023 < a.count ∨ 3 < a.refs.length then (c, some a.refusal)
            else ((a.perform c).1, none)) ∨
          ∃ r ∈ a.refs, ∃ s ∈ r.refs, 65535 < s.depth ∧
            a.perform c = (c, some (.cell (.referenceTooDeep s.depth)))) ∧
      start.units = [⟨.empty, .empty⟩] ∧
      ∃ runs, runs.flatten = (calls.filter (·.Accepted)).map Call.command ∧
        Fragment.Fitting runs c.root ∧
        ((∀ f ∈ c.built, ∀ r ∈ f.builder.refs, r.depth ≤ 65535) ∧ c.close = (start, .ok c.root) ∨
          ∃ f ∈ c.built, ∃ r ∈ f.builder.refs, 65535 < r.depth ∧
            c.close = (start, .error (.referenceTooDeep r.depth))) := by
  intro call raw calls
  have hproper : ∀ a ∈ calls, a.Proper := by
    intro a ha
    simp only [calls, call, raw, List.mem_cons, List.not_mem_nil, or_false] at ha
    rcases ha with rfl | rfl | rfl | rfl <;>
      exact ⟨by decide, by simp [Call.count, Call.bytes], by decide, by decide⟩
  exact ⟨hproper, performAll_capacity calls hproper⟩

/-- Two calls that are not refused, after which the chain cannot be folded. -/
theorem performAll_deepCalls :
    (Cell.tower 65536).Makeable ∧
      (∀ call ∈ deepCalls (Cell.tower 65536), call.Proper ∧ call.Accepted) ∧
      (start.performAll (deepCalls (Cell.tower 65536))).close =
        (start, .error (.referenceTooDeep 65536)) := by
  have htower : (Cell.tower 65536).Makeable := Cell.makeable_tower (by decide)
  have hbuild : (Builder.ofCell (Cell.tower 65536)).build = .ok (Cell.tower 65536) :=
    htower _ (.self _)
  have hbuildable := (Builder.build_eq_ok.mp hbuild).1
  refine ⟨htower, ?_, ?_⟩
  · intro call hcall
    -- The first call refers to empty cells only, so all can be decided.
    rcases List.mem_cons.mp hcall with rfl | hcall
    · exact ⟨⟨by decide, by decide, rfl, by decide⟩, by decide, by decide, by decide⟩
    · rw [List.mem_singleton.mp hcall]
      refine ⟨⟨by decide, by decide, rfl, ?_⟩, ?_, by decide, by decide⟩
      · -- The other call refers to the tower, which is in capacity and is 65535 deep.
        exact List.forall_mem_singleton.mpr hbuildable.1
      · exact List.forall_mem_singleton.mpr hbuildable.2
  · rw [close, performAll_of_writes (write_deepCalls hbuild),
      finalize_deepChain (by rw [Cell.depth_tower]; decide), Cell.depth_tower]

end Chain

end CellCode
