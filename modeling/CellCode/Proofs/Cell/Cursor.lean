import CellCode.Proofs.Cell.Storing

/-!
# Reading back what was stored

A program reads from a cursor that its reads move. `Slice.Read.perform` follows each read on such
a cursor step by step, with all that a read leaves behind that fails halfway, and is shown to find
what the read returns and to leave the cursor alone if the read fails: every read looks first and
moves then.

Values that were stored one after the other are read back from the built cell by the matching reads,
also when other reads are tried in between and fail.

* `Slice.Performs`             steps in place find and leave what a read returns
* `Slice.Read.performs`        so do those of every read
* `Slice.Read.attempt_eq`      a read that fails leaves the cursor where it was
* `Stored.stores_eq_ok`        values are stored by adding their bits and references
* `Stored.attempt_load`        the matching read takes a value from the front
* `Attempt.tryAll_shows`       the values that a slice shows are read back in order
* `Attempt.tryAll_of_stores`   so are the values that were stored on a new builder
-/

namespace CellCode

-- Powers are those of the standard library, whatever else is in scope.
attribute [local instance (high)] instPowNat

namespace Slice

/-! ## Reads in place -/

/-- Steps on a slice that is moved in place. What was done when a step fails stays done. -/
abbrev InPlace (α : Type) := EStateM CellError Slice α

namespace InPlace

/-- Moves on by `n` bits. -/
def moveBits (n : Nat) : InPlace Unit := modify fun s => { s with bitPos := s.bitPos + n }

/-- Moves on by `n` references. -/
def moveRefs (n : Nat) : InPlace Unit := modify fun s => { s with refPos := s.refPos + n }

/-- Reads the next `n` bits. -/
def loadBits (n : Int) : InPlace Bits := do
  let bits ← look (·.preloadBits n)
  moveBits n.toNat
  return bits

/-- Skips the next `n` bits. -/
def skipBits (n : Int) : InPlace Unit := do
  look (·.requireBits n)
  moveBits n.toNat

/-- Reads one bit. -/
def loadBit : InPlace Bool := do
  return (← loadBits 1) == [true]

/-- Reads an unsigned number of `n` bits. -/
def loadUInt (n : Int) : InPlace Nat := do
  let v ← look (·.preloadUInt n)
  moveBits n.toNat
  return v

/-- Reads a signed number of `n` bits. -/
def loadInt (n : Int) : InPlace Int := do
  return Bits.signed n.toNat (← loadUInt n)

/-- Reads the next reference. -/
def loadRef : InPlace Cell := do
  let ref ← look (·.getReference 0)
  moveRefs 1
  return ref

/-- Splits off a slice of the next `bits` bits and `refs` references. -/
def loadPrefix (bits refs : Int) : InPlace Slice := do
  look (·.requireBits bits)
  look fun s => if refs < 0 ∨ s.remainingRefs < refs
    then .error (.referencesPastEnd refs s.remainingRefs) else .ok ()
  let s ← get
  moveBits bits.toNat
  moveRefs refs.toNat
  return { s with bitEnd := s.bitPos + bits.toNat, refEnd := s.refPos + refs.toNat }

end InPlace

section Performs

variable {α β : Type}

/-- The steps find and leave what the read returns, and leave the slice alone if the read fails. -/
def Performs (x : InPlace α) (read : Slice → Except CellError (α × Slice)) : Prop :=
  ∀ s, x s = match read s with
    | .ok (a, rest) => .ok a rest
    | .error e => .error e s

/-- Steps perform any read that returns the same. -/
theorem Performs.congr {x : InPlace α} {read read' : Slice → Except CellError (α × Slice)}
    (h : Performs x read) (heq : ∀ s, read s = read' s) : Performs x read' := by
  intro s
  rw [h s, heq s]

/-- Steps that cannot fail find what there is to find and move. -/
theorem performs_move {x : InPlace α} {found : Slice → α} {move : Slice → Slice}
    (h : ∀ s, x s = .ok (found s) (move s)) : Performs x fun s => .ok (found s, move s) := h

/-- Steps after a look fail where the look fails. -/
theorem Performs.look_bind {f : Slice → Except CellError α} {x : α → InPlace β}
    {read : α → Slice → Except CellError (β × Slice)} (h : ∀ a, Performs (x a) (read a)) :
    Performs (look f >>= x) fun s => f s >>= fun a => read a s := by
  intro s
  -- The look changes nothing, so its error leaves the slice alone and its answer is passed on.
  rw [CellCode.look_bind]
  dsimp only
  cases f s with
  | error e => rfl
  | ok a => exact h a s

/-- Steps that cannot fail may move after what has looked. -/
theorem Performs.bind_move {x : InPlace α} {read : Slice → Except CellError (α × Slice)}
    {y : α → InPlace β} {found : α → Slice → β} {move : Slice → Slice} (h : Performs x read)
    (hmove : ∀ a s, y a s = .ok (found a s) (move s)) :
    Performs (x >>= y) fun s => do
      let (a, s) ← read s
      return (found a s, move s) := by
  intro s
  show EStateM.bind x y s = _
  rw [EStateM.bind, h s]
  dsimp only
  -- What follows is done after a read that succeeded, where it cannot fail any more.
  cases read s with
  | error e => rfl
  | ok a => exact hmove a.1 a.2

end Performs

/-- Reading bits looks at them and moves on. -/
theorem performs_loadBits (n : Int) : Performs (InPlace.loadBits n) (·.loadBits n) :=
  .look_bind fun _ _ => rfl

/-- Skipping bits looks whether they are there and moves on. -/
theorem performs_skipBits (n : Int) :
    Performs (InPlace.skipBits n) fun s => do return ((), ← s.skipBits n) := by
  refine .congr (.look_bind fun _ => performs_move fun _ => rfl) fun s => ?_
  unfold Slice.skipBits
  cases s.requireBits n <;> rfl

/-- A bit is read as the only one of the next one. -/
theorem performs_loadBit : Performs InPlace.loadBit (·.loadBit) :=
  (performs_loadBits 1).bind_move fun _ _ => rfl

/-- Reading an unsigned number looks at its bits and moves on. -/
theorem performs_loadUInt (n : Int) : Performs (InPlace.loadUInt n) (·.loadUInt n) :=
  .look_bind fun _ _ => rfl

/-- A signed number is read from the bits of an unsigned one. -/
theorem performs_loadInt (n : Int) : Performs (InPlace.loadInt n) (·.loadInt n) :=
  (performs_loadUInt n).bind_move fun _ _ => rfl

/-- Reading a reference looks at it and moves on. -/
theorem performs_loadRef : Performs InPlace.loadRef (·.loadRef) :=
  .look_bind fun _ _ => rfl

/-- Splitting off a slice looks twice, for bits and for references, before it moves on. -/
theorem performs_loadPrefix (bits refs : Int) :
    Performs (InPlace.loadPrefix bits refs) (·.loadPrefix bits refs) := by
  refine .congr (.look_bind fun _ => .look_bind fun _ => performs_move fun _ => rfl) fun s => ?_
  unfold Slice.loadPrefix
  congr
  funext _
  split <;> rfl

/-- A read of a slice. -/
inductive Read
  | preloadBits (n : Int)
  | loadBits (n : Int)
  | skipBits (n : Int)
  | loadBit
  | preloadUInt (n : Int)
  | loadUInt (n : Int)
  | loadInt (n : Int)
  | getReference (index : Int)
  | loadRef
  | loadPrefix (bits refs : Int)

/-- What a read finds. -/
inductive Found
  | nothing
  | bits (bits : Bits)
  | bit (bit : Bool)
  | number (v : Int)
  | cell (c : Cell)
  | slice (s : Slice)

namespace Read

/-- Carries out a read on a slice that is moved in place. -/
def perform : Read → InPlace Found
  | preloadBits n => do return .bits (← look (·.preloadBits n))
  | loadBits n => do return .bits (← InPlace.loadBits n)
  | skipBits n => do
    InPlace.skipBits n
    return .nothing
  | loadBit => do return .bit (← InPlace.loadBit)
  | preloadUInt n => do return .number (← look (·.preloadUInt n))
  | loadUInt n => do return .number (← InPlace.loadUInt n)
  | loadInt n => do return .number (← InPlace.loadInt n)
  | getReference index => do return .cell (← look (·.getReference index))
  | loadRef => do return .cell (← InPlace.loadRef)
  | loadPrefix bits refs => do return .slice (← InPlace.loadPrefix bits refs)

/-- What a read finds, and the slice that it leaves. -/
def result (s : Slice) : Read → Except CellError (Found × Slice)
  | preloadBits n => do return (.bits (← s.preloadBits n), s)
  | loadBits n => do
    let (bits, rest) ← s.loadBits n
    return (.bits bits, rest)
  | skipBits n => do return (.nothing, ← s.skipBits n)
  | loadBit => do
    let (bit, rest) ← s.loadBit
    return (.bit bit, rest)
  | preloadUInt n => do return (.number (← s.preloadUInt n), s)
  | loadUInt n => do
    let (v, rest) ← s.loadUInt n
    return (.number v, rest)
  | loadInt n => do
    let (v, rest) ← s.loadInt n
    return (.number v, rest)
  | getReference index => do return (.cell (← s.getReference index), s)
  | loadRef => do
    let (ref, rest) ← s.loadRef
    return (.cell ref, rest)
  | loadPrefix bits refs => do
    let (taken, rest) ← s.loadPrefix bits refs
    return (.slice taken, rest)

/-- A read in place finds and leaves what the read returns, and leaves the slice alone if the read
    fails. -/
theorem performs (read : Read) : Performs read.perform read.result := by
  -- One of the lemmas for each read: a look where nothing is moved, and the read itself where it
  -- is.
  cases read with
  | preloadBits n => exact .look_bind fun _ _ => rfl
  | loadBits n => exact (performs_loadBits n).bind_move fun _ _ => rfl
  | skipBits n =>
    refine .congr ((performs_skipBits n).bind_move fun _ _ => rfl) fun s => ?_
    simp only [result]
    cases s.skipBits n <;> rfl
  | loadBit => exact performs_loadBit.bind_move fun _ _ => rfl
  | preloadUInt n => exact .look_bind fun _ _ => rfl
  | loadUInt n => exact (performs_loadUInt n).bind_move fun _ _ => rfl
  | loadInt n => exact (performs_loadInt n).bind_move fun _ _ => rfl
  | getReference index => exact .look_bind fun _ _ => rfl
  | loadRef => exact performs_loadRef.bind_move fun _ _ => rfl
  | loadPrefix bits refs => exact (performs_loadPrefix bits refs).bind_move fun _ _ => rfl

/-- Tries a read on a slice that is kept: what came of it, and the slice afterwards. -/
def attempt (read : Read) (s : Slice) : Except CellError Found × Slice :=
  match read.perform s with
  | .ok found rest => (.ok found, rest)
  | .error e rest => (.error e, rest)

/-- A read that fails was not to be noticed on the slice. -/
theorem attempt_eq (read : Read) (s : Slice) :
    read.attempt s = match read.result s with
      | .ok (found, rest) => (.ok found, rest)
      | .error e => (.error e, s) := by
  rw [attempt, performs read s]
  dsimp only
  cases read.result s <;> rfl

/-- A read that fails leaves the slice as it was. -/
theorem attempt_of_error {read : Read} {s : Slice} {e : CellError}
    (h : (read.attempt s).1 = .error e) : read.attempt s = (.error e, s) := by
  rw [attempt_eq] at h ⊢
  cases hresult : read.result s with
  | ok r =>
    rw [hresult] at h
    cases h
  | error e' =>
    rw [hresult] at h
    cases h
    rfl

end Read

end Slice

/-! ## Values that are stored -/

open Slice (Read Found)

/-- A value that is stored in a builder. -/
inductive Stored
  | uint (value width : Int)
  | int (value width : Int)
  | bits (bits : Bits)
  | ref (ref : Cell)

namespace Stored

/-- Stores the value. -/
def store (b : Builder) : Stored → Except CellError Builder
  | uint value width => b.storeUInt value width
  | int value width => b.storeInt value width
  | bits data => b.storeBits data
  | ref c => b.storeRef c

/-- The read that matches the value. -/
def load : Stored → Read
  | uint _ width => .loadUInt width
  | int _ width => .loadInt width
  | bits data => .loadBits data.length
  | ref _ => .loadRef

/-- What the matching read is to find. -/
def found : Stored → Found
  | uint value _ => .number value
  | int value _ => .number value
  | bits data => .bits data
  | ref c => .cell c

/-- The bits that are stored for the value. -/
def data : Stored → Bits
  | uint value width => .ofNat width.toNat value.toNat
  | int value width => .ofInt width.toNat value
  | bits data => data
  | ref _ => []

/-- The references that are stored for the value. -/
def refs : Stored → List Cell
  | ref c => [c]
  | _ => []

/-- A number is in the range of its field. -/
def InRange : Stored → Prop
  | uint value width => 0 ≤ width ∧ 0 ≤ value ∧ value < 2 ^ width.toNat
  | int value width =>
    0 < width ∧ -(2 ^ (width.toNat - 1)) ≤ value ∧ value < 2 ^ (width.toNat - 1)
  | _ => True

/-- A value is stored by adding its bits and references. -/
theorem store_eq_ok {b c : Builder} {value : Stored} (hb : b.Fits) (h : value.store b = .ok c) :
    value.InRange ∧ c.Fits ∧ c = ⟨b.bits ++ value.data, b.refs ++ value.refs⟩ := by
  -- Numbers are stored as bits, so room for the bits is the only thing left to ask for.
  have hbits (bits : Bits) (h : b.storeBits bits = .ok c) :
      c.Fits ∧ c = ⟨b.bits ++ bits, b.refs ++ []⟩ := by
    obtain ⟨hroom, rfl⟩ := (b.storeBits_eq_ok c bits hb.2).mp h
    rw [List.append_nil]
    exact ⟨⟨by rwa [List.length_append], hb.2⟩, rfl⟩
  cases value with
  | uint value width =>
    obtain ⟨hrange, h⟩ := (b.storeUInt_eq_ok c value width).mp h
    exact ⟨hrange, hbits _ h⟩
  | int value width =>
    obtain ⟨hrange, h⟩ := (b.storeInt_eq_ok c value width).mp h
    exact ⟨hrange, hbits _ h⟩
  | bits bits => exact ⟨trivial, hbits bits h⟩
  | ref ref =>
    obtain ⟨hroom, rfl⟩ := (b.storeRef_eq_ok c ref hb.1).mp h
    refine ⟨trivial, ⟨hb.1, by rwa [List.length_append]⟩, ?_⟩
    rw [data, refs, List.append_nil]

/-- Values are stored one after the other by adding the bits and references of all of them. -/
theorem stores_eq_ok (values : List Stored) {b c : Builder} (hb : b.Fits)
    (h : values.foldlM store b = .ok c) :
    (∀ value ∈ values, value.InRange) ∧ c.Fits ∧
      c = ⟨b.bits ++ values.flatMap data, b.refs ++ values.flatMap refs⟩ := by
  -- Induction on the values, for any builder in capacity: each one goes behind what is there.
  induction values generalizing b with
  | nil =>
    cases h
    exact ⟨nofun, hb, by simp⟩
  | cons value values ih =>
    obtain ⟨b', hb', hrest⟩ := (foldlM_cons_eq_ok _ _ _ _ _).mp h
    obtain ⟨hrange, hfits, rfl⟩ := store_eq_ok hb hb'
    obtain ⟨hranges, hfits', hc⟩ := ih hfits hrest
    exact ⟨List.forall_mem_cons.mpr ⟨hrange, hranges⟩, hfits', by simpa using hc⟩

/-- The references of values are those that are values themselves. -/
theorem mem_refs {values : List Stored} {c : Cell} : c ∈ values.flatMap refs ↔ ref c ∈ values := by
  rw [List.mem_flatMap]
  constructor
  · -- Only a reference has a reference among its own.
    rintro ⟨value, hvalue, hc⟩
    cases value with
    | ref d => rwa [List.mem_singleton.mp hc]
    | _ => cases hc
  · intro h
    exact ⟨ref c, h, List.mem_singleton_self c⟩

/-- The matching read takes the value from the front. -/
theorem attempt_load {value : Stored} {s : Slice} {more : Bits} {moreRefs : List Cell}
    (hrange : value.InRange) (hs : s.Shows (value.data ++ more) (value.refs ++ moreRefs)) :
    ∃ rest, value.load.attempt s = (.ok value.found, rest) ∧ rest.Shows more moreRefs := by
  -- A read in place is the plain read, by `attempt_eq`, so it is enough to follow that one.
  suffices h : ∃ rest, value.load.result s = .ok (value.found, rest) ∧ rest.Shows more moreRefs by
    obtain ⟨rest, hload, hrest⟩ := h
    exact ⟨rest, by rw [Read.attempt_eq, hload], hrest⟩
  cases value with
  | uint value width =>
    obtain ⟨hwidth, hvalue, hlt⟩ := hrange
    obtain ⟨rest, hload, hrest⟩ := hs.loadUInt width (by simp only [data, Bits.length_ofNat]; omega)
    -- The number is below `2 ^ width`, so its bits have not lost anything.
    have hnumber : ((uint value width).data.toNat : Int) = value := by
      have hpow : ((2 ^ width.toNat : Nat) : Int) = 2 ^ width.toNat := Int.natCast_pow 2 _
      rw [data, Bits.toNat_ofNat, Nat.mod_eq_of_lt (by omega)]
      omega
    refine ⟨rest, ?_, hrest⟩
    rw [load, Read.result, hload]
    show Except.ok (Found.number _, rest) = Except.ok (Found.number value, rest)
    rw [hnumber]
  -- A signed number in range is what its bits say when the first one counts as the sign.
  | int value width =>
    obtain ⟨hwidth, hvalue⟩ := hrange
    obtain ⟨rest, hload, hrest⟩ := hs.loadInt width (by simp only [data, Bits.length_ofInt]; omega)
    refine ⟨rest, ?_, hrest⟩
    rw [data, Bits.length_ofInt, Bits.signed_ofInt _ _ (by omega) hvalue] at hload
    rw [load, Read.result, hload]
    rfl
  | bits data =>
    obtain ⟨rest, hload, hrest⟩ := hs.loadBits data.length rfl
    refine ⟨rest, ?_, hrest⟩
    rw [load, Read.result, hload]
    rfl
  | ref ref =>
    obtain ⟨rest, hload, hrest⟩ := hs.loadRef
    refine ⟨rest, ?_, hrest⟩
    rw [load, Read.result, hload]
    rfl

end Stored

/-! ## Reading in order, with attempts in between -/

/-- A read that is tried: the one that matches a stored value, or any other. -/
inductive Attempt
  | load (value : Stored)
  | other (read : Read)

namespace Attempt

/-- The read. -/
def read : Attempt → Read
  | load value => value.load
  | other read => read

/-- The value that the read matches. -/
def stored? : Attempt → Option Stored
  | load value => some value
  | other _ => none

/-- Tries reads one after the other on a slice that is kept: what came of each, and the slice
    afterwards. -/
def tryAll : List Attempt → Slice → List (Attempt × Except CellError Found) × Slice
  | [], s => ([], s)
  | a :: as, s =>
    let (outcome, s) := a.read.attempt s
    let (outcomes, s) := tryAll as s
    ((a, outcome) :: outcomes, s)

/-- What came of the reads that match stored values. -/
def loads (outcomes : List (Attempt × Except CellError Found)) :
    List (Stored × Except CellError Found) :=
  outcomes.filterMap fun (a, outcome) => a.stored?.map fun value => (value, outcome)

/-- The reads that match no stored value went past the end. -/
def OthersFail (outcomes : List (Attempt × Except CellError Found)) : Prop :=
  ∀ read outcome, (other read, outcome) ∈ outcomes →
    ∃ e, outcome = .error e ∧ e.kind = .underflow

/-- A read that matches a stored value says nothing of the others. -/
theorem othersFail_load {value : Stored} {outcome : Except CellError Found}
    {outcomes : List (Attempt × Except CellError Found)} :
    OthersFail ((load value, outcome) :: outcomes) ↔ OthersFail outcomes := by
  simp [OthersFail]

/-- A read that matches no stored value has failed, and so have the others behind it. -/
theorem othersFail_other {read : Read} {outcome : Except CellError Found}
    {outcomes : List (Attempt × Except CellError Found)} :
    OthersFail ((other read, outcome) :: outcomes) ↔
      (∃ e, outcome = .error e ∧ e.kind = .underflow) ∧ OthersFail outcomes := by
  constructor
  · intro h
    exact ⟨h read outcome List.mem_cons_self,
      fun read' outcome' hmem => h read' outcome' (List.mem_cons_of_mem _ hmem)⟩
  · rintro ⟨hfirst, hrest⟩ read' outcome' hmem
    rcases List.mem_cons.mp hmem with heq | hmem
    · cases heq
      exact hfirst
    · exact hrest read' outcome' hmem

/-- The first read is tried on the slice and the others on what it leaves. -/
theorem tryAll_cons (a : Attempt) (as : List Attempt) (s : Slice) :
    tryAll (a :: as) s = ((a, (a.read.attempt s).1) :: (tryAll as (a.read.attempt s).2).1,
      (tryAll as (a.read.attempt s).2).2) := rfl

/-- The values that a slice shows are read back in order, whatever fails in between. -/
theorem tryAll_shows (as : List Attempt) (s : Slice)
    (hs : s.Shows ((as.filterMap stored?).flatMap Stored.data)
      ((as.filterMap stored?).flatMap Stored.refs))
    (hrange : ∀ value ∈ as.filterMap stored?, value.InRange)
    (hothers : OthersFail (tryAll as s).1) :
    loads (tryAll as s).1 = (as.filterMap stored?).map (fun value => (value, .ok value.found)) ∧
      (tryAll as s).2.Shows [] [] := by
  -- Induction on the attempts: a matching read takes its value from the front, and any other one
  -- leaves the slice.
  induction as generalizing s with
  | nil => exact ⟨rfl, hs⟩
  | cons a as ih =>
    cases a with
    -- The slice shows this value in front of those of the other attempts.
    | load value =>
      have hstored : (load value :: as).filterMap stored? = value :: as.filterMap stored? := rfl
      rw [hstored, List.flatMap_cons, List.flatMap_cons] at hs
      rw [hstored, List.forall_mem_cons] at hrange
      obtain ⟨rest, hload, hrest⟩ := Stored.attempt_load hrange.1 hs
      have hcons := tryAll_cons (load value) as s
      rw [read, hload] at hcons
      rw [hcons, othersFail_load] at hothers
      obtain ⟨hloads, hend⟩ := ih rest hrest hrange.2 hothers
      rw [hcons]
      refine ⟨?_, hend⟩
      show (value, .ok value.found) :: loads (tryAll as rest).1 = _
      rw [hloads, hstored, List.map_cons]
    | other tried =>
      have hcons := tryAll_cons (other tried) as s
      rw [read] at hcons
      rw [hcons, othersFail_other] at hothers
      obtain ⟨⟨e, he, -⟩, hothers⟩ := hothers
      -- The read failed, so the slice is where it was.
      have hfailed := Read.attempt_of_error he
      rw [hfailed] at hcons hothers
      rw [hcons]
      exact ih s hs hrange hothers

/-- Stored values are read back in order, and reads that fail do not move the cursor. Let values be
    stored one after the other on a new builder. The builder can then be built, unless a reference
    among them is too deep for that, and on the slice of the built cell the matching reads, one
    after the other, find just these values and leave no bits and no references. So they do if any
    other reads are tried before, between and behind them that go past the end where they are
    tried. -/
theorem tryAll_of_stores (values : List Stored) (b : Builder)
    (hstored : values.foldlM Stored.store .empty = .ok b) (attempts : List Attempt)
    (hloads : attempts.filterMap stored? = values)
    (hothers : OthersFail (tryAll attempts b.cell.toSlice).1) :
    (b.build = .ok b.cell ↔ ∀ c, .ref c ∈ values → c.depth ≤ 65535) ∧
      loads (tryAll attempts b.cell.toSlice).1 =
        values.map (fun value => (value, .ok value.found)) ∧
      (tryAll attempts b.cell.toSlice).2.remainingBits = 0 ∧
      (tryAll attempts b.cell.toSlice).2.remainingRefs = 0 := by
  -- The built cell shows the bits and references of all values, in order.
  obtain ⟨hrange, hfits, rfl⟩ := Stored.stores_eq_ok values Builder.fits_empty hstored
  obtain ⟨hfound, hend⟩ := tryAll_shows attempts _ (by rw [hloads]; exact Slice.shows_cell _)
    (by rw [hloads]; exact hrange) hothers
  refine ⟨?_, by rw [hfound, hloads], hend.remainingBits, hend.remainingRefs⟩
  -- The references of the builder are those among the values.
  rw [Builder.build_eq_ok, and_iff_left rfl, Builder.Buildable, and_iff_right hfits]
  simp only [Builder.empty, List.nil_append, Stored.mem_refs, Cell.maxRefDepth]

/-- Seven values on a new builder, and reads that fail in front, in between and behind. The signed
    numbers are the lowest of their fields. -/
theorem tryAll_of_stores_sevenValues :
    let values : List Stored := [.uint 5 3, .int (-4) 3, .bits [true, false], .ref (.data [true]),
      .int (-1) 1, .uint 0 0, .ref (.data [])]
    let b : Builder :=
      ⟨[true, false, true, true, false, false, true, false, true], [.data [true], .data []]⟩
    let attempts : List Attempt := [.other (.loadPrefix 2 3), .load (.uint 5 3),
      .other (.loadUInt (-1)), .load (.int (-4) 3), .load (.bits [true, false]),
      .load (.ref (.data [true])), .other (.skipBits 2), .load (.int (-1) 1), .load (.uint 0 0),
      .other (.preloadUInt 1), .load (.ref (.data [])), .other .loadRef]
    values.foldlM Stored.store .empty = .ok b ∧ attempts.filterMap stored? = values ∧
      OthersFail (tryAll attempts b.cell.toSlice).1 ∧
      (b.build = .ok b.cell ↔ ∀ c, .ref c ∈ values → c.depth ≤ 65535) ∧
      loads (tryAll attempts b.cell.toSlice).1 =
        values.map (fun value => (value, .ok value.found)) ∧
      (tryAll attempts b.cell.toSlice).2.remainingBits = 0 ∧
      (tryAll attempts b.cell.toSlice).2.remainingRefs = 0 := by
  intro values b attempts
  have hstored : values.foldlM Stored.store .empty = .ok b := rfl
  -- The attempts one by one: each of the five other ones fails where it is tried.
  have hothers : OthersFail (tryAll attempts b.cell.toSlice).1 := by
    refine othersFail_other.mpr ⟨⟨_, rfl, rfl⟩, othersFail_load.mpr ?_⟩
    refine othersFail_other.mpr ⟨⟨_, rfl, rfl⟩, othersFail_load.mpr ?_⟩
    refine othersFail_load.mpr (othersFail_load.mpr ?_)
    refine othersFail_other.mpr ⟨⟨_, rfl, rfl⟩, othersFail_load.mpr (othersFail_load.mpr ?_)⟩
    refine othersFail_other.mpr ⟨⟨_, rfl, rfl⟩, othersFail_load.mpr ?_⟩
    exact othersFail_other.mpr ⟨⟨_, rfl, rfl⟩, nofun⟩
  exact ⟨hstored, rfl, hothers, tryAll_of_stores values b hstored attempts rfl hothers⟩

end Attempt

end CellCode
