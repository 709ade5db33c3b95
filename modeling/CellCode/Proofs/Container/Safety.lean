import CellCode.Proofs.Container.Bytes
import CellCode.Proofs.Lists
import CellCode.Proofs.Result
import CellCode.Container.Reader

/-!
# Reading is safe

Every number of a container is up to whoever wrote it. The reader checks some of them and relies
on the others: a table of cells is filled in place from the last cell to the first, and a
reference is followed to a place of the table that must have been filled by then; and a cell is
made of parts that are checked to fit.

`readInPlace` is the reader with all of these lookups and checks, each with a fault of its own for
when it fails. It is shown to be `read`: none of the faults can happen, since references only lead
to later cells, and since a descriptor cannot announce more than a cell holds.

## Key results

- `rawCell_fits`: what is read for a cell fits into one
- `fill_eq`: the table is filled with the cells that `buildFrom` builds
- `buildFrom_inCapacity`: all cells that are built keep to the capacity
- `readInPlace_safe`: every sequence of bytes is refused as a container, or read as such cells
-/

namespace CellCode.Container

/-! ## Reading in place -/

/-- What can stop a reader that takes nothing for granted. -/
inductive Fault
  /-- The bytes are not a container. -/
  | refused (e : ContainerError)
  /-- The parts of a cell do not fit into one. -/
  | cell (e : CellError)
  /-- A position beyond the end of a list. -/
  | position (index : Nat)
  /-- A place of the table that is not filled yet. -/
  | unbuilt (index : Nat)

/-- A table of the cells, as far as they are built. -/
abbrev Table := List (Option Cell)

/-- The item in this position. -/
def itemAt {α : Type} (items : List α) (index : Nat) : Except Fault α :=
  match items[index]? with
  | none => .error (.position index)
  | some item => .ok item

/-- The cell in this place of the table. -/
def Table.cellAt (table : Table) (index : Nat) : Except Fault Cell := do
  match ← itemAt table index with
  | none => .error (.unbuilt index)
  | some cell => .ok cell

/-- The table with a cell put into this place. -/
def Table.put (table : Table) (index : Nat) (cell : Cell) : Except Fault Table :=
  if index < table.length then .ok (table.set index (some cell)) else .error (.position index)

/-- Refuses references of cell `index` that do not lead to a later one of `count` cells. -/
def checkOrder (count index : Nat) (refs : List Nat) : Except ContainerError Unit :=
  forM refs fun reference =>
    if reference ≤ index ∨ count ≤ reference then .error (.outOfOrder index reference) else .ok ()

/-- Builds cell `index` of `count` and puts it into the table. As in the reader itself, how deep the
    cell gets is left open. -/
def build (count : Nat) (raw : List RawCell) (index : Nat) (table : Table) :
    Except Fault Table := do
  let item ← itemAt raw index
  (checkOrder count index item.refs).mapError .refused
  let refs ← item.refs.mapM table.cellAt
  (Cell.checkCapacity item.bits refs).mapError .cell
  table.put index (.mk item.bits refs)

/-- Builds all cells, from the last to the first. -/
def fill (count : Nat) (raw : List RawCell) : Except Fault Table :=
  (List.range count).foldrM (build count raw) (List.replicate count none)

/-- The cell of a root's position. -/
def rootAt (count : Nat) (table : Table) (index : Nat) : Except Fault Cell :=
  if count ≤ index then .error (.refused (.rootRange index)) else table.cellAt index

/-- Reads a container up to its cells: the width of references, the number of cells, the positions
    of the roots, and whether a checksum follows. -/
def header : Read (Nat × Nat × List Nat × Bool) := do
  if (← take 4) ≠ magic then throw .badMagic
  let flags ← number 1
  let width := flags % 8
  if width < 1 ∨ 4 < width then throw (.referenceSize width)
  let sizeWidth ← number 1
  if sizeWidth < 1 ∨ 8 < sizeWidth then throw (.offsetSize sizeWidth)
  let cellCount ← number width
  let rootCount ← number width
  let absent ← number width
  if absent ≠ 0 then throw .absentCells
  let _ ← number sizeWidth
  let roots ← many (number width) rootCount
  if flags / 128 % 2 = 1 then
    let _ ← take (cellCount * sizeWidth)
  return (width, cellCount, roots, flags / 64 % 2 = 1)

/-- Compares the checksum, if one follows, with that of the bytes before it. -/
def checkChecksum (bytes : List UInt8) (checksum : Bool) (cursor : Cursor) :
    Except ContainerError Unit := do
  if checksum then
    let (expected, _) ← (take 4).run cursor
    if (Checksum.crc32c (bytes.take cursor.position)).toNat ≠ ofLittleEndian expected then
      throw .checksumMismatch

/-- Reads the roots that a container holds, with every lookup and every check on the way. -/
def readInPlace (bytes : List UInt8) : Except Fault (List Cell) := do
  let ((width, count, roots, checksum), cursor) ← (header.run ⟨0, bytes⟩).mapError .refused
  let (raw, cursor) ← ((many (rawCell width) count).run cursor).mapError .refused
  (checkChecksum bytes checksum cursor).mapError .refused
  let table ← fill count raw
  roots.mapM (rootAt count table)

private theorem ite_bind_read {α β : Type} (p : Prop) [Decidable p] (x y : Read α)
    (f : α → Read β) : (if p then x else y) >>= f = if p then x >>= f else y >>= f := by
  split <;> rfl

/-- The content of a container is its header and then its cells. -/
theorem content_eq : content = header >>= fun (width, count, roots, checksum) => do
    let raw ← many (rawCell width) count
    return (roots, raw, checksum) := by
  -- The steps are the same ones in the same order; only their brackets and the early exits stand
  -- differently.
  simp only [content, header, bind_assoc, ite_bind_read, pure_bind]

/-- Reading is one step after the other. -/
theorem read_eq (bytes : List UInt8) :
    read bytes = (do
      let ((width, count, roots, checksum), cursor) ← header.run ⟨0, bytes⟩
      let (raw, cursor) ← (many (rawCell width) count).run cursor
      checkChecksum bytes checksum cursor
      let cells ← buildFrom 0 raw
      roots.mapM (root cells)) := by
  unfold read
  -- The content is split into header and cells, and after that both sides take the same steps.
  rw [content_eq]
  simp only [StateT.run_bind, bind_assoc]
  apply bind_congr
  intro a
  apply bind_congr
  intro b
  simp only [StateT.run_pure, pure_bind, checkChecksum]
  split
  · rw [bind_assoc]
    apply bind_congr
    intro c
    split <;> rfl
  · rfl

/-! ## What is read fits -/

/-- A step and then another succeed when both do, the second where the first stopped. -/
theorem run_bind_eq_ok {α β : Type} (x : Read α) (f : α → Read β) (c c' : Cursor) (b : β) :
    (x >>= f).run c = .ok (b, c') ↔ ∃ a d, x.run c = .ok (a, d) ∧ (f a).run d = .ok (b, c') := by
  rw [StateT.run_bind, bind_eq_ok]
  simp only [Prod.exists]

/-- What is split off has the length that was asked for. -/
theorem splitExactly_length {α : Type} (n : Nat) (items front rest : List α)
    (h : splitExactly n items = some (front, rest)) : front.length = n := by
  -- Induction on the number: one item goes into the front at each step.
  induction n generalizing items front with
  | zero =>
    cases h
    rfl
  | succ n ih =>
    cases items with
    | nil => cases h
    | cons item items =>
      obtain ⟨⟨front', rest'⟩, hsplit, hfront⟩ := Option.map_eq_some_iff.mp h
      cases hfront
      rw [List.length_cons, ih items front' hsplit]

/-- As many bytes are read as were asked for. -/
theorem length_of_take (n : Nat) (c c' : Cursor) (bytes : List UInt8)
    (h : (take n).run c = .ok (bytes, c')) : bytes.length = n := by
  rw [take, run_bind_eq_ok] at h
  obtain ⟨cursor, d, hget, h⟩ := h
  cases hget
  split at h
  · cases h
  · rename_i front rest hsplit
    cases h
    exact splitExactly_length n _ _ _ hsplit

/-- A single byte gives a number below 256. -/
theorem byte_lt (c c' : Cursor) (n : Nat) (h : (number 1).run c = .ok (n, c')) : n < 256 := by
  rw [number, run_bind_eq_ok] at h
  obtain ⟨bytes, d, htake, h⟩ := h
  cases h
  obtain ⟨b, rfl⟩ := List.length_eq_one_iff.mp (length_of_take 1 c c' bytes htake)
  have := b.toNat_lt
  simp [ofBigEndian]
  omega

/-- Exactly `n` items are read, each of them by the step for one. -/
theorem many_eq_ok {α : Type} (item : Read α) (n : Nat) (c c' : Cursor) (items : List α)
    (h : (many item n).run c = .ok (items, c')) :
    items.length = n ∧ ∀ a ∈ items, ∃ d d', item.run d = .ok (a, d') := by
  -- Induction on the number of items: the first one, and then the others from where it stopped.
  induction n generalizing c items with
  | zero =>
    cases h
    simp
  | succ n ih =>
    rw [many, run_bind_eq_ok] at h
    obtain ⟨first, d, hfirst, h⟩ := h
    rw [run_bind_eq_ok] at h
    obtain ⟨others, d', hothers, h⟩ := h
    cases h
    obtain ⟨hlen, hitems⟩ := ih d others hothers
    constructor
    · rw [List.length_cons, hlen]
    · intro a ha
      rcases List.mem_cons.mp ha with rfl | ha
      · exact ⟨c, d, hfirst⟩
      · exact hitems a ha

/-- Bytes have eight bits each. -/
theorem length_ofBytes (bytes : List UInt8) : (Bits.ofBytes bytes).length = 8 * bytes.length := by
  induction bytes with
  | nil => rfl
  | cons b bytes ih =>
    rw [Bits.ofBytes, List.flatMap_cons, List.length_append, ← Bits.ofBytes, ih, List.length_cons,
      Bits.ofByte, Bits.length_ofNat]
    omega

/-- The bits and references that are read for a cell fit into one. -/
def RawCell.Fits (raw : RawCell) : Prop :=
  raw.bits.length ≤ Cell.maxBits ∧ raw.refs.length ≤ Cell.maxRefs

/-- A descriptor announces at most 127 bytes without a tag, or 128 of which the tag takes up a
    bit. -/
theorem rawCell_fits (width : Nat) (c c' : Cursor) (raw : RawCell)
    (h : (rawCell width).run c = .ok (raw, c')) : raw.Fits := by
  rw [rawCell, run_bind_eq_ok] at h
  obtain ⟨d1, c₁, hd1, h⟩ := h
  rw [run_bind_eq_ok] at h
  obtain ⟨d2, c₂, hd2, h⟩ := h
  have hbyte := byte_lt c₁ c₂ d2 hd2
  dsimp only at h
  -- A descriptor of another kind of cell is refused before its bits are read.
  by_cases hexotic : d1 / 8 % 2 = 1
  · rw [if_pos hexotic] at h
    cases h
  rw [if_neg hexotic] at h
  -- So is one with too many references.
  by_cases hcount : d1 % 8 > Cell.maxRefs
  · rw [if_pos hcount] at h
    cases h
  rw [if_neg hcount, run_bind_eq_ok] at h
  obtain ⟨bytes, c₃, hbytes, h⟩ := h
  have hfilled : (Bits.ofBytes bytes).length = 8 * ((d2 + 1) / 2) := by
    rw [length_ofBytes, length_of_take _ c₂ c₃ bytes hbytes]
  -- Behind the bits only the references are read.
  have hrefs (bits : Bits) (c₄ : Cursor)
      (h : (many (number width) (d1 % 8) >>= fun refs => pure (RawCell.mk bits refs)).run c₄ =
        .ok (raw, c')) : raw.bits = bits ∧ raw.refs.length ≤ Cell.maxRefs := by
    rw [run_bind_eq_ok] at h
    obtain ⟨refs, c₅, hmany, h⟩ := h
    cases h
    have := (many_eq_ok _ _ _ _ _ hmany).1
    exact ⟨rfl, by dsimp only; omega⟩
  -- With a tag the last byte is filled up, and the bits are those before the tag; without one all
  -- bits count.
  by_cases htag : d2 % 2 = 1
  · rw [if_pos htag] at h
    cases huntag : (Bits.ofBytes bytes).untag? with
    | none =>
      rw [huntag] at h
      cases h
    | some bits =>
      -- The tag and the bits behind it are dropped, so fewer bits are left than were read.
      have hless := Bits.length_of_untag? _ _ huntag
      rw [huntag] at h
      obtain ⟨hbits, hrefs⟩ := hrefs bits c₃ h
      exact ⟨by rw [hbits, Cell.maxBits]; omega, hrefs⟩
  · rw [if_neg htag] at h
    obtain ⟨hbits, hrefs⟩ := hrefs (Bits.ofBytes bytes) c₃ h
    exact ⟨by rw [hbits, Cell.maxBits]; omega, hrefs⟩

/-- There are as many cells as the header says, and each of them fits. -/
theorem rawCells_fit (width count : Nat) (c c' : Cursor) (raw : List RawCell)
    (h : (many (rawCell width) count).run c = .ok (raw, c')) :
    raw.length = count ∧ ∀ r ∈ raw, r.Fits := by
  obtain ⟨hlen, hitems⟩ := many_eq_ok _ count c c' raw h
  refine ⟨hlen, ?_⟩
  intro r hr
  obtain ⟨d, d', hcell⟩ := hitems r hr
  exact rawCell_fits width d d' r hcell

/-! ## What is built -/

/-- The cells that are built from parts that fit keep to the capacity. -/
theorem buildFrom_inCapacity (index : Nat) (raw : List RawCell) (cells : List Cell)
    (hfits : ∀ r ∈ raw, r.Fits) (h : buildFrom index raw = .ok cells) :
    ∀ c ∈ cells, c.InCapacity := by
  -- Induction on the parts: a cell is built after all those behind it, which keep to the capacity.
  induction raw generalizing index cells with
  | nil =>
    cases h
    simp
  | cons item raw ih =>
    rw [List.forall_mem_cons] at hfits
    rw [buildFrom, bind_eq_ok] at h
    obtain ⟨later, hlater, h⟩ := h
    obtain ⟨refs, hrefs, h⟩ := (bind_eq_ok _ _ _).mp h
    cases h
    have hbelow := ih (index + 1) later hfits.2 hlater
    rw [mapM_eq_ok] at hrefs
    rw [List.forall_mem_cons]
    refine ⟨.intro ?_ ?_, hbelow⟩
    · -- The references of the cell are as many as those that were read for it.
      rw [Cell.Fits, Cell.bits_mk, Cell.refs_mk, ← hrefs.length_eq]
      exact hfits.1
    · -- Every reference is one of the later cells.
      rw [Cell.refs_mk]
      intro r hr
      obtain ⟨reference, _, hresolve⟩ := forall₂_mem_right _ _ hrefs r hr
      rw [resolve] at hresolve
      split at hresolve
      · cases hresolve
      · rename_i cell hlook
        cases hresolve
        split at hlook
        · cases hlook
        · exact hbelow _ (List.mem_of_getElem? hlook)

/-- One cell is built for each part. -/
theorem length_buildFrom (index : Nat) (raw : List RawCell) (cells : List Cell)
    (h : buildFrom index raw = .ok cells) : cells.length = raw.length := by
  -- Induction on the parts.
  induction raw generalizing index cells with
  | nil =>
    cases h
    rfl
  | cons item raw ih =>
    rw [buildFrom, bind_eq_ok] at h
    obtain ⟨later, hlater, h⟩ := h
    obtain ⟨refs, _, h⟩ := (bind_eq_ok _ _ _).mp h
    cases h
    rw [List.length_cons, List.length_cons, ih (index + 1) later hlater]

/-- The table in which all cells but the first `index` are built. -/
def tableFrom (index : Nat) (later : List Cell) : Table :=
  List.replicate index none ++ later.map some

/-- A place from `index` on has the cell that is built for it. -/
theorem cellAt_tableFrom (index : Nat) (later : List Cell) (reference : Nat) (c : Cell)
    (hindex : index ≤ reference) (h : later[reference - index]? = some c) :
    (tableFrom index later).cellAt reference = .ok c := by
  -- The places before `index` are empty, so the look-up goes into the later cells.
  have hlook : (tableFrom index later)[reference]? = some (some c) := by
    rw [tableFrom, List.getElem?_append_right (by simpa using hindex), List.length_replicate,
      List.getElem?_map, h]
    rfl
  rw [Table.cellAt, itemAt, hlook]
  rfl

/-- References that are in order are found in the table, and others are refused before. -/
theorem resolve_eq (index : Nat) (later : List Cell) (refs : List Nat) :
    ((checkOrder (index + 1 + later.length) index refs).mapError Fault.refused >>= fun _ =>
      refs.mapM (tableFrom (index + 1) later).cellAt) =
    (refs.mapM (resolve index later)).mapError .refused := by
  -- Induction on the references: the order of each one is checked first, and then it is looked up.
  induction refs with
  | nil => rfl
  | cons reference refs ih =>
    rw [checkOrder, List.forM_cons, List.mapM_cons, List.mapM_cons, ← checkOrder]
    by_cases horder : reference ≤ index ∨ index + 1 + later.length ≤ reference
    · -- Out of order: the check refuses the reference, and `resolve` finds nothing under it.
      have hnone : (if reference ≤ index then none else later[reference - index - 1]?) = none := by
        split
        · rfl
        · exact List.getElem?_eq_none (by omega)
      rw [if_pos horder, resolve, hnone]
      rfl
    · -- In order: the reference leads to one of the later cells, and the table has it.
      obtain ⟨c, hlook⟩ : ∃ c, later[reference - index - 1]? = some c :=
        ⟨_, List.getElem?_eq_getElem (by omega)⟩
      have hcell := cellAt_tableFrom (index + 1) later reference c (by omega)
        (by rw [← hlook, Nat.sub_add_eq])
      rw [if_neg horder, resolve, if_neg (by omega), hlook, hcell]
      show ((checkOrder _ index refs).mapError Fault.refused >>= fun _ =>
        refs.mapM _ >>= fun cells => pure (c :: cells)) = _
      rw [← bind_assoc, ih]
      cases refs.mapM (resolve index later) <;> rfl

/-- A cell whose parts fit is built with the references that `resolve` finds, and put in front of
    the later ones. -/
theorem build_eq (index : Nat) (raw : List RawCell) (later : List Cell) (item : RawCell)
    (hitem : raw[index]? = some item) (hfits : item.Fits) :
    build (index + 1 + later.length) raw index (tableFrom (index + 1) later) =
      ((item.refs.mapM (resolve index later)).map fun refs =>
        tableFrom index (.mk item.bits refs :: later)).mapError .refused := by
  -- The checks and look-ups are those of `resolve`, so what is left is to build the cell and to put
  -- it into its place.
  have hresolve := resolve_eq index later item.refs
  rw [build, itemAt, hitem]
  show ((checkOrder _ index item.refs).mapError Fault.refused >>= fun _ =>
    item.refs.mapM _ >>= _) = _
  rw [← bind_assoc, hresolve]
  cases hrefs : item.refs.mapM (resolve index later) with
  | error e => rfl
  | ok refs =>
    -- The parts fit, and as many references were found as there are.
    have hcheck : Cell.checkCapacity item.bits refs = .ok () := by
      rw [Cell.checkCapacity_eq_ok, Cell.Fits, Cell.bits_mk, Cell.refs_mk,
        ← ((mapM_eq_ok _ _ _).mp hrefs).length_eq]
      exact hfits
    show ((Cell.checkCapacity item.bits refs).mapError Fault.cell >>= fun _ =>
      (tableFrom (index + 1) later).put index (.mk item.bits refs)) = _
    rw [hcheck]
    show (tableFrom (index + 1) later).put index (.mk item.bits refs) = .ok _
    -- The place is inside the table, because it is in front of the later cells.
    rw [Table.put, if_pos (by simp [tableFrom]; omega)]
    simp [tableFrom, List.replicate_succ']

/-- Filling the table from the last cell to the first is building the cells. -/
theorem fill_eq (before raw : List RawCell) (hfits : ∀ r ∈ raw, r.Fits) :
    (List.range' before.length raw.length).foldrM
        (build (before.length + raw.length) (before ++ raw))
        (List.replicate (before.length + raw.length) none) =
      ((buildFrom before.length raw).map (tableFrom before.length)).mapError .refused := by
  -- Induction on the parts that are left, from the front: the fold builds the last cells first, so
  -- it does the later ones before this one.
  induction raw generalizing before with
  | nil => simp [buildFrom, tableFrom, Except.map, Except.mapError]; rfl
  | cons item raw ih =>
    rw [List.forall_mem_cons] at hfits
    -- The later cells are built with this one among those before them.
    have hlater := ih (before ++ [item]) hfits.2
    have hcount : before.length + 1 + raw.length = before.length + (raw.length + 1) := by omega
    rw [List.length_append, List.length_singleton, List.append_assoc, List.singleton_append,
      hcount] at hlater
    rw [List.length_cons, List.range'_succ, List.foldrM_cons, hlater, buildFrom]
    cases hbuild : buildFrom (before.length + 1) raw with
    | error e => rfl
    | ok later =>
      -- With the later cells in the table, this one is built by `build_eq`.
      have hstep := build_eq before.length (before ++ item :: raw) later item (by simp) hfits.1
      rw [length_buildFrom _ raw later hbuild, hcount] at hstep
      show build _ _ _ (tableFrom (before.length + 1) later) = _
      rw [hstep]
      show _ = ((item.refs.mapM (resolve before.length later) >>= fun refs =>
        pure (.mk item.bits refs :: later)).map _).mapError _
      cases item.refs.mapM (resolve before.length later) <;> rfl

/-- A root is found in the full table, or refused in the same way. -/
theorem rootAt_eq (cells : List Cell) (index : Nat) :
    rootAt cells.length (tableFrom 0 cells) index = (root cells index).mapError .refused := by
  rw [rootAt, root]
  -- A position beyond the cells is refused on both sides.
  by_cases hindex : cells.length ≤ index
  · rw [if_pos hindex, List.getElem?_eq_none hindex]
    rfl
  · -- All cells are built, so any position in front of the end has one.
    have hlook : cells[index]? = some cells[index] := List.getElem?_eq_getElem (by omega)
    rw [if_neg hindex, hlook, cellAt_tableFrom 0 cells index _ (by omega) hlook]
    rfl

theorem mapM_rootAt_eq (cells : List Cell) (roots : List Nat) :
    roots.mapM (rootAt cells.length (tableFrom 0 cells)) =
      (roots.mapM (root cells)).mapError .refused := by
  -- Induction on the positions of the roots.
  induction roots with
  | nil => rfl
  | cons index roots ih =>
    rw [List.mapM_cons, List.mapM_cons, ih, rootAt_eq]
    cases root cells index with
    | error e => rfl
    | ok cell => cases roots.mapM (root cells) <;> rfl

/-- The last part of reading, once the parts of all cells are there. -/
theorem fill_roots_eq (raw : List RawCell) (roots : List Nat) (hfits : ∀ r ∈ raw, r.Fits) :
    (fill raw.length raw >>= fun table => roots.mapM (rootAt raw.length table)) =
      (buildFrom 0 raw >>= fun cells => roots.mapM (root cells)).mapError .refused := by
  have hfill := fill_eq [] raw hfits
  rw [List.length_nil, Nat.zero_add, List.nil_append, ← List.range_eq_range'] at hfill
  rw [fill, hfill]
  -- A cell that is refused ends both; otherwise the table is full and the roots are looked up.
  cases hbuild : buildFrom 0 raw with
  | error e => rfl
  | ok cells =>
    rw [← length_buildFrom 0 raw cells hbuild]
    exact mapM_rootAt_eq cells roots

/-- Reading in place is reading: no lookup and no check on the way fails. -/
theorem readInPlace_eq (bytes : List UInt8) :
    readInPlace bytes = (read bytes).mapError .refused := by
  rw [read_eq, readInPlace]
  -- The header and the parts are read in the same way. What was read fits, so the rest agrees by
  -- `fill_roots_eq`.
  cases hheader : header.run ⟨0, bytes⟩ with
  | error e => rfl
  | ok result =>
    obtain ⟨⟨width, count, roots, checksum⟩, cursor⟩ := result
    show (((many (rawCell width) count).run cursor).mapError Fault.refused >>= _) =
      ((many (rawCell width) count).run cursor >>= _).mapError Fault.refused
    cases hraw : (many (rawCell width) count).run cursor with
    | error e => rfl
    | ok result =>
      obtain ⟨raw, cursor'⟩ := result
      obtain ⟨rfl, hfits⟩ := rawCells_fit width count cursor cursor' raw hraw
      show ((checkChecksum bytes checksum cursor').mapError Fault.refused >>= fun _ =>
          fill raw.length raw >>= fun table => roots.mapM (rootAt raw.length table)) =
        (checkChecksum bytes checksum cursor' >>= fun _ =>
          buildFrom 0 raw >>= fun cells => roots.mapM (root cells)).mapError Fault.refused
      rw [fill_roots_eq raw roots hfits]
      -- Either the checksum is refused on both sides, or it has no part in the rest.
      cases checkChecksum bytes checksum cursor' <;> rfl

/-- The cells that are read keep to the capacity. -/
theorem read_inCapacity (bytes : List UInt8) (roots : List Cell) (h : read bytes = .ok roots) :
    ∀ c ∈ roots, c.InCapacity := by
  -- Reading in steps: what was read for the cells fits, so the cells that were built keep to the
  -- capacity.
  rw [read_eq, bind_eq_ok] at h
  obtain ⟨⟨⟨width, count, positions, checksum⟩, cursor⟩, -, h⟩ := h
  obtain ⟨⟨raw, cursor'⟩, hraw, h⟩ := (bind_eq_ok _ _ _).mp h
  obtain ⟨-, -, h⟩ := (bind_eq_ok _ _ _).mp h
  obtain ⟨cells, hbuild, h⟩ := (bind_eq_ok _ _ _).mp h
  obtain ⟨-, hfits⟩ := rawCells_fit width count cursor cursor' raw hraw
  have hcells := buildFrom_inCapacity 0 raw cells hfits hbuild
  rw [mapM_eq_ok] at h
  intro c hc
  -- A root is one of the cells that were built.
  obtain ⟨index, -, hroot⟩ := forall₂_mem_right _ _ h c hc
  rw [root] at hroot
  split at hroot
  · cases hroot
  · rename_i cell hlook
    cases hroot
    exact hcells _ (List.mem_of_getElem? hlook)

/-- Any sequence of bytes is refused as a container, or read as a list of cells. In neither case
    does a lookup or a check on the way fail, and all cells that are read, with all cells below
    them, keep to the capacity of a cell. -/
theorem readInPlace_safe (bytes : List UInt8) :
    (∃ e, read bytes = .error e ∧ readInPlace bytes = .error (.refused e)) ∨
    ∃ roots, read bytes = .ok roots ∧ readInPlace bytes = .ok roots ∧
      ∀ c ∈ roots, c.InCapacity := by
  rw [readInPlace_eq]
  cases hread : read bytes with
  | error e => exact .inl ⟨e, rfl, rfl⟩
  | ok roots => exact .inr ⟨roots, rfl, rfl, read_inCapacity bytes roots hread⟩

end CellCode.Container
