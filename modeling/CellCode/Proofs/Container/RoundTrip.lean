import CellCode.Proofs.Cell.ParentsFirst
import CellCode.Proofs.Container.Reading
import CellCode.Proofs.Result

/-!
# Containers are read back

The writer lists the cells below the roots, parents first, and refers to them by their places in
the list. The reader builds them from the last to the first, so that the references of a cell are
there when the cell is built, and each is the one that stood in its place.

## Key results

- `Listed`: what the writer makes sure of about its list of cells
- `reads_content`: the positions and the cells are read back as they were written
- `buildFrom_suffix`: the cells are built from the last to the first
- `read_write`: a container can be written unless there are no roots or too many, and it holds
  the roots it was written for
-/

namespace CellCode.Container

-- Powers are those of the standard library, whatever else is in scope.
attribute [local instance (high)] instPowNat

/-- The cells of a container: different ones within the capacity of cells, each before its
    references, the roots among them. -/
structure Listed (cells roots : List Cell) : Prop where
  fits : ∀ c ∈ cells, c.Fits
  distinct : cells.Pairwise fun c d => c.digest ≠ d.digest
  later : Cell.ChildrenLater cells
  roots : ∀ r ∈ roots, r ∈ cells

variable {cells roots : List Cell}

/-! ## Positions -/

/-- The position of a cell. -/
def position (cells : List Cell) (c : Cell) : Nat := (positions cells).getD c.digest 0

/-- The cell with the positions of its references. -/
def raw (cells : List Cell) (c : Cell) : RawCell := ⟨c.bits, c.refs.map (position cells)⟩

/-- A digest that no cell of the list has is numbered as before. -/
private theorem getElem?_foldl_of_ne (start : Nat) (table : Positions) (d : Digest)
    (h : ∀ c ∈ cells, c.digest ≠ d) :
    ((cells.zipIdx start).foldl (fun table (cell, i) => table.insert cell.digest i) table)[d]? =
      table[d]? := by
  -- Induction on the cells, with the number of the first one and the table so far.
  induction cells generalizing start table with
  | nil => rfl
  | cons c cells ih =>
    rw [List.forall_mem_cons] at h
    rw [List.zipIdx_cons, List.foldl_cons, ih _ _ h.2, Std.HashMap.getElem?_insert,
      if_neg (by simpa using h.1)]

/-- The cells are numbered in order. -/
private theorem getElem?_foldl (start : Nat) (table : Positions)
    (hdistinct : cells.Pairwise fun c d => c.digest ≠ d.digest) (i : Nat) (c : Cell)
    (h : cells[i]? = some c) :
    ((cells.zipIdx start).foldl (fun table (cell, i) => table.insert cell.digest i)
      table)[c.digest]? = some (start + i) := by
  -- Induction on the cells; the cell is the first one or one behind it.
  induction cells generalizing start table i with
  | nil => cases h
  | cons first cells ih =>
    rw [List.pairwise_cons] at hdistinct
    rw [List.zipIdx_cons, List.foldl_cons]
    cases i with
    | zero =>
      cases h
      -- No later cell has the digest of the first one.
      rw [getElem?_foldl_of_ne _ _ _ fun d hd => (hdistinct.1 d hd).symm]
      exact Std.HashMap.getElem?_insert_self
    -- A later cell is numbered from the next number on.
    | succ i =>
      rw [ih _ _ hdistinct.2 i h]
      congr 1
      omega

/-- The position of a cell is its place in the list. -/
theorem position_eq (hdistinct : cells.Pairwise fun c d => c.digest ≠ d.digest) (i : Nat)
    (c : Cell) (h : cells[i]? = some c) : position cells c = i := by
  rw [position, Std.HashMap.getD_eq_getD_getElem?, positions, getElem?_foldl 0 ∅ hdistinct i c h,
    Option.getD_some, Nat.zero_add]

/-- No number is beyond those of the list. -/
private theorem lt_of_getElem?_foldl (start : Nat) (table : Positions) (d : Digest) (i : Nat)
    (htable : ∀ (d : Digest) (i : Nat), table[d]? = some i → i < start + cells.length)
    (h : ((cells.zipIdx start).foldl (fun table (cell, i) => table.insert cell.digest i)
      table)[d]? = some i) : i < start + cells.length := by
  -- Induction on the cells; what the table has so far is no larger than the last number.
  induction cells generalizing start table with
  | nil => exact htable d i h
  | cons c cells ih =>
    rw [List.length_cons] at htable ⊢
    rw [List.zipIdx_cons, List.foldl_cons] at h
    have hlt := ih (start + 1) (table.insert c.digest start) ?_ h
    · omega
    · intro d i hi
      -- The number is that of the new entry, or it was there before.
      rw [Std.HashMap.getElem?_insert] at hi
      split at hi
      · cases hi
        omega
      · have := htable d i hi
        omega

/-- Every position is one in the list, also that of a cell which is not listed. -/
theorem position_lt (hne : cells ≠ []) (c : Cell) : position cells c < cells.length := by
  rw [position, Std.HashMap.getD_eq_getD_getElem?]
  -- A cell that is not listed has the position 0, which is there since the list is not empty.
  cases h : (positions cells)[c.digest]? with
  | none => exact List.length_pos_iff.mpr hne
  | some i =>
    have hlt := lt_of_getElem?_foldl 0 ∅ c.digest i (by simp) h
    rwa [Nat.zero_add] at hlt

/-! ## The content -/

/-- A cell takes no more bytes than its descriptors, its bits and four references. -/
theorem length_cellBytes_le (table : Positions) (width : Nat) (hwidth : width ≤ 4) (c : Cell)
    (hfits : c.Fits) : (cellBytes table width c).length ≤ 146 := by
  obtain ⟨hbits, hrefs⟩ := hfits
  rw [Cell.maxBits] at hbits
  rw [Cell.maxRefs] at hrefs
  -- Each reference takes as many bytes as a position has.
  have hsum : (c.refs.flatMap (positionBytes table width)).length = c.refs.length * width := by
    simp [List.length_flatMap, positionBytes]
  have hmul : c.refs.length * width ≤ 4 * 4 := Nat.mul_le_mul hrefs hwidth
  rw [cellBytes, List.length_append, List.length_append, Bits.length_toTaggedBytes, hsum]
  simp only [Cell.descriptors, List.length_cons, List.length_nil]
  omega

/-- All cells together take that many bytes each. -/
theorem length_payload_le (table : Positions) (width : Nat) (hwidth : width ≤ 4)
    (hfits : ∀ c ∈ cells, c.Fits) :
    (cells.flatMap (cellBytes table width)).length ≤ cells.length * 146 := by
  -- Induction on the cells.
  induction cells with
  | nil => simp
  | cons c cells ih =>
    rw [List.forall_mem_cons] at hfits
    have hfirst := length_cellBytes_le table width hwidth c hfits.1
    have hothers := ih hfits.2
    rw [List.flatMap_cons, List.length_append, List.length_cons]
    omega

/-- The size of the cells' part takes no more than eight bytes. -/
theorem byteWidth_payload_le (table : Positions) (width : Nat) (hwidth : width ≤ 4)
    (hfits : ∀ c ∈ cells, c.Fits) (hcount : cells.length < 256 ^ 4) :
    byteWidth (cells.flatMap (cellBytes table width)).length ≤ 8 := by
  have hpayload := length_payload_le table width hwidth hfits
  exact byteWidth_le _ 8 (by omega) (by omega)

/-- The byte of flags of a container. -/
def flags (checksum : Bool) (width : Nat) : Nat := (if checksum then 0x40 else 0) + width

/-- What the byte of flags says. -/
theorem flags_parts (checksum : Bool) (width : Nat) (hwidth : width ≤ 4) :
    -- Four is the largest width, so the width is found in the lowest bits.
    flags checksum width < 256 ∧ flags checksum width % 8 = width ∧
      ¬ flags checksum width / 128 % 2 = 1 ∧
      decide (flags checksum width / 64 % 2 = 1) = checksum := by
  cases checksum with
  | false =>
    simp only [flags, Bool.false_eq_true, if_false, decide_eq_false_iff_not]
    omega
  | true =>
    simp only [flags, if_true, decide_eq_true_eq]
    omega

/-- The content is read back: the positions of the roots, the cells with the positions of their
    references, and whether there is a checksum. -/
theorem reads_content (hne : cells ≠ []) (hfits : ∀ c ∈ cells, c.Fits) (checksum : Bool)
    (hcount : cells.length < 256 ^ 4) (hroots : roots.length < 256 ^ byteWidth cells.length) :
    Reads content (body cells roots checksum)
      (roots.map (position cells), cells.map (raw cells), checksum) := by
  -- Positions have at least one byte and at most four, and each is in their range.
  have hwidth := one_le_byteWidth cells.length
  have hwidth' := byteWidth_le cells.length 4 (by omega) hcount
  have hlt := lt_pow_byteWidth cells.length
  have hposition (c : Cell) : position cells c < 256 ^ byteWidth cells.length :=
    Nat.lt_trans (position_lt hne c) hlt
  simp only [body, List.append_assoc]
  generalize byteWidth cells.length = width at *
  have hsizeWidth' := byteWidth_payload_le (positions cells) width hwidth' hfits hcount
  generalize (cells.flatMap (cellBytes (positions cells) width)).length = size at *
  have hsizeWidth := one_le_byteWidth size
  have hsizeLt := lt_pow_byteWidth size
  generalize byteWidth size = sizeWidth at *
  obtain ⟨hflags, hflagsWidth, hindex, hchecksum⟩ := flags_parts checksum width hwidth'
  -- The roots are read as their positions.
  have hreadRoots : Reads (many (number width) roots.length)
      (roots.flatMap (positionBytes (positions cells) width)) (roots.map (position cells)) :=
    reads_many _ _ _ roots fun r _ => reads_number width _ (hposition r)
  -- The cells are read one after the other, each with the positions of its references.
  have hreadCells : Reads (many (rawCell width) cells.length)
      (cells.flatMap (cellBytes (positions cells) width)) (cells.map (raw cells)) := by
    apply reads_many
    intro c hc
    exact reads_rawCell width c (position cells) (hfits c hc) fun r _ => hposition r
  show Reads content (magic ++ ([UInt8.ofNat (flags checksum width)] ++
    ([UInt8.ofNat sizeWidth] ++ _))) _
  unfold content
  -- The byte of flags says how many bytes a position takes, the next one how many the size takes.
  apply (reads_take 4 magic rfl).bind
  rw [if_neg (by simp)]
  apply (reads_byte _ hflags).bind
  rw [hflagsWidth]
  dsimp only
  rw [if_neg (by omega)]
  apply (reads_byte sizeWidth (by omega)).bind
  rw [if_neg (by omega)]
  -- Cells, roots and absent cells are counted in as many bytes as a position takes.
  apply (reads_number width cells.length hlt).bind
  apply (reads_number width roots.length hroots).bind
  apply (reads_number width 0 (Nat.pow_pos (by omega))).bind
  rw [if_neg (by simp)]
  apply (reads_number sizeWidth size hsizeLt).bind
  apply hreadRoots.bind
  rw [if_neg hindex]
  apply hreadCells.bind_pure
  rw [hchecksum]
  exact Reads.pure _

/-! ## Building the cells -/

/-- A position that stands for a later cell is resolved to this cell. -/
theorem resolve_eq_ok (index : Nat) (later : List Cell) (i : Nat) (c : Cell)
    (h : later[i]? = some c) : resolve index later (index + 1 + i) = .ok c := by
  have hsub : index + 1 + i - index - 1 = i := by omega
  rw [resolve, if_neg (by omega), hsub, h]

/-- The cells behind the first ones are built from their positions. -/
theorem buildFrom_suffix (before suffix : List Cell)
    (hdistinct : (before ++ suffix).Pairwise fun c d => c.digest ≠ d.digest)
    (hlater : Cell.ChildrenLater suffix) :
    buildFrom before.length (suffix.map (raw (before ++ suffix))) = .ok suffix := by
  -- Induction on the cells behind, which are built before the one in front of them.
  induction suffix generalizing before with
  | nil => rfl
  | cons c suffix ih =>
    have happend : before ++ c :: suffix = (before ++ [c]) ++ suffix := by simp
    have hothers := ih (before ++ [c]) (by rwa [← happend]) hlater.2
    rw [← happend, List.length_append, List.length_singleton] at hothers
    -- Each reference stands in a later place, and that place is its position.
    have hrefs : (c.refs.map (position (before ++ c :: suffix))).mapM
        (resolve before.length suffix) = .ok c.refs := by
      rw [mapM_eq_ok, List.forall₂_map_left_iff, List.forall₂_same]
      intro r hr
      obtain ⟨i, hi⟩ := List.getElem?_of_mem (hlater.1 r hr)
      have hposition : position (before ++ c :: suffix) r = before.length + 1 + i := by
        apply position_eq hdistinct
        rw [happend, List.getElem?_append_right (by simp), ← hi]
        congr 1
        simp
      rw [hposition]
      exact resolve_eq_ok _ _ i r hi
    rw [List.map_cons, buildFrom, hothers]
    -- The references resolve, so the cell is built from its own bits and references.
    show ((raw (before ++ c :: suffix) c).refs.mapM (resolve before.length suffix) >>= _) = _
    rw [raw, hrefs]
    show Except.ok (Cell.mk c.bits c.refs :: suffix) = _
    rw [Cell.mk_bits_refs]

/-- The roots are found by their positions. -/
theorem mapM_root (h : Listed cells roots) :
    (roots.map (position cells)).mapM (root cells) = .ok roots := by
  rw [mapM_eq_ok, List.forall₂_map_left_iff, List.forall₂_same]
  intro r hr
  -- A root stands in the list, in the place that is its position.
  obtain ⟨i, hi⟩ := List.getElem?_of_mem (h.roots r hr)
  rw [position_eq h.distinct i r hi, root, hi]

/-! ## Whole containers -/

/-- A container is read back when its cells are listed as they should be. -/
theorem read_body (hne : cells ≠ []) (h : Listed cells roots) (checksum : Bool)
    (hcount : cells.length < 256 ^ 4) (hroots : roots.length < 256 ^ byteWidth cells.length) :
    read (if checksum then body cells roots checksum ++
      littleEndian 4 (Checksum.crc32c (body cells roots checksum)).toNat
      else body cells roots checksum) = .ok roots := by
  -- The cells are built from all positions, and the roots found among them.
  have hcells : buildFrom 0 (cells.map (raw cells)) = .ok cells :=
    buildFrom_suffix [] cells h.distinct h.later
  have hcontent := reads_content hne h.fits checksum hcount hroots
  have hbuilt : (buildFrom 0 (cells.map (raw cells)) >>= fun built =>
      (roots.map (position cells)).mapM (root built)) = .ok roots :=
    (bind_eq_ok _ _ _).mpr ⟨cells, hcells, mapM_root h⟩
  cases checksum with
  -- Without a checksum nothing follows the content.
  | false =>
    have hrun := hcontent 0 []
    rw [List.append_nil] at hrun
    rw [if_neg (by simp), read, hrun]
    exact hbuilt
  | true =>
    -- The checksum behind the content is that of the bytes taken so far.
    generalize body cells roots true = bytes at hcontent ⊢
    have hsum : (Checksum.crc32c bytes).toNat < 256 ^ 4 := (Checksum.crc32c bytes).toNat_lt
    have hrun := hcontent 0 (littleEndian 4 (Checksum.crc32c bytes).toNat)
    have htake := reads_take 4 (littleEndian 4 (Checksum.crc32c bytes).toNat)
      (length_littleEndian _ _) (0 + bytes.length) []
    rw [List.append_nil] at htake
    rw [if_pos rfl, read, hrun]
    refine (bind_eq_ok _ _ _).mpr ⟨_, rfl, ?_⟩
    dsimp only
    rw [if_pos rfl, htake]
    refine (bind_eq_ok _ _ _).mpr ⟨_, rfl, ?_⟩
    dsimp only
    rw [Nat.zero_add, List.take_left, ofLittleEndian_littleEndian 4 _ hsum, if_neg (by simp)]
    exact hbuilt

/-- The cells that the writer lists fit if the roots keep to the capacity. -/
theorem fits_parentsFirst (hcapacity : ∀ r ∈ roots, r.InCapacity) :
    ∀ c ∈ Cell.parentsFirst roots, c.Fits := by
  intro c hc
  -- A cell that is listed is reached from a root.
  obtain ⟨r, hr, hreaches⟩ := Cell.reachedFrom_of_mem_parentsFirst roots c hc
  exact (hreaches.inCapacity (hcapacity r hr)).fits

/-- The writer lists the cells as they should be. -/
theorem listed_parentsFirst (hcapacity : ∀ r ∈ roots, r.InCapacity)
    (distinct : Cell.DistinctDigestsFrom roots) : Listed (Cell.parentsFirst roots) roots where
  fits := fits_parentsFirst hcapacity
  distinct := by
    apply List.Pairwise.imp_of_mem _ (Cell.parentsFirst_nodup distinct)
    intro c d hc hd hne heq
    exact hne (distinct c d ((Cell.mem_parentsFirst distinct c).mp hc)
      ((Cell.mem_parentsFirst distinct d).mp hd) heq)
  later := Cell.parentsFirst_childrenLater distinct
  roots := fun r hr => (Cell.mem_parentsFirst distinct r).mpr ⟨r, hr, .self r⟩

/-- A container cannot be written when there are no roots, or when the number of roots does not
    fit the width that the number of its cells needs. -/
theorem write_eq_error (roots : List Cell) (checksum : Bool) (e : ContainerError) :
    write roots checksum = .error e ↔ roots = [] ∧ e = .noRoots ∨
      256 ^ byteWidth (Cell.parentsFirst roots).length ≤ roots.length ∧
        e = .tooManyRoots roots.length (byteWidth (Cell.parentsFirst roots).length) := by
  unfold write
  by_cases hempty : roots = []
  · -- Without roots nothing else is looked at.
    subst hempty
    simp [eq_comm]
  · rw [if_neg (by simpa using hempty)]
    dsimp only
    -- The number of roots is compared with what the width can count.
    split
    · rename_i hmany
      simp [hempty, hmany, eq_comm]
    · rename_i hfew
      simp [hempty, hfew]

/-- Any other container is written. -/
theorem write_eq_ok (roots : List Cell) (checksum : Bool) (hne : roots ≠ [])
    (hfew : roots.length < 256 ^ byteWidth (Cell.parentsFirst roots).length) :
    write roots checksum = .ok (if checksum then body (Cell.parentsFirst roots) roots checksum ++
      littleEndian 4 (Checksum.crc32c (body (Cell.parentsFirst roots) roots checksum)).toNat
      else body (Cell.parentsFirst roots) roots checksum) := by
  rw [write, if_neg (by simpa using hne), if_neg (by omega)]

/-- What was written has roots, as many as the width of positions can count. -/
theorem of_write_eq_ok (roots : List Cell) (checksum : Bool) (bytes : List UInt8)
    (h : write roots checksum = .ok bytes) :
    roots ≠ [] ∧ roots.length < 256 ^ byteWidth (Cell.parentsFirst roots).length ∧
      bytes = if checksum then body (Cell.parentsFirst roots) roots checksum ++
        littleEndian 4 (Checksum.crc32c (body (Cell.parentsFirst roots) roots checksum)).toNat
        else body (Cell.parentsFirst roots) roots checksum := by
  have hne : roots ≠ [] := by
    rintro rfl
    cases h
  by_cases hfew : roots.length < 256 ^ byteWidth (Cell.parentsFirst roots).length
  · rw [write_eq_ok roots checksum hne hfew] at h
    exact ⟨hne, hfew, (Except.ok.inj h).symm⟩
  · -- With more roots writing would have failed.
    rw [(write_eq_error roots checksum _).mpr (.inr ⟨by omega, rfl⟩)] at h
    cases h

/-- Writing a container fails when there are no roots, or when the number of roots does not fit
    the width that the number of different cells needs. Otherwise the container, with or without
    a checksum, is read back as the roots it was written for. -/
theorem read_write (roots : List Cell) (checksum : Bool) (hcapacity : ∀ r ∈ roots, r.InCapacity)
    (hcount : {c | Cell.ReachedFrom roots c}.ncard < 2 ^ 32)
    (distinct : Cell.DistinctDigestsFrom roots) :
    (∀ e, write roots checksum = .error e ↔ roots = [] ∧ e = .noRoots ∨
      256 ^ byteWidth {c | Cell.ReachedFrom roots c}.ncard ≤ roots.length ∧
        e = .tooManyRoots roots.length (byteWidth {c | Cell.ReachedFrom roots c}.ncard)) ∧
      (roots ≠ [] → roots.length < 256 ^ byteWidth {c | Cell.ReachedFrom roots c}.ncard →
        ∃ bytes, write roots checksum = .ok bytes ∧ read bytes = .ok roots) := by
  -- The writer's list has each cell reached once, so it counts them.
  rw [Cell.ncard_reached distinct] at hcount ⊢
  refine ⟨write_eq_error roots checksum, ?_⟩
  intro hne hfew
  exact ⟨_, write_eq_ok roots checksum hne hfew,
    read_body (Cell.parentsFirst_ne_nil roots hne) (listed_parentsFirst hcapacity distinct) checksum
      hcount hfew⟩

/-- A cell with two references to another one. -/
private def leaf : Cell := .data [true]
private def pair : Cell := .mk [] [leaf, leaf]

/-- Roots of which one is there twice and another one hangs below it. -/
def sharingRoots : List Cell := [pair, leaf, pair]

/-- The roots are read back with their repetitions and what they share. -/
theorem read_write_sharingRoots :
    (∀ r ∈ sharingRoots, r.InCapacity) ∧
      {c | Cell.ReachedFrom sharingRoots c}.ncard < 2 ^ 32 ∧
      Cell.DistinctDigestsFrom sharingRoots ∧
      ∃ bytes, write sharingRoots true = .ok bytes ∧ read bytes = .ok sharingRoots := by
  -- Both cells and what they refer to are among the two.
  have hclosed : ∀ c ∈ [pair, leaf], ∀ r ∈ c.refs, r ∈ [pair, leaf] := by decide +kernel
  have hroots : ∀ r ∈ sharingRoots, r ∈ [pair, leaf] := by decide +kernel
  have hleaf : leaf.InCapacity := .intro (by decide +kernel) nofun
  have hpair : pair.InCapacity := by
    refine .intro (by decide +kernel) ?_
    intro r hr
    have hrefs : pair.refs = [leaf, leaf] := rfl
    rw [hrefs] at hr
    simp only [List.mem_cons, List.not_mem_nil, or_false, or_self] at hr
    rw [hr]
    exact hleaf
  have hcapacity : ∀ r ∈ sharingRoots, r.InCapacity := by
    intro r hr
    have hmem := hroots r hr
    simp only [List.mem_cons, List.not_mem_nil, or_false] at hmem
    rcases hmem with rfl | rfl
    · exact hpair
    · exact hleaf
  -- Only the two cells can be reached.
  have hcount : {c | Cell.ReachedFrom sharingRoots c}.ncard < 2 ^ 32 := by
    have hsubset : {c | Cell.ReachedFrom sharingRoots c} ⊆ ([pair, leaf].toFinset : Set Cell) := by
      intro c hc
      simpa using Cell.ReachedFrom.mem_of_closed hc hroots hclosed
    have hle := Set.ncard_le_ncard hsubset (Finset.finite_toSet _)
    rw [Set.ncard_coe_finset] at hle
    have hcard := List.toFinset_card_le [pair, leaf]
    simp only [List.length_cons, List.length_nil] at hcard
    omega
  have hdistinct : Cell.DistinctDigestsFrom sharingRoots :=
    Cell.distinctDigestsFrom_of_closed _ [pair, leaf] hroots hclosed (by decide +kernel)
  refine ⟨hcapacity, hcount, hdistinct, ?_⟩
  apply (read_write sharingRoots true hcapacity hcount hdistinct).2 (by simp [sharingRoots])
  have hwidth := one_le_byteWidth {c | Cell.ReachedFrom sharingRoots c}.ncard
  calc sharingRoots.length < 256 ^ 1 := by decide +kernel
    _ ≤ 256 ^ byteWidth {c | Cell.ReachedFrom sharingRoots c}.ncard :=
      Nat.pow_le_pow_right (by omega) hwidth

end CellCode.Container
