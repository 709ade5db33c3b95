import CellCode.Proofs.Cell.Depth
import CellCode.Proofs.Cell.Workbench

/-!
# Builders keep to themselves

Builders are made, copied and stored to in any order, and some of it fails. In memory a builder
holds on to a list, so a copy that took the same list would change along with what it was copied
from. It takes a list of its own, and a failed store has changed nothing. So builders in memory
behave like values, each with a content of its own.

* `Store.updates`                             a store changes one builder, or none if it fails
* `Store.fits`                                a builder in capacity stays in capacity
* `Op.perform_of_ok`, `Op.perform_of_error`   an operation in memory does what it does to values
* `Sound.after`                               an operation keeps builders apart and in capacity
* `afterAll_isolates`                         any operations do, and no builder changes another
* `afterAll_deepReference`                    a builder that cannot be built
-/

namespace CellCode

namespace Workbench

/-! ## Stores -/

/-- A store. -/
inductive Store
  | bits (data : Bits)
  | bit (v : Bool)
  | uint (value width : Int)
  | int (value width : Int)
  | raw (bytes : List UInt8) (count : Int)
  | ref (cell : Cell)
  | slice (window : Slice)

namespace Store

/-- What a store makes of a builder. -/
def apply (b : Builder) : Store → Except CellError Builder
  | bits data => b.storeBits data
  | bit v => b.storeBit v
  | uint value width => b.storeUInt value width
  | int value width => b.storeInt value width
  | raw bytes count => b.storeRaw bytes count
  | ref cell => b.storeRef cell
  | slice window => b.storeSlice window

/-- Carries out a store on a builder in memory. -/
def perform (i : Nat) : Store → InPlace Unit
  | bits data => InPlace.storeBits i data
  | bit v => InPlace.storeBit i v
  | uint value width => InPlace.storeUInt i value width
  | int value width => InPlace.storeInt i value width
  | raw bytes count => InPlace.storeRaw i bytes count
  | ref cell => InPlace.storeRef i cell
  | slice window => InPlace.storeSlice i window

/-- A store changes one builder, or it fails and changes nothing. -/
theorem updates (s : Store) (i : Nat) : Updates (s.perform i) i s.apply := by
  cases s with
  | bits data => exact updates_storeBits i data
  | bit v => exact updates_storeBits i [v]
  | uint value width => exact updates_storeUInt i value width
  | int value width => exact updates_storeInt i value width
  | raw bytes count => exact updates_storeRaw i bytes count
  | ref cell => exact updates_storeRef i cell
  | slice window => exact updates_storeSlice i window

/-- A builder in capacity stays in capacity. -/
theorem fits {s : Store} {b c : Builder} (hb : b.Fits) (h : s.apply b = .ok c) : c.Fits := by
  -- Five of the seven stores end in a store of bits, which asks for room first.
  have hbits (bits : Bits) (h : b.storeBits bits = .ok c) : c.Fits := by
    obtain ⟨hroom, rfl⟩ := (b.storeBits_eq_ok c bits hb.2).mp h
    exact ⟨by rwa [List.length_append], hb.2⟩
  cases s with
  | bits data => exact hbits data h
  | bit v => exact hbits [v] h
  | uint value width => exact hbits _ ((b.storeUInt_eq_ok c value width).mp h).2
  | int value width => exact hbits _ ((b.storeInt_eq_ok c value width).mp h).2
  | raw bytes count =>
    obtain ⟨bits, -, h⟩ := (bind_eq_ok _ _ _).mp h
    exact hbits bits h
  -- A reference asks for room as well, and a slice for room for both.
  | ref cell =>
    obtain ⟨hroom, rfl⟩ := (b.storeRef_eq_ok c cell hb.1).mp h
    exact ⟨hb.1, by rwa [List.length_append]⟩
  | slice window =>
    obtain ⟨⟨hbits, hrefs⟩, rfl⟩ := b.of_storeSlice c window hb h
    exact ⟨by rwa [List.length_append], by rwa [List.length_append]⟩

/-- A store fails with an error of its own. -/
theorem fromStore {s : Store} {b : Builder} {e : CellError} (h : s.apply b = .error e) :
    e.FromStore := by
  -- Each store fails where its builder does.
  cases s with
  | bits data => exact .inl (b.storeBits_eq_error data e h)
  | bit v => exact .inl (b.storeBits_eq_error [v] e h)
  | uint value width => exact b.storeUInt_eq_error value width e h
  | int value width => exact b.storeInt_eq_error value width e h
  | raw bytes count => exact b.storeRaw_eq_error bytes count e h
  | ref cell => exact .inl (b.storeRef_eq_error cell e h)
  | slice window => exact .inl (b.storeSlice_eq_error window e h)

end Store

/-! ## Operations -/

/-- An operation on builders. -/
inductive Op
  | create
  | ofRaw (bytes : List UInt8) (count : Int)
  | copy (i : Nat)
  | store (i : Nat) (s : Store)

namespace Op

/-- What an operation makes of builders that each have a content of their own. It does nothing to a
    builder that is not there. -/
def apply (bs : List Builder) : Op → Except CellError (List Builder)
  | create => .ok (bs ++ [.empty])
  | ofRaw bytes count => do return bs ++ [← Builder.ofRaw bytes count]
  | copy i => .ok (bs ++ bs[i]?.toList)
  | store i s =>
    match bs[i]? with
    | some b => do return bs.set i (← s.apply b)
    | none => .ok bs

/-- The builder that an operation is to change. -/
def target : Op → Option Nat
  | store i _ => some i
  | _ => none

/-- Carries out the steps if a builder is there. -/
def ifThere (i : Nat) (x : InPlace Unit) : InPlace Unit := do
  if i < (← get).pieces.length then x

/-- Carries out an operation on builders in memory. -/
def perform : Op → InPlace Unit
  | create => do let _ ← InPlace.create
  | ofRaw bytes count => InPlace.ofRaw bytes count
  | copy i => ifThere i (InPlace.copy i)
  | store i s => ifThere i (s.perform i)

/-- Builders in capacity stay in capacity, and a new one is empty or filled by a store. -/
theorem apply_fits {op : Op} {bs cs : List Builder} (hbs : ∀ b ∈ bs, b.Fits)
    (h : op.apply bs = .ok cs) : ∀ c ∈ cs, c.Fits := by
  cases op with
  | create =>
    cases h
    exact List.forall_mem_append.mpr ⟨hbs, List.forall_mem_singleton.mpr Builder.fits_empty⟩
  | ofRaw bytes count =>
    obtain ⟨b, hb, h⟩ := (bind_eq_ok _ _ _).mp h
    cases h
    have hfits : b.Fits := Store.fits (s := .raw bytes count) Builder.fits_empty hb
    exact List.forall_mem_append.mpr ⟨hbs, List.forall_mem_singleton.mpr hfits⟩
  | copy i =>
    cases h
    -- A copy has the content of a builder that was there.
    refine List.forall_mem_append.mpr ⟨hbs, fun b hb => hbs b ?_⟩
    exact List.mem_of_getElem? (Option.mem_toList.mp hb)
  | store i s =>
    rw [apply] at h
    split at h
    · next b hb =>
      obtain ⟨c, hc, h⟩ := (bind_eq_ok _ _ _).mp h
      cases h
      -- The builder that is set has been stored to; all others are as they were.
      intro c' hc'
      rcases List.mem_or_eq_of_mem_set hc' with hmem | rfl
      · exact hbs c' hmem
      · exact Store.fits (hbs b (List.mem_of_getElem? hb)) hc
    · cases h
      exact hbs

/-- An operation on one builder leaves the others as they are. -/
theorem apply_getElem? {op : Op} {bs cs : List Builder} (h : op.apply bs = .ok cs) {j : Nat}
    (hj : j < bs.length) (htarget : op.target ≠ some j) : cs[j]? = bs[j]? := by
  -- Where a builder is made, it is made behind the others.
  cases op with
  | create =>
    cases h
    exact List.getElem?_append_left hj
  | ofRaw bytes count =>
    obtain ⟨b, -, h⟩ := (bind_eq_ok _ _ _).mp h
    cases h
    exact List.getElem?_append_left hj
  | copy i =>
    cases h
    exact List.getElem?_append_left hj
  | store i s =>
    rw [apply] at h
    split at h
    · obtain ⟨c, -, h⟩ := (bind_eq_ok _ _ _).mp h
      cases h
      -- The target of a store is the one that is set, and `j` is not it.
      exact List.getElem?_set_ne fun hij => htarget (congrArg some hij)
    · cases h
      rfl

/-- An operation fails with the error of a store. -/
theorem fromStore {op : Op} {bs : List Builder} {e : CellError} (h : op.apply bs = .error e) :
    e.FromStore := by
  cases op with
  -- Only a store can fail, also the one that fills a new builder.
  | create => cases h
  | ofRaw bytes count =>
    rcases (bind_eq_error _ _ _).mp h with h | ⟨_, _, h⟩
    · exact Store.fromStore (s := .raw bytes count) h
    · cases h
  | copy i => cases h
  | store i s =>
    rw [apply] at h
    split at h
    · rcases (bind_eq_error _ _ _).mp h with h | ⟨_, _, h⟩
      · exact Store.fromStore h
      · cases h
    · cases h

/-- Steps on a builder that is there, and nothing on one that is not. -/
theorem ifThere_of_getElem? {i : Nat} {x : InPlace Unit} {w : Workbench} {b : Builder}
    (h : w.contents[i]? = some b) : ifThere i x w = x w := by
  have hi : i < w.pieces.length := by
    rw [← length_contents]
    exact (List.getElem?_eq_some_iff.mp h).1
  show (if i < w.pieces.length then x else pure ()) w = _
  rw [if_pos hi]

/-- Steps on a builder that is not there are left out. -/
theorem ifThere_of_none {i : Nat} {x : InPlace Unit} {w : Workbench}
    (h : w.contents[i]? = none) : ifThere i x w = .ok () w := by
  have hi : ¬i < w.pieces.length := by
    rw [← length_contents]
    have := List.getElem?_eq_none_iff.mp h
    omega
  show (if i < w.pieces.length then x else pure ()) w = _
  rw [if_neg hi]
  rfl

theorem set_concat (bs : List Builder) (b c : Builder) :
    (bs ++ [b]).set bs.length c = bs ++ [c] := by
  rw [List.set_append_right _ _ (Nat.le_refl _), Nat.sub_self]
  rfl

/-- A new builder stands behind the others. -/
theorem newBuilder_getElem? {w : Workbench} (hw : w.Separate) :
    w.newBuilder.contents[w.contents.length]? = some .empty := by
  rw [contents_newBuilder hw, List.getElem?_concat_length]

/-- A copy holds what is copied and has a list of its own. -/
theorem copy_spec {w : Workbench} (hw : w.Separate) {i : Nat} {b : Builder}
    (hb : w.contents[i]? = some b) :
    ∃ w', InPlace.copy i w = .ok () w' ∧ w'.Separate ∧ w'.contents = w.contents ++ [b] := by
  -- The copy is a new builder, which then takes the bits and a list of its own.
  have hnew := hw.newBuilder
  have hmap := hnew.mapBits w.pieces.length fun _ => b.bits
  -- The new builder stands behind the others, so the one to be copied is where it was.
  have hbuilder : w.newBuilder.builder i = b := by
    apply builder_eq
    rw [contents_newBuilder hw, List.getElem?_append_left (List.getElem?_eq_some_iff.mp hb).1, hb]
  -- The list that the copy came with stays behind for one that nothing else holds on to.
  refine ⟨_, ?_, hmap.newRefs w.pieces.length b.refs, ?_⟩
  · rw [← hbuilder]
    rfl
  · rw [contents_newRefs hmap, contents_mapBits, ← length_contents,
      modify_eq_set (newBuilder_getElem? hw), contents_newBuilder hw, set_concat,
      modify_eq_set List.getElem?_concat_length, set_concat]

/-- An operation in memory does to the contents what it does to builders that each have a content of
    their own. -/
theorem perform_of_ok {op : Op} {w : Workbench} {bs : List Builder} (hw : w.Separate)
    (h : op.apply w.contents = .ok bs) :
    ∃ w', op.perform w = .ok () w' ∧ w'.Separate ∧ w'.contents = bs := by
  -- Each operation makes a builder or changes one in place; where there is none it does nothing.
  cases op with
  | create =>
    cases h
    exact ⟨w.newBuilder, rfl, hw.newBuilder, contents_newBuilder hw⟩
  | ofRaw bytes count =>
    obtain ⟨b, hb, h⟩ := (bind_eq_ok _ _ _).mp h
    cases h
    -- The bytes are stored to the new builder.
    obtain ⟨w', hrun, hw', hcontents⟩ :=
      (updates_storeRaw _ bytes count).ok hw.newBuilder (newBuilder_getElem? hw) hb
    rw [length_contents] at hrun
    refine ⟨w', hrun, hw', ?_⟩
    rw [hcontents, contents_newBuilder hw, set_concat]
  | copy i =>
    cases h
    cases hb : w.contents[i]? with
    | none => exact ⟨w, ifThere_of_none hb, hw, (List.append_nil _).symm⟩
    | some b =>
      obtain ⟨w', hrun, hspec⟩ := copy_spec hw hb
      exact ⟨w', (ifThere_of_getElem? hb).trans hrun, hspec⟩
  | store i s =>
    rw [apply] at h
    cases hb : w.contents[i]? with
    | none =>
      rw [hb] at h
      cases h
      exact ⟨w, ifThere_of_none hb, hw, rfl⟩
    | some b =>
      rw [hb] at h
      obtain ⟨c, hc, h⟩ := (bind_eq_ok _ _ _).mp h
      cases h
      obtain ⟨w', hrun, hspec⟩ := (s.updates i).ok hw hb hc
      exact ⟨w', (ifThere_of_getElem? hb).trans hrun, hspec⟩

/-- An operation that fails has changed no builder that was there. At most it has made an empty one
    that it does not hand out. -/
theorem perform_of_error {op : Op} {w : Workbench} {e : CellError} (hw : w.Separate)
    (h : op.apply w.contents = .error e) :
    ∃ w', op.perform w = .error e w' ∧ w'.Separate ∧
      (w'.contents = w.contents ∨ w'.contents = w.contents ++ [.empty]) := by
  cases op with
  | create => cases h
  | ofRaw bytes count =>
    -- Storing fails, or returning the builder does, which it cannot.
    rcases (bind_eq_error _ _ _).mp h with h | ⟨_, _, h⟩
    · -- The new builder is there when storing to it fails.
      have hrun := (updates_storeRaw _ bytes count).error hw.newBuilder (newBuilder_getElem? hw) h
      rw [length_contents] at hrun
      exact ⟨w.newBuilder, hrun, hw.newBuilder, .inr (contents_newBuilder hw)⟩
    · cases h
  | copy i => cases h
  | store i s =>
    rw [apply] at h
    cases hb : w.contents[i]? with
    | none =>
      rw [hb] at h
      cases h
    | some b =>
      rw [hb] at h
      rcases (bind_eq_error _ _ _).mp h with h | ⟨_, _, h⟩
      · have hrun := (s.updates i).error hw hb h
        exact ⟨w, (ifThere_of_getElem? hb).trans hrun, hw, .inl rfl⟩
      · cases h

/-- Carries out an operation and goes on with what it leaves, also if it fails. -/
def after (w : Workbench) (op : Op) : Workbench :=
  match op.perform w with
  | .ok _ w' => w'
  | .error _ w' => w'

end Op

/-! ## Runs -/

/-- The builders do not share lists and are in capacity. -/
structure Sound (w : Workbench) : Prop where
  separate : w.Separate
  fits : ∀ b ∈ w.contents, b.Fits

/-- A workbench without builders is sound. -/
theorem sound_empty : empty.Sound := ⟨separate_empty, nofun⟩

/-- An operation keeps the builders apart and in capacity, whatever comes of it. -/
theorem Sound.after {w : Workbench} (hw : w.Sound) (op : Op) : (op.after w).Sound := by
  unfold Op.after
  cases h : op.apply w.contents with
  -- The operation makes of the contents what it makes of values.
  | ok bs =>
    obtain ⟨w', hrun, hw', rfl⟩ := Op.perform_of_ok hw.separate h
    rw [hrun]
    exact ⟨hw', Op.apply_fits hw.fits h⟩
  | error e =>
    obtain ⟨w', hrun, hw', hcontents⟩ := Op.perform_of_error hw.separate h
    rw [hrun]
    -- What was there is as it was, and the builder left behind is empty.
    refine ⟨hw', ?_⟩
    rcases hcontents with hcontents | hcontents
    · rw [hcontents]
      exact hw.fits
    · rw [hcontents, List.forall_mem_append, List.forall_mem_singleton]
      exact ⟨hw.fits, Builder.fits_empty⟩

/-- What operations leave that are carried out one after the other, whatever comes of each. -/
def afterAll (ops : List Op) (w : Workbench) : Workbench := ops.foldl Op.after w

theorem Sound.afterAll {w : Workbench} (hw : w.Sound) (ops : List Op) :
    (afterAll ops w).Sound := by
  -- Induction on the operations.
  induction ops generalizing w with
  | nil => exact hw
  | cons op ops ih => exact ih (hw.after op)

/-- Builders stay in capacity, failures change nothing, and builders do not change each other. Let
    any operations be carried out, whatever comes of each. Then every builder has at most 1023 bits
    and 4 references, and building it succeeds, unless a reference is more than 65535 deep, which
    does not go into the two bytes of its depth. If the next operation succeeds, it has made of the
    builders what it makes of builders that each have a content of their own, and all but the one
    that it is to change are as they were. If it fails, all builders are as they were. -/
theorem afterAll_isolates (ops : List Op) (op : Op) :
    let w := afterAll ops empty
    (∀ b ∈ w.contents, b.bits.length ≤ 1023 ∧ b.refs.length ≤ 4 ∧
        ((∀ r ∈ b.refs, r.depth ≤ 65535) ∧ b.build = .ok b.cell ∨
          ∃ r ∈ b.refs, 65535 < r.depth ∧ b.build = .error (.referenceTooDeep r.depth))) ∧
      match op.perform w with
      | .ok _ w' => op.apply w.contents = .ok w'.contents ∧
          ∀ j < w.contents.length, op.target ≠ some j → w'.contents[j]? = w.contents[j]?
      | .error e w' => op.apply w.contents = .error e ∧ e.FromStore ∧
          ∀ j < w.contents.length, w'.contents[j]? = w.contents[j]? := by
  intro w
  have hw : w.Sound := sound_empty.afterAll ops
  -- Each builder fits, so it can be built unless a reference is too deep.
  refine ⟨fun b hb => ?_, ?_⟩
  · have hfits := hw.fits b hb
    exact ⟨hfits.1, hfits.2, (Builder.build_of_fits hfits).imp_left (And.imp_left And.right)⟩
  · -- What the operation does to the contents tells whether it succeeds.
    cases h : op.apply w.contents with
    | ok bs =>
      obtain ⟨w', hrun, -, rfl⟩ := Op.perform_of_ok hw.separate h
      rw [hrun]
      exact ⟨rfl, fun j hj htarget => Op.apply_getElem? h hj htarget⟩
    | error e =>
      obtain ⟨w', hrun, -, hcontents⟩ := Op.perform_of_error hw.separate h
      rw [hrun]
      refine ⟨rfl, Op.fromStore h, fun j hj => ?_⟩
      -- A builder left behind stands after those that were there.
      rcases hcontents with hcontents | hcontents
      · rw [hcontents]
      · rw [hcontents, List.getElem?_append_left hj]

/-! ## A reference that is too deep -/

/-- A builder is made and given one reference. -/
def storeOne (ref : Cell) : List Op := [.create, .store 0 (.ref ref)]

/-- The builder that is made has just this reference. -/
theorem contents_storeOne (ref : Cell) :
    (afterAll (storeOne ref) empty).contents = [⟨[], [ref]⟩] := rfl

/-- A cell that is 65536 deep can be built and stored as a reference, but then the builder cannot
    be built. -/
theorem afterAll_deepReference :
    (Cell.tower 65536).Makeable ∧
      ∃ b ∈ (afterAll (storeOne (Cell.tower 65536)) empty).contents,
        b.build = .error (.referenceTooDeep 65536) := by
  refine ⟨Cell.makeable_tower (by decide), ⟨[], [Cell.tower 65536]⟩, ?_, ?_⟩
  · -- The builder is the only one there.
    rw [contents_storeOne]
    exact List.mem_singleton.mpr rfl
  · -- One reference fits, so that it is too deep is what refuses it.
    have hfits : Builder.Fits ⟨[], [Cell.tower 65536]⟩ :=
      ⟨Nat.le_of_ble_eq_true rfl, Nat.le_of_ble_eq_true rfl⟩
    rw [Builder.build_of_deep hfits rfl (by rw [Cell.depth_tower]; decide), Cell.depth_tower]

end Workbench

end CellCode
