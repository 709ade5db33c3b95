import CellCode.Proofs.Cell.Storing
import Mathlib.Data.List.Nodup

/-!
# Builders in memory

Programs keep builders and change them. A `Workbench` has builders as they lie in memory: each holds
its bits and the place of a list of references, and nothing in the type keeps two builders from
holding on to one list. Its stores follow each builder operation step by step, with all that is left
behind by one that fails halfway.

Every store checks before it changes anything, so it changes one builder or nothing.

* `Separate`                         no two builders hold on to one list
* `contents_addRefs` and the like    what a step changes of what the builders hold
* `Updates`                          steps change one builder as a function says, or fail and change
                                     nothing
* `Updates.check_bind`               a check comes before all that is changed
* `updates_storeBits` and the like   every store in place does what the store returns
-/

namespace CellCode

-- Powers are those of the standard library, whatever else is in scope.
attribute [local instance (high)] instPowNat

/-! ## Builders in memory -/

/-- A builder in memory: its bits, and the place of the list of its references. -/
structure Workpiece where
  bits : Bits
  place : Nat

/-- Builders, and the lists that hold their references. -/
structure Workbench where
  pieces : List Workpiece
  lists : List (List Cell)

namespace Workbench

/-- Nothing in memory. -/
def empty : Workbench := ⟨[], []⟩

/-- What a builder in memory holds. -/
def view (w : Workbench) (p : Workpiece) : Builder := ⟨p.bits, w.lists.getD p.place []⟩

/-- What the builders hold. -/
def contents (w : Workbench) : List Builder := w.pieces.map w.view

/-- What the builder in this place of the list holds, and nothing if there is none. -/
def builder (w : Workbench) (i : Nat) : Builder := w.contents.getD i .empty

/-- Changes the bits of a builder. -/
def mapBits (w : Workbench) (i : Nat) (f : Bits → Bits) : Workbench :=
  { w with pieces := w.pieces.modify i fun p => { p with bits := f p.bits } }

/-- Adds references to the list that a builder holds on to. -/
def addRefs (w : Workbench) (i : Nat) (refs : List Cell) : Workbench :=
  match w.pieces[i]? with
  | some p => { w with lists := w.lists.modify p.place (· ++ refs) }
  | none => w

/-- Gives a builder a new list of references. -/
def newRefs (w : Workbench) (i : Nat) (refs : List Cell) : Workbench where
  pieces := w.pieces.modify i fun p => { p with place := w.lists.length }
  lists := w.lists ++ [refs]

/-- Another builder, with a new list that has no references yet. -/
def newBuilder (w : Workbench) : Workbench where
  pieces := w.pieces ++ [⟨[], w.lists.length⟩]
  lists := w.lists ++ [[]]

/-! ### Apart -/

/-- The places of the lists that the builders hold on to. -/
def places (w : Workbench) : List Nat := w.pieces.map Workpiece.place

/-- Every builder has a list, and no two have the same. -/
structure Separate (w : Workbench) : Prop where
  lt : ∀ k ∈ w.places, k < w.lists.length
  nodup : w.places.Nodup

/-- Without builders none hold on to one list. -/
theorem separate_empty : empty.Separate := ⟨nofun, .nil⟩

/-- Changing bits moves no list. -/
theorem places_mapBits (w : Workbench) (i : Nat) (f : Bits → Bits) :
    (w.mapBits i f).places = w.places := by
  -- The places are compared one by one, and only the bits of builder `i` have changed.
  apply List.ext_getElem?
  intro j
  simp only [places, mapBits, List.getElem?_map, List.getElem?_modify]
  cases w.pieces[j]? with
  | none => rfl
  | some p => by_cases hij : i = j <;> simp [hij]

/-- Builders are still apart if they hold on to the same places and no list is gone. -/
theorem Separate.of_eq {w w' : Workbench} (h : w.Separate) (hplaces : w'.places = w.places)
    (hlists : w'.lists.length = w.lists.length) : w'.Separate := by
  constructor
  · rw [hplaces, hlists]
    exact h.lt
  · rw [hplaces]
    exact h.nodup

/-- The place of the next list is not taken. -/
theorem Separate.not_mem_places {w : Workbench} (h : w.Separate) : w.lists.length ∉ w.places :=
  fun hmem => Nat.lt_irrefl _ (h.lt _ hmem)

/-- One more list is there for a builder that holds on to it. -/
theorem Separate.of_new {w w' : Workbench} (h : w.Separate) {refs : List Cell}
    (hlists : w'.lists = w.lists ++ [refs])
    (hmem : ∀ k ∈ w'.places, k ∈ w.places ∨ k = w.lists.length) (hnodup : w'.places.Nodup) :
    w'.Separate := by
  refine ⟨fun k hk => ?_, hnodup⟩
  rw [hlists, List.length_append, List.length_singleton]
  rcases hmem k hk with hk | rfl
  · exact Nat.lt_succ_of_lt (h.lt k hk)
  · exact Nat.lt_succ_self _

/-- Changing the bits of a builder keeps builders apart. -/
theorem Separate.mapBits {w : Workbench} (h : w.Separate) (i : Nat) (f : Bits → Bits) :
    (w.mapBits i f).Separate :=
  h.of_eq (places_mapBits w i f) rfl

theorem Separate.addRefs {w : Workbench} (h : w.Separate) (i : Nat) (refs : List Cell) :
    (w.addRefs i refs).Separate := by
  unfold Workbench.addRefs
  split
  · exact h.of_eq rfl (List.length_modify ..)
  · exact h

theorem Separate.newRefs {w : Workbench} (h : w.Separate) (i : Nat) (refs : List Cell) :
    (w.newRefs i refs).Separate := by
  -- The place of the builder is set to that of the next list.
  have hplaces : (w.newRefs i refs).places = w.places.set i w.lists.length := by
    apply List.ext_getElem?
    intro j
    simp only [places, Workbench.newRefs, List.getElem?_map, List.getElem?_modify,
      List.getElem?_set']
    cases w.pieces[j]? with
    | none => simp
    | some p => by_cases hij : i = j <;> simp [hij]
  apply h.of_new rfl
  · rw [hplaces]
    exact fun k hk => List.mem_or_eq_of_mem_set hk
  · rw [hplaces]
    exact h.nodup.set h.not_mem_places

theorem Separate.newBuilder {w : Workbench} (h : w.Separate) : w.newBuilder.Separate := by
  have hplaces : w.newBuilder.places = w.places ++ [w.lists.length] := List.map_append
  apply h.of_new rfl
  · intro k hk
    rw [hplaces, List.mem_append, List.mem_singleton] at hk
    exact hk
  · rw [hplaces, ← List.concat_eq_append]
    exact h.nodup.concat h.not_mem_places

/-- A builder holds on to a list that is there. -/
theorem Separate.lt_of_mem {w : Workbench} (h : w.Separate) {j : Nat} {q : Workpiece}
    (hq : w.pieces[j]? = some q) : q.place < w.lists.length :=
  h.lt _ (List.mem_map_of_mem (List.mem_of_getElem? hq))

/-- Builders that hold on to one list are one builder. -/
theorem Separate.eq_of_place {w : Workbench} (h : w.Separate) {i j : Nat} {p q : Workpiece}
    (hp : w.pieces[i]? = some p) (hq : w.pieces[j]? = some q) (hplace : p.place = q.place) :
    i = j := by
  -- No place occurs twice, so the same place is the same index.
  have hi : i < w.places.length := by
    rw [places, List.length_map]
    exact (List.getElem?_eq_some_iff.mp hp).1
  apply (List.getElem?_inj hi h.nodup).mp
  rw [places, List.getElem?_map, List.getElem?_map, hp, hq]
  exact congrArg some hplace

/-! ### What the builders hold -/

/-- There are as many contents as builders. -/
theorem length_contents (w : Workbench) : w.contents.length = w.pieces.length := List.length_map _

/-- What a builder holds, where there is one. -/
theorem builder_eq {w : Workbench} {i : Nat} {b : Builder} (h : w.contents[i]? = some b) :
    w.builder i = b := by
  rw [builder, List.getD_eq_getElem?_getD, h]
  rfl

/-- Changing the bits of a builder changes what it holds and nothing else. -/
theorem contents_mapBits (w : Workbench) (i : Nat) (f : Bits → Bits) :
    (w.mapBits i f).contents = w.contents.modify i fun b => ⟨f b.bits, b.refs⟩ := by
  apply List.ext_getElem?
  intro j
  simp only [contents, mapBits, List.getElem?_map, List.getElem?_modify]
  cases w.pieces[j]? with
  | none => rfl
  | some p => by_cases hij : i = j <;> simp [hij, view]

/-- References that are added to one list are added to one builder. -/
theorem contents_addRefs {w : Workbench} (h : w.Separate) (i : Nat) (refs : List Cell) :
    (w.addRefs i refs).contents = w.contents.modify i fun b => ⟨b.bits, b.refs ++ refs⟩ := by
  -- The contents are compared builder by builder.
  apply List.ext_getElem?
  intro j
  unfold addRefs
  simp only [contents, List.getElem?_modify, List.getElem?_map]
  cases hp : w.pieces[i]? with
  -- Without the builder nothing is added, and the contents do not change either.
  | none =>
    dsimp only
    cases hq : w.pieces[j]? with
    | none => rfl
    | some q =>
      have hij : i ≠ j := by
        rintro rfl
        rw [hp] at hq
        cases hq
      simp [hij]
  -- The builder holds on to a list that is there, which is the one that grows.
  | some p =>
    dsimp only
    cases hq : w.pieces[j]? with
    | none => rfl
    | some q =>
      have hlt := h.lt_of_mem hq
      by_cases hij : i = j
      · subst hij
        rw [hp] at hq
        cases hq
        simp [view, List.getD_eq_getElem?_getD, hlt]
      · -- The list of another builder lies in another place.
        have hne : p.place ≠ q.place := fun hplace => hij (h.eq_of_place hp hq hplace)
        simp [view, List.getD_eq_getElem?_getD, hij, hne]

/-- A new list replaces the references of its builder alone. -/
theorem contents_newRefs {w : Workbench} (h : w.Separate) (i : Nat) (refs : List Cell) :
    (w.newRefs i refs).contents = w.contents.modify i fun b => ⟨b.bits, refs⟩ := by
  apply List.ext_getElem?
  intro j
  simp only [contents, newRefs, List.getElem?_map, List.getElem?_modify]
  cases hq : w.pieces[j]? with
  | none => rfl
  | some q =>
    -- The lists that were there keep their places when one is added behind them.
    have hlt := h.lt_of_mem hq
    by_cases hij : i = j <;>
      simp [hij, view, List.getD_eq_getElem?_getD, List.getElem?_append_left, hlt]

/-- A new builder is empty and stands behind the others. -/
theorem contents_newBuilder {w : Workbench} (h : w.Separate) :
    w.newBuilder.contents = w.contents ++ [.empty] := by
  -- The builders that were there hold on to the lists that they had.
  have hold : w.pieces.map w.newBuilder.view = w.contents := by
    apply List.map_congr_left
    intro p hp
    have hlt := h.lt p.place (List.mem_map_of_mem hp)
    simp [view, newBuilder, List.getD_eq_getElem?_getD, List.getElem?_append_left, hlt]
  have hnew : w.newBuilder.view ⟨[], w.lists.length⟩ = .empty := by
    simp [view, newBuilder, List.getD_eq_getElem?_getD, Builder.empty]
  rw [← hold, ← hnew]
  exact List.map_append

/-! ## Stores in place -/

/-- Steps on a workbench that is changed in place. What was done when a step fails stays done. -/
abbrev InPlace (α : Type) := EStateM CellError Workbench α

namespace InPlace

/-- Looks at a builder, and fails if there is not what it looks for. -/
def check {α : Type} (i : Nat) (f : Builder → Except CellError α) : InPlace α :=
  look fun w => f (w.builder i)

/-- Adds bits. -/
def storeBits (i : Nat) (bits : Bits) : InPlace Unit := do
  check i fun b => b.checkRoom bits.length 0
  modify (·.mapBits i (· ++ bits))

/-- Adds one bit. -/
def storeBit (i : Nat) (bit : Bool) : InPlace Unit := storeBits i [bit]

/-- Adds an unsigned number in a field of `width` bits. -/
def storeUInt (i : Nat) (value width : Int) : InPlace Unit := do
  check i fun _ => Builder.checkUnsigned value width
  storeBits i (.ofNat width.toNat value.toNat)

/-- Adds a signed number in a field of `width` bits, as the unsigned one in its place. -/
def storeInt (i : Nat) (value width : Int) : InPlace Unit := do
  check i fun _ => Builder.checkSigned value width
  storeUInt i (value % 2 ^ width.toNat) width

/-- Adds the first `count` bits of a byte string. -/
def storeRaw (i : Nat) (bytes : List UInt8) (count : Int) : InPlace Unit := do
  let bits ← check i fun _ => Builder.bitsOfBytes bytes count
  storeBits i bits

/-- Adds a reference. -/
def storeRef (i : Nat) (ref : Cell) : InPlace Unit := do
  check i fun b => b.checkRoom 0 1
  modify (·.addRefs i [ref])

/-- Adds all that remains of a slice. -/
def storeSlice (i : Nat) (s : Slice) : InPlace Unit := do
  check i fun b => b.checkRoom s.remainingBits s.remainingRefs
  modify (·.mapBits i (· ++ s.data))
  modify (·.addRefs i s.refs)

/-- Makes a builder that holds nothing. -/
def create : InPlace Nat := do
  let i := (← get).pieces.length
  modify (·.newBuilder)
  return i

/-- Makes a builder that holds the first `count` bits of a byte string. -/
def ofRaw (bytes : List UInt8) (count : Int) : InPlace Unit := do
  storeRaw (← create) bytes count

/-- Makes a builder that holds what another holds, with a list of its own. -/
def copy (i : Nat) : InPlace Unit := do
  let clone ← create
  let b := (← get).builder i
  modify (·.mapBits clone fun _ => b.bits)
  modify (·.newRefs clone b.refs)

end InPlace

/-- The steps do to a builder what `f` does, and nothing at all if `f` fails. -/
structure Updates (x : InPlace Unit) (i : Nat) (f : Builder → Except CellError Builder) : Prop where
  ok : ∀ {w : Workbench} {b c : Builder}, w.Separate → w.contents[i]? = some b → f b = .ok c →
    ∃ w', x w = .ok () w' ∧ w'.Separate ∧ w'.contents = w.contents.set i c
  error : ∀ {w : Workbench} {b : Builder} {e : CellError}, w.Separate → w.contents[i]? = some b →
    f b = .error e → x w = .error e w

section Updates

variable {i : Nat} {x : InPlace Unit} {f : Builder → Except CellError Builder}

/-- Functions that are equal are followed by the same steps. -/
theorem Updates.congr {g : Builder → Except CellError Builder} (h : Updates x i f)
    (heq : ∀ b, g b = f b) : Updates x i g where
  ok hw hb hg := h.ok hw hb ((heq _).symm.trans hg)
  error hw hb hg := h.error hw hb ((heq _).symm.trans hg)

/-- A check comes before all that is changed. -/
theorem Updates.check_bind {α : Type} {check : Builder → Except CellError α} {x : α → InPlace Unit}
    {f : α → Builder → Except CellError Builder} (h : ∀ a, Updates (x a) i (f a)) :
    Updates (InPlace.check i check >>= x) i fun b => check b >>= fun a => f a b where
  ok hw hb hok := by
    -- The check has passed, so the steps behind it run on the workbench as it was.
    obtain ⟨a, hcheck, hf⟩ := (bind_eq_ok _ _ _).mp hok
    rw [InPlace.check, look_bind, builder_eq hb, hcheck]
    exact (h a).ok hw hb hf
  error hw hb herror := by
    rw [InPlace.check, look_bind, builder_eq hb]
    -- The check fails, or it passes and the steps behind it fail; both leave the workbench as it
    -- was.
    rcases (bind_eq_error _ _ _).mp herror with hcheck | ⟨a, hcheck, hf⟩
    · rw [hcheck]
    · rw [hcheck]
      exact (h a).error hw hb hf

/-- Changing a member of a list is setting it to what it becomes. -/
theorem modify_eq_set {bs : List Builder} {b : Builder} (hb : bs[i]? = some b)
    (f : Builder → Builder) : bs.modify i f = bs.set i (f b) := by
  rw [List.modify_eq_set_getElem?, hb]
  rfl

/-- Bits can be added without a check. -/
theorem updates_addBits (bits : Bits) :
    Updates (modify (·.mapBits i (· ++ bits))) i fun b => .ok ⟨b.bits ++ bits, b.refs⟩ where
  ok := by
    rintro w b _ hw hb ⟨⟩
    refine ⟨w.mapBits i (· ++ bits), rfl, hw.mapBits i _, ?_⟩
    rw [contents_mapBits, modify_eq_set hb]
  error := nofun

theorem updates_addRefs (refs : List Cell) :
    Updates (modify (·.addRefs i refs)) i fun b => .ok ⟨b.bits, b.refs ++ refs⟩ where
  ok := by
    rintro w b _ hw hb ⟨⟩
    refine ⟨w.addRefs i refs, rfl, hw.addRefs i refs, ?_⟩
    rw [contents_addRefs hw, modify_eq_set hb]
  error := nofun

/-- What is changed for certain may be changed further. -/
theorem Updates.bind {f g : Builder → Builder} {y : InPlace Unit}
    (hx : Updates x i fun b => .ok (f b)) (hy : Updates y i fun b => .ok (g b)) :
    Updates (x >>= fun _ => y) i fun b => .ok (g (f b)) where
  ok := by
    rintro w b _ hw hb ⟨⟩
    -- The first steps leave a workbench that is still apart, with the builder changed.
    obtain ⟨w₁, hrun₁, hw₁, hcontents₁⟩ := hx.ok hw hb rfl
    have hb₁ : w₁.contents[i]? = some (f b) := by
      rw [hcontents₁, List.getElem?_set_self (List.getElem?_eq_some_iff.mp hb).1]
    obtain ⟨w₂, hrun₂, hw₂, hcontents₂⟩ := hy.ok hw₁ hb₁ rfl
    refine ⟨w₂, ?_, hw₂, ?_⟩
    · show EStateM.bind x (fun _ => y) w = _
      rw [EStateM.bind, hrun₁]
      exact hrun₂
    · rw [hcontents₂, hcontents₁, List.set_set]
  error := nofun

end Updates

variable (i : Nat)

/-- A store of bits checks the room first. -/
theorem updates_storeBits (bits : Bits) : Updates (InPlace.storeBits i bits) i (·.storeBits bits) :=
  .check_bind fun _ => updates_addBits bits

/-- A store of a number checks the number, and then it is one of bits. -/
theorem updates_storeUInt (value width : Int) :
    Updates (InPlace.storeUInt i value width) i (·.storeUInt value width) :=
  .congr (.check_bind fun _ => updates_storeBits i _) fun b => b.storeUInt_eq value width

/-- A store of a signed number checks it, and then it is one of a number. -/
theorem updates_storeInt (value width : Int) :
    Updates (InPlace.storeInt i value width) i (·.storeInt value width) :=
  .congr (.check_bind fun _ => updates_storeUInt i _ width) fun b => b.storeInt_eq value width

/-- A store of bytes checks their count, and then it is one of bits. -/
theorem updates_storeRaw (bytes : List UInt8) (count : Int) :
    Updates (InPlace.storeRaw i bytes count) i (·.storeRaw bytes count) :=
  .check_bind fun bits => updates_storeBits i bits

/-- A store of a reference checks the room. -/
theorem updates_storeRef (ref : Cell) : Updates (InPlace.storeRef i ref) i (·.storeRef ref) :=
  .check_bind fun _ => updates_addRefs [ref]

/-- A store of a slice checks the room for all of it, and then it adds bits and references. -/
theorem updates_storeSlice (s : Slice) : Updates (InPlace.storeSlice i s) i (·.storeSlice s) :=
  .check_bind fun _ => (updates_addBits s.data).bind (updates_addRefs s.refs)

end Workbench

end CellCode
