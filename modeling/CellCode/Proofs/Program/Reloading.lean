import CellCode.Proofs.Program.Assembling

/-!
# Loading with a loader that was used before

A loader that collapses leads a cell to the place it was given in an earlier load. After a load
that succeeded the place has the program of the cell. After a load that failed it may be empty or
hold a part of the code only, and a later load takes it as it is: it then succeeds where a new
loader fails. So a loader may be used again as long as a slice has no cells in common with the
slices whose loads failed.

## Key results

- `Loader.Sound`: the cells that matter have their programs in the places they were given
- `Loader.Sound.load`: a load keeps the loader sound, if it succeeds or its cells do not matter
- `Loader.load_after`: a used loader finds what a new one finds
- `Loader.load_unreadable_twice`: a slice that cannot be loaded is loaded the second time
-/

namespace CellCode

/-- The cell hangs below the references that the slice shows. -/
def Slice.Below (s : Slice) (c : Cell) : Prop := ∃ r ∈ s.refs, r.Reaches c

/-- A reference of the slice hangs below it. -/
theorem Slice.below_of_mem (s : Slice) (r : Cell) (hr : r ∈ s.refs) : s.Below r :=
  ⟨r, hr, .self r⟩

theorem Slice.Below.refs {s : Slice} (c : Cell) (h : s.Below c) : ∀ r ∈ c.refs, s.Below r := by
  intro r hr
  obtain ⟨top, htop, hreaches⟩ := h
  exact ⟨top, htop, hreaches.refs r hr⟩

namespace Loader

/-- The loader after some loads, whatever came of them. -/
def loadAll (l : Loader) (slices : List Slice) : Loader :=
  slices.foldl (fun l s => (l.load s).1) l

/-! ## What a loader has -/

/-- Every cell that was given a place is one of those in `has`, and has its program there if it is
    one of those that matter. -/
structure Sound (l : Loader) (collapse : Bool) (has clear : Cell → Prop) : Prop where
  collapse_eq : l.collapse = collapse
  placed : collapse = true → ∀ (d : Digest) (id : CodeId), l.placed[d]? = some id →
    ∃ c : Cell, c.digest = d ∧ has c ∧
      (clear c → ∃ p, c.toSlice.Decodes p ∧ l.store.Has id p)

variable {collapse : Bool} {has has' clear : Cell → Prop} {l l' : Loader} {plan : List Slice}

/-- A new loader has given nothing a place. -/
theorem sound_new : (Loader.new collapse).Sound collapse has clear where
  collapse_eq := rfl
  placed := by
    intro _ d id hid
    simp [Loader.new] at hid

/-- The places of cells that matter have their programs in every loader that keeps them. -/
theorem Sound.kept (h : l.Sound collapse has clear) (hextends : l'.Extends l has' plan)
    (distinct : collapse = true → ∀ c d, has c → has d → c.digest = d.digest → c = d)
    (hcollapse : l.collapse = true) (c : Cell) (id : CodeId) (hhas : has c) (hclear : clear c)
    (hid : l.placed[c.digest]? = some id) : ∃ p, c.toSlice.Decodes p ∧ l'.store.Has id p := by
  rw [h.collapse_eq] at hcollapse
  obtain ⟨d, hdigest, hd, hprogram⟩ := h.placed hcollapse c.digest id hid
  -- The place was given to the cell itself, because no other one has its digest.
  obtain rfl := distinct hcollapse d c hd hhas hdigest
  obtain ⟨p, hp, hheld⟩ := hprogram hclear
  have hsize : l.store.size ≤ l'.store.size := by
    rw [hextends.size_eq]
    omega
  exact ⟨p, hp, hheld.mono hsize hextends.kept⟩

/-- What a load that succeeds puts into the places of its plan. -/
theorem Sound.has_of_extends (h : l.Sound collapse has clear) (hextends : l'.Extends l has' plan)
    (hfollows : ∀ j < plan.length, l'.store.Follows l plan j)
    (below : ∀ c, clear c → ∀ r ∈ c.refs, clear r) (hclear : ∀ c, clear c → has c)
    (distinct : collapse = true → ∀ c d, has c → has d → c.digest = d.digest → c = d)
    (j : Nat) (s : Slice) (hs : plan[j]? = some s) (hrefs : ∀ r ∈ s.refs, clear r) :
    ∃ p, s.Decodes p ∧ l'.store.Has (l.store.size + j) p := by
  apply CodeStore.has_of_follows l'.store l plan clear below hextends.size_eq _ hfollows j s hs
    hrefs
  intro hcollapse body k hbody hplaced
  exact h.kept hextends distinct hcollapse body k (hclear body hbody) hbody hplaced

/-- What a load adds to the loader, by the cells below its slice. -/
theorem Sound.load_extends (h : l.Sound collapse has clear) (s : Slice)
    (distinct : collapse = true → ∀ c d, has c → has d → c.digest = d.digest → c = d)
    (hs : ∀ c, s.Below c → has c) :
    ∃ more, (l.load s).1.Extends l s.Below (s :: more) ∧
      ∀ root, (l.load s).2 = .ok root → root = l.store.size ∧
        ∀ j < (s :: more).length, (l.load s).1.store.Follows l (s :: more) j := by
  apply l.load_extends s s.Below (fun c hc => hc.refs c) s.below_of_mem
  intro hcollapse c d hc hd
  rw [h.collapse_eq] at hcollapse
  exact distinct hcollapse c d (hs c hc) (hs d hd)

/-- A load keeps the loader sound. If it fails, no cell below its slice may matter. -/
theorem Sound.load (h : l.Sound collapse has clear) (s : Slice)
    (below : ∀ c, clear c → ∀ r ∈ c.refs, clear r) (hclear : ∀ c, clear c → has c)
    (distinct : collapse = true → ∀ c d, has c → has d → c.digest = d.digest → c = d)
    (hs : ∀ c, s.Below c → has c)
    (hfailed : collapse = true → (∃ e, (l.load s).2 = .error e) → ∀ c, s.Below c → ¬ clear c) :
    (l.load s).1.Sound collapse has clear := by
  obtain ⟨more, hextends, hall⟩ := h.load_extends s distinct hs
  refine ⟨hextends.collapse_eq.trans h.collapse_eq, ?_⟩
  intro hcollapse d id hid
  rcases hextends.placed d id hid with hold | ⟨c, j, hdigest, hbelow, hplan, rfl⟩
  · -- A place that was given before holds what it held.
    obtain ⟨c, hdigest, hc, _⟩ := h.placed hcollapse d id hold
    refine ⟨c, hdigest, hc, ?_⟩
    intro hmatters
    rw [← hdigest] at hold
    exact h.kept hextends distinct (h.collapse_eq.trans hcollapse) c id hc hmatters hold
  · -- A place of this load is filled, unless the load failed.
    refine ⟨c, hdigest, hs c hbelow, ?_⟩
    intro hmatters
    cases hresult : (l.load s).2 with
    | error e => exact absurd hmatters (hfailed hcollapse ⟨e, hresult⟩ c hbelow)
    | ok root =>
      obtain ⟨_, hfollows⟩ := hall root hresult
      apply h.has_of_extends hextends hfollows below hclear distinct j c.toSlice hplan
      rw [Slice.refs_toSlice]
      exact below c hmatters

/-- A loader stays sound through any loads, if those that fail have no cells that matter. -/
theorem Sound.loadAll (h : l.Sound collapse has clear) (slices : List Slice)
    (below : ∀ c, clear c → ∀ r ∈ c.refs, clear r) (hclear : ∀ c, clear c → has c)
    (distinct : collapse = true → ∀ c d, has c → has d → c.digest = d.digest → c = d)
    (hslices : ∀ t ∈ slices, ∀ c, t.Below c → has c)
    (hfailed : collapse = true → ∀ before t after, slices = before ++ t :: after →
      (∃ e, ((l.loadAll before).load t).2 = .error e) → ∀ c, t.Below c → ¬ clear c) :
    (l.loadAll slices).Sound collapse has clear := by
  -- Induction on the loads.
  induction slices generalizing l with
  | nil => exact h
  | cons s slices ih =>
    rw [List.forall_mem_cons] at hslices
    have hfirst := h.load s below hclear distinct hslices.1 fun hcollapse =>
      hfailed hcollapse [] s slices rfl
    apply ih hfirst hslices.2
    intro hcollapse before t after heq
    exact hfailed hcollapse (s :: before) t after (by rw [heq, List.cons_append])

/-! ## Used and new loaders -/

/-- A loader that was used before finds in a slice what a new one finds, if no cell below the
    slice is below one whose load failed. Without collapsing that does not matter. -/
theorem load_after (collapse : Bool) (history : List Slice) (s : Slice)
    (distinct : collapse = true → ∀ c d, (∃ t ∈ s :: history, t.Below c) →
      (∃ t ∈ s :: history, t.Below d) → c.digest = d.digest → c = d)
    (untouched : collapse = true → ∀ before t after, history = before ++ t :: after →
      (∃ e, (((Loader.new collapse).loadAll before).load t).2 = .error e) →
        ∀ c, t.Below c → ¬ s.Below c) :
    ((∃ e, (((Loader.new collapse).loadAll history).load s).2 = .error e) ↔
      ∃ e, loadCode s collapse = .error e) ∧
    ∀ id, (((Loader.new collapse).loadAll history).load s).2 = .ok id →
      ∃ store root p, loadCode s collapse = .ok (store, root) ∧ store.Holds root p ∧
        (((Loader.new collapse).loadAll history).load s).1.store.Holds id p := by
  have hs : ∀ c, s.Below c → ∃ t ∈ s :: history, t.Below c :=
    fun c hc => ⟨s, List.mem_cons_self .., hc⟩
  have hsound : ((Loader.new collapse).loadAll history).Sound collapse
      (fun c => ∃ t ∈ s :: history, t.Below c) s.Below := by
    apply sound_new.loadAll history (fun c hc => hc.refs c) hs distinct
    · intro t ht c hc
      exact ⟨t, List.mem_cons_of_mem _ ht, hc⟩
    · exact untouched
  generalize (Loader.new collapse).loadAll history = l at hsound ⊢
  -- A load that succeeds has found the program of the slice.
  have hok (id : CodeId) (hid : (l.load s).2 = .ok id) :
      ∃ p, s.Decodes p ∧ (l.load s).1.store.Has id p := by
    obtain ⟨more, hextends, hall⟩ := hsound.load_extends s distinct hs
    obtain ⟨rfl, hfollows⟩ := hall id hid
    exact hsound.has_of_extends hextends hfollows (fun c hc => hc.refs c) hs distinct 0 s rfl
      s.below_of_mem
  have hnew (store : CodeStore) (root : CodeId) (h : loadCode s collapse = .ok (store, root)) :
      ∃ p, s.Decodes p ∧ store.Holds root p :=
    (loadCode_holds s collapse s.Below store root (fun c hc => hc.refs c) s.below_of_mem
      (fun hcollapse c d hc hd => distinct hcollapse c d (hs c hc) (hs d hd)) h).2
  refine ⟨⟨?_, ?_⟩, ?_⟩
  · -- When the used loader fails the slice has no program, for it would be found.
    rintro ⟨e, he⟩
    cases hload : loadCode s collapse with
    | error e' => exact ⟨e', rfl⟩
    | ok loaded =>
      obtain ⟨p, hp, _⟩ := hnew loaded.1 loaded.2 hload
      rw [l.load_of_decodes s p hp] at he
      cases he
  · -- When a new loader fails it has none either.
    rintro ⟨e, he⟩
    cases hload : (l.load s).2 with
    | error e' => exact ⟨e', rfl⟩
    | ok id =>
      obtain ⟨p, hp, _⟩ := hok id hload
      obtain ⟨store, root, hload'⟩ := loadCode_of_decodes s collapse p hp
      rw [hload'] at he
      cases he
  · -- Both have found the one program of the slice.
    intro id hid
    obtain ⟨p, hp, hheld⟩ := hok id hid
    obtain ⟨store, root, hload⟩ := loadCode_of_decodes s collapse p hp
    obtain ⟨q, hq, hholds⟩ := hnew store root hload
    obtain rfl := hp.eq s p q hq
    exact ⟨store, root, p, hload, hholds, hheld.holds⟩

/-! ## Code that cannot be read -/

/-- Code that cannot be read, and code that calls it. -/
private def garbled : Cell := .data (Opcode.hexBits "FE")
def callsGarbled : Cell := .mk (Opcode.hexBits "DB3C") [garbled]

/-- Code that can be read, and code that calls it. -/
private def readable : Cell := .data (Opcode.hexBits "A4")
def callsReadable : Cell := .mk (Opcode.hexBits "DB3C") [readable]

/-- The garbled code has no instruction at its start. -/
private theorem scan_garbled : Decode.scan garbled.toSlice =
    ⟨[], some (.unknownOpcode garbled.shortHash 0 "FE", [])⟩ := by
  have hnone : Opcode.standard.find? garbled.toSlice.data = none := by
    rw [Opcode.standard, Opcode.Table.find?, Opcode.Table.findLonger?_eq_none]
    decide +kernel
  have hbits : garbled.toSlice.remainingBits ≠ 0 := by decide +kernel
  have hhex : garbled.toSlice.hex = "FE" := by decide +kernel
  have hstep : Decode.step garbled.toSlice =
      .failed (.unknownOpcode garbled.shortHash 0 "FE") [] := by
    rw [Decode.step, if_neg hbits, hnone]
    simp only [hhex]
    rfl
  rw [Decode.scan_eq, hstep]

private theorem scan_readable : Decode.scan readable.toSlice = ⟨[⟨"INC", []⟩], none⟩ :=
  Decode.scan_single _ ⟨readable, 8, 8, 0, 0⟩ _
    (Decode.step_of_longest _ _ (Opcode.op "INC" "A4" []) _ (by decide +kernel) (by decide +kernel)
      rfl) rfl

/-- The call is read before the code it calls. -/
private theorem scan_callsGarbled : Decode.scan callsGarbled.toSlice =
    ⟨[⟨"CALLREF", [.code garbled (some garbled)]⟩], none⟩ :=
  Decode.scan_single _ ⟨callsGarbled, 16, 16, 1, 1⟩ _
    (Decode.step_of_longest _ _ (Opcode.op "CALLREF" "DB3C" [.code]) _ (by decide +kernel)
      (by decide +kernel) rfl) rfl

private theorem scan_callsReadable : Decode.scan callsReadable.toSlice =
    ⟨[⟨"CALLREF", [.code readable (some readable)]⟩], none⟩ :=
  Decode.scan_single _ ⟨callsReadable, 16, 16, 1, 1⟩ _
    (Decode.step_of_longest _ _ (Opcode.op "CALLREF" "DB3C" [.code]) _ (by decide +kernel)
      (by decide +kernel) rfl) rfl

/-- The code that is called gets its place before it turns out that it cannot be read. -/
private theorem load_callsGarbled : (Loader.new true).load callsGarbled.toSlice =
    (⟨true, ⟨#[[⟨"CALLREF", [.code 1 (some garbled)]⟩], []]⟩,
      (∅ : Std.HashMap Digest CodeId).insert garbled.digest 1⟩,
      .error (.unknownOpcode garbled.shortHash 0 "FE")) := by
  rw [load_eq, begin, Work.run_cons _ _ _ _ _ scan_callsGarbled]
  simp only [Work.fill, Work.placeCode, Work.placeAll, Work.place, Work.placeBody, Work.defer,
    Loader.new, Option.isSome_some, and_self, if_true, Std.HashMap.getElem?_empty]
  rw [Work.run_cons_failed _ _ _ _ _ _ _ scan_garbled]
  rfl

/-- A slice that cannot be loaded is loaded the second time, because the code that it calls has
    a place by then. -/
theorem load_unreadable_twice :
    loadCode callsGarbled.toSlice true = .error (.unknownOpcode garbled.shortHash 0 "FE") ∧
      ((Loader.new true).load callsGarbled.toSlice).2 =
        .error (.unknownOpcode garbled.shortHash 0 "FE") ∧
      (((Loader.new true).load callsGarbled.toSlice).1.load callsGarbled.toSlice).2 = .ok 2 := by
  refine ⟨?_, ?_, ?_⟩
  · rw [loadCode, load_callsGarbled]
    rfl
  · rw [load_callsGarbled]
  · -- The second load finds the place of the first one and asks for nothing else.
    rw [load_callsGarbled, load_eq, begin, Work.run_cons _ _ _ _ _ scan_callsGarbled]
    simp only [Work.fill, Work.placeCode, Work.placeAll, Work.place, Work.placeBody,
      Option.isSome_some, and_self, if_true, Std.HashMap.getElem?_insert_self]
    rw [Work.run]
    rfl

/-- Code that calls other code shows a program with that of the other. -/
private theorem decodes_callsReadable :
    callsReadable.toSlice.Decodes [.mk "CALLREF" [.code [.mk "INC" []]]] := by
  have hcalled : readable.toSlice.Decodes [.mk "INC" []] := by
    rw [Slice.decodes_iff]
    refine ⟨[⟨"INC", []⟩], ?_, .cons ⟨rfl, .nil⟩ .nil⟩
    rw [Decode.instructions?_eq_some, scan_readable]
    exact ⟨rfl, rfl⟩
  rw [Slice.decodes_iff]
  refine ⟨[⟨"CALLREF", [.code readable (some readable)]⟩], ?_,
    .cons ⟨rfl, .cons (.code _ hcalled) .nil⟩ .nil⟩
  rw [Decode.instructions?_eq_some, scan_callsReadable]
  exact ⟨rfl, rfl⟩

/-- Below code that only calls other code stands that code. -/
private theorem below_calls (bits called : Bits) (c : Cell) :
    (Cell.mk bits [.data called]).toSlice.Below c ↔ c = .data called := by
  have hrefs : (Cell.mk bits [.data called]).toSlice.refs = [.data called] := by
    rw [Slice.refs_toSlice, Cell.refs_mk]
  rw [Slice.Below, hrefs]
  constructor
  · rintro ⟨r, hr, hreaches⟩
    obtain rfl := List.mem_singleton.mp hr
    cases hreaches with
    | self => rfl
    | ref hmem _ => cases hmem
  · rintro rfl
    exact ⟨_, List.mem_singleton_self _, .self _⟩

/-- Slices of which the first cannot be loaded. -/
def mixedHistory : List Slice := [callsGarbled.toSlice, callsReadable.toSlice]

/-- After a load that failed and one that did not, code that was called before is found in the
    place it has. -/
theorem load_after_mixedHistory :
    (∃ e, ((Loader.new true).load callsGarbled.toSlice).2 = .error e) ∧
      ((∃ e, (((Loader.new true).loadAll mixedHistory).load callsReadable.toSlice).2 = .error e) ↔
        ∃ e, loadCode callsReadable.toSlice true = .error e) ∧
      ∀ id, (((Loader.new true).loadAll mixedHistory).load callsReadable.toSlice).2 = .ok id →
        ∃ store root p, loadCode callsReadable.toSlice true = .ok (store, root) ∧
          store.Holds root p ∧
          (((Loader.new true).loadAll mixedHistory).load callsReadable.toSlice).1.store.Holds
            id p := by
  have hdigests : garbled.digest ≠ readable.digest := by decide +kernel
  have hbelow (c : Cell)
      (hc : ∃ t ∈ [callsReadable.toSlice, callsGarbled.toSlice, callsReadable.toSlice], t.Below c) :
      c = garbled ∨ c = readable := by
    obtain ⟨t, ht, hc⟩ := hc
    simp only [List.mem_cons, List.not_mem_nil, or_false] at ht
    rcases ht with rfl | rfl | rfl
    · exact .inr ((below_calls _ _ c).mp hc)
    · exact .inl ((below_calls _ _ c).mp hc)
    · exact .inr ((below_calls _ _ c).mp hc)
  refine ⟨⟨_, congrArg Prod.snd load_callsGarbled⟩,
    load_after true mixedHistory callsReadable.toSlice ?_ ?_⟩
  · -- Below these slices there are two codes, and their digests differ.
    intro _ c d hc hd heq
    rcases hbelow c hc with rfl | rfl
    · rcases hbelow d hd with rfl | rfl
      · rfl
      · exact absurd heq hdigests
    · rcases hbelow d hd with rfl | rfl
      · exact absurd heq.symm hdigests
      · rfl
  · intro _ before t after heq hfailed c ht hs
    obtain rfl := (below_calls _ _ c).mp hs
    have hmem : t ∈ mixedHistory := by
      rw [heq]
      simp
    simp only [mixedHistory, List.mem_cons, List.not_mem_nil, or_false] at hmem
    rcases hmem with rfl | rfl
    · exact hdigests (congrArg Cell.digest ((below_calls _ _ _).mp ht)).symm
    · -- Code that shows a program is loaded, so this load did not fail.
      obtain ⟨e, he⟩ := hfailed
      rw [load_of_decodes _ _ _ decodes_callsReadable] at he
      cases he

end Loader

end CellCode
