import CellCode.Proofs.Cell.Reading
import CellCode.Proofs.Program.Assembling

/-!
# Decoding sees what a slice shows

A slice is a window of a cell, and the same bits and references may be seen through windows of
different cells. Two windows that show the same are decoded to the same code: each read succeeds
on both of them or fails on both, and leaves windows that show the same again. Only the errors
tell them apart, since they name the cell and the bit.

Read with a single window, this says that a window inside its cell stays inside while it is
decoded, so no reference is missing that the window promises.

## Key results

- `Field.decode_alike`, `Opcode.Format.decode_alike`, `Decode.step_alike`: one read, one
  instruction and one step see what is shown
- `loadCode_of_alike`: so does loading
- `loadCode_ne_window`: a window inside its cell never promises too much
-/

namespace CellCode

/-! ## Windows that show the same -/

/-- Both computations succeed with related results, or both fail. -/
inductive Lockstep {ε α β : Type} (r : α → β → Prop) : Except ε α → Except ε β → Prop
  | ok {a : α} {b : β} (h : r a b) : Lockstep r (.ok a) (.ok b)
  | error (e e' : ε) : Lockstep r (.error e) (.error e')

/-- Computations in lockstep stay so when they go on in lockstep. -/
theorem Lockstep.bind {ε α β γ δ : Type} {r : α → β → Prop} {r' : γ → δ → Prop} {x : Except ε α}
    {y : Except ε β} {f : α → Except ε γ} {g : β → Except ε δ} (h : Lockstep r x y)
    (hfg : ∀ a b, r a b → Lockstep r' (f a) (g b)) : Lockstep r' (x >>= f) (y >>= g) := by
  cases h with
  | ok hab => exact hfg _ _ hab
  | error e e' => exact .error e e'

namespace Slice

/-- Both windows lie inside their cells and show the same. -/
structure Alike (s t : Slice) : Prop where
  valid_left : s.Valid
  valid_right : t.Valid
  data_eq : s.data = t.data
  refs_eq : s.refs = t.refs

/-- The same was read, and the slices that are left show the same. -/
def SameRead {α : Type} (x y : α × Slice) : Prop := x.1 = y.1 ∧ x.2.Alike y.2

/-- A window inside its cell is alike itself. -/
theorem Valid.alike {s : Slice} (h : s.Valid) : s.Alike s := ⟨h, h, rfl, rfl⟩

/-- Windows that show the same bits and references are alike. -/
theorem Shows.alike {s t : Slice} {bits : Bits} {refs : List Cell} (hs : s.Shows bits refs)
    (ht : t.Shows bits refs) : s.Alike t :=
  ⟨hs.valid, ht.valid, hs.data_eq.trans ht.data_eq.symm, hs.refs_eq.trans ht.refs_eq.symm⟩

namespace Alike

variable {s t : Slice}

/-- The first window shows what remains of the second. -/
theorem shows_left (h : s.Alike t) : s.Shows t.data t.refs := ⟨h.valid_left, h.data_eq, h.refs_eq⟩

theorem shows_right (h : s.Alike t) : t.Shows t.data t.refs := h.valid_right.shows

theorem remainingBits_eq (h : s.Alike t) : s.remainingBits = t.remainingBits :=
  h.shows_left.remainingBits.trans h.shows_right.remainingBits.symm

theorem remainingRefs_eq (h : s.Alike t) : s.remainingRefs = t.remainingRefs :=
  h.shows_left.remainingRefs.trans h.shows_right.remainingRefs.symm

/-- Both windows show as many bits as are asked for, or both refuse. -/
theorem front (h : s.Alike t) (n : Int) :
    (∃ bits more, n = (bits.length : Nat) ∧ s.Shows (bits ++ more) t.refs ∧
      t.Shows (bits ++ more) t.refs) ∨
    ∃ e e', s.requireBits n = .error e ∧ t.requireBits n = .error e' := by
  have hremaining := h.shows_right.remainingBits
  -- Both refuse when the number is negative or more than remains, which is the same for both.
  by_cases hn : n < 0 ∨ t.remainingBits < n
  · refine .inr ⟨_, _, if_pos ?_, if_pos hn⟩
    rwa [h.remainingBits_eq]
  · -- The bits asked for are the first of those that both show.
    refine .inl ⟨t.data.take n.toNat, t.data.drop n.toNat, ?_, ?_, ?_⟩
    · rw [List.length_take]
      omega
    · rw [List.take_append_drop]
      exact h.shows_left
    · rw [List.take_append_drop]
      exact h.shows_right

/-- Both skip as many bits, or both refuse. -/
theorem skipBits (h : s.Alike t) (n : Int) : Lockstep Alike (s.skipBits n) (t.skipBits n) := by
  rcases h.front n with ⟨bits, more, hn, hs, ht⟩ | ⟨e, e', hs, ht⟩
  · obtain ⟨s', hs', hshows⟩ := hs.skipBits n hn
    obtain ⟨t', ht', hshows'⟩ := ht.skipBits n hn
    rw [hs', ht']
    exact .ok (hshows.alike hshows')
  · rw [Slice.skipBits, Slice.skipBits, hs, ht]
    exact .error e e'

/-- Both read the same bits, or both refuse. -/
theorem loadBits (h : s.Alike t) (n : Int) : Lockstep SameRead (s.loadBits n) (t.loadBits n) := by
  rcases h.front n with ⟨bits, more, hn, hs, ht⟩ | ⟨e, e', hs, ht⟩
  · obtain ⟨s', hs', hshows⟩ := hs.loadBits n hn
    obtain ⟨t', ht', hshows'⟩ := ht.loadBits n hn
    rw [hs', ht']
    exact .ok ⟨rfl, hshows.alike hshows'⟩
  · rw [Slice.loadBits, Slice.loadBits, Slice.preloadBits, Slice.preloadBits, hs, ht]
    exact .error e e'

/-- Both read the same number, or both refuse. -/
theorem loadUInt (h : s.Alike t) (n : Int) : Lockstep SameRead (s.loadUInt n) (t.loadUInt n) := by
  rcases h.front n with ⟨bits, more, hn, hs, ht⟩ | ⟨e, e', hs, ht⟩
  · obtain ⟨s', hs', hshows⟩ := hs.loadUInt n hn
    obtain ⟨t', ht', hshows'⟩ := ht.loadUInt n hn
    rw [hs', ht']
    exact .ok ⟨rfl, hshows.alike hshows'⟩
  · rw [Slice.loadUInt, Slice.loadUInt, Slice.preloadUInt, Slice.preloadUInt, Slice.preloadBits,
      Slice.preloadBits, hs, ht]
    exact .error e e'

/-- So it is for a signed number. -/
theorem loadInt (h : s.Alike t) (n : Int) : Lockstep SameRead (s.loadInt n) (t.loadInt n) := by
  refine (h.loadUInt n).bind ?_
  rintro ⟨v, s'⟩ ⟨v', t'⟩ ⟨rfl, h'⟩
  exact .ok ⟨rfl, h'⟩

/-- Both read the same reference, or there is none for either. -/
theorem loadRef (h : s.Alike t) : Lockstep SameRead s.loadRef t.loadRef := by
  have hs := h.shows_left
  have ht := h.shows_right
  cases hrefs : t.refs with
  | nil =>
    rw [hrefs] at hs ht
    -- Without a reference that remains both refuse.
    have hfail (u : Slice) (hu : u.remainingRefs = 0) : ∃ e, u.loadRef = .error e := by
      rw [Slice.loadRef, getReference, if_pos (.inr (by omega))]
      exact ⟨_, rfl⟩
    obtain ⟨e, he⟩ := hfail s hs.remainingRefs
    obtain ⟨e', he'⟩ := hfail t ht.remainingRefs
    rw [he, he']
    exact .error e e'
  | cons ref refs =>
    rw [hrefs] at hs ht
    obtain ⟨s', hs', hshows⟩ := hs.loadRef
    obtain ⟨t', ht', hshows'⟩ := ht.loadRef
    rw [hs', ht']
    exact .ok ⟨rfl, hshows.alike hshows'⟩

end Alike

end Slice

/-! ## Operands and instructions -/

open Slice (SameRead)

namespace Field

variable {s t : Slice}

/-- References are read in lockstep, one by one. -/
private theorem loadRefs_alike (n : Nat) (h : s.Alike t) :
    Lockstep SameRead (read.loadRefs n s) (read.loadRefs n t) := by
  induction n generalizing s t with
  | zero => exact .ok ⟨rfl, h⟩
  | succ n ih =>
    refine h.loadRef.bind ?_
    rintro ⟨ref, s₁⟩ ⟨_, t₁⟩ ⟨rfl, h₁⟩
    refine (ih h₁).bind ?_
    rintro ⟨refs, s₂⟩ ⟨_, t₂⟩ ⟨rfl, h₂⟩
    exact .ok ⟨rfl, h₂⟩

/-- A field is read in lockstep. -/
private theorem read_alike (field : Field) (h : s.Alike t) :
    Lockstep SameRead (field.read s) (field.read t) := by
  -- Each read finds the same in both slices, or fails in both.
  cases field with
  -- These fields are a number of a fixed width.
  | stack width | control width | unsigned width bias | tiny =>
    refine (h.loadUInt _).bind ?_
    rintro ⟨n, s₁⟩ ⟨_, t₁⟩ ⟨rfl, h₁⟩
    exact .ok ⟨rfl, h₁⟩
  | signed width =>
    refine (h.loadInt width).bind ?_
    rintro ⟨v, s₁⟩ ⟨_, t₁⟩ ⟨rfl, h₁⟩
    exact .ok ⟨rfl, h₁⟩
  | code | cell =>
    refine h.loadRef.bind ?_
    rintro ⟨c, s₁⟩ ⟨_, t₁⟩ ⟨rfl, h₁⟩
    exact .ok ⟨rfl, h₁⟩
  -- These have a number of four bits in front of the bits.
  | inlineCode | shortSlice =>
    refine (h.loadUInt 4).bind ?_
    rintro ⟨length, s₁⟩ ⟨_, t₁⟩ ⟨rfl, h₁⟩
    refine (h₁.loadBits _).bind ?_
    rintro ⟨bits, s₂⟩ ⟨_, t₂⟩ ⟨rfl, h₂⟩
    exact .ok ⟨rfl, h₂⟩
  | longInlineCode =>
    refine (h.loadUInt 2).bind ?_
    rintro ⟨count, s₁⟩ ⟨_, t₁⟩ ⟨rfl, h₁⟩
    refine (h₁.loadUInt 7).bind ?_
    rintro ⟨length, s₂⟩ ⟨_, t₂⟩ ⟨rfl, h₂⟩
    refine (h₂.loadBits _).bind ?_
    rintro ⟨bits, s₃⟩ ⟨_, t₃⟩ ⟨rfl, h₃⟩
    refine (loadRefs_alike count h₃).bind ?_
    rintro ⟨refs, s₄⟩ ⟨_, t₄⟩ ⟨rfl, h₄⟩
    exact .ok ⟨rfl, h₄⟩

/-- A field is decoded in lockstep. -/
theorem decode_alike (field : Field) (h : s.Alike t) :
    Lockstep SameRead (field.decode s) (field.decode t) := by
  -- Completing an operand depends on the operand only.
  have hcomplete (operand : Operand Cell) (s t : Slice) (h : s.Alike t) :
      Lockstep SameRead (field.complete operand s) (field.complete operand t) := by
    unfold complete
    split
    · split
      · exact .error _ _
      · exact .ok ⟨rfl, h⟩
    · exact .ok ⟨rfl, h⟩
  have hread := field.read_alike h
  unfold decode
  generalize field.read s = read, field.read t = read' at hread ⊢
  cases hread with
  | error e e' => exact .error _ _
  | @ok r r' hsame =>
    obtain ⟨operand, s'⟩ := r
    obtain ⟨_, t'⟩ := r'
    obtain ⟨rfl, h'⟩ := hsame
    exact hcomplete operand s' t' h'

end Field

namespace Opcode.Format

/-- The same operands were read, and both windows had more of them or neither had. -/
structure Decoded.Alike (d d' : Decoded) : Prop where
  operands_eq : d.operands = d'.operands
  outcome : Lockstep Slice.Alike d.outcome d'.outcome

variable {s t : Slice}

/-- Fields are decoded in lockstep until one of them fails in both. -/
private theorem decodeFields_alike (fields : List Field) (h : s.Alike t) :
    (decodeFields fields s).Alike (decodeFields fields t) := by
  -- Induction on the fields.
  induction fields generalizing s t with
  | nil => exact ⟨rfl, .ok h⟩
  | cons field fields ih =>
    have hfield := field.decode_alike h
    unfold decodeFields
    generalize field.decode s = read, field.decode t = read' at hfield ⊢
    cases hfield with
    | error e e' => exact ⟨rfl, .error e e'⟩
    | ok hsame =>
      have hothers := ih hsame.2
      exact ⟨congrArg₂ List.cons hsame.1 hothers.operands_eq, hothers.outcome⟩

/-- A format is decoded in lockstep: the opcode is skipped, and then its fields are read. -/
theorem decode_alike (f : Format) (h : s.Alike t) : (f.decode s).Alike (f.decode t) := by
  have hskip := h.skipBits f.opcode.length
  unfold decode
  generalize s.skipBits f.opcode.length = rest, t.skipBits f.opcode.length = rest' at hskip ⊢
  cases hskip with
  | error e e' => exact ⟨rfl, .error _ _⟩
  | ok h' => exact decodeFields_alike f.fields h'

end Opcode.Format

/-! ## Codes -/

namespace Decode

/-- The same stands at the front of both windows. -/
inductive Step.Alike : Step → Step → Prop
  | finished : Alike .finished .finished
  | jump (next : Cell) : Alike (.jump next) (.jump next)
  | instruction (i : Instruction Cell) {rest rest' : Slice} (h : rest.Alike rest') :
      Alike (.instruction i rest) (.instruction i rest')
  | failed (e e' : DecodeError) (operands : List (Operand Cell)) :
      Alike (.failed e operands) (.failed e' operands)

/-- A step finds the same in both windows. -/
theorem step_alike {s t : Slice} (h : s.Alike t) : (step s).Alike (step t) := by
  unfold step
  -- What decides which kind of step it is shows in both windows alike.
  rw [h.remainingBits_eq, h.remainingRefs_eq, h.data_eq]
  split
  · split
    · exact .finished
    · split
      · -- There is one reference without bits, which both windows read.
        have hload := h.loadRef
        generalize s.loadRef = read, t.loadRef = read' at hload ⊢
        cases hload with
        | error e e' => exact .failed _ _ _
        | @ok r r' hsame =>
          obtain ⟨next, s'⟩ := r
          obtain ⟨_, t'⟩ := r'
          obtain rfl := hsame.1
          exact .jump next
      · exact .failed _ _ _
  · -- The opcode is looked up in the same bits.
    cases Opcode.standard.find? t.data with
    | none => exact .failed _ _ _
    | some f =>
      obtain ⟨hoperands, houtcome⟩ := f.decode_alike h
      dsimp only
      rw [hoperands]
      generalize (f.decode s).outcome = rest, (f.decode t).outcome = rest' at houtcome ⊢
      cases houtcome with
      | error e e' => exact .failed _ _ _
      | ok hrest => exact .instruction _ hrest

/-- Windows that show the same hold the same instructions, and both break off or neither does. -/
theorem scan_alike (s t : Slice) (h : s.Alike t) :
    (scan s).instructions = (scan t).instructions ∧
      ((scan s).failure = none ↔ (scan t).failure = none) := by
  -- Strong induction on the size of the first slice, which each instruction makes smaller.
  induction hn : s.size using Nat.strongRecOn generalizing s t with
  | ind n ih =>
    -- Behind an instruction both windows still show the same, and a jump leads to one cell.
    have hsame := step_alike h
    rw [scan_eq s, scan_eq t]
    generalize hstep : step s = front, step t = front' at hsame ⊢
    cases hsame with
    | finished => exact ⟨rfl, Iff.rfl⟩
    | jump next => exact ⟨rfl, Iff.rfl⟩
    | failed e e' operands => exact ⟨rfl, by simp⟩
    | @instruction i rest rest' hrest =>
      have hless := step_instruction_size hstep
      obtain ⟨hinstructions, hfailure⟩ := ih rest.size (by omega) rest rest' hrest rfl
      exact ⟨congrArg (i :: ·) hinstructions, hfailure⟩

/-- A window inside its cell has the references that it promises. -/
theorem step_ne_window {s : Slice} (h : s.Valid) (e : CellError) (operands : List (Operand Cell)) :
    -- Every other kind of step, and every other error, is none of a window.
    step s ≠ .failed (.window e) operands := by
  unfold step
  split
  · split
    · nofun
    · split
      · rename_i hone
        have hshows := h.shows
        have hcount := hshows.remainingRefs
        -- The only reference that remains can be read.
        obtain ⟨ref, hrefs⟩ : ∃ ref, s.refs = [ref] :=
          List.length_eq_one_iff.mp (by omega)
        rw [hrefs] at hshows
        obtain ⟨rest, hload, _⟩ := hshows.loadRef
        rw [hload]
        nofun
      · nofun
  · split
    · nofun
    · rename_i f _
      dsimp only
      split
      · nofun
      · rename_i x _
        cases x <;> nofun

/-- Scanning a window inside its cell never finds a reference missing. -/
theorem scan_ne_window {s : Slice} (h : s.Valid) (e : CellError)
    (operands : List (Operand Cell)) : (scan s).failure ≠ some (.window e, operands) := by
  -- Induction along the scan.
  fun_induction scan s with
  | case1 =>
    intro heq
    cases heq
  | case2 s next hstep ih => exact ih (Slice.valid_toSlice next)
  | case3 s i rest hstep scanned ih =>
    -- What is left of a window inside its cell is inside too.
    have hsame := step_alike h.alike
    rw [hstep] at hsame
    cases hsame with
    | instruction _ hrest => exact ih hrest.valid_left
  | case4 s e' operands' hstep =>
    intro heq
    obtain ⟨rfl, rfl⟩ := Prod.mk.inj (Option.some.inj heq)
    exact step_ne_window h e _ hstep

end Decode

/-! ## Loading -/

/-- Loading a window depends on what it shows. -/
theorem loadCode_of_alike {s t : Slice} (h : s.Alike t) (collapse : Bool) (store : CodeStore)
    (root : CodeId) (hload : loadCode s collapse = .ok (store, root)) :
    loadCode t collapse = .ok (store, root) := by
  obtain ⟨hinstructions, hfailure⟩ := Decode.scan_alike s t h
  rw [loadCode_eq_ok, Loader.load_eq] at hload ⊢
  -- Loading has succeeded, so the scan of the first window has.
  cases hscan : Decode.scan s with
  | mk is failure =>
    cases failure with
    | some failed =>
      rw [Loader.begin, Loader.Work.run_cons_failed _ _ _ _ _ _ _ hscan] at hload
      cases hload.1
    | none =>
      -- Only the first code is read through the window: all that waits later was found in it.
      have hscan' : Decode.scan t = ⟨is, none⟩ := by
        rw [hscan] at hinstructions hfailure
        cases hscan' : Decode.scan t with
        | mk is' failure' =>
          rw [hscan'] at hinstructions hfailure
          exact congrArg₂ Decode.Scan.mk hinstructions.symm (hfailure.mp rfl)
      rw [Loader.begin, Loader.Work.run_cons _ _ _ _ _ hscan] at hload
      rw [Loader.begin, Loader.Work.run_cons _ _ _ _ _ hscan']
      exact hload

/-- Work on windows inside their cells never meets one that promises too much. -/
private theorem run_ne_window (w : Loader.Work) (h : ∀ p ∈ w.pending, p.2.Valid) (e : CellError) :
    (Loader.Work.run w).2 ≠ some (.window e) := by
  -- Induction along the run.
  fun_induction Loader.Work.run w with
  | case1 =>
    intro heq
    cases heq
  | case2 w id s pending hpending scanned placed hfailure ih =>
    apply ih
    intro p hp
    -- What waits now waited before, or it is the whole cell of a nested code.
    rcases pending_placeCode _ _ p hp with hp | ⟨_, _, body, _, _, heq⟩
    · exact h p (by rw [hpending]; exact List.mem_cons_of_mem _ hp)
    · rw [heq]
      exact Slice.valid_toSlice body
  | case3 w id s pending hpending scanned placed e' operands hfailure =>
    -- Here the first slice that waits cannot be decoded, for another reason.
    have hvalid : s.Valid := h (id, s) (by rw [hpending]; exact List.mem_cons_self ..)
    rintro heq
    obtain rfl := Option.some.inj heq
    exact Decode.scan_ne_window hvalid e operands hfailure

/-- A window inside its cell is loaded, or its code cannot be decoded. -/
theorem loadCode_ne_window {s : Slice} (h : s.Valid) (collapse : Bool) (e : CellError) :
    loadCode s collapse ≠ .error (.window e) := by
  -- At the start only the slice itself waits.
  have hrun := run_ne_window ((Loader.new collapse).begin s) (by
    intro p hp
    obtain rfl := List.mem_singleton.mp hp
    exact h) e
  rw [loadCode, Loader.load_eq]
  intro heq
  -- The error that loading returns is the one with which its run breaks off.
  cases hfailure : (Loader.Work.run ((Loader.new collapse).begin s)).2 with
  | none =>
    rw [hfailure] at heq
    cases heq
  | some x =>
    rw [hfailure] at heq hrun
    cases heq
    exact hrun rfl

end CellCode
