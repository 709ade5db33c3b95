import CellCode.Proofs.Program.Assembling

/-!
# Decoding nested code where it is met

A loader gives nested code a place when it is met and decodes it later, when the code around it
is done; a loader that collapses may by then have led several holders to this place. The plain way
to decode a program does neither: it enters nested code at once and goes on behind it when that
is decoded. Both find the same programs.

## Key results

- `Program.decode`: the program of a slice, nested code decoded where it is met
- `Program.decode_eq_ok`: this is the program that the slice shows
- `Loader.Shares`: code that came from a cell is in the place that this cell was given
- `loadCode_iff_decode`: loading succeeds where plain decoding does and finds the same program,
  and a loader that collapses leads equal cells to one place
-/

namespace CellCode

/-! ## Operands that were read -/

namespace Opcode.Format

/-- The operands that were read, even if another one could not be, hold less than the slice. -/
theorem bodiesSize_decodeFields (fields : List Field) (s : Slice) :
    bodiesSize (decodeFields fields s).operands < s.size := by
  -- Induction on the fields: each operand holds at most what its read took off the slice.
  induction fields generalizing s with
  | nil => exact s.size_pos
  | cons field fields ih =>
    unfold decodeFields
    split
    · -- The field could not be read, so there is no operand.
      exact s.size_pos
    · rename_i operand rest hdecode
      have hoperand := Field.decode_size hdecode
      have hothers := ih rest
      simp only [bodiesSize, List.map_cons, List.sum_cons] at hothers ⊢
      omega

/-- So do the operands behind the opcode, which is skipped first. -/
theorem bodiesSize_decode (h : Format) (s : Slice) : bodiesSize (h.decode s).operands < s.size := by
  unfold decode
  split
  · exact s.size_pos
  · rename_i rest hskip
    have hrest := Slice.skipBits_eq_ok hskip
    have hoperands := bodiesSize_decodeFields h.fields rest
    omega

end Opcode.Format

/-- What was read before a step failed holds less than the slice. -/
theorem Decode.step_failed_size {s : Slice} {e : DecodeError} {operands : List (Operand Cell)}
    (h : step s = .failed e operands) : Opcode.Format.bodiesSize operands < s.size := by
  -- A step fails at a jump, with no operands, or in an instruction, with those that were read.
  unfold step at h
  split at h
  · -- A jump has failed for want of a reference or of its cell.
    split at h
    · cases h
    · split at h
      · split at h
        · cases h
        · cases h
          exact s.size_pos
      · cases h
        exact s.size_pos
  · split at h
    · cases h
      -- No format has the opcode.
      exact s.size_pos
    · rename_i format _
      dsimp only at h
      split at h
      · cases h
      · cases h
        exact Opcode.Format.bodiesSize_decode format s

/-! ## Plain decoding -/

namespace Program

mutual

/-- Decodes the code of a slice from the front. Code nested in an instruction is decoded
    completely before the decoder goes on behind the instruction, or gives up on it. -/
def decode (s : Slice) : Except DecodeError Program :=
  match _h : Decode.step s with
  | .finished => .ok []
  | .jump next => decode next.toSlice
  | .instruction i rest => do
    let operands ← decodeOperands i.operands
    let others ← decode rest
    return .mk i.name operands :: others
  | .failed e operands => do
    let _ ← decodeOperands operands
    .error e
termination_by (s.size, 0)
decreasing_by
  · exact Prod.Lex.left _ _ (Decode.step_jump_size _h)
  · have := Decode.step_instruction_size _h
    simp only [Decode.bodySize] at this
    exact Prod.Lex.left _ _ (by omega)
  · have := Decode.step_instruction_size _h
    exact Prod.Lex.left _ _ (by omega)
  · exact Prod.Lex.left _ _ (Decode.step_failed_size _h)

/-- Decodes operands in order; marks of jump tables are not part of a program. -/
def decodeOperands : List (CellCode.Operand Cell) → Except DecodeError (List Program.Operand)
  | [] => .ok []
  | .integer v :: operands => return .integer v :: (← decodeOperands operands)
  | .stack i :: operands => return .stack i :: (← decodeOperands operands)
  | .control i :: operands => return .control i :: (← decodeOperands operands)
  | .bits b :: operands => return .bits b :: (← decodeOperands operands)
  | .cell c :: operands => return .cell c :: (← decodeOperands operands)
  | .code body _ :: operands => do
    let program ← decode body.toSlice
    return .code program :: (← decodeOperands operands)
  | .marker :: operands => decodeOperands operands
termination_by operands => (Opcode.Format.bodiesSize operands, operands.length + 1)
decreasing_by
  all_goals simp only [Opcode.Format.bodiesSize, List.map_cons, List.sum_cons, List.length_cons,
    Slice.size_toSlice, CellCode.Operand.bodySize, CellCode.Operand.body?, Option.map_none,
    Option.map_some, Option.getD_none, Option.getD_some, Nat.zero_add, Prod.lex_def, true_and]
  all_goals omega

end

/-- Decoding goes step by step. -/
theorem decode_eq (s : Slice) :
    decode s = match Decode.step s with
      | .finished => .ok []
      | .jump next => decode next.toSlice
      | .instruction i rest => do
        let operands ← decodeOperands i.operands
        let others ← decode rest
        return .mk i.name operands :: others
      | .failed e operands => decodeOperands operands >>= fun _ => .error e := by
  rw [decode]
  -- Only the equation that justifies termination is dropped.
  split <;> rename_i h <;> rw [h]

/-- Operands are decoded exactly when the code nested in each of them is. -/
theorem decodeOperands_eq_ok (operands : List (CellCode.Operand Cell))
    (ps : List Program.Operand) :
    decodeOperands operands = .ok ps ↔
      List.Forall₂ (Operand.Is fun p body => decode body.toSlice = .ok p) ps
        (operands.filter (!·.isMarker)) := by
  -- Induction on the operands: the filter drops the marks, and decoding passes over them.
  induction operands generalizing ps with
  | nil =>
    rw [decodeOperands, List.filter_nil, List.forall₂_nil_right_iff]
    exact ⟨fun h => by cases h; rfl, fun h => by rw [h]⟩
  | cons operand operands ih =>
    -- An operand other than a mark stands in front of what the others are decoded to.
    have hfront (decoded : Except DecodeError Program.Operand) (hmarker : operand.isMarker = false)
        (heq : decodeOperands (operand :: operands) =
          decoded >>= fun p => decodeOperands operands >>= fun ps => .ok (p :: ps))
        (hdecoded : ∀ p, decoded = .ok p ↔
          p.Is (fun p body => decode body.toSlice = .ok p) operand) :
        decodeOperands (operand :: operands) = .ok ps ↔
          List.Forall₂ (Operand.Is fun p body => decode body.toSlice = .ok p) ps
            ((operand :: operands).filter (!·.isMarker)) := by
      rw [heq, List.filter_cons_of_pos (by rw [hmarker]; rfl), List.forall₂_cons_right_iff]
      simp only [bind_eq_ok, ih, hdecoded, Except.ok.injEq]
      constructor
      · rintro ⟨p, hp, qs, hqs, rfl⟩
        exact ⟨p, qs, hp, hqs, rfl⟩
      · rintro ⟨p, qs, hp, hqs, rfl⟩
        exact ⟨p, hp, qs, hqs, rfl⟩
    cases operand with
    -- Of a plain operand nothing has to be decoded.
    | integer v | stack i | control i | bits b | cell c =>
      refine hfront (.ok _) rfl (by rw [decodeOperands]; rfl) ?_
      intro p
      constructor
      · intro h
        cases h
        constructor
      · intro h
        cases h
        rfl
    -- Nested code is decoded first, so the operand stands only if that succeeds.
    | code body source =>
      refine hfront (decode body.toSlice >>= fun p => .ok (.code p)) rfl ?_ ?_
      · rw [decodeOperands]
        cases decode body.toSlice <;> rfl
      · intro p
        rw [bind_eq_ok]
        constructor
        · rintro ⟨q, hq, h⟩
          cases h
          exact .code source hq
        · intro h
          cases h with
          | code _ hq => exact ⟨_, hq, rfl⟩
    -- A mark is dropped on both sides.
    | marker =>
      rw [decodeOperands, List.filter_cons_of_neg (by simp [CellCode.Operand.isMarker])]
      exact ih ps

end Program

namespace Decode

/-- At the end of its code a slice has no more instructions. -/
theorem instructions?_finished (s : Slice) (h : step s = .finished) :
    instructions? s = some [] := by
  rw [instructions?_eq_some, scan_eq, h]
  exact ⟨rfl, rfl⟩

/-- A jump has the instructions of the cell it goes to. -/
theorem instructions?_jump (s : Slice) (next : Cell) (h : step s = .jump next) :
    instructions? s = instructions? next.toSlice := by
  have hscan : scan s = scan next.toSlice := by
    rw [scan_eq, h]
  rw [instructions?, instructions?, hscan]

/-- An instruction comes in front of those behind it. -/
theorem instructions?_instruction (s rest : Slice) (i : Instruction Cell)
    (h : step s = .instruction i rest) :
    instructions? s = (instructions? rest).map (i :: ·) := by
  have hscan : scan s = ⟨i :: (scan rest).instructions, (scan rest).failure⟩ := by
    rw [scan_eq, h]
  rw [instructions?, instructions?, hscan]
  cases (scan rest).failure <;> rfl

/-- Where a step fails no list of instructions is complete. -/
theorem instructions?_failed (s : Slice) (e : DecodeError) (operands : List (Operand Cell))
    (h : step s = .failed e operands) : instructions? s = none := by
  have hscan : scan s = ⟨[], some (e, operands)⟩ := by
    rw [scan_eq, h]
  rw [instructions?, hscan]
  rfl

end Decode

namespace Program

/-- A code is decoded exactly when it can be followed to its end and all code nested in it is
    decoded. -/
private theorem decode_iff_instructions (s : Slice) (p : Program) :
    decode s = .ok p ↔ ∃ is, Decode.instructions? s = some is ∧
      List.Forall₂ (Instruction.Is fun q body => decode body.toSlice = .ok q) p is := by
  -- Induction along the scan, one case for each outcome of a step.
  fun_induction Decode.scan s generalizing p with
  -- The code has ended: both sides give no instructions.
  | case1 s h =>
    rw [decode_eq, h, Decode.instructions?_finished s h]
    simp [eq_comm]
  | case2 s next h ih =>
    rw [decode_eq, h, Decode.instructions?_jump s next h]
    exact ih p
  | case3 s i rest h scanned ih =>
    rw [decode_eq, h, Decode.instructions?_instruction s rest i h]
    simp only [bind_eq_ok, decodeOperands_eq_ok, ih, Option.map_eq_some_iff]
    constructor
    · -- Decoding found the operands and then the rest, so the scan has the instruction in front of
      -- the rest.
      rintro ⟨operands, hoperands, others, ⟨is, his, hothers⟩, hp⟩
      cases hp
      exact ⟨i :: is, ⟨is, his, rfl⟩, .cons ⟨rfl, hoperands⟩ hothers⟩
    · -- The first instruction of the program is that of the step, and the others are the rest.
      rintro ⟨_, ⟨is, his, rfl⟩, hp⟩
      cases hp with
      | @cons first _ others _ hfirst hothers =>
        obtain ⟨name, operands⟩ := first
        obtain ⟨rfl, hoperands⟩ := hfirst
        exact ⟨operands, hoperands, others, ⟨is, his, hothers⟩, rfl⟩
  -- A step that fails leaves nothing on either side.
  | case4 s e operands h =>
    rw [decode_eq, h, Decode.instructions?_failed s e operands h]
    simp [bind_eq_ok]

/-- Decoding a slice returns exactly the program that it shows. -/
theorem decode_eq_ok (s : Slice) (p : Program) : decode s = .ok p ↔ s.Decodes p := by
  -- Nested code is smaller than the code it is nested in.
  induction hn : s.size using Nat.strongRecOn generalizing s p with
  | ind n ih =>
    -- By `decode_iff_instructions` both sides say the same of the instructions; the difference is
    -- in their bodies, which are smaller.
    rw [decode_iff_instructions, s.decodes_iff]
    refine exists_congr fun is => and_congr_right fun his => ?_
    have hsame (i : CellCode.Instruction Cell) (hi : i ∈ is) (k : Cell) (hk : k ∈ i.bodies)
        (body : Program) : decode k.toSlice = .ok body ↔ k.toSlice.Decodes body := by
      obtain ⟨operand, hoperand, hbody⟩ := List.mem_filterMap.mp hk
      cases operand with
      | code _ source =>
        cases hbody
        have hlt := Decode.size_body_lt s is i k source his hi hoperand
        exact ih k.toSlice.size (by rw [Slice.size_toSlice]; omega) k.toSlice body rfl
      | _ => cases hbody
    constructor
    · -- From the same list of instructions, body by body.
      refine forall₂_imp_mem p is ?_
      intro q _ i hi hq
      exact hq.imp_mem q i fun body k _ hk => (hsame i hi k hk body).mp
    · refine forall₂_imp_mem p is ?_
      intro q _ i hi hq
      exact hq.imp_mem q i fun body k _ hk => (hsame i hi k hk body).mpr

end Program

/-! ## Equal cells share a place -/

/-- Code that came from a cell is what this cell holds. -/
def Operand.FromSource (operand : Operand Cell) : Prop :=
  ∀ body c, operand = .code body (some c) → body = c

/-- What a field yields from a reference is the cell that is referred to. -/
theorem Field.Suits.fromSource {field : Field} {operand : Operand Cell} (h : field.Suits operand) :
    operand.FromSource := by
  obtain ⟨taken, hyields⟩ := h
  intro body c heq
  subst heq
  cases hyields with
  | code c => rfl

/-- What is scanned comes from fields, so its nested code is that of the cell it names as its
    source. -/
theorem Decode.scan_fromSource (s : Slice) :
    ∀ i ∈ (scan s).instructions, ∀ o ∈ i.operands, o.FromSource := by
  intro i hi o ho
  obtain ⟨h, _, _, hsuits⟩ := scan_formed s i hi
  obtain ⟨field, _, hfield⟩ := forall₂_mem_right _ _ hsuits o ho
  exact hfield.fromSource

namespace CodeStore

/-- A new place has no instructions yet, and what lies behind a store has none either. -/
theorem get_push_nil (store : CodeStore) (id : CodeId) : (store.push []).get id = store.get id := by
  -- Before the new place, in it, and behind it.
  rcases Nat.lt_trichotomy id store.size with h | rfl | h
  · exact store.get_push [] id h
  · rw [store.get_of_le _ (Nat.le_refl _)]
    simp [get, push, size]
  · rw [store.get_of_le id (Nat.le_of_lt h), get_of_le]
    rw [size_push]
    exact h

/-- What is in a place after another code was put somewhere. -/
theorem mem_get_set (store : CodeStore) (id id' : CodeId) (code : Code) (i : Instruction CodeId)
    (h : i ∈ (store.set id code).get id') : i ∈ code ∨ i ∈ store.get id' := by
  by_cases heq : id = id'
  · subst heq
    -- A place beyond the end takes nothing, and nothing can be read there.
    by_cases hlt : id < store.size
    · rw [store.get_set_self code id hlt] at h
      exact .inl h
    · rw [get_of_le _ _ (by rw [size_set]; exact Nat.not_lt.mp hlt)] at h
      cases h
  · rw [store.get_set_ne code id id' heq] at h
    exact .inr h

/-- Nested codes that came from cells of one digest are in one place. -/
def Shared (store : CodeStore) : Prop :=
  ∀ (id id' : CodeId) (i i' : Instruction CodeId) (k k' : CodeId) (c c' : Cell),
    i ∈ store.get id → i' ∈ store.get id' → .code k (some c) ∈ i.operands →
      .code k' (some c') ∈ i'.operands → c.digest = c'.digest → k = k'

end CodeStore

namespace Loader

/-- Nested code that came from a cell is in the place that the cell was given. -/
def Shares (l : Loader) : Prop :=
  ∀ (id : CodeId) (i : Instruction CodeId) (k : CodeId) (c : Cell),
    i ∈ l.store.get id → .code k (some c) ∈ i.operands → l.placed[c.digest]? = some k

/-- Then cells of one digest have one place. -/
theorem Shares.shared {l : Loader} (h : l.Shares) : l.store.Shared := by
  intro id id' i i' k k' c c' hi hi' hk hk' hdigest
  have hplaced := h id i k c hi hk
  have hplaced' := h id' i' k' c' hi' hk'
  -- Both places are the one that the common digest leads to.
  rw [hdigest, hplaced'] at hplaced
  exact (Option.some.inj hplaced).symm

namespace Work

/-- The work has the codes of other work, and the places that were given stay given. -/
structure Grows (w w' : Work) : Prop where
  collapse_eq : w'.loader.collapse = w.loader.collapse
  get_eq : ∀ id, w'.loader.store.get id = w.loader.store.get id
  placed : ∀ (d : Digest) (k : CodeId), w.loader.placed[d]? = some k →
    w'.loader.placed[d]? = some k

theorem Grows.refl (w : Work) : w.Grows w := ⟨rfl, fun _ => rfl, fun _ _ h => h⟩

theorem Grows.trans {w₁ w₂ w₃ : Work} (h : w₁.Grows w₂) (h' : w₂.Grows w₃) : w₁.Grows w₃ where
  collapse_eq := h'.collapse_eq.trans h.collapse_eq
  get_eq := fun id => (h'.get_eq id).trans (h.get_eq id)
  placed := fun d k hk => h'.placed d k (h.placed d k hk)

/-- Putting a body off adds an empty place only. -/
theorem grows_defer (w : Work) (body : Cell) : w.Grows (w.defer body) where
  collapse_eq := rfl
  get_eq := fun id => CodeStore.get_push_nil _ id
  placed := fun _ _ h => h

/-- So does placing a body. Its cell may be given a place, if it had none. -/
theorem grows_placeBody (w : Work) (body : Cell) (source : Option Cell) :
    w.Grows (w.placeBody body source).2 := by
  unfold placeBody
  split
  · split
    · -- The cell has a place, and that is used.
      exact .refl w
    · rename_i hnone
      have hdefer := w.grows_defer body
      refine ⟨hdefer.collapse_eq, hdefer.get_eq, ?_⟩
      intro d k hk
      -- The cell had no place before, so none is overwritten.
      have hne : ¬ body.digest = d := by
        intro heq
        rw [heq, hk] at hnone
        cases hnone
      show (w.loader.placed.insert body.digest _)[d]? = some k
      rw [Std.HashMap.getElem?_insert, if_neg (by simpa using hne)]
      exact hk
  · exact w.grows_defer body

theorem grows_place (w : Work) (operand : Operand Cell) : w.Grows (w.place operand).2 := by
  cases operand with
  | code body source => exact w.grows_placeBody body source
  -- Only nested code takes a place.
  | _ => exact .refl w

theorem grows_placeAll (w : Work) (operands : List (Operand Cell)) :
    w.Grows (w.placeAll operands).2 := by
  -- Induction on the operands: growing is transitive.
  induction operands generalizing w with
  | nil => exact .refl w
  | cons operand operands ih => exact (w.grows_place operand).trans (ih _)

theorem grows_placeCode (w : Work) (is : List (Instruction Cell)) :
    w.Grows (w.placeCode is).2 := by
  induction is generalizing w with
  | nil => exact .refl w
  | cons i is ih => exact (w.grows_placeAll i.operands).trans (ih _)

/-- A cell is led to the place that it is given. -/
theorem placed_placeBody (w : Work) (c : Cell) (hcollapse : w.loader.collapse = true) :
    (w.placeBody c (some c)).2.loader.placed[c.digest]? = some (w.placeBody c (some c)).1 := by
  unfold placeBody
  rw [if_pos ⟨hcollapse, rfl⟩]
  split
  · -- The hash was met before, and the place it leads to is returned.
    rename_i id hid
    exact hid
  · -- The new place was just put under the hash.
    exact Std.HashMap.getElem?_insert_self

/-- The operand's code, if it came from a cell, is in the place that the cell has. -/
theorem placed_place (w : Work) (operand : Operand Cell) (hcollapse : w.loader.collapse = true)
    (hsource : operand.FromSource) (k : CodeId) (c : Cell)
    (h : (w.place operand).1 = .code k (some c)) :
    (w.place operand).2.loader.placed[c.digest]? = some k := by
  cases operand with
  | code body source =>
    simp only [place, Operand.code.injEq] at h
    obtain ⟨rfl, rfl⟩ := h
    -- Only the source of nested code counts, and it is the cell of its body.
    obtain rfl := hsource body c rfl
    exact w.placed_placeBody body hcollapse
  | _ => cases h

theorem placed_placeAll (w : Work) (operands : List (Operand Cell))
    (hcollapse : w.loader.collapse = true) (hsource : ∀ o ∈ operands, o.FromSource) (k : CodeId)
    (c : Cell) (h : .code k (some c) ∈ (w.placeAll operands).1) :
    (w.placeAll operands).2.loader.placed[c.digest]? = some k := by
  -- Induction on the operands: a cell keeps the place it was given while the others are placed.
  induction operands generalizing w with
  | nil => cases h
  | cons operand operands ih =>
    rw [List.forall_mem_cons] at hsource
    rcases List.mem_cons.mp h with heq | hmem
    · -- The first operand: its cell was led to its place, and the rest only adds places.
      have hplaced := w.placed_place operand hcollapse hsource.1 k c heq.symm
      exact ((w.place operand).2.grows_placeAll operands).placed _ _ hplaced
    · exact ih _ ((w.grows_place operand).collapse_eq.trans hcollapse) hsource.2 hmem

theorem placed_placeCode (w : Work) (is : List (Instruction Cell))
    (hcollapse : w.loader.collapse = true)
    (hsource : ∀ i ∈ is, ∀ o ∈ i.operands, o.FromSource) (j : Instruction CodeId) (k : CodeId)
    (c : Cell) (hj : j ∈ (w.placeCode is).1) (hk : .code k (some c) ∈ j.operands) :
    (w.placeCode is).2.loader.placed[c.digest]? = some k := by
  -- Induction on the instructions, as in `placed_placeAll` on the operands.
  induction is generalizing w with
  | nil => cases hj
  | cons i is ih =>
    rw [List.forall_mem_cons] at hsource
    rcases List.mem_cons.mp hj with rfl | hmem
    · have hplaced := w.placed_placeAll i.operands hcollapse hsource.1 k c hk
      exact ((w.placeAll i.operands).2.grows_placeCode is).placed _ _ hplaced
    · exact ih _ ((w.grows_placeAll i.operands).collapse_eq.trans hcollapse) hsource.2 hmem

/-- One code that is decoded and put into its place keeps all code in the places of its cells. -/
theorem shares_fill (w : Work) (id : CodeId) (s : Slice) (hcollapse : w.loader.collapse = true)
    (h : w.loader.Shares) :
    let placed := w.placeCode (Decode.scan s).instructions
    (placed.2.fill id placed.1).loader.Shares := by
  intro placed id' j k c hj hk
  have hgrows := w.grows_placeCode (Decode.scan s).instructions
  -- An instruction of the store was placed just now, or it stood there before. Then its place was
  -- given, and what is given stays given.
  rcases CodeStore.mem_get_set _ _ _ _ _ hj with hj | hj
  · exact w.placed_placeCode _ hcollapse (Decode.scan_fromSource s) j k c hj hk
  · rw [hgrows.get_eq] at hj
    exact hgrows.placed _ _ (h id' j k c hj hk)

/-- When work ends without an error, all code is in the places of its cells. -/
theorem run_shares (w : Work) (hcollapse : w.loader.collapse = true) (h : w.loader.Shares)
    (hdone : (run w).2 = none) : (run w).1.Shares := by
  -- Induction along the work: `shares_fill` is the step, and `hdone` excludes the end with an
  -- error.
  fun_induction run w with
  | case1 => exact h
  | case2 w id s pending hpending scanned placed hfailure ih =>
    have hgrows := ({ w with pending := pending } : Work).grows_placeCode scanned.instructions
    exact ih (hgrows.collapse_eq.trans hcollapse)
      (({ w with pending := pending } : Work).shares_fill id s hcollapse h) hdone
  -- The work has failed.
  | case3 => cases hdone

end Work

end Loader

/-- Loading starts with no instructions. -/
theorem Loader.get_begin (collapse : Bool) (s : Slice) (id : CodeId) :
    ((new collapse).begin s).loader.store.get id = [] := by
  show (CodeStore.empty.push []).get id = []
  -- The only place is the new one, and that is empty.
  rw [CodeStore.get_push_nil, CodeStore.get_of_le]
  exact Nat.zero_le id

/-- A store that was loaded with collapsing leads equal cells to one place. -/
theorem loadCode_shared (s : Slice) (store : CodeStore) (root : CodeId)
    (h : loadCode s true = .ok (store, root)) : store.Shared := by
  obtain ⟨hroot, rfl⟩ := (loadCode_eq_ok s true store root).mp h
  rw [Loader.load_eq] at hroot ⊢
  cases hfailure : (Loader.Work.run ((Loader.new true).begin s)).2 with
  | some e => simp [hfailure] at hroot
  | none =>
    -- It is enough to follow the work, which starts with no instructions at all.
    apply Loader.Shares.shared
    apply Loader.Work.run_shares _ rfl _ hfailure
    intro id i k c hi
    rw [Loader.get_begin] at hi
    cases hi

/-! ## Loading and plain decoding -/

/-- Loading a slice succeeds exactly when plain decoding does, and what was loaded unfolds to the
    program that plain decoding returns, whether or not equal cells are collapsed, as long as no
    two different cells of the tree share a digest. With collapsing, nested codes whose cells have
    one digest are one code. -/
theorem loadCode_iff_decode (s : Slice) (collapse : Bool)
    (distinct : collapse = true → s.cell.DistinctDigests) :
    ((∃ store root, loadCode s collapse = .ok (store, root)) ↔
      ∃ p, Program.decode s = .ok p) ∧
    ∀ store root, loadCode s collapse = .ok (store, root) →
      (∃ p, Program.decode s = .ok p ∧ ∀ q, store.Holds root q ↔ q = p) ∧
      (collapse = true → store.Shared) := by
  -- What was loaded is the program that the slice shows, and this is what plain decoding returns.
  have hholds (store : CodeStore) (root : CodeId) (h : loadCode s collapse = .ok (store, root)) :
      ∃ p, Program.decode s = .ok p ∧ store.Holds root p := by
    obtain ⟨_, p, hp, hheld⟩ := loadCode_holds s collapse s.cell.Reaches store root
      (fun _ hc => hc.refs) s.reaches_of_mem_refs distinct h
    exact ⟨p, (Program.decode_eq_ok s p).mpr hp, hheld⟩
  refine ⟨⟨?_, ?_⟩, ?_⟩
  · -- What is loaded can be decoded, because the slice shows it.
    rintro ⟨store, root, h⟩
    obtain ⟨p, hp, _⟩ := hholds store root h
    exact ⟨p, hp⟩
  · -- What can be decoded is shown by the slice, so it can be loaded.
    rintro ⟨p, hp⟩
    exact loadCode_of_decodes s collapse p ((Program.decode_eq_ok s p).mp hp)
  · intro store root h
    obtain ⟨p, hp, hheld⟩ := hholds store root h
    refine ⟨⟨p, hp, ?_⟩, ?_⟩
    · -- A place holds one program only, so `q` is the decoded one.
      intro q
      constructor
      · intro hq
        exact hq.eq store root q p hheld
      · rintro rfl
        exact hheld
    · rintro rfl
      exact loadCode_shared s store root h

/-! ## One cell in two branches -/

/-- Code that is referred to twice, and code that has it in both branches. -/
private def repeated : Cell := .data (Opcode.hexBits "A4")
def sameBranches : Cell := .mk (Opcode.hexBits "E30F") [repeated, repeated]

/-- The places of `sameBranches` when equal cells are collapsed. -/
def sameBranchesStore : CodeStore :=
  ⟨#[[⟨"IFREFELSEREF", [.code 1 (some repeated), .code 1 (some repeated)]⟩], [⟨"INC", []⟩]]⟩

private theorem scan_repeated : Decode.scan repeated.toSlice = ⟨[⟨"INC", []⟩], none⟩ :=
  Decode.scan_single _ ⟨repeated, 8, 8, 0, 0⟩ _
    (Decode.step_of_longest _ _ (Opcode.op "INC" "A4" []) _ (by decide +kernel) (by decide +kernel)
      rfl) rfl

private theorem scan_sameBranches : Decode.scan sameBranches.toSlice =
    ⟨[⟨"IFREFELSEREF", [.code repeated (some repeated), .code repeated (some repeated)]⟩], none⟩ :=
  Decode.scan_single _ ⟨sameBranches, 16, 16, 2, 2⟩ _
    (Decode.step_of_longest _ _ (Opcode.op "IFREFELSEREF" "E30F" [.code, .code]) _
      (by decide +kernel) (by decide +kernel) rfl) rfl

/-- The second branch is not loaded again: its hash leads to the place of the first. -/
theorem loadCode_sameBranches :
    loadCode sameBranches.toSlice true = .ok (sameBranchesStore, 0) := by
  rw [loadCode, Loader.load, Loader.Work.run_cons _ _ _ _ _ scan_sameBranches]
  -- The outer code waits for one body, to whose place both operands are led.
  simp only [Loader.Work.fill, Loader.Work.placeCode, Loader.Work.placeAll, Loader.Work.place,
    Loader.Work.placeBody, Loader.Work.defer, Loader.new, Option.isSome_some, and_self, if_true,
    Std.HashMap.getElem?_empty, Std.HashMap.getElem?_insert_self]
  rw [Loader.Work.run_cons _ _ _ _ _ scan_repeated]
  -- The body has no nested code, so nothing waits any more.
  simp only [Loader.Work.fill, Loader.Work.placeCode, Loader.Work.placeAll]
  rw [Loader.Work.run]
  rfl

theorem distinctDigests_sameBranches : sameBranches.DistinctDigests :=
  Cell.distinctDigests_of_closed _ [sameBranches, repeated] (by decide +kernel)
    (by decide +kernel) (by decide +kernel)

/-- Both branches of `sameBranches` are led to one place, and plain decoding finds the program that
    the store has there. -/
theorem loadCode_iff_decode_sameBranches :
    sameBranches.DistinctDigests ∧
      loadCode sameBranches.toSlice true = .ok (sameBranchesStore, 0) ∧
      ((∃ store root, loadCode sameBranches.toSlice true = .ok (store, root)) ↔
        ∃ p, Program.decode sameBranches.toSlice = .ok p) ∧
      ∀ store root, loadCode sameBranches.toSlice true = .ok (store, root) →
        (∃ p, Program.decode sameBranches.toSlice = .ok p ∧ ∀ q, store.Holds root q ↔ q = p) ∧
        (true = true → store.Shared) := by
  exact ⟨distinctDigests_sameBranches, loadCode_sameBranches,
    loadCode_iff_decode sameBranches.toSlice true fun _ => distinctDigests_sameBranches⟩

end CellCode
