import CellCode.Proofs.Cell.Reaching
import CellCode.Proofs.Opcode.Yields
import CellCode.Proofs.Program.Basic

/-!
# Loading finds the program that a slice shows

A loader decodes one code after the other and gives the codes nested in them their places. It
may have loaded other slices before: what it has then stays in its places, and a cell that was
given a place before is led there again when the loader collapses. A plan says which slice each
new place was given for. While the loader is at work, every new place that no longer waits has the
instructions of its slice, with nested code in places that the plan has for it or in old places.

## Key results

- `Loader.Extends`: a loader has what another one had, and new places by a plan
- `Loader.Work.Follows`: the work done so far follows a plan
- `Loader.Work.run_extends`: when the work ends without an error, every new place holds what the
  plan says
- `CodeStore.has_of_follows`: every place that follows a plan has the program of its slice
- `loadCode_holds`: a store that was loaded has the program of its slice
- `loadCode_of_decodes`: a slice that shows a program can be loaded
- `Slice.Decodes.load`: so loading and unfolding a slice find the same program
-/

namespace CellCode

-- Sums are those of the standard library, whatever else is in scope.
attribute [local instance (high)] Zero.ofOfNat0

/-! ## Codes with places for nested codes -/

/-- The operand with a place for its nested code. -/
inductive Operand.Placed (leads : Cell → Option Cell → CodeId → Prop) :
    Operand Cell → Operand CodeId → Prop
  | integer (v : Int) : Placed leads (.integer v) (.integer v)
  | stack (i : Int) : Placed leads (.stack i) (.stack i)
  | control (i : Int) : Placed leads (.control i) (.control i)
  | bits (b : Bits) : Placed leads (.bits b) (.bits b)
  | cell (c : Cell) : Placed leads (.cell c) (.cell c)
  | code {body : Cell} {source : Option Cell} {k : CodeId} (h : leads body source k) :
      Placed leads (.code body source) (.code k source)
  | marker : Placed leads .marker .marker

/-- The instruction with places for its nested codes. -/
structure Instruction.Placed (leads : Cell → Option Cell → CodeId → Prop) (i : Instruction Cell)
    (j : Instruction CodeId) : Prop where
  name_eq : i.name = j.name
  operands : List.Forall₂ (Operand.Placed leads) i.operands j.operands

section

variable {leads leads' : Cell → Option Cell → CodeId → Prop}

/-- What the places of nested codes have may be weakened. -/
theorem Operand.Placed.imp (h : ∀ body source k, leads body source k → leads' body source k)
    (o : Operand Cell) (o' : Operand CodeId) (ho : o.Placed leads o') : o.Placed leads' o' := by
  -- Only nested code has a place at all.
  cases ho with
  | integer v => exact .integer v
  | stack i => exact .stack i
  | control i => exact .control i
  | bits b => exact .bits b
  | cell c => exact .cell c
  | code hleads => exact .code (h _ _ _ hleads)
  | marker => exact .marker

/-- So may what those of the operands of an instruction have. -/
theorem Instruction.Placed.imp (h : ∀ body source k, leads body source k → leads' body source k)
    (i : Instruction Cell) (j : Instruction CodeId) (hi : i.Placed leads j) : i.Placed leads' j :=
  ⟨hi.name_eq, hi.operands.imp (Operand.Placed.imp h)⟩

end

/-! ## Plans -/

/-- The place of a body: a new one that the plan has for it, or the one that its cell was given
    before the load started. Without collapsing it is new and not below `n`. -/
inductive Leads (start : Loader) (plan : List Slice) (n : Nat) (body : Cell)
    (source : Option Cell) : CodeId → Prop
  | new (j : Nat) (planned : plan[j]? = some body.toSlice)
      (behind : start.collapse = false → n ≤ j) :
      Leads start plan n body source (start.store.size + j)
  | old (k : CodeId) (collapse : start.collapse = true) (shared : source.isSome)
      (placed : start.placed[body.digest]? = some k) : Leads start plan n body source k

/-- The new place holds the instructions of its slice, nested codes in their places. -/
def CodeStore.Follows (store : CodeStore) (start : Loader) (plan : List Slice) (j : Nat) : Prop :=
  ∃ s is, plan[j]? = some s ∧ Decode.instructions? s = some is ∧
    List.Forall₂ (Instruction.Placed (Leads start plan (j + 1))) is
      (store.get (start.store.size + j))

private theorem getElem?_append_of_some {α : Type} (xs ys : List α) (i : Nat) (x : α)
    (h : xs[i]? = some x) : (xs ++ ys)[i]? = some x := by
  obtain ⟨hlt, _⟩ := List.getElem?_eq_some_iff.mp h
  rw [List.getElem?_append_left hlt, h]

section

variable {start : Loader} {plan : List Slice}

/-- A plan that goes on still has what it had. -/
theorem Leads.append {n : Nat} (more : List Slice) (body : Cell) (source : Option Cell)
    (k : CodeId) (h : Leads start plan n body source k) :
    Leads start (plan ++ more) n body source k := by
  cases h with
  | new j planned behind => exact .new j (getElem?_append_of_some _ _ _ _ planned) behind
  | old _ collapse shared placed => exact .old k collapse shared placed

/-- What is not below `n` is not below a smaller number either. -/
theorem Leads.mono {m n : Nat} (hmn : m ≤ n) (body : Cell) (source : Option Cell) (k : CodeId)
    (h : Leads start plan n body source k) : Leads start plan m body source k := by
  cases h with
  -- Of a new place only the bound changes, and an old one has none.
  | new j planned behind => exact .new j planned fun hc => Nat.le_trans hmn (behind hc)
  | old _ collapse shared placed => exact .old k collapse shared placed

/-- A place that follows a plan follows it when it goes on. -/
theorem CodeStore.Follows.append {store : CodeStore} {j : Nat} (more : List Slice)
    (h : store.Follows start plan j) : store.Follows start (plan ++ more) j := by
  obtain ⟨s, is, hs, his, hcode⟩ := h
  exact ⟨s, is, getElem?_append_of_some _ _ _ _ hs, his,
    hcode.imp (Instruction.Placed.imp (Leads.append more))⟩

/-- Whether a place follows the plan depends on its code only. -/
theorem CodeStore.Follows.congr {store store' : CodeStore} {j : Nat}
    (h : store.Follows start plan j)
    (hget : store'.get (start.store.size + j) = store.get (start.store.size + j)) :
    store'.Follows start plan j := by
  obtain ⟨s, is, hs, his, hcode⟩ := h
  exact ⟨s, is, hs, his, by rw [hget]; exact hcode⟩

end

namespace CodeStore

/-- A new code leaves the codes before it. -/
theorem get_push (store : CodeStore) (code : Code) (id : CodeId) (h : id < store.size) :
    (store.push code).get id = store.get id := by
  unfold get push size at *
  simp only [Array.getD_eq_getD_getElem?, Array.getElem?_push_lt h, Array.getElem?_eq_getElem h]

/-- A new code takes one place. -/
theorem size_push (store : CodeStore) (code : Code) : (store.push code).size = store.size + 1 := by
  simp [push, size]

/-- A place holds what was put there last. -/
theorem get_set_self (store : CodeStore) (code : Code) (id : CodeId) (h : id < store.size) :
    (store.set id code).get id = code := by
  unfold get set size at *
  simp [Array.getD_eq_getD_getElem?, Array.getElem?_setIfInBounds_self_of_lt h]

/-- Putting a code into a place leaves the other ones. -/
theorem get_set_ne (store : CodeStore) (code : Code) (id id' : CodeId) (h : id ≠ id') :
    (store.set id code).get id' = store.get id' := by
  unfold get set
  simp [Array.getD_eq_getD_getElem?, Array.getElem?_setIfInBounds_ne h]

/-- Putting a code into a place adds none. -/
theorem size_set (store : CodeStore) (code : Code) (id : CodeId) :
    (store.set id code).size = store.size := by
  simp [set, size]

end CodeStore

/-! ## Work that follows a plan -/

/-- The loader has the places of another one unchanged, and behind them new places by a plan in
    which only references with a property stand. The cells that were given new places are in the
    plan. -/
structure Loader.Extends (l start : Loader) (has : Cell → Prop) (plan : List Slice) : Prop where
  collapse_eq : l.collapse = start.collapse
  size_eq : l.store.size = start.store.size + plan.length
  kept : ∀ id < start.store.size, l.store.get id = start.store.get id
  placed : ∀ (d : Digest) (id : CodeId), l.placed[d]? = some id → start.placed[d]? = some id ∨
    ∃ (c : Cell) (j : Nat), c.digest = d ∧ has c ∧ plan[j]? = some c.toSlice ∧
      id = start.store.size + j
  inside : ∀ s ∈ plan, ∀ r ∈ s.refs, has r

/-- Putting a code into a new place leaves the old ones. -/
theorem Loader.Extends.fill {start : Loader} {has : Cell → Prop} (w : Work) (plan : List Slice)
    (j : Nat) (code : Code) (h : w.loader.Extends start has plan) :
    (w.fill (start.store.size + j) code).loader.Extends start has plan where
  collapse_eq := h.collapse_eq
  size_eq := (CodeStore.size_set ..).trans h.size_eq
  kept := by
    intro id hid
    -- The place that is filled is a new one, so it is not `id`.
    have hne : start.store.size + j ≠ id := by omega
    exact (CodeStore.get_set_ne _ _ _ _ hne).trans (h.kept id hid)
  placed := h.placed
  inside := h.inside

namespace Loader.Work

/-- The work follows a plan. Places that neither wait nor are `busy` hold what the plan says. -/
structure Follows (w : Work) (start : Loader) (has : Cell → Prop) (plan : List Slice)
    (busy : List CodeId) : Prop extends w.loader.Extends start has plan where
  pending : ∀ p ∈ w.pending, ∃ j, plan[j]? = some p.2 ∧ p.1 = start.store.size + j
  decoded : ∀ j < plan.length, start.store.size + j ∉ busy →
    start.store.size + j ∉ w.pending.map (·.1) → w.loader.store.Follows start plan j

variable {start : Loader} {has : Cell → Prop} {busy : List CodeId}

/-- A body that is put off takes the next place of the plan. -/
theorem Follows.defer (w : Work) (plan : List Slice) (body : Cell)
    (h : w.Follows start has plan busy) (hbody : ∀ r ∈ body.refs, has r) :
    (w.defer body).Follows start has (plan ++ [body.toSlice]) busy where
  collapse_eq := h.collapse_eq
  size_eq := by
    show (w.loader.store.push []).size = _
    -- The new place and the new entry of the plan are both one more.
    rw [CodeStore.size_push, h.size_eq, List.length_append, List.length_singleton, Nat.add_assoc]
  kept := by
    intro id hid
    have hlt : id < w.loader.store.size := by
      rw [h.size_eq]
      omega
    exact (CodeStore.get_push _ _ _ hlt).trans (h.kept id hid)
  placed := by
    intro d id hid
    -- Putting a body off gives its cell no place that a hash leads to; `placeBody` does that.
    rcases h.placed d id hid with hold | ⟨c, j, hdigest, hc, hplan, hj⟩
    · exact .inl hold
    · exact .inr ⟨c, j, hdigest, hc, getElem?_append_of_some _ _ _ _ hplan, hj⟩
  inside := by
    intro s hs r hr
    rcases List.mem_append.mp hs with hs | hs
    · -- The new entry of the plan is the body, and its references have the property by assumption.
      exact h.inside s hs r hr
    · obtain rfl := List.mem_singleton.mp hs
      rw [Slice.refs_toSlice] at hr
      exact hbody r hr
  pending := by
    intro p hp
    -- What has just been put off waits for the last entry of the plan, the rest for what it waited
    -- for.
    rcases List.mem_cons.mp hp with rfl | hp
    · exact ⟨plan.length, List.getElem?_concat_length, h.size_eq⟩
    · obtain ⟨j, hplan, hj⟩ := h.pending p hp
      exact ⟨j, getElem?_append_of_some _ _ _ _ hplan, hj⟩
  decoded := by
    intro j hj hbusy hwaits
    -- The place that was just given waits, so this is one of the others.
    have hne : j ≠ plan.length := by
      intro heq
      apply hwaits
      rw [heq, ← h.size_eq]
      exact List.mem_map_of_mem (List.mem_cons_self ..)
    have hlt : j < plan.length := by
      rw [List.length_append, List.length_singleton] at hj
      omega
    have hdone := h.decoded j hlt hbusy (fun hmem => hwaits (List.mem_cons_of_mem _ hmem))
    have hplace : start.store.size + j < w.loader.store.size := by
      rw [h.size_eq]
      omega
    exact (hdone.append _).congr (CodeStore.get_push _ _ _ hplace)

/-- A body is led to its place. When its cell was given a new place before, that place has the
    same cell, because no other one has its digest. -/
theorem Follows.placeBody (w : Work) (plan : List Slice) (body : Cell) (source : Option Cell)
    (distinct : start.collapse = true → ∀ c d, has c → has d → c.digest = d.digest → c = d)
    (h : w.Follows start has plan busy) (hbody : (Operand.code body source).Inside has) :
    ∃ more, (w.placeBody body source).2.Follows start has (plan ++ more) busy ∧
      Leads start (plan ++ more) plan.length body source (w.placeBody body source).1 := by
  -- All three outcomes use one of these: the body takes the next place, which is the next entry of
  -- the plan.
  have hdeferred := h.defer w plan body hbody.2
  have hplanned : (plan ++ [body.toSlice])[plan.length]? = some body.toSlice :=
    List.getElem?_concat_length
  have hnew : Leads start (plan ++ [body.toSlice]) plan.length body source w.loader.store.size := by
    rw [h.size_eq]
    exact .new plan.length hplanned fun _ => Nat.le_refl _
  unfold Work.placeBody
  split
  · rename_i hcond
    obtain ⟨hcollapse, hsource⟩ := hcond
    rw [h.collapse_eq] at hcollapse
    -- Under a hash that was met before, the body is led to the place it has.
    split
    · rename_i id hid
      refine ⟨[], by rwa [List.append_nil], ?_⟩
      rw [List.append_nil]
      -- The place is one of an earlier load, or one that this load has planned.
      rcases h.placed _ _ hid with hold | ⟨c, j, hdigest, hc, hplan, rfl⟩
      · exact .old id hcollapse hsource hold
      · obtain rfl := distinct hcollapse c body hc (hbody.1 hsource) hdigest
        exact .new j hplan fun hfalse => by rw [hcollapse] at hfalse; cases hfalse
    · -- The cell is met for the first time: it takes a new place, and its hash leads there from now
      -- on.
      refine ⟨[body.toSlice], ⟨⟨hdeferred.collapse_eq, hdeferred.size_eq, hdeferred.kept, ?_,
        hdeferred.inside⟩, hdeferred.pending, hdeferred.decoded⟩, hnew⟩
      intro d id hid
      dsimp only at hid
      -- Under the hash of the body stands the new place; the other hashes lead to where they led.
      rw [Std.HashMap.getElem?_insert] at hid
      split at hid
      · rename_i hd
        cases hid
        exact .inr ⟨body, plan.length, eq_of_beq hd, hbody.1 hsource, hplanned, h.size_eq⟩
      · exact hdeferred.placed d id hid
  · -- Without collapsing, or without a reference of its own, the body always takes a new place.
    exact ⟨[body.toSlice], hdeferred, hnew⟩

/-- Every operand is placed by the plan. -/
theorem Follows.placeAll (w : Work) (plan : List Slice) (operands : List (Operand Cell))
    (distinct : start.collapse = true → ∀ c d, has c → has d → c.digest = d.digest → c = d)
    (h : w.Follows start has plan busy) (hinside : ∀ o ∈ operands, o.Inside has) :
    ∃ more, (w.placeAll operands).2.Follows start has (plan ++ more) busy ∧
      List.Forall₂ (Operand.Placed (Leads start (plan ++ more) plan.length)) operands
        (w.placeAll operands).1 := by
  -- Induction on the operands: each one adds to the plan, if at all, and the rest starts from the
  -- longer plan.
  induction operands generalizing w plan with
  | nil => exact ⟨[], by rwa [List.append_nil], .nil⟩
  | cons operand operands ih =>
    have hfirst : ∃ more, (w.place operand).2.Follows start has (plan ++ more) busy ∧
        operand.Placed (Leads start (plan ++ more) plan.length) (w.place operand).1 := by
      -- Only nested code takes a place, so in the other cases nothing is added to the plan.
      cases operand with
      | integer v => exact ⟨[], by rwa [List.append_nil], .integer v⟩
      | stack i => exact ⟨[], by rwa [List.append_nil], .stack i⟩
      | control i => exact ⟨[], by rwa [List.append_nil], .control i⟩
      | bits b => exact ⟨[], by rwa [List.append_nil], .bits b⟩
      | cell c => exact ⟨[], by rwa [List.append_nil], .cell c⟩
      | code body source =>
        obtain ⟨more, hfollows, hleads⟩ :=
          h.placeBody w plan body source distinct (hinside _ (List.mem_cons_self ..))
        exact ⟨more, hfollows, .code hleads⟩
      | marker => exact ⟨[], by rwa [List.append_nil], .marker⟩
    obtain ⟨more₁, hfollows₁, hplaced₁⟩ := hfirst
    obtain ⟨more₂, hfollows₂, hplaced₂⟩ :=
      ih (w.place operand).2 (plan ++ more₁) hfollows₁
        (fun o ho => hinside o (List.mem_cons_of_mem _ ho))
    -- The plan is only added to, so the first operand keeps its place.
    rw [List.append_assoc] at hfollows₂ hplaced₂
    refine ⟨more₁ ++ more₂, hfollows₂, .cons ?_ ?_⟩
    · apply Operand.Placed.imp _ _ _ hplaced₁
      intro body source k hleads
      rw [← List.append_assoc]
      exact hleads.append more₂
    · -- The places of the rest are not below the longer plan, so they are not below the one of the
      -- start.
      apply hplaced₂.imp (Operand.Placed.imp (Leads.mono _))
      rw [List.length_append]
      omega

/-- Every instruction is placed by the plan. -/
theorem Follows.placeCode (w : Work) (plan : List Slice) (is : List (Instruction Cell))
    (distinct : start.collapse = true → ∀ c d, has c → has d → c.digest = d.digest → c = d)
    (h : w.Follows start has plan busy) (hinside : ∀ i ∈ is, i.Inside has) :
    ∃ more, (w.placeCode is).2.Follows start has (plan ++ more) busy ∧
      List.Forall₂ (Instruction.Placed (Leads start (plan ++ more) plan.length)) is
        (w.placeCode is).1 := by
  -- Induction on the instructions, as in `placeAll` on the operands.
  induction is generalizing w plan with
  | nil => exact ⟨[], by rwa [List.append_nil], .nil⟩
  | cons i is ih =>
    obtain ⟨more₁, hfollows₁, hplaced₁⟩ :=
      h.placeAll w plan i.operands distinct (hinside i (List.mem_cons_self ..))
    obtain ⟨more₂, hfollows₂, hplaced₂⟩ :=
      ih (w.placeAll i.operands).2 (plan ++ more₁) hfollows₁
        (fun j hj => hinside j (List.mem_cons_of_mem _ hj))
    rw [List.append_assoc] at hfollows₂ hplaced₂
    refine ⟨more₁ ++ more₂, hfollows₂, .cons ⟨rfl, ?_⟩ ?_⟩
    · -- What the first instruction was led to is still in the plan when the rest has added to it.
      apply hplaced₁.imp (Operand.Placed.imp _)
      intro body source k hleads
      rw [← List.append_assoc]
      exact hleads.append more₂
    · apply hplaced₂.imp (Instruction.Placed.imp (Leads.mono _))
      rw [List.length_append]
      omega

/-- The code of the place that was busy is put where the plan wants it. -/
theorem Follows.fill (w : Work) (plan : List Slice) (j : Nat) (code : Code)
    (h : w.Follows start has plan [start.store.size + j])
    (hcode : (w.loader.store.set (start.store.size + j) code).Follows start plan j) :
    (w.fill (start.store.size + j) code).Follows start has plan [] where
  toExtends := h.toExtends.fill w plan j code
  pending := h.pending
  decoded := by
    intro j' hj' _ hwaits
    -- The busy place has its code now. The other ones are as they were before.
    by_cases heq : j' = j
    · rw [heq]
      exact hcode
    · have hne : start.store.size + j ≠ start.store.size + j' := by omega
      exact (h.decoded j' hj' (by simpa using heq) hwaits).congr (CodeStore.get_set_ne _ _ _ _ hne)

/-- One code is decoded and the codes nested in it wait. -/
theorem run_cons (l : Loader) (id : CodeId) (s : Slice) (pending : List (CodeId × Slice))
    (is : List (Instruction Cell)) (h : Decode.scan s = ⟨is, none⟩) :
    run ⟨l, (id, s) :: pending⟩ =
      run ((placeCode ⟨l, pending⟩ is).2.fill id (placeCode ⟨l, pending⟩ is).1) := by
  rw [run]
  simp only [h]

/-- A code that cannot be decoded ends the work; what was read of it has its places. -/
theorem run_cons_failed (l : Loader) (id : CodeId) (s : Slice) (pending : List (CodeId × Slice))
    (is : List (Instruction Cell)) (e : DecodeError) (operands : List (Operand Cell))
    (h : Decode.scan s = ⟨is, some (e, operands)⟩) :
    run ⟨l, (id, s) :: pending⟩ =
      ((((placeCode ⟨l, pending⟩ is).2.placeAll operands).2.fill id
        (placeCode ⟨l, pending⟩ is).1).loader, some e) := by
  rw [run]
  simp only [h]

/-- Taking up what waits in front makes its place busy. -/
theorem Follows.takeUp (w : Work) (plan : List Slice) (id : CodeId) (s : Slice)
    (pending : List (CodeId × Slice)) (h : w.Follows start has plan [])
    (hpending : w.pending = (id, s) :: pending) :
    ({ w with pending := pending } : Work).Follows start has plan [id] where
  toExtends := h.toExtends
  pending := by
    intro p hp
    exact h.pending p (by rw [hpending]; exact List.mem_cons_of_mem _ hp)
  decoded := by
    intro j hj hne hwaits
    -- The place that was waiting is the busy one now, so the rest of the assumption stays as it is.
    apply h.decoded j hj nofun
    rw [hpending]
    simp only [List.map_cons, List.mem_cons, not_or]
    exact ⟨by simpa using hne, hwaits⟩

/-- The work leaves a loader with new places by a plan. When it ends without an error, every new
    place holds what the plan says. -/
theorem run_extends (w : Work) (plan : List Slice) (below : ∀ c, has c → ∀ r ∈ c.refs, has r)
    (distinct : start.collapse = true → ∀ c d, has c → has d → c.digest = d.digest → c = d)
    (h : w.Follows start has plan []) :
    ∃ more, (run w).1.Extends start has (plan ++ more) ∧
      ((run w).2 = none → ∀ j < (plan ++ more).length,
        (run w).1.store.Follows start (plan ++ more) j) := by
  -- Induction along the work: nothing waits, the next code is complete, or it cannot be decoded.
  fun_induction run w generalizing plan with
  | case1 w hpending =>
    -- Nothing waits and nothing is busy, so every place has what the plan says.
    refine ⟨[], by rw [List.append_nil]; exact h.toExtends, ?_⟩
    intro _ j hj
    rw [List.append_nil] at hj ⊢
    exact h.decoded j hj nofun (by rw [hpending]; exact nofun)
  | case2 w id s pending hpending scanned placed hfailure ih =>
    -- What waits in front has a place `j` of the plan, which is busy until its code is filled in.
    obtain ⟨j, hs, rfl⟩ := h.pending (id, s) (by rw [hpending]; exact List.mem_cons_self ..)
    obtain ⟨hj, _⟩ := List.getElem?_eq_some_iff.mp hs
    have hinside : ∀ i ∈ scanned.instructions, i.Inside has :=
      Decode.scan_inside s has below (h.inside s (List.mem_of_getElem? hs))
    obtain ⟨more, hfollows, hplaced⟩ := (h.takeUp w plan _ s pending hpending).placeCode _ plan
      scanned.instructions distinct hinside
    -- The scanned code is complete, so it may be put into its place.
    have hcode : (placed.2.loader.store.set (start.store.size + j) placed.1).Follows start
        (plan ++ more) j := by
      refine ⟨s, scanned.instructions, getElem?_append_of_some _ _ _ _ hs, ?_, ?_⟩
      · simp only [Decode.instructions?, scanned] at hfailure ⊢
        rw [hfailure]
        rfl
      · have hplace : start.store.size + j < placed.2.loader.store.size := by
          rw [hfollows.size_eq, List.length_append]
          omega
        rw [CodeStore.get_set_self _ _ _ hplace]
        -- Bodies are led behind the place `j`, because the plan was longer than `j` before they
        -- were placed.
        exact hplaced.imp (Instruction.Placed.imp (Leads.mono hj))
    obtain ⟨more', hextends, hall⟩ := ih (plan ++ more) (hfollows.fill _ _ j _ hcode)
    rw [List.append_assoc] at hextends hall
    exact ⟨more ++ more', hextends, hall⟩
  | case3 w id s pending hpending scanned placed e operands hfailure =>
    obtain ⟨j, hs, rfl⟩ := h.pending (id, s) (by rw [hpending]; exact List.mem_cons_self ..)
    -- The load has failed: the claim on the codes is empty, but the loader still has what it had.
    have hrefs := h.inside s (List.mem_of_getElem? hs)
    obtain ⟨more, hfollows, _⟩ := (h.takeUp w plan _ s pending hpending).placeCode _ plan
      scanned.instructions distinct (Decode.scan_inside s has below hrefs)
    obtain ⟨more', hfollows', _⟩ := hfollows.placeAll _ _ operands distinct
      (Decode.scan_failure_inside s has below hrefs e operands hfailure)
    rw [List.append_assoc] at hfollows'
    exact ⟨more ++ more', hfollows'.toExtends.fill _ _ j _, nofun⟩

end Loader.Work

/-! ## The program of a plan -/

/-- Members that are kept on both sides stay related. -/
private theorem forall₂_filter {α β : Type} {r : α → β → Prop} (p : α → Bool) (q : β → Bool)
    (h : ∀ a b, r a b → p a = q b) (as : List α) (bs : List β) (hr : List.Forall₂ r as bs) :
    List.Forall₂ (fun a b => p a ∧ r a b) (as.filter p) (bs.filter q) := by
  induction hr with
  | nil => exact .nil
  -- Both sides keep the same members, because `p` and `q` agree on related ones.
  | @cons a b as bs hab _ ih =>
    rw [List.filter_cons, List.filter_cons, ← h a b hab]
    split
    · rename_i hp
      exact .cons ⟨hp, hab⟩ ih
    · exact ih

/-- A member of a list of numbers is not above their sum. -/
private theorem le_sum_of_mem (n : Nat) (ns : List Nat) (h : n ∈ ns) : n ≤ ns.sum := by
  -- Induction on the list: a member stands in front or is in the rest.
  induction ns with
  | nil => cases h
  | cons m ns ih =>
    rw [List.sum_cons]
    rcases List.mem_cons.mp h with rfl | h
    · omega
    · have := ih h
      omega

namespace Decode

/-- The instructions of a slice are those that scanning finds when it does not fail. -/
theorem instructions?_eq_some (s : Slice) (is : List (Instruction Cell)) :
    instructions? s = some is ↔ (scan s).failure = none ∧ (scan s).instructions = is := by
  unfold instructions?
  split
  · rename_i h
    rw [Option.isNone_iff_eq_none.mp h, Option.some.injEq]
    simp
  · rename_i h
    constructor
    · intro h'; cases h'
    · rintro ⟨h', _⟩
      rw [h'] at h
      exact absurd rfl h

/-- Code nested in a code is smaller than the slice of the code. -/
theorem size_body_lt (s : Slice) (is : List (Instruction Cell)) (i : Instruction Cell)
    (body : Cell) (source : Option Cell) (his : instructions? s = some is) (hi : i ∈ is)
    (hbody : .code body source ∈ i.operands) : body.size < s.size := by
  obtain ⟨_, rfl⟩ := (instructions?_eq_some s is).mp his
  -- The body is counted with its operand, the operand with its instruction, and the slice has more
  -- than all of them.
  have h1 : body.size ≤ bodySize i :=
    le_sum_of_mem _ _ (List.mem_map_of_mem (f := Operand.bodySize) hbody)
  have h2 : bodySize i ≤ ((scan s).instructions.map bodySize).sum :=
    le_sum_of_mem _ _ (List.mem_map_of_mem hi)
  have h3 := scan_bodySize s
  omega

end Decode

/-- Placed instructions and those they were placed for are one program, if the nested codes
    are. -/
private theorem exists_program {leads : Cell → Option Cell → CodeId → Prop}
    (shows : Program → Cell → Prop) (holds : Program → CodeId → Prop) (is : List (Instruction Cell))
    (code : Code) (h : List.Forall₂ (Instruction.Placed leads) is code)
    (hbodies : ∀ i ∈ is, ∀ body source, .code body source ∈ i.operands → ∀ k,
      leads body source k → ∃ p, shows p body ∧ holds p k) :
    ∃ p, List.Forall₂ (Program.Instruction.Is shows) p is ∧
      List.Forall₂ (Program.Instruction.Is holds) p code := by
  -- Instruction by instruction: what is known of its bodies is carried along with its placement.
  refine forall₂_exists ?_ is code ((List.forall₂_and_left _ _).mpr ⟨hbodies, h⟩)
  rintro ⟨name, operands⟩ ⟨name', operands'⟩ ⟨hi, hname, hplaced⟩
  -- Markers are left out on both sides, and placing keeps them.
  have hmarkers (o : Operand Cell) (o' : Operand CodeId)
      (ho : (∀ body source, o = .code body source → ∀ k, leads body source k →
        ∃ p, shows p body ∧ holds p k) ∧ o.Placed leads o') : (!o.isMarker) = (!o'.isMarker) := by
    cases ho.2 <;> rfl
  -- So the operands that are left still correspond, and one program operand is found for each pair.
  have hkept := forall₂_filter _ _ hmarkers _ _ ((List.forall₂_and_left _ _).mpr
    ⟨fun o ho body source heq => hi body source (heq ▸ ho), hplaced⟩)
  obtain ⟨ps, hps, hps'⟩ := forall₂_exists (s := Program.Operand.Is shows)
    (t := Program.Operand.Is holds) (by
      rintro o o' ⟨hplain, hsub, ho⟩
      cases ho with
      | integer v => exact ⟨.integer v, .integer v, .integer v⟩
      | stack i => exact ⟨.stack i, .stack i, .stack i⟩
      | control i => exact ⟨.control i, .control i, .control i⟩
      | bits b => exact ⟨.bits b, .bits b, .bits b⟩
      | cell c => exact ⟨.cell c, .cell c, .cell c⟩
      | @code body source k hleads =>
        obtain ⟨p, hshows, hholds⟩ := hsub body source rfl k hleads
        exact ⟨.code p, .code source hshows, .code source hholds⟩
      | marker => cases hplain) _ _ hkept
  exact ⟨.mk name ps, ⟨rfl, hps⟩, ⟨hname, hps'⟩⟩

namespace CodeStore

/-- The code of a place that there is. -/
def code? (store : CodeStore) (id : CodeId) : Option Code :=
  if id < store.size then some (store.get id) else none

/-- The store has this program in a place, and only places that there are lead to it. -/
def Has (store : CodeStore) (id : CodeId) (program : Program) : Prop :=
  ∃ code, store.code? id = some code ∧ Program.Unfolds store.code? program code

/-- A place has the code that the store holds there, if there is the place. -/
theorem code?_eq_some (store : CodeStore) (id : CodeId) (code : Code) :
    store.code? id = some code ↔ id < store.size ∧ store.get id = code := by
  simp [code?]

/-- A store has a program in a place if its instructions have it, and nested codes have the nested
    programs. -/
theorem has_iff (store : CodeStore) (id : CodeId) (p : Program) :
    store.Has id p ↔ id < store.size ∧
      List.Forall₂ (Program.Instruction.Is fun body k => store.Has k body) p (store.get id) := by
  constructor
  · rintro ⟨code, hcode, hunfolds⟩
    obtain ⟨hlt, rfl⟩ := (store.code?_eq_some id code).mp hcode
    exact ⟨hlt, (Program.unfolds_iff p _).mp hunfolds⟩
  · rintro ⟨hlt, h⟩
    exact ⟨_, (store.code?_eq_some id _).mpr ⟨hlt, rfl⟩, (Program.unfolds_iff p _).mpr h⟩

/-- A store that keeps the codes of another has its programs. -/
theorem Has.mono {store store' : CodeStore} {id : CodeId} {p : Program} (h : store.Has id p)
    (hsize : store.size ≤ store'.size) (hkept : ∀ k < store.size, store'.get k = store.get k) :
    store'.Has id p := by
  -- Every place of `store` is one of `store'`, with the same code.
  have hcode (k : CodeId) (code : Code) (hk : store.code? k = some code) :
      store'.code? k = some code := by
    obtain ⟨hlt, rfl⟩ := (store.code?_eq_some k code).mp hk
    exact (store'.code?_eq_some k _).mpr ⟨Nat.lt_of_lt_of_le hlt hsize, hkept k hlt⟩
  obtain ⟨code, hk, hunfolds⟩ := h
  refine ⟨code, hcode id code hk, ?_⟩
  clear hk
  -- Induction on the unfolding: what it enters is a place of `store`, so `store'` has the same code
  -- there.
  induction hunfolds with
  | intro same entered _ instructions ih =>
    refine .intro same ?_ ?_ instructions
    · intro body k hsame
      obtain ⟨code, hk⟩ := Option.isSome_iff_exists.mp (entered body k hsame)
      rw [hcode k code hk]
      rfl
    · intro body k hsame code' hk'
      obtain ⟨code, hk⟩ := Option.isSome_iff_exists.mp (entered body k hsame)
      cases (hcode k code hk).symm.trans hk'
      exact ih body k hsame _ hk

/-- A program that a store has in a place is what the place holds. -/
theorem Has.holds {store : CodeStore} {id : CodeId} {p : Program} (h : store.Has id p) :
    store.Holds id p := by
  obtain ⟨code, hk, hunfolds⟩ := h
  obtain ⟨_, rfl⟩ := (store.code?_eq_some id code).mp hk
  rw [Holds]
  clear hk
  -- Induction on the unfolding, for any code: `Holds` looks codes up without asking whether there
  -- is the place, so here the answer of `code?` is turned into that of `get`.
  generalize store.get id = code at hunfolds ⊢
  induction hunfolds with
  | intro same entered _ instructions ih =>
    refine .intro same (fun _ _ _ => rfl) ?_ instructions
    intro body k hsame code' hk'
    cases hk'
    obtain ⟨code, hk⟩ := Option.isSome_iff_exists.mp (entered body k hsame)
    obtain ⟨_, rfl⟩ := (store.code?_eq_some k code).mp hk
    exact ih body k hsame _ hk

/-- Every place that follows a plan has the program that its slice shows, if old places have the
    programs of the cells they were given to. Only cells with a property matter that all below
    the slice have. -/
theorem has_of_follows (store : CodeStore) (start : Loader) (plan : List Slice)
    (clear : Cell → Prop) (below : ∀ c, clear c → ∀ r ∈ c.refs, clear r)
    (hsize : store.size = start.store.size + plan.length)
    (hold : start.collapse = true → ∀ body k, clear body →
      start.placed[body.digest]? = some k → ∃ p, body.toSlice.Decodes p ∧ store.Has k p)
    (hall : ∀ j < plan.length, store.Follows start plan j) (j : Nat) (s : Slice)
    (hs : plan[j]? = some s) (hclear : ∀ r ∈ s.refs, clear r) :
    ∃ p, s.Decodes p ∧ store.Has (start.store.size + j) p := by
  -- Nested code is smaller than the code it is nested in.
  induction hn : s.size using Nat.strongRecOn generalizing j s with
  | ind n ih =>
    obtain ⟨hj, _⟩ := List.getElem?_eq_some_iff.mp hs
    obtain ⟨s', is, hs', his, hcode⟩ := hall j hj
    obtain rfl := Option.some.inj (hs.symm.trans hs')
    -- The code of place `j` is what scanning its slice gives, with places for the nested codes.
    obtain ⟨_, rfl⟩ := (Decode.instructions?_eq_some s is).mp his
    obtain ⟨p, hshows, hhas⟩ := exists_program (fun p c => c.toSlice.Decodes p)
      (fun p k => store.Has k p) _ _ hcode (by
        intro i hi body source hbody k hleads
        have hinside := Decode.scan_inside s clear below hclear i hi _ hbody
        -- A nested code has a new place, which is the case of a smaller slice, or an old one, of
        -- which `hold` knows the program.
        cases hleads with
        | new j' planned _ =>
          have hlt := Decode.size_body_lt s _ i body source his hi hbody
          exact ih body.toSlice.size (by rw [Slice.size_toSlice]; omega) j' body.toSlice planned
            (by rw [Slice.refs_toSlice]; exact hinside.2) rfl
        | old _ collapse shared placed => exact hold collapse body k (hinside.1 shared) placed)
    have hlt : start.store.size + j < store.size := by
      rw [hsize]
      omega
    exact ⟨p, (s.decodes_iff p).mpr ⟨_, his, hshows⟩, (store.has_iff _ p).mpr ⟨hlt, hhas⟩⟩

end CodeStore

/-! ## Loading a slice -/

/-- Every nested code has a place behind that of the code it is nested in. -/
def CodeStore.Ordered (store : CodeStore) : Prop :=
  ∀ id, ∀ k ∈ (store.get id).bodies, id < k ∧ k < store.size

/-- What loading makes sure of: a place for the root, an order of places unless codes were
    collapsed, and no marks. -/
structure CodeStore.Loaded (store : CodeStore) (collapse : Bool) (root : CodeId) : Prop where
  root_lt : root < store.size
  ordered : collapse = false → store.Ordered
  unmarked : ∀ id, ∀ i ∈ store.get id, i.isMarked = false

/-- Behind the last place there is no code. -/
theorem CodeStore.get_of_le (store : CodeStore) (id : CodeId) (h : store.size ≤ id) :
    store.get id = [] := by
  have hout : ¬ id < store.codes.size := Nat.not_lt.mpr h
  simp [get, Array.getD, hout]

/-- The places of nested codes are those that the plan leads to. -/
private theorem leads_of_mem_bodies {leads : Cell → Option Cell → CodeId → Prop}
    (is : List (Instruction Cell)) (code : Code)
    (h : List.Forall₂ (Instruction.Placed leads) is code) (k : CodeId) (hk : k ∈ code.bodies) :
    ∃ body source, leads body source k := by
  -- The body is the code of an operand of an instruction, and so is what it was placed for.
  obtain ⟨j, hj, hk⟩ := List.mem_flatMap.mp hk
  obtain ⟨o, ho, hk⟩ := List.mem_filterMap.mp hk
  obtain ⟨i, _, hplaced⟩ := forall₂_mem_right is code h j hj
  obtain ⟨o', _, hplaced⟩ := forall₂_mem_right _ _ hplaced.operands o ho
  cases hplaced with
  | code hleads =>
    cases hk
    exact ⟨_, _, hleads⟩
  | _ => cases hk

/-- Places that follow a plan without collapsing are ordered. -/
theorem CodeStore.ordered_of_follows (store : CodeStore) (plan : List Slice)
    (hsize : store.size = plan.length)
    (hall : ∀ id < plan.length, store.Follows (Loader.new false) plan id) : store.Ordered := by
  have hbase (id : Nat) : (Loader.new false).store.size + id = id := Nat.zero_add id
  intro id k hk
  -- A place of the plan leads further on. Behind the plan there is no code at all.
  by_cases hid : id < plan.length
  · obtain ⟨s, is, _, _, hcode⟩ := hall id hid
    rw [hbase] at hcode
    obtain ⟨body, source, hleads⟩ := leads_of_mem_bodies is _ hcode k hk
    cases hleads with
    | new j planned behind =>
      obtain ⟨hlt, _⟩ := List.getElem?_eq_some_iff.mp planned
      rw [hbase, hsize]
      exact ⟨behind rfl, hlt⟩
    -- Without collapsing no place of an earlier load is used.
    | old _ collapse _ _ => cases collapse
  · rw [store.get_of_le id (by rw [hsize]; exact Nat.not_lt.mp hid)] at hk
    cases hk

/-- Decoding marks nothing, and neither does placing what was decoded. -/
theorem CodeStore.unmarked_of_follows (store : CodeStore) (collapse : Bool) (plan : List Slice)
    (hsize : store.size = plan.length)
    (hall : ∀ id < plan.length, store.Follows (Loader.new collapse) plan id) (id : CodeId)
    (i : Instruction CodeId) (hi : i ∈ store.get id) : i.isMarked = false := by
  -- A place of the plan has decoded instructions. Behind the plan there are none.
  by_cases hid : id < plan.length
  · obtain ⟨s, is, _, his, hcode⟩ := hall id hid
    rw [show (Loader.new collapse).store.size + id = id from Nat.zero_add id] at hcode
    obtain ⟨_, rfl⟩ := (Decode.instructions?_eq_some s is).mp his
    obtain ⟨j, hj, hplaced⟩ := forall₂_mem_right _ _ hcode i hi
    obtain ⟨_, _, _, hsuits⟩ := Decode.scan_formed s j hj
    refine List.any_eq_false.mpr ?_
    intro o ho
    -- The operand was placed for one that some field of the instruction's format yields, and no
    -- field yields a marker.
    obtain ⟨o', ho', hoo'⟩ := forall₂_mem_right _ _ hplaced.operands o ho
    obtain ⟨field, _, taken, hyields⟩ := forall₂_mem_right _ _ hsuits o' ho'
    cases hoo' with
    | marker => cases hyields
    | _ => exact Bool.false_ne_true
  · rw [store.get_of_le id (by rw [hsize]; exact Nat.not_lt.mp hid)] at hi
    cases hi

namespace Loader

/-- The work of a load, when it starts. -/
def begin (l : Loader) (s : Slice) : Work :=
  ⟨{ l with store := l.store.push [] }, [(l.store.size, s)]⟩

/-- A load is what becomes of the work. -/
theorem load_eq (l : Loader) (s : Slice) :
    l.load s = ((Work.run (l.begin s)).1, match (Work.run (l.begin s)).2 with
      | none => .ok l.store.size
      | some e => .error e) := by
  -- Both sides run the same work and differ in how they name what failed.
  rw [load, begin]
  cases Work.run ⟨{ l with store := l.store.push [] }, [(l.store.size, s)]⟩ with
  | mk l' failure => cases failure <;> rfl

/-- A load that starts follows the plan that has just its slice. -/
theorem follows_begin (l : Loader) (s : Slice) (has : Cell → Prop) (hs : ∀ r ∈ s.refs, has r) :
    (l.begin s).Follows l has [s] [] where
  collapse_eq := rfl
  size_eq := CodeStore.size_push ..
  kept := fun id hid => CodeStore.get_push _ _ _ hid
  placed := fun d id hid => .inl hid
  inside := by
    intro s' hs' r hr
    obtain rfl := List.mem_singleton.mp hs'
    exact hs r hr
  pending := by
    intro p hp
    obtain rfl := List.mem_singleton.mp hp
    exact ⟨0, rfl, rfl⟩
  decoded := by
    -- The only place of the plan is the one that waits.
    intro j hj _ hwaits
    have hzero : j = 0 := by simpa using hj
    rw [hzero] at hwaits
    exact absurd (List.mem_singleton.mpr rfl) hwaits

/-- A load leaves what there was and adds places by a plan that starts with its slice. If it
    succeeds, its root is the first of them and all of them hold what the plan says. -/
theorem load_extends (l : Loader) (s : Slice) (has : Cell → Prop)
    (below : ∀ c, has c → ∀ r ∈ c.refs, has r) (hs : ∀ r ∈ s.refs, has r)
    (distinct : l.collapse = true → ∀ c d, has c → has d → c.digest = d.digest → c = d) :
    ∃ more, (l.load s).1.Extends l has (s :: more) ∧
      ∀ root, (l.load s).2 = .ok root → root = l.store.size ∧
        ∀ j < (s :: more).length, (l.load s).1.store.Follows l (s :: more) j := by
  -- The work starts with the plan `[s]`, and what it adds to the plan is `more`.
  obtain ⟨more, hextends, hall⟩ :=
    Work.run_extends (l.begin s) [s] below distinct (l.follows_begin s has hs)
  rw [load_eq]
  refine ⟨more, hextends, ?_⟩
  intro root hroot
  cases hfailure : (Work.run (l.begin s)).2 with
  | some e => simp [hfailure] at hroot
  | none =>
    rw [hfailure] at hroot
    cases hroot
    exact ⟨rfl, hall hfailure⟩

end Loader

/-- A slice is loaded by a new loader. -/
theorem loadCode_eq_ok (s : Slice) (collapse : Bool) (store : CodeStore) (root : CodeId) :
    loadCode s collapse = .ok (store, root) ↔
      ((Loader.new collapse).load s).2 = .ok root ∧
        ((Loader.new collapse).load s).1.store = store := by
  rw [loadCode]
  cases (Loader.new collapse).load s with
  | mk l result =>
    cases result with
    | error e => simp [Except.map]
    | ok id => simp [Except.map, and_comm]

/-- Instructions without operands take no places. -/
theorem Loader.Work.placeCode_names (w : Loader.Work) (names : List String) :
    w.placeCode (names.map fun name => ⟨name, []⟩) = (names.map fun name => ⟨name, []⟩, w) := by
  induction names generalizing w with
  | nil => rfl
  | cons name names ih => rw [List.map_cons, placeCode, placeAll, ih, List.map_cons]

/-- Instructions without operands are loaded as they are decoded. -/
theorem loadCode_of_names (s : Slice) (collapse : Bool) (names : List String)
    (h : Decode.scan s = ⟨names.map fun name => ⟨name, []⟩, none⟩) :
    loadCode s collapse = .ok (⟨#[names.map fun name => ⟨name, []⟩]⟩, 0) := by
  rw [loadCode, Loader.load, Loader.Work.run_cons _ _ _ _ _ h, Loader.Work.placeCode_names]
  -- Nothing waits any more, so the work is done.
  rw [Loader.Work.run]
  rfl

/-- A loaded store has the program that the slice shows. When codes were collapsed, no two
    different cells below the slice may share a digest. -/
theorem loadCode_holds (s : Slice) (collapse : Bool) (has : Cell → Prop) (store : CodeStore)
    (root : CodeId) (below : ∀ c, has c → ∀ r ∈ c.refs, has r) (hs : ∀ r ∈ s.refs, has r)
    (distinct : collapse = true → ∀ c d, has c → has d → c.digest = d.digest → c = d)
    (h : loadCode s collapse = .ok (store, root)) :
    store.Loaded collapse root ∧ ∃ p, s.Decodes p ∧ store.Holds root p := by
  obtain ⟨hroot, rfl⟩ := (loadCode_eq_ok s collapse store root).mp h
  obtain ⟨more, hextends, hall⟩ := (Loader.new collapse).load_extends s has below hs distinct
  obtain ⟨rfl, hall⟩ := hall root hroot
  have hsize := hextends.size_eq
  rw [show (Loader.new collapse).store.size = 0 from rfl, Nat.zero_add] at hsize
  -- A new loader has no old places, so nothing is assumed of their programs.
  obtain ⟨p, hp, hhas⟩ := CodeStore.has_of_follows _ _ _ (fun _ => True)
    (fun _ _ _ _ => trivial) hextends.size_eq
    (fun _ body k _ hplaced => by simp [Loader.new] at hplaced) hall 0 s rfl
    (fun _ _ => trivial)
  -- The root is the first place, the places are ordered and nothing is marked.
  refine ⟨⟨?_, ?_, ?_⟩, p, hp, hhas.holds⟩
  · rw [hsize]
    simp [Loader.new, CodeStore.empty, CodeStore.size]
  · intro hcollapse
    subst hcollapse
    exact CodeStore.ordered_of_follows _ _ hsize hall
  · exact CodeStore.unmarked_of_follows _ collapse _ hsize hall

/-! ## Slices that can be loaded -/

/-- What waits after operands were placed waited before or is nested in them. -/
theorem pending_placeAll (w : Loader.Work) (operands : List (Operand Cell))
    (p : CodeId × Slice) (hp : p ∈ (w.placeAll operands).2.pending) :
    p ∈ w.pending ∨ ∃ body source, .code body source ∈ operands ∧ p.2 = body.toSlice := by
  -- Induction on the operands: what waits in the end waited after the first one, or is nested in
  -- the rest.
  induction operands generalizing w with
  | nil => exact .inl hp
  | cons operand operands ih =>
    rcases ih (w.place operand).2 hp with hp | ⟨body, source, hmem, heq⟩
    · cases operand with
      | code body source =>
        have hdefer (hp : p ∈ (w.defer body).pending) : p ∈ w.pending ∨ p.2 = body.toSlice := by
          rcases List.mem_cons.mp hp with rfl | hp
          · exact .inr rfl
          · exact .inl hp
        -- Only a body that is put off waits, and `placeBody` puts it off unless its hash has a
        -- place.
        have hplaced : p ∈ w.pending ∨ p.2 = body.toSlice := by
          simp only [Loader.Work.place, Loader.Work.placeBody] at hp
          split at hp
          · split at hp
            · exact .inl hp
            · exact hdefer hp
          · exact hdefer hp
        rcases hplaced with hp | heq
        · exact .inl hp
        · exact .inr ⟨body, source, List.mem_cons_self .., heq⟩
      | _ => exact .inl hp
    · exact .inr ⟨body, source, List.mem_cons_of_mem _ hmem, heq⟩

/-- What waits after a code was placed waited before or is nested in its instructions. -/
theorem pending_placeCode (w : Loader.Work) (is : List (Instruction Cell))
    (p : CodeId × Slice) (hp : p ∈ (w.placeCode is).2.pending) :
    p ∈ w.pending ∨ ∃ i ∈ is, ∃ body source, .code body source ∈ i.operands ∧
      p.2 = body.toSlice := by
  -- Induction on the instructions, each of which places its operands.
  induction is generalizing w with
  | nil => exact .inl hp
  | cons i is ih =>
    rcases ih (w.placeAll i.operands).2 hp with hp | ⟨j, hj, hbody⟩
    · rcases pending_placeAll w i.operands p hp with hp | hbody
      · exact .inl hp
      · exact .inr ⟨i, List.mem_cons_self .., hbody⟩
    · exact .inr ⟨j, List.mem_cons_of_mem _ hj, hbody⟩

/-- Code nested in a code that shows a program shows a program too. -/
theorem Slice.Decodes.body (s : Slice) (p : Program) (is : List (Instruction Cell))
    (i : Instruction Cell) (body : Cell) (source : Option Cell) (h : s.Decodes p)
    (his : Decode.instructions? s = some is) (hi : i ∈ is)
    (hbody : .code body source ∈ i.operands) : ∃ q, body.toSlice.Decodes q := by
  -- The body is an operand of an instruction of `is`, so the program has an operand for it.
  obtain ⟨is', his', hp⟩ := (s.decodes_iff p).mp h
  obtain rfl := Option.some.inj (his.symm.trans his')
  obtain ⟨j, _, hj⟩ := forall₂_mem_right p is hp i hi
  obtain ⟨o, _, ho⟩ := forall₂_mem_right _ _ hj.operands _ (List.mem_filter.mpr ⟨hbody, rfl⟩)
  cases ho with
  | code _ hq => exact ⟨_, hq⟩

/-- Work that waits for slices which show programs ends without an error. -/
private theorem run_of_decodes (w : Loader.Work) (h : ∀ p ∈ w.pending, ∃ q, p.2.Decodes q) :
    (Loader.Work.run w).2 = none := by
  -- The slice in front shows a program, so it can be decoded.
  have hscan (w : Loader.Work) (id : CodeId) (s : Slice) (pending : List (CodeId × Slice))
      (hpending : w.pending = (id, s) :: pending) (h : ∀ p ∈ w.pending, ∃ q, p.2.Decodes q) :
      (Decode.scan s).failure = none ∧ ∃ q, s.Decodes q := by
    obtain ⟨q, hq⟩ := h (id, s) (by rw [hpending]; exact List.mem_cons_self ..)
    have hdecodes := hq
    obtain ⟨is, his, _⟩ := hq
    exact ⟨((Decode.instructions?_eq_some s is).mp his).1, q, hdecodes⟩
  -- Induction along the work: what is put off is nested in what was decoded, so it shows a program
  -- too.
  fun_induction Loader.Work.run w with
  | case1 => rfl
  | case2 w id s pending hpending scanned placed hfailure ih =>
    apply ih
    intro p hp
    obtain ⟨_, q, hq⟩ := hscan w id s pending hpending h
    rcases pending_placeCode _ _ p hp with hp | ⟨i, hi, body, source, hbody, heq⟩
    · exact h p (by rw [hpending]; exact List.mem_cons_of_mem _ hp)
    · rw [heq]
      exact hq.body s q _ i body source
        ((Decode.instructions?_eq_some s _).mpr ⟨hfailure, rfl⟩) hi hbody
  -- The code in front shows a program, so it does not fail.
  | case3 w id s pending hpending scanned placed e operands hfailure =>
    have := (hscan w id s pending hpending h).1
    rw [this] at hfailure
    cases hfailure

/-- Whatever a loader has loaded before, it loads a slice that shows a program. -/
theorem Loader.load_of_decodes (l : Loader) (s : Slice) (p : Program) (h : s.Decodes p) :
    -- When a load starts, only its slice waits.
    (l.load s).2 = .ok l.store.size := by
  have hrun := run_of_decodes (l.begin s) (by
    intro q hq
    obtain rfl := List.mem_singleton.mp hq
    exact ⟨p, h⟩)
  rw [load_eq, hrun]

/-- A slice that shows a program can be loaded. -/
theorem loadCode_of_decodes (s : Slice) (collapse : Bool) (p : Program) (h : s.Decodes p) :
    ∃ store root, loadCode s collapse = .ok (store, root) :=
  ⟨_, _, (loadCode_eq_ok s collapse _ _).mpr ⟨(Loader.new collapse).load_of_decodes s p h, rfl⟩⟩

/-! ## Loading and unfolding agree -/

/-- A slice shows one program only. -/
theorem Slice.Decodes.eq (s : Slice) (p q : Program) (hp : s.Decodes p) (hq : s.Decodes q) :
    p = q := by
  obtain ⟨is, his, hp⟩ := hp
  obtain ⟨is', his', hq⟩ := hq
  obtain rfl := Option.some.inj (his.symm.trans his')
  exact Program.Unfolds.eq p q is hp hq

/-- Loading a slice that shows a program succeeds, and the store has this program. -/
theorem Slice.Decodes.load (s : Slice) (collapse : Bool) (p : Program) (h : s.Decodes p)
    (distinct : collapse = true → s.cell.DistinctDigests) :
    ∃ store root, loadCode s collapse = .ok (store, root) ∧ store.Loaded collapse root ∧
      store.Holds root p := by
  obtain ⟨store, root, hload⟩ := loadCode_of_decodes s collapse p h
  obtain ⟨hloaded, q, hq, hholds⟩ := loadCode_holds s collapse s.cell.Reaches store root
    (fun _ hc => hc.refs) s.reaches_of_mem_refs (fun hcollapse => distinct hcollapse) hload
  obtain rfl := h.eq s p q hq
  exact ⟨store, root, hload, hloaded, hholds⟩

end CellCode
