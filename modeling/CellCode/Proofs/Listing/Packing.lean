import CellCode.Listing.Assemble
import CellCode.Proofs.Packing.Alike

/-!
# Packing assembled items

An assembled item is a command: its bits and references, and a debug node that starts with the
item's position. Packing puts the commands of a listing into a chain of cells.

* `Command.write_eq_ok`   writing an item adds its command
* `holds_of_commands`     the chain they are written to holds the commands in order
* `pack_linked`           the cells of a packed listing hold its commands in order
* `pack_induct`           what holds of all commands holds of what they are packed into
* `pack_alike`            packing depends on bits and references only
* `pack_behind`           and not on bits before them that leave room
* `pack_blob_cons`        raw bits in front stay in front, and the links stay the same
-/

namespace CellCode.Listing

namespace Command

/-- The command of an item. -/
def fragment : Command → Fragment
  | blob bits position => ⟨⟨bits, []⟩, .ofPosition position⟩
  | instruction e position => ⟨⟨e.bits, e.refs⟩, (Debug.Node.ofPosition position).inlined 0 e.dbg⟩

/-- The debug node of an instruction has a child for each reference, if there are any. -/
def Shaped : Command → Prop
  | blob _ _ => True
  | instruction e _ => e.refs ≠ [] → e.refs.length = e.dbg.children.length

/-- The references of a command can be built. -/
def RefsBuild (command : Command) : Prop :=
  ∀ r ∈ command.fragment.builder.refs, r.Fits ∧ r.ShallowRefs

/-- Raw bits have no references that would have to be built. -/
theorem RefsBuild.blob (bits : Bits) (position : Debug.Position) : (blob bits position).RefsBuild :=
  nofun

/-- An item is written by adding its command, if its references can be built and its debug node
    has a child for each. -/
theorem write_eq_ok (c c' : Chain) (command : Command) (hlast : c.last.KeepsLink) :
    command.write c = .ok c' ↔
      command.Shaped ∧ command.RefsBuild ∧ c.Added command.fragment c' := by
  cases command with
  -- Raw bits have no children to be counted.
  | blob bits position =>
    rw [write, Chain.writeBits_eq_ok c c' bits _ hlast, Shaped, true_and,
      and_iff_right (RefsBuild.blob bits position)]
    rfl
  | instruction e position =>
    obtain ⟨bits, refs, dbg⟩ := e
    simp only [write, Shaped]
    -- An instruction without references is written as bits.
    split
    · rename_i hempty
      obtain rfl := List.isEmpty_iff.mp hempty
      rw [Chain.writeBits_eq_ok c c' bits _ hlast]
      simp [fragment, RefsBuild]
    · -- One with references is written with its children, whose number is checked.
      rename_i hrefs
      have hne : refs ≠ [] := fun h => hrefs (List.isEmpty_iff.mpr h)
      have hchildren :
          ((Debug.Node.ofPosition position).inlined 0 dbg).children = dbg.children := rfl
      have hcells : (refs.map Builder.ofCell).map Builder.cell = refs := by
        simp [Function.comp_def]
      have hbuild : (∀ r ∈ refs.map Builder.ofCell, r.Buildable) ↔
          RefsBuild (instruction ⟨bits, refs, dbg⟩ position) := by
        simp only [List.forall_mem_map, Builder.buildable_iff, Builder.cell_ofCell]
        rfl
      rw [Chain.writeComposite_eq_ok c c' bits _ _ hlast, hchildren, hcells, hbuild,
        List.length_map]
      constructor
      · rintro ⟨hlength, hadded⟩
        exact ⟨fun _ => hlength, hadded⟩
      · rintro ⟨hlength, hadded⟩
        exact ⟨hlength hne, hadded⟩

end Command

/-! ## Writing commands -/

/-- Commands are written by writing the first one and then the others. -/
theorem writes_cons_eq_ok (a : Command) (commands : List Command) (c chain : Chain)
    (hopen : c.Open) :
    (a :: commands).foldlM Command.write c = .ok chain ↔
      ∃ c₁, a.Shaped ∧ a.RefsBuild ∧ c.Added a.fragment c₁ ∧
        commands.foldlM Command.write c₁ = .ok chain := by
  simp only [foldlM_cons_eq_ok, Command.write_eq_ok c _ a (hopen _ (by simp)), and_assoc]

/-- A new chain in which commands were written holds them in order. -/
theorem holds_of_commands {commands : List Command} {chain : Chain}
    (h : commands.foldlM Command.write Chain.start = .ok chain) :
    ∃ runs run, chain.Holds runs run ∧
      runs.reverse.flatten ++ run = commands.map Command.fragment := by
  obtain ⟨runs, run, hholds, hcommands⟩ := Chain.holds_of_writes Command.write Command.fragment
    (fun c c' command hlast h => ((Command.write_eq_ok c c' command hlast).mp h).2.2)
    commands Chain.start chain [] [] Chain.holds_start h
  exact ⟨runs, run, hholds, by simpa using hcommands⟩

/-- A result about cells is passed on as it is. -/
theorem ofCellResult_eq_ok {α : Type} (x : Except CellError α) (a : α) :
    ofCellResult x = .ok a ↔ x = .ok a := by
  cases x <;> simp [ofCellResult]

/-- Packing comes down to writing the commands and folding the chain. -/
theorem pack_eq_ok (commands : List Command) (f : Fragment) :
    pack commands = .ok f ↔
      ∃ chain, commands.foldlM Command.write Chain.start = .ok chain ∧ chain.finalize = .ok f := by
  -- The errors are wrapped, and what succeeds is passed on.
  have hpack {α : Type} (x : Except PackError α) (a : α) : ofPackResult x = .ok a ↔ x = .ok a := by
    cases x <;> simp [ofPackResult]
  simp only [pack, bind_eq_ok, hpack, ofCellResult_eq_ok]

/-- The cells of a packed listing hold its commands in order, one run to a cell. -/
theorem pack_linked (commands : List Command) (f : Fragment) (h : pack commands = .ok f) :
    ∃ runs, runs.flatten = commands.map Command.fragment ∧ Fragment.Linked runs f := by
  obtain ⟨chain, hchain, hroot⟩ := (pack_eq_ok commands f).mp h
  -- Writing keeps the commands in runs, and folding keeps the runs.
  obtain ⟨runs, run, hholds, hcommands⟩ := holds_of_commands hchain
  obtain ⟨all, hall, hlinked⟩ := hholds.root_linked
  obtain ⟨_, rfl⟩ := (hholds.finalize_eq_ok f).mp hroot
  exact ⟨all, hall.trans hcommands, hlinked⟩

/-! ## What packing keeps -/

section Induct

variable (good : Fragment → Prop)
  (htake : ∀ f g, good f → good g → good (f.takeOver g))
  (hlink : ∀ f g, good f → good g → g.builder.Fits → good (f.linkTo g))

include htake in
/-- The units of a chain are good when the commands are. -/
private theorem writes_induct (commands : List Command) (c chain : Chain) (hopen : c.Open)
    (hc : ∀ unit ∈ c.last :: c.earlier, good unit) (hcommands : ∀ a ∈ commands, good a.fragment)
    (h : commands.foldlM Command.write c = .ok chain) :
    chain.Open ∧ ∀ unit ∈ chain.last :: chain.earlier, good unit := by
  -- Induction on the commands.
  induction commands generalizing c with
  | nil =>
    cases h
    exact ⟨hopen, hc⟩
  | cons a commands ih =>
    obtain ⟨c₁, _, _, hadded, hrest⟩ := (writes_cons_eq_ok a commands c chain hopen).mp h
    refine ih c₁ (hadded.isOpen hopen) ?_ (fun b hb => hcommands b (by simp [hb])) hrest
    intro unit hunit
    -- A unit was there before, or it is the one that took the command.
    cases hadded with
    | inside _ =>
      rcases List.mem_cons.mp hunit with rfl | hunit
      · exact htake _ _ (hc _ (by simp)) (hcommands a (by simp))
      · exact hc unit (List.mem_cons_of_mem _ hunit)
    | fresh _ hroom =>
      rcases List.mem_cons.mp hunit with rfl | hunit
      · exact hcommands a (by simp)
      · exact hc unit hunit

include htake hlink in
private theorem finalize_induct (c : Chain) (f : Fragment) (hopen : c.Open)
    (hc : ∀ unit ∈ c.last :: c.earlier, good unit) (h : c.finalize = .ok f) :
    good f ∧ f.builder.Fits := by
  -- Units are joined from the last one on, each by taking over or by a link.
  have hfold (earlier : List Fragment) (next : Fragment)
      (hearlier : ∀ unit ∈ earlier, unit.KeepsLink ∧ good unit)
      (hnext : good next ∧ next.builder.Fits)
      (h : earlier.foldlM (fun next unit => Chain.join unit next) next = .ok f) :
      good f ∧ f.builder.Fits := by
    induction earlier generalizing next with
    | nil =>
      cases h
      exact hnext
    | cons unit earlier ih =>
      obtain ⟨joined, hjoined, hrest⟩ := (foldlM_cons_eq_ok _ _ _ _ _).mp h
      obtain ⟨hroom, hunit⟩ := hearlier unit (by simp)
      refine ih joined (fun u hu => hearlier u (by simp [hu])) ?_ hrest
      obtain ⟨_, rfl⟩ := (Chain.join_eq_ok unit next joined hroom).mp hjoined
      unfold Fragment.joined
      split
      · rename_i hfits
        -- The unit takes over the cells behind it, for which it has room.
        exact ⟨htake _ _ hunit hnext.1, hfits⟩
      · -- It links to them, for which it has kept a reference.
        have hfits : (unit.linkTo next).builder.Fits :=
          ⟨hroom.1, by simpa [Fragment.linkTo] using Nat.succ_le_of_lt hroom.2⟩
        exact ⟨hlink _ _ hunit hnext.1 hnext.2, hfits⟩
  -- All units are good and have kept a reference, the last one with them.
  refine hfold c.earlier c.last ?_ ⟨hc _ (by simp), ?_⟩ h
  · intro unit hunit
    exact ⟨hopen unit (List.mem_cons_of_mem _ hunit), hc unit (List.mem_cons_of_mem _ hunit)⟩
  · have hlast := hopen c.last (by simp)
    exact ⟨hlast.1, Nat.le_of_lt hlast.2⟩

include htake hlink in
/-- What holds of all commands, and is kept when fragments are joined, holds of what the
    commands are packed into. -/
theorem pack_induct (hempty : good .empty) (commands : List Command) (f : Fragment)
    (hcommands : ∀ a ∈ commands, good a.fragment) (h : pack commands = .ok f) :
    good f ∧ f.builder.Fits := by
  obtain ⟨chain, hchain, hroot⟩ := (pack_eq_ok commands f).mp h
  obtain ⟨hopen, hunits⟩ := writes_induct good htake commands Chain.start chain
    Chain.holds_start.room (by simpa [Chain.start, Fragment.empty] using hempty) hcommands hchain
  exact finalize_induct good htake hlink chain f hopen hunits hroot

end Induct

/-! ## Packing the same again -/

/-- The commands hold the same bits and references. -/
def Command.Alike (a b : Command) : Prop := b.fragment.builder = a.fragment.builder ∧ b.Shaped

/-- The first unit only grows while commands are written. -/
private theorem firstBits_of_writes (commands : List Command) (c chain : Chain) (hopen : c.Open)
    (h : commands.foldlM Command.write c = .ok chain) : c.firstBits <+: chain.firstBits := by
  -- Induction on the commands: each write only adds to the first unit.
  induction commands generalizing c with
  | nil =>
    cases h
    exact List.prefix_rfl
  | cons a commands ih =>
    obtain ⟨c₁, _, _, hadded, hrest⟩ := (writes_cons_eq_ok a commands c chain hopen).mp h
    exact hadded.firstBits.trans (ih c₁ (hadded.isOpen hopen) hrest)

/-- Commands that hold the same are written alike, as long as the bits in front leave room. -/
private theorem writes_alike (front : Bits) (commands commands' : List Command)
    (c c' chain : Chain) (h : c.Alike front c')
    (hcommands : List.Forall₂ Command.Alike commands commands')
    (hchain : commands.foldlM Command.write c = .ok chain)
    (hroom : front.length + chain.firstBits.length ≤ Cell.maxBits) :
    ∃ chain', commands'.foldlM Command.write c' = .ok chain' ∧ chain.Alike front chain' := by
  -- Induction on the commands, with both chains along.
  induction hcommands generalizing c c' with
  | nil =>
    cases hchain
    exact ⟨c', rfl, h⟩
  | @cons a b commands commands' hab _ ih =>
    obtain ⟨c₁, _, hbuild, hadded, hrest⟩ :=
      (writes_cons_eq_ok a commands c chain h.isOpen).mp hchain
    -- What the first unit holds now it still holds in the end, so there is room for the bits in
    -- front.
    have hgrown := firstBits_of_writes commands c₁ chain (hadded.isOpen h.isOpen) hrest
    obtain ⟨c₁', hadded', halike⟩ := h.added hadded hab.1 (by
      have := hgrown.length_le
      omega)
    obtain ⟨chain', hchain', hall⟩ := ih c₁ c₁' halike hrest
    -- The references are the same, so they can be built as well.
    have hbuild' : b.RefsBuild := by rwa [Command.RefsBuild, hab.1]
    exact ⟨chain', (writes_cons_eq_ok b commands' c' chain' h.isOpen').mpr
      ⟨c₁', hab.2, hbuild', hadded', hchain'⟩, hall⟩

/-- Commands are packed behind the bits that a chain starts with as they were packed without
    them. -/
private theorem writes_finalize (front : Bits) (commands commands' : List Command) (c' : Chain)
    (f : Fragment) (h : Chain.start.Alike front c')
    (hcommands : List.Forall₂ Command.Alike commands commands') (hpack : pack commands = .ok f)
    (hroom : front.length + f.builder.bits.length ≤ Cell.maxBits) :
    ∃ chain' f', commands'.foldlM Command.write c' = .ok chain' ∧ chain'.finalize = .ok f' ∧
      f'.builder = f.builder.behind front := by
  obtain ⟨chain, hchain, hroot⟩ := (pack_eq_ok commands f).mp hpack
  have hopen : chain.Open :=
    (writes_induct (fun _ => True) (fun _ _ _ _ => trivial) commands _ chain
      Chain.holds_start.room (fun _ _ => trivial) (fun _ _ => trivial) hchain).1
  -- The first unit is not longer than the root's bits, so the bits in front fit there too.
  have hfirst := (Chain.firstBits_of_finalize chain f hopen hroot).length_le
  obtain ⟨chain', hchain', halike⟩ := writes_alike front commands commands' _ c' chain h hcommands
    hchain (by omega)
  obtain ⟨f', hf', hbuilder⟩ := halike.finalize f hroot hroom
  exact ⟨chain', f', hchain', hf', hbuilder⟩

/-- Packing depends on bits and references only. -/
theorem pack_alike (commands commands' : List Command) (f : Fragment)
    (hcommands : List.Forall₂ Command.Alike commands commands') (hpack : pack commands = .ok f) :
    ∃ f', pack commands' = .ok f' ∧ f'.builder = f.builder := by
  have hfits := (pack_induct (fun _ => True) (fun _ _ _ _ => trivial) (fun _ _ _ _ _ => trivial)
    trivial commands f (fun _ _ => trivial) hpack).2
  -- Without bits in front nothing has to fit beyond what has been packed.
  obtain ⟨chain', f', hchain', hf', hbuilder⟩ := writes_finalize [] commands commands' Chain.start f
    ⟨.first _ _ rfl, Chain.holds_start.room, Chain.holds_start.room⟩ hcommands hpack
    (by simpa using hfits.1)
  exact ⟨f', (pack_eq_ok commands' f').mpr ⟨chain', hchain', hf'⟩, hbuilder⟩

/-- Packing goes the same way behind bits that leave room for the first cell. -/
theorem pack_behind (front : Bits) (position : Debug.Position) (commands commands' : List Command)
    (f : Fragment) (hcommands : List.Forall₂ Command.Alike commands commands')
    (hpack : pack commands = .ok f)
    (hroom : front.length + f.builder.bits.length ≤ Cell.maxBits) :
    ∃ f', pack (.blob front position :: commands') = .ok f' ∧
      f'.builder = f.builder.behind front := by
  -- The blob fits into the first unit together with what was packed there.
  have hfront : (Chain.start.last.takeOver (Command.blob front position).fragment).KeepsLink :=
    ⟨by simpa [Chain.start, Fragment.takeOver, Command.fragment, Builder.empty] using
      Nat.le_of_add_right_le hroom, Nat.zero_lt_succ _⟩
  have hadded := Chain.Added.inside hfront
  obtain ⟨chain', f', hchain', hf', hbuilder⟩ := writes_finalize front commands commands' _ f
    ⟨.first _ _ (by
      simp [Chain.start, Fragment.takeOver, Command.fragment, Builder.empty, Builder.behind]),
      Chain.holds_start.room, hadded.isOpen Chain.holds_start.room⟩ hcommands hpack hroom
  have hwrites := (writes_cons_eq_ok (.blob front position) commands' Chain.start chain'
    Chain.holds_start.room).mpr ⟨_, trivial, .blob front position, hadded, hchain'⟩
  exact ⟨f', (pack_eq_ok _ f').mpr ⟨chain', hwrites, hf'⟩, hbuilder⟩

/-- Only commands of that shape are written. -/
private theorem shaped_of_writes (commands : List Command) (c chain : Chain) (hopen : c.Open)
    (h : commands.foldlM Command.write c = .ok chain) : ∀ a ∈ commands, a.Shaped := by
  -- Induction on the commands.
  induction commands generalizing c with
  | nil => nofun
  | cons a commands ih =>
    obtain ⟨c₁, hshaped, _, hadded, hrest⟩ := (writes_cons_eq_ok a commands c chain hopen).mp h
    rw [List.forall_mem_cons]
    exact ⟨hshaped, ih c₁ (hadded.isOpen hopen) hrest⟩

/-- Packing commutes with raw bits in front. Where commands are packed, they are packed as well
    behind a blob that leaves room for the bits of their root: the blob's bits then stand before
    those of the root, and the references of the root, the link to the next cell among them, are
    the same. -/
theorem pack_blob_cons (front : Bits) (position : Debug.Position) (commands : List Command)
    (f : Fragment) (hpack : pack commands = .ok f)
    (hroom : front.length + f.builder.bits.length ≤ 1023) :
    ∃ f', pack (.blob front position :: commands) = .ok f' ∧
      f'.builder.bits = front ++ f.builder.bits ∧ f'.builder.refs = f.builder.refs := by
  -- The commands were written, so they have the shape that writing asks for.
  obtain ⟨chain, hchain, -⟩ := (pack_eq_ok commands f).mp hpack
  have hshaped := shaped_of_writes commands _ chain Chain.holds_start.room hchain
  have hsame : List.Forall₂ Command.Alike commands commands :=
    List.forall₂_same.mpr fun a ha => ⟨rfl, hshaped a ha⟩
  obtain ⟨f', hf', hbuilder⟩ := pack_behind front position commands commands f hsame hpack hroom
  refine ⟨f', hf', ?_, ?_⟩
  · rw [hbuilder, Builder.behind]
  · rw [hbuilder, Builder.behind]

/-- Five instructions with a reference each take two cells, and 999 bits in front fill up the
    first of them. -/
theorem pack_blob_cons_fillingUp :
    let call := Command.instruction ⟨Bits.ofByte 0x88, [.data []], .mk [] [.empty]⟩ ⟨"f", 2⟩
    let front : Bits := .replicate 999 true
    ∃ f, pack (.replicate 5 call) = .ok f ∧ front.length + f.builder.bits.length ≤ 1023 ∧
      ∃ f', pack (.blob front ⟨"f", 1⟩ :: .replicate 5 call) = .ok f' ∧
        f'.builder.bits = front ++ f.builder.bits ∧ f'.builder.refs = f.builder.refs := by
  intro call front
  -- Both results can be computed: four of the five stand in a cell of their own.
  have hpack : ∃ f, pack (.replicate 5 call) = .ok f ∧ f.builder.bits.length = 24 := ⟨_, rfl, rfl⟩
  obtain ⟨f, hpack, hlength⟩ := hpack
  have hroom : front.length + f.builder.bits.length ≤ 1023 := by
    rw [List.length_replicate]
    omega
  exact ⟨f, hpack, hroom, pack_blob_cons front ⟨"f", 1⟩ _ f hpack hroom⟩

end CellCode.Listing
