import CellCode.Proofs.Cell.Reaching
import CellCode.Proofs.Cell.Reading
import CellCode.Proofs.Debug.Records

/-!
# Where commands stand

Commands that were packed can be found again from their sizes alone: a command stands where the
one before it ends, as long as its bits remain there, and otherwise at the start of the cell that
the last reference leads to. This is how code is read, too.

It works because only a command with bits ever opens a cell: one without bits fits behind any
other, so at the end of a cell it stands at that end and not at the start of the next one.

* `Slice.place`             where a command stands
* `Fragment.Rows`           commands in a chain of cells, each cell opened by a command with bits
* `Chain.rows_of_writes`    packing makes such a chain
* `Fragment.Rows.placed`    commands are found where they stand
* `Fragment.Rows.records`   what the chain records is recorded by a command where it stands
-/

namespace CellCode

namespace Slice

/-- Where bits stand that come next: here if that many remain, and otherwise at the start of the
    cell that the last reference leads to. -/
def goOn (s : Slice) (n : Nat) : Option Slice :=
  if n ≤ s.remainingBits then some s else s.refs.getLast?.map Cell.toSlice

/-- Where command `n` stands, when commands with these contents are laid out from the slice on. -/
def place : Slice → List Builder → (n : Nat) → Option Slice
  | _, [], _ => none
  | s, b :: _, 0 => s.goOn b.bits.length
  | s, b :: bs, n + 1 => s.goOn b.bits.length >>= fun t => (t.behind b).place bs n

variable {s : Slice} {bits more : Bits} {refs moreRefs : List Cell}

/-- Behind what stands at the front, the rest is shown. -/
theorem Shows.behind (h : s.Shows (bits ++ more) (refs ++ moreRefs)) :
    (s.behind ⟨bits, refs⟩).Shows more moreRefs := by
  -- The window moves on in its bits and in its references.
  have hadvance := h.advance
  have hlen := congrArg List.length h.refs_eq
  have hpos := h.valid.refPos_le
  have hend := h.valid.refEnd_le
  simp only [Slice.refs, List.length_take, List.length_drop, List.length_append] at hlen
  refine ⟨⟨hadvance.valid.bitPos_le, hadvance.valid.bitEnd_le, ?_, hend⟩, hadvance.data_eq, ?_⟩
  · show s.refPos + refs.length ≤ s.refEnd
    omega
  · rw [refs_behind, h.refs_eq, List.drop_left]

/-- Bits that are shown stand here. -/
theorem Shows.goOn (h : s.Shows (bits ++ more) refs) : s.goOn bits.length = some s := by
  have hremaining := h.remainingBits
  rw [List.length_append] at hremaining
  rw [Slice.goOn, if_pos (by omega)]

/-- At the end of a cell, bits stand in the cell of the last reference. -/
theorem Shows.goOn_link {r : Cell} (h : s.Shows [] (refs ++ [r])) (hbits : bits ≠ []) :
    s.goOn bits.length = some r.toSlice := by
  have hremaining := h.remainingBits
  have hpos := List.length_pos_iff.mpr hbits
  rw [Slice.goOn, if_neg (by simp only [List.length_nil] at hremaining; omega), h.refs_eq,
    List.getLast?_append]
  rfl

end Slice

namespace Fragment

/-! ## Rows -/

/-- The commands start with one that has bits. -/
def Opens (commands : List Fragment) : Prop :=
  ∃ first others, commands = first :: others ∧ first.builder.bits ≠ []

/-- More commands behind them do not matter. -/
theorem Opens.append {commands : List Fragment} (h : Opens commands) (others : List Fragment) :
    Opens (commands ++ others) := by
  obtain ⟨first, rest, rfl, hbits⟩ := h
  exact ⟨first, rest ++ others, rfl, hbits⟩

/-- Commands in a chain of cells. No cell before the last is empty, and every cell behind the first
    is opened by a command with bits. -/
inductive Rows : List Fragment → Fragment → Prop
  | last (run : List Fragment) : Rows run (ofRun run)
  | link (run : List Fragment) {commands : List Fragment} {next : Fragment} (nonempty : run ≠ [])
      (opens : Opens commands) (behind : Rows commands next) :
      Rows (run ++ commands) ((ofRun run).linkTo next)

/-- A run in front of the commands of the first cell. -/
theorem Rows.takeOver (run : List Fragment) {commands : List Fragment} {next : Fragment}
    (h : Rows commands next) : Rows (run ++ commands) ((ofRun run).takeOver next) := by
  -- Taking over puts the run in front of the first cell's.
  cases h with
  | last =>
    rw [← ofRun_append]
    exact .last (run ++ commands)
  | link r nonempty opens behind =>
    rw [takeOver_linkTo, ← ofRun_append, ← List.append_assoc]
    exact .link (run ++ r) (by simp [nonempty]) opens behind

/-- The first command stands at the front. -/
theorem Rows.front {first : Fragment} {others : List Fragment} {f : Fragment}
    (h : Rows (first :: others) f) : ∃ more moreRefs,
      f.builder.bits = first.builder.bits ++ more ∧
      f.builder.refs = first.builder.refs ++ moreRefs := by
  generalize hall : first :: others = commands at h
  -- In either case the bits and references of the cell start with those of its first command.
  cases h with
  | last run =>
    subst hall
    exact ⟨_, _, rfl, rfl⟩
  | @link run commands next nonempty opens behind =>
    obtain ⟨head, tail, rfl⟩ := List.exists_cons_of_ne_nil nonempty
    obtain ⟨rfl, _⟩ := List.cons.inj hall
    exact ⟨_, _, rfl, List.append_assoc ..⟩

/-! ## Places -/

section Places

variable {s : Slice} {run : List Fragment} {more : Bits} {moreRefs : List Cell}
  (commands : List Fragment)

/-- A run that is shown is passed without leaving the cell. -/
theorem place_behind (n : Nat) (h : s.Shows ((ofRun run).builder.bits ++ more)
      ((ofRun run).builder.refs ++ moreRefs)) :
    s.place ((run ++ commands).map (·.builder)) (run.length + n) =
      (s.behind (ofRun run).builder).place (commands.map (·.builder)) n := by
  -- Induction on the run: each command is passed where it stands.
  induction run generalizing s with
  | nil => simp [ofRun]; rfl
  | cons f run ih =>
    simp only [ofRun, List.flatMap_cons, List.append_assoc] at h
    have hgoOn : s.goOn f.builder.bits.length = some s := h.goOn
    rw [behind_ofRun_cons, ← ih h.behind, List.length_cons, Nat.add_right_comm]
    show s.goOn f.builder.bits.length >>= _ = _
    rw [hgoOn]
    rfl

/-- A command of a run that is shown is shown where it stands. -/
theorem shows_run (n : Nat) (command : Fragment) (hn : run[n]? = some command)
    (h : s.Shows ((ofRun run).builder.bits ++ more) ((ofRun run).builder.refs ++ moreRefs)) :
    ∃ more' moreRefs', (s.behind (ofRun (run.take n)).builder).Shows
      (command.builder.bits ++ more') (command.builder.refs ++ moreRefs') := by
  obtain ⟨hlt, rfl⟩ := List.getElem?_eq_some_iff.mp hn
  -- The run is what is before the command, the command, and what is behind it.
  have hsplit : run = run.take n ++ run[n] :: run.drop (n + 1) := by simp
  rw [hsplit, ofRun_append] at h
  simp only [takeOver, List.append_assoc] at h
  have hfront := h.behind
  simp only [ofRun, List.flatMap_cons, List.append_assoc] at hfront
  exact ⟨_, _, hfront⟩

/-- A command of a run stands behind those before it. -/
theorem place_run (n : Nat) (command : Fragment) (hn : run[n]? = some command)
    (h : s.Shows ((ofRun run).builder.bits ++ more) ((ofRun run).builder.refs ++ moreRefs)) :
    s.place ((run ++ commands).map (·.builder)) n =
      some (s.behind (ofRun (run.take n)).builder) := by
  obtain ⟨more', moreRefs', hfront⟩ := shows_run n command hn h
  obtain ⟨hlt, rfl⟩ := List.getElem?_eq_some_iff.mp hn
  have hsplit : run = run.take n ++ run[n] :: run.drop (n + 1) := by simp
  have hlength : (run.take n).length + 0 = n := by simp; omega
  rw [hsplit, ofRun_append] at h
  simp only [takeOver, List.append_assoc] at h
  have hplace := place_behind (run[n] :: run.drop (n + 1) ++ commands) 0 h
  -- All commands before it are passed, and it is shown there.
  rw [← List.append_assoc, ← hsplit, hlength] at hplace
  rw [hplace]
  exact hfront.goOn

/-- What a run records that is shown is recorded by a command where it stands. -/
theorem records_run (hpaired : ∀ f ∈ run, f.dbg.children.length = f.builder.refs.length)
    (h : s.Shows ((ofRun run).builder.bits ++ more) ((ofRun run).builder.refs ++ moreRefs))
    (c : Cell) (o : Int) (p : Debug.Position) :
    (ofRun run).dbg.Records s c o p ↔ ∃ (n : Nat) (command : Fragment) (t : Slice),
      run[n]? = some command ∧ s.place ((run ++ commands).map (·.builder)) n = some t ∧
        command.dbg.Records t c o p := by
  -- The commands of a run record what they do behind those before them.
  rw [records_ofRun s c o p run hpaired]
  constructor
  · intro hrecords
    obtain ⟨n, command, hn, hrecords⟩ := hrecords
    exact ⟨n, command, _, hn, place_run commands n command hn h, hrecords⟩
  · intro hrecords
    obtain ⟨n, command, t, hn, ht, hrecords⟩ := hrecords
    rw [place_run commands n command hn h] at ht
    cases ht
    exact ⟨n, command, hn, hrecords⟩

/-- Behind a run that ends its cell, commands that open the next cell are found there. -/
theorem place_link {r : Cell} {first : Fragment} {others : List Fragment} (n : Nat)
    (h : s.Shows [] [r]) (hbits : first.builder.bits ≠ [])
    (hfront : r.toSlice.Shows (first.builder.bits ++ more) moreRefs) :
    s.place ((first :: others).map (·.builder)) n =
      r.toSlice.place ((first :: others).map (·.builder)) n := by
  rw [← List.nil_append [r]] at h
  have hlink := h.goOn_link hbits
  -- Passing the first command leads into the next cell, and from there on both go the same way.
  cases n with
  | zero =>
    show s.goOn first.builder.bits.length = r.toSlice.goOn first.builder.bits.length
    rw [hlink, hfront.goOn]
  | succ n =>
    show s.goOn first.builder.bits.length >>= _ = r.toSlice.goOn first.builder.bits.length >>= _
    rw [hlink, hfront.goOn]

end Places

/-- Behind the first cell of rows, places are those of the rows behind it. -/
theorem Rows.place_behind_link {run commands : List Fragment} {next : Fragment}
    (opens : Opens commands) (behind : Rows commands next) (s : Slice) (n : Nat)
    (h : s.Shows ((ofRun run).linkTo next).builder.bits ((ofRun run).linkTo next).builder.refs) :
    s.place ((run ++ commands).map (·.builder)) (run.length + n) =
      next.builder.cell.toSlice.place (commands.map (·.builder)) n := by
  have hrun : s.Shows ((ofRun run).builder.bits ++ [])
      ((ofRun run).builder.refs ++ [next.builder.cell]) := by
    rwa [List.append_nil]
  obtain ⟨first, others, rfl, hbits⟩ := opens
  -- The rows behind the link start with a command that has bits, so they are found there.
  obtain ⟨more, moreRefs, hmore, hrefs⟩ := behind.front
  have hfront := Slice.shows_cell next.builder
  rw [hmore] at hfront
  rw [Fragment.place_behind _ n hrun, place_link n hrun.behind hbits hfront]

/-- Every command is shown where it stands, in a cell of the tree. -/
theorem Rows.placed {commands : List Fragment} {f : Fragment} (h : Rows commands f) (s : Slice)
    (hs : s.Shows f.builder.bits f.builder.refs) (n : Nat) (command : Fragment)
    (hn : commands[n]? = some command) :
    ∃ t more moreRefs, s.place (commands.map (·.builder)) n = some t ∧
      t.Shows (command.builder.bits ++ more) (command.builder.refs ++ moreRefs) ∧
      s.cell.Reaches t.cell := by
  -- Induction on the rows.
  induction h generalizing s n with
  | last run =>
    have hrun : s.Shows ((ofRun run).builder.bits ++ []) ((ofRun run).builder.refs ++ []) := by
      rwa [List.append_nil, List.append_nil]
    obtain ⟨more, moreRefs, hshows⟩ := shows_run n command hn hrun
    have hplace := place_run [] n command hn hrun
    rw [List.append_nil] at hplace
    exact ⟨_, more, moreRefs, hplace, hshows, .self _⟩
  | @link run commands next nonempty opens behind ih =>
    have hrun : s.Shows ((ofRun run).builder.bits ++ [])
        ((ofRun run).builder.refs ++ [next.builder.cell]) := by
      rwa [List.append_nil]
    -- A command of the run stands in this cell, any other behind the link.
    by_cases hlt : n < run.length
    · rw [List.getElem?_append_left hlt] at hn
      obtain ⟨more, moreRefs, hshows⟩ := shows_run n command hn hrun
      exact ⟨_, more, moreRefs, place_run _ n command hn hrun, hshows, .self _⟩
    · obtain ⟨k, rfl⟩ : ∃ k, n = run.length + k := ⟨n - run.length, by omega⟩
      rw [List.getElem?_append_right (by omega), Nat.add_sub_cancel_left] at hn
      obtain ⟨t, more, moreRefs, hplace, hshows, hreaches⟩ :=
        ih _ (Slice.shows_cell next.builder) k hn
      have hmem : next.builder.cell ∈ s.refs := by
        rw [hrun.refs_eq]
        simp
      refine ⟨t, more, moreRefs, ?_, hshows, (s.reaches_of_mem_refs _ hmem).trans hreaches⟩
      rw [behind.place_behind_link opens s k hs, hplace]

/-- What rows record is recorded by a command where it stands. -/
theorem Rows.records {commands : List Fragment} {f : Fragment} (h : Rows commands f)
    (hpaired : ∀ f ∈ commands, f.dbg.children.length = f.builder.refs.length) (s : Slice)
    (hs : s.Shows f.builder.bits f.builder.refs) (c : Cell) (o : Int) (p : Debug.Position) :
    f.dbg.Records s c o p ↔ ∃ (n : Nat) (command : Fragment) (t : Slice),
      commands[n]? = some command ∧ s.place (commands.map (·.builder)) n = some t ∧
        command.dbg.Records t c o p := by
  induction h generalizing s with
  | last run =>
    have hrun : s.Shows ((ofRun run).builder.bits ++ []) ((ofRun run).builder.refs ++ []) := by
      rwa [List.append_nil, List.append_nil]
    have hrecords := records_run [] hpaired hrun c o p
    rwa [List.append_nil] at hrecords
  | @link run commands next nonempty opens behind ih =>
    -- Shown are the bits of the run, and its references with the link behind them.
    have hrun : s.Shows ((ofRun run).builder.bits ++ [])
        ((ofRun run).builder.refs ++ [next.builder.cell]) := by
      rwa [List.append_nil]
    have hpaired' := List.forall_mem_append.mp hpaired
    have hlink : s.refs[(ofRun run).builder.refs.length]? = some next.builder.cell := by
      rw [hrun.refs_eq, List.getElem?_append_right (by omega), Nat.sub_self]
      rfl
    -- The cell records what its run does, and the link what the rows behind it do.
    rw [records_linkTo s c o p _ _ (length_children_ofRun run hpaired'.1), hlink,
      records_run commands hpaired'.1 hrun]
    constructor
    · -- A command of the run keeps its place, and one behind the link comes behind the whole run.
      intro h
      rcases h with ⟨n, command, t, hn, ht, h⟩ | ⟨r, hr, h⟩
      · have hlt := (List.getElem?_eq_some_iff.mp hn).1
        exact ⟨n, command, t, by rwa [List.getElem?_append_left hlt], ht, h⟩
      · cases hr
        obtain ⟨n, command, t, hn, ht, h⟩ := (ih hpaired'.2 _ (Slice.shows_cell next.builder)).mp h
        refine ⟨run.length + n, command, t, ?_, ?_, h⟩
        · rwa [List.getElem?_append_right (by omega), Nat.add_sub_cancel_left]
        · rwa [behind.place_behind_link opens s n hs]
    · -- The other way round, the place tells on which side of the link the command stands.
      intro h
      obtain ⟨n, command, t, hn, ht, h⟩ := h
      by_cases hlt : n < run.length
      · rw [List.getElem?_append_left hlt] at hn
        exact .inl ⟨n, command, t, hn, ht, h⟩
      · obtain ⟨k, rfl⟩ : ∃ k, n = run.length + k := ⟨n - run.length, by omega⟩
        rw [List.getElem?_append_right (by omega), Nat.add_sub_cancel_left] at hn
        rw [behind.place_behind_link opens s k hs] at ht
        have hrest := (ih hpaired'.2 _ (Slice.shows_cell next.builder)).mpr
          ⟨k, command, t, hn, ht, h⟩
        exact .inr ⟨_, rfl, hrest⟩

end Fragment

/-! ## Packing makes rows -/

namespace Chain

open Fragment (Opens Rows ofRun)

/-- The runs of a chain: those before the last are not empty, and all but the first are opened by a
    command with bits. -/
structure Opening (runs : List (List Fragment)) (run : List Fragment) : Prop where
  nonempty : ∀ r ∈ runs, r ≠ []
  opens : ∀ r ∈ (run :: runs).dropLast, Opens r

/-- Adding a command keeps this, if a command with references has bits. -/
theorem Holds.added_opening {c c' : Chain} {runs : List (List Fragment)} {run : List Fragment}
    {command : Fragment} (h : c.Holds runs run) (hopening : Opening runs run)
    (hbits : command.builder.refs ≠ [] → command.builder.bits ≠ [])
    (hadd : c.Added command c') :
    ∃ runs' run', c'.Holds runs' run' ∧ Opening runs' run' ∧
      runs'.reverse.flatten ++ run' = runs.reverse.flatten ++ run ++ [command] := by
  -- The command is put into the last unit or opens a new one.
  cases hadd with
  | inside hroom =>
    refine ⟨runs, run ++ [command], h.inside hroom, ⟨hopening.nonempty, ?_⟩, by simp⟩
    cases runs with
    | nil => nofun
    | cons r runs =>
      -- The last unit starts with the command that it started with.
      have hopens := hopening.opens
      rw [List.dropLast_cons_cons, List.forall_mem_cons] at hopens ⊢
      exact ⟨hopens.1.append [command], hopens.2⟩
  | fresh hfull hroom =>
    refine ⟨run :: runs, [command], h.push hroom, ⟨?_, ?_⟩, by simp⟩
    · rw [List.forall_mem_cons]
      refine ⟨?_, hopening.nonempty⟩
      -- Behind an empty unit there would have been room for the command.
      intro hempty
      apply hfull
      rw [h.last, hempty]
      exact hroom
    · rw [List.dropLast_cons_cons, List.forall_mem_cons]
      refine ⟨⟨command, [], rfl, ?_⟩, hopening.opens⟩
      -- A command that holds nothing would have fitted behind any unit.
      intro hnil
      have hrefs : command.builder.refs = [] := by
        by_contra hne
        exact hbits hne hnil
      have hlast := h.room c.last List.mem_cons_self
      apply hfull
      rw [Fragment.KeepsLink, Fragment.takeOver, hnil, hrefs, List.append_nil, List.append_nil]
      exact hlast

/-- Writes of such commands, one after the other. -/
theorem opening_of_writes {α : Type} (write : Chain → α → Except PackError Chain)
    (command : α → Fragment)
    (hwrite : ∀ c c' a, c.last.KeepsLink → write c a = .ok c' → c.Added (command a) c')
    (as : List α)
    (hbits : ∀ a ∈ as, (command a).builder.refs ≠ [] → (command a).builder.bits ≠ [])
    (c chain : Chain) (runs : List (List Fragment)) (run : List Fragment)
    (hc : c.Holds runs run) (hopening : Opening runs run) (h : as.foldlM write c = .ok chain) :
    ∃ runs' run', chain.Holds runs' run' ∧ Opening runs' run' ∧
      runs'.reverse.flatten ++ run' = runs.reverse.flatten ++ run ++ as.map command := by
  -- Induction on the commands.
  induction as generalizing c runs run with
  | nil =>
    cases h
    exact ⟨runs, run, hc, hopening, by simp⟩
  | cons a as ih =>
    rw [List.forall_mem_cons] at hbits
    obtain ⟨c', hc', hrest⟩ := (foldlM_cons_eq_ok _ _ _ _ _).mp h
    have hadded := hwrite c c' a (hc.room _ List.mem_cons_self) hc'
    -- The first write keeps the runs opened, and so do the others.
    obtain ⟨runs₁, run₁, hholds₁, hopening₁, heq₁⟩ := hc.added_opening hopening hbits.1 hadded
    obtain ⟨runs₂, run₂, hholds₂, hopening₂, heq₂⟩ :=
      ih hbits.2 c' runs₁ run₁ hholds₁ hopening₁ hrest
    exact ⟨runs₂, run₂, hholds₂, hopening₂, by rw [heq₂, heq₁]; simp⟩

/-- Folding units in front of rows makes rows. -/
private theorem foldlM_join_rows (runs : List (List Fragment)) (commands : List Fragment)
    (next root : Fragment) (hrows : Rows commands next)
    (hroom : ∀ r ∈ runs, (ofRun r).KeepsLink) (hnonempty : ∀ r ∈ runs, r ≠ [])
    (hopens : ∀ r ∈ (commands :: runs).dropLast, Opens r)
    (h : (runs.map ofRun).foldlM (fun next unit => join unit next) next = .ok root) :
    Rows (runs.reverse.flatten ++ commands) root := by
  -- Induction on the units from the last one on; `next` has the commands behind them.
  induction runs generalizing commands next with
  | nil =>
    cases h
    simpa using hrows
  | cons run runs ih =>
    rw [List.forall_mem_cons] at hroom hnonempty
    rw [List.dropLast_cons_cons, List.forall_mem_cons] at hopens
    rw [List.map_cons] at h
    obtain ⟨joined, hjoined, hrest⟩ := (foldlM_cons_eq_ok _ _ _ _ _).mp h
    obtain ⟨_, rfl⟩ := (join_eq_ok _ _ _ hroom.1).mp hjoined
    have hjoined : Rows (run ++ commands) ((ofRun run).joined next) := by
      -- Joining takes over the cells behind or links to them, each of which makes rows.
      rw [Fragment.joined]
      split
      · exact hrows.takeOver run
      · exact .link run hnonempty.1 hopens.1 hrows
    have hfolded := ih (run ++ commands) _ hjoined hroom.2 hnonempty.2 ?_ hrest
    · simpa using hfolded
    · cases runs with
      -- No unit is left, so nothing has to be opened.
      | nil => simp
      | cons r runs =>
        rw [List.dropLast_cons_cons, List.forall_mem_cons] at hopens ⊢
        exact ⟨hopens.2.1.append commands, hopens.2.2⟩

/-- Commands that are written and folded make rows, if those with references have bits. -/
theorem rows_of_writes {α : Type} (write : Chain → α → Except PackError Chain)
    (command : α → Fragment)
    (hwrite : ∀ c c' a, c.last.KeepsLink → write c a = .ok c' → c.Added (command a) c')
    (as : List α)
    (hbits : ∀ a ∈ as, (command a).builder.refs ≠ [] → (command a).builder.bits ≠ [])
    (chain : Chain) (root : Fragment) (h : as.foldlM write start = .ok chain)
    (hroot : chain.finalize = .ok root) : Rows (as.map command) root := by
  obtain ⟨runs, run, hholds, hopening, hall⟩ := opening_of_writes write command hwrite as hbits
    start chain [] [] holds_start ⟨nofun, nofun⟩ h
  -- The units in front have kept room for a link.
  have hroom : ∀ r ∈ runs, (ofRun r).KeepsLink := by
    intro r hr
    apply hholds.room _ (List.mem_cons_of_mem _ _)
    rw [hholds.earlier]
    exact List.mem_map_of_mem hr
  rw [finalize, hholds.earlier, hholds.last] at hroot
  have hrows := foldlM_join_rows runs run (ofRun run) root (.last run) hroom hopening.nonempty
    hopening.opens hroot
  rw [hall] at hrows
  simpa using hrows

end Chain

end CellCode
