import CellCode.Packing
import CellCode.Proofs.Cell.Depth
import CellCode.Proofs.Cell.Storing
import CellCode.Proofs.Lists

/-!
# What a chain of cells holds

A command is a fragment: bits, references and the debug node of what it holds. Commands that
stand in one cell make up a run, and a chain of cells holds one run after the other. This
module follows the runs through the writing of commands and through the folding of the chain.

* `Fragment.ofRun`          a run in one cell: bits, references, shifted starts, debug children
* `Fragment.Linked`         a chain of cells, each holding its run and a link to the next
* `Fragment.Fitting`        such a chain in which each cell keeps to its capacity
* `Chain.Holds`             the runs of a chain that is being written
* `Chain.finalize_linked`   folding a chain keeps its commands and their order
* `Chain.finalize_of_calls` the same for every sequence of calls that succeed
-/

namespace CellCode

/-! ## Runs -/

namespace Fragment

/-- A fragment that holds nothing. -/
def empty : Fragment := ⟨.empty, .empty⟩

/-- Where the commands of a run start something, when the run is written from bit `start` on:
    each command's own starts, shifted to where the command starts. -/
def starts : (start : Nat) → List Fragment → List (Int × Debug.Position)
  | _, [] => []
  | start, c :: run =>
    (c.dbg.offsets.map fun (o, p) => (o + start, p)) ++ starts (start + c.builder.bits.length) run

/-- A run of commands in one cell. -/
def ofRun (run : List Fragment) : Fragment where
  builder := ⟨run.flatMap (·.builder.bits), run.flatMap (·.builder.refs)⟩
  dbg := .mk (starts 0 run) (run.flatMap (·.dbg.children))

/-- The fragment with another one behind it, both in one cell. -/
def takeOver (f next : Fragment) : Fragment where
  builder := ⟨f.builder.bits ++ next.builder.bits, f.builder.refs ++ next.builder.refs⟩
  dbg := f.dbg.inlined f.builder.bits.length next.dbg

/-- The fragment with a link to the cell of another one as its last reference. -/
def linkTo (f next : Fragment) : Fragment where
  builder := ⟨f.builder.bits, f.builder.refs ++ [next.builder.cell]⟩
  dbg := f.dbg.append next.dbg

/-- The fragment joined with another one behind it: both go into one cell if they fit, and else it
    gets a link. -/
def joined (f next : Fragment) : Fragment :=
  if (f.takeOver next).builder.Fits then f.takeOver next else f.linkTo next

/-- A chain of cells: each holds the bits, references and debug positions of its run, and all
    but the last one link to the next. -/
inductive Linked : List (List Fragment) → Fragment → Prop
  | last (run : List Fragment) : Linked [run] (ofRun run)
  | link (run : List Fragment) {runs : List (List Fragment)} {next : Fragment}
      (behind : Linked runs next) : Linked (run :: runs) ((ofRun run).linkTo next)

/-- Starts written further on are shifted by as much. -/
private theorem starts_add (run : List Fragment) (k start : Nat) :
    starts (k + start) run = (starts start run).map fun (o, p) => (o + k, p) := by
  -- Induction on the run: the first command's own starts are shifted by `k`, and so is where the
  -- commands behind it start.
  induction run generalizing start with
  | nil => rfl
  | cons c run ih =>
    rw [starts, starts, Nat.add_assoc, ih, List.map_append, List.map_map]
    congr 1
    apply List.map_congr_left
    intro s _
    simp only [Function.comp_apply, Prod.mk.injEq, and_true]
    omega

/-- The second run starts where the bits of the first one end. -/
private theorem starts_append (a b : List Fragment) (start : Nat) :
    starts start (a ++ b) =
      starts start a ++ starts (start + (a.flatMap (·.builder.bits)).length) b := by
  induction a generalizing start with
  | nil => simp [starts]
  | cons c a ih =>
    simp only [List.cons_append, starts, ih, List.flatMap_cons, List.length_append,
      List.append_assoc, Nat.add_assoc]

/-- Two runs in one cell are one run. -/
theorem ofRun_append (a b : List Fragment) : ofRun (a ++ b) = (ofRun a).takeOver (ofRun b) := by
  -- The starts of `b` are those of a run of its own, moved behind the bits of `a`.
  have hshift := starts_add b (a.flatMap (·.builder.bits)).length 0
  rw [Nat.add_zero] at hshift
  simp only [ofRun, takeOver, Debug.Node.inlined, Debug.Node.offsets, Debug.Node.children,
    List.flatMap_append, starts_append, Nat.zero_add, hshift]

/-- A command is a run of its own. -/
theorem ofRun_singleton (c : Fragment) : ofRun [c] = c := by
  obtain ⟨⟨bits, refs⟩, ⟨offsets, children⟩⟩ := c
  simp [ofRun, starts, Debug.Node.offsets, Debug.Node.children]

/-- A run has a debug child for each reference if its commands do. -/
theorem length_children_ofRun (run : List Fragment)
    (h : ∀ f ∈ run, f.dbg.children.length = f.builder.refs.length) :
    (ofRun run).dbg.children.length = (ofRun run).builder.refs.length := by
  show (run.flatMap (·.dbg.children)).length = (run.flatMap (·.builder.refs)).length
  rw [List.length_flatMap, List.length_flatMap, List.map_congr_left h]

/-- Taking over a fragment that links to another one keeps the link. -/
theorem takeOver_linkTo (f g next : Fragment) :
    f.takeOver (g.linkTo next) = (f.takeOver g).linkTo next := by
  simp [takeOver, linkTo, Debug.Node.inlined, Debug.Node.append, Debug.Node.offsets,
    Debug.Node.children]

/-- Such a chain in which each cell keeps to its capacity. -/
inductive Fitting : List (List Fragment) → Fragment → Prop
  | last (run : List Fragment) (fits : (ofRun run).builder.Fits) : Fitting [run] (ofRun run)
  | link (run : List Fragment) {runs : List (List Fragment)} {next : Fragment}
      (fits : ((ofRun run).linkTo next).builder.Fits) (behind : Fitting runs next) :
      Fitting (run :: runs) ((ofRun run).linkTo next)

/-- Its cells hold what those of a chain without limits hold. -/
theorem Fitting.linked {runs : List (List Fragment)} {f : Fragment} (h : Fitting runs f) :
    Linked runs f := by
  induction h with
  | last run _ => exact .last run
  | link run _ _ ih => exact .link run ih

/-- The first cell of a chain may take a run in front of its own, if there is room. -/
theorem Fitting.takeOver (run : List Fragment) {runs : List (List Fragment)} {next : Fragment}
    (h : Fitting runs next) (hfits : ((ofRun run).takeOver next).builder.Fits) :
    ∃ runs', runs'.flatten = run ++ runs.flatten ∧ Fitting runs' ((ofRun run).takeOver next) := by
  cases h with
  | last r =>
    -- The run joins the first run of the chain. The cells behind it, and the link to them, stay.
    rw [← ofRun_append] at hfits ⊢
    exact ⟨[run ++ r], by simp, .last _ hfits⟩
  | @link r rs n _ behind =>
    rw [takeOver_linkTo, ← ofRun_append] at hfits ⊢
    exact ⟨(run ++ r) :: rs, by simp, .link _ hfits behind⟩

end Fragment

/-! ## Writing one command -/

/-- The fragment keeps to the capacity of a cell and has a reference left for a link. -/
def Fragment.KeepsLink (f : Fragment) : Prop :=
  f.builder.bits.length ≤ Cell.maxBits ∧ f.builder.refs.length < Cell.maxRefs

namespace Chain

/-- What writing a command makes of a chain: the last unit takes the command when that leaves
    a reference for the link, and otherwise the command opens a unit of its own. -/
inductive Added (c : Chain) (command : Fragment) : Chain → Prop
  | inside (room : (c.last.takeOver command).KeepsLink) :
      Added c command { c with last := c.last.takeOver command }
  | fresh (full : ¬ (c.last.takeOver command).KeepsLink) (room : command.KeepsLink) :
      Added c command (c.push command)

/-- Every unit has a reference left for its link. -/
def Open (c : Chain) : Prop := ∀ unit ∈ c.last :: c.earlier, unit.KeepsLink

/-- A command that leaves the last unit its link leaves every unit its link. -/
theorem Open.inside {c : Chain} {command : Fragment} (hc : c.Open)
    (hroom : (c.last.takeOver command).KeepsLink) :
    { c with last := c.last.takeOver command }.Open := by
  intro unit hunit
  rcases List.mem_cons.mp hunit with rfl | hunit
  · exact hroom
  · exact hc unit (List.mem_cons_of_mem _ hunit)

/-- So does a unit that is opened for a command. -/
theorem Open.push {c : Chain} {command : Fragment} (hc : c.Open) (hroom : command.KeepsLink) :
    (c.push command).Open := by
  intro unit hunit
  rcases List.mem_cons.mp hunit with rfl | hunit
  · exact hroom
  · exact hc unit hunit

/-- Bits and references are stored together exactly when they leave a reference free. -/
private theorem storeKeepingLink?_eq_some (b c : Builder) (bits : Bits) (refs : List Cell)
    (hb : b.Fits) :
    storeKeepingLink? b bits refs = some c ↔
      (b.bits.length + bits.length ≤ Cell.maxBits ∧
        b.refs.length + refs.length < Cell.maxRefs) ∧
      c = ⟨b.bits ++ bits, b.refs ++ refs⟩ := by
  unfold storeKeepingLink?
  have hspare : b.spareRefs ≤ refs.length ↔ Cell.maxRefs ≤ b.refs.length + refs.length := by
    simp only [Builder.spareRefs]; omega
  -- Without a reference to spare nothing is stored. Otherwise the bits alone decide.
  split
  · rename_i hfull
    rw [hspare] at hfull
    constructor
    · intro h; cases h
    · rintro ⟨⟨_, h⟩, _⟩; omega
  · rename_i hfree
    rw [hspare] at hfree
    -- The bits are stored first and then the references one by one, each with the room that the sum
    -- of both leaves.
    have hstored : (refs.foldlM Builder.storeRef =<< b.storeBits bits) = .ok c ↔
        b.bits.length + bits.length ≤ Cell.maxBits ∧ c = ⟨b.bits ++ bits, b.refs ++ refs⟩ := by
      show (b.storeBits bits >>= fun b => refs.foldlM Builder.storeRef b) = .ok c ↔ _
      rw [bind_eq_ok]
      constructor
      · rintro ⟨b', hb', hc⟩
        obtain ⟨hbits, rfl⟩ := (Builder.storeBits_eq_ok b b' bits hb.2).mp hb'
        have hfits : (⟨b.bits ++ bits, b.refs⟩ : Builder).Fits := ⟨by simpa using hbits, hb.2⟩
        exact ⟨hbits, ((Builder.storeRefs_eq_ok _ c refs hfits).mp hc).2⟩
      · rintro ⟨hbits, rfl⟩
        have hfits : (⟨b.bits ++ bits, b.refs⟩ : Builder).Fits := ⟨by simpa using hbits, hb.2⟩
        refine ⟨_, (Builder.storeBits_eq_ok b _ bits hb.2).mpr ⟨hbits, rfl⟩, ?_⟩
        exact (Builder.storeRefs_eq_ok _ _ refs hfits).mpr ⟨by simp only; omega, rfl⟩
    -- `storeKeepingLink?` drops the error, so both directions are about the outcome of `hstored`.
    cases hs : (refs.foldlM Builder.storeRef =<< b.storeBits bits) with
    | error e =>
      rw [hs] at hstored
      constructor
      · intro h; cases h
      · rintro ⟨⟨h, _⟩, hc⟩
        cases hstored.mpr ⟨h, hc⟩
    | ok b' =>
      rw [hs, Except.ok.injEq] at hstored
      simp only [Option.some.injEq]
      rw [hstored]
      constructor
      · rintro ⟨h, hc⟩; exact ⟨⟨h, by omega⟩, hc⟩
      · rintro ⟨⟨h, _⟩, hc⟩; exact ⟨h, hc⟩

/-- Both ways of writing a command try the last unit first and then an empty one. -/
private theorem added_iff (c c' : Chain) (command : Fragment) (inside fresh : Option Builder)
    (e : PackError)
    (hinside : ∀ b, inside = some b ↔
      (c.last.takeOver command).KeepsLink ∧ b = (c.last.takeOver command).builder)
    (hfresh : ∀ b, fresh = some b ↔ command.KeepsLink ∧ b = command.builder) :
    (match inside with
      | some b => Except.ok { c with last := ⟨b, (c.last.takeOver command).dbg⟩ }
      | none =>
        match fresh with
        | some b => .ok (c.push ⟨b, command.dbg⟩)
        | none => .error e) = .ok c' ↔ c.Added command c' := by
  -- The last unit decides first, and then the empty one. That gives the three outcomes: inside,
  -- fresh, refused.
  cases inside with
  | some b =>
    obtain ⟨hroom, rfl⟩ := (hinside b).mp rfl
    constructor
    · intro h
      cases h
      exact .inside hroom
    · rintro (⟨_⟩ | ⟨hfull, _⟩)
      · rfl
      · exact absurd hroom hfull
  | none =>
    -- Nothing was stored in the last unit, so it has no room.
    have hfull : ¬ (c.last.takeOver command).KeepsLink := by
      intro h
      cases (hinside _).mpr ⟨h, rfl⟩
    cases fresh with
    | some b =>
      obtain ⟨hroom, rfl⟩ := (hfresh b).mp rfl
      constructor
      · intro h
        cases h
        exact .fresh hfull hroom
      · rintro (⟨h⟩ | ⟨_, _⟩)
        · exact absurd h hfull
        · rfl
    | none =>
      constructor
      · intro h; cases h
      · rintro (⟨h⟩ | ⟨_, h⟩)
        · exact absurd h hfull
        · cases (hfresh _).mpr ⟨h, rfl⟩

/-- A command whose references are built is written by adding it. -/
theorem writeBuilt_eq_ok (c c' : Chain) (bits : Bits) (refs : List Cell) (dbg : Debug.Node)
    (hlast : c.last.KeepsLink) :
    c.writeBuilt bits refs dbg = .ok c' ↔ c.Added ⟨⟨bits, refs⟩, dbg⟩ c' := by
  obtain ⟨hbits, hrefs⟩ := hlast
  -- Both units have room for a link, so each stores the command exactly when it fits with the link.
  have hstore (b : Builder) :=
    storeKeepingLink?_eq_some c.last.builder b bits refs ⟨hbits, by omega⟩
  have hopen (b : Builder) :=
    storeKeepingLink?_eq_some .empty b bits refs (by simp [Builder.Fits, Builder.empty])
  rw [← added_iff c c' ⟨⟨bits, refs⟩, dbg⟩
    (storeKeepingLink? c.last.builder bits refs) (storeKeepingLink? .empty bits refs)
    (.payload bits.length refs.length)]
  · -- What is left is to show of either builder when it takes the command.
    rfl
  · intro b
    rw [hstore b]
    simp [Fragment.KeepsLink, Fragment.takeOver]
  · intro b
    rw [hopen b]
    simp [Fragment.KeepsLink, Builder.empty]

/-- A command without references is written by adding it. -/
theorem writeBits_eq_ok (c c' : Chain) (bits : Bits) (dbg : Debug.Node)
    (hlast : c.last.KeepsLink) :
    c.writeBits bits dbg = .ok c' ↔ c.Added ⟨⟨bits, []⟩, dbg⟩ c' := by
  obtain ⟨_, hrefs⟩ := hlast
  -- A command without references cannot use up the one that is left for a link, so `storeBits`
  -- alone decides.
  have hstore (b : Builder) := Builder.storeBits_eq_ok c.last.builder b bits (by omega)
  have hopen (b : Builder) := Builder.storeBits_eq_ok .empty b bits (by simp [Builder.empty])
  rw [← added_iff c c' ⟨⟨bits, []⟩, dbg⟩ (c.last.builder.storeBits bits).toOption
    (Builder.empty.storeBits bits).toOption (.bits bits.length)]
  · -- The write matches on results, `added_iff` on options; the outcomes correspond one by one.
    unfold writeBits
    cases h1 : c.last.builder.storeBits bits with
    | ok b => simp [h1, Except.toOption, Fragment.takeOver]
    | error e =>
      cases h2 : Builder.empty.storeBits bits with
      | ok b => simp [h1, Except.toOption]
      | error e' => simp [h1, Except.toOption]
  · intro b
    rw [toOption_eq_some, hstore b]
    simp [Fragment.KeepsLink, Fragment.takeOver, hrefs]
  · intro b
    rw [toOption_eq_some, hopen b]
    simp [Fragment.KeepsLink, Builder.empty, Cell.maxRefs]

/-- References that are built are the cells of their builders. -/
theorem mapM_build_eq_ok (refs : List Builder) (cells : List Cell) :
    refs.mapM Builder.build = .ok cells ↔
      (∀ r ∈ refs, r.Buildable) ∧ cells = refs.map Builder.cell := by
  -- The cells correspond one by one to the builders, so the list of them is the list of their
  -- cells.
  simp only [mapM_eq_ok, Builder.build_eq_ok, List.forall₂_and_left]
  apply and_congr_right
  intro _
  rw [← List.forall₂_eq_eq_eq, List.forall₂_map_right_iff]
  exact ⟨List.Forall₂.flip, List.Forall₂.flip⟩

/-- A command with references is written by adding it, if its debug node has a child for each and
    the references can be built. -/
theorem writeComposite_eq_ok (c c' : Chain) (bits : Bits) (refs : List Builder) (dbg : Debug.Node)
    (hlast : c.last.KeepsLink) :
    c.writeComposite bits refs dbg = .ok c' ↔
      refs.length = dbg.children.length ∧ (∀ r ∈ refs, r.Buildable) ∧
        c.Added ⟨⟨bits, refs.map Builder.cell⟩, dbg⟩ c' := by
  unfold writeComposite
  split
  · -- A debug node of another shape is refused before anything is built.
    rename_i hshape
    constructor
    · intro h; cases h
    · rintro ⟨h, _⟩; exact absurd h hshape
  · rename_i hshape
    rw [and_iff_right (by omega)]
    cases hcells : refs.mapM Builder.build with
    -- One reference that cannot be built is enough for the write to fail.
    | error e =>
      constructor
      · intro h; cases h
      · rintro ⟨h, _⟩
        rw [(mapM_build_eq_ok refs _).mpr ⟨h, rfl⟩] at hcells
        cases hcells
    | ok cells =>
      obtain ⟨hbuilt, rfl⟩ := (mapM_build_eq_ok refs cells).mp hcells
      rw [and_iff_right hbuilt]
      exact writeBuilt_eq_ok c c' bits _ dbg hlast

end Chain

/-! ## Writing a sequence of commands -/

namespace Chain

/-- Every unit holds a run, those before the last one nearest first, and has a reference left
    for its link. -/
structure Holds (c : Chain) (runs : List (List Fragment)) (run : List Fragment) : Prop where
  earlier : c.earlier = runs.map Fragment.ofRun
  last : c.last = Fragment.ofRun run
  room : ∀ unit ∈ c.last :: c.earlier, unit.KeepsLink

/-- A new chain holds no commands. -/
theorem holds_start : start.Holds [] [] where
  earlier := rfl
  last := rfl
  -- The new chain has one unit, and that is empty.
  room := by
    intro unit hunit
    obtain rfl : unit = start.last := by simpa [start] using hunit
    exact ⟨by simp [start, Builder.empty], by simp [start, Builder.empty, Cell.maxRefs]⟩

/-- A command that the last unit takes goes behind its run. -/
theorem Holds.inside {c : Chain} {runs : List (List Fragment)} {run : List Fragment}
    {command : Fragment} (h : c.Holds runs run) (hroom : (c.last.takeOver command).KeepsLink) :
    { c with last := c.last.takeOver command }.Holds runs (run ++ [command]) where
  earlier := h.earlier
  last := by rw [Fragment.ofRun_append, Fragment.ofRun_singleton, h.last]
  room := Open.inside h.room hroom

/-- A command in a unit of its own is a run of its own. -/
theorem Holds.push {c : Chain} {runs : List (List Fragment)} {run : List Fragment}
    {command : Fragment} (h : c.Holds runs run) (hroom : command.KeepsLink) :
    (c.push command).Holds (run :: runs) [command] where
  -- The last unit so far comes in front of the earlier ones, so its run comes in front of theirs.
  earlier := by
    show c.last :: c.earlier = _
    rw [h.earlier, h.last, List.map_cons]
  last := (Fragment.ofRun_singleton command).symm
  room := Open.push h.room hroom

/-- Adding a command puts it behind those that the chain holds. -/
theorem Holds.added (c c' : Chain) (runs : List (List Fragment)) (run : List Fragment)
    (command : Fragment) (h : c.Holds runs run) (hadd : c.Added command c') :
    ∃ runs' run', c'.Holds runs' run' ∧
      runs'.reverse.flatten ++ run' = runs.reverse.flatten ++ run ++ [command] := by
  cases hadd with
  | inside hroom => exact ⟨runs, run ++ [command], h.inside hroom, by simp⟩
  | fresh _ hroom => exact ⟨run :: runs, [command], h.push hroom, by simp⟩

/-- Writes that succeed one after the other add their commands in order. -/
theorem holds_of_writes {α : Type} (write : Chain → α → Except PackError Chain)
    (command : α → Fragment)
    (hwrite : ∀ c c' a, c.last.KeepsLink → write c a = .ok c' → c.Added (command a) c')
    (as : List α) (c chain : Chain) (runs : List (List Fragment)) (run : List Fragment)
    (hc : c.Holds runs run) (h : as.foldlM write c = .ok chain) :
    ∃ runs' run', chain.Holds runs' run' ∧
      runs'.reverse.flatten ++ run' = runs.reverse.flatten ++ run ++ as.map command := by
  -- Induction on the writes, for any runs that the chain holds so far: each adds its command behind
  -- them.
  induction as generalizing c runs run with
  | nil =>
    cases h
    exact ⟨runs, run, hc, by simp⟩
  | cons a as ih =>
    obtain ⟨c', hc', hrest⟩ := (foldlM_cons_eq_ok _ _ _ _ _).mp h
    have hadded := hwrite c c' a (hc.room _ (by simp)) hc'
    obtain ⟨runs₁, run₁, hholds₁, heq₁⟩ := hc.added c c' runs run _ hadded
    obtain ⟨runs₂, run₂, hholds₂, heq₂⟩ := ih c' runs₁ run₁ hholds₁ hrest
    exact ⟨runs₂, run₂, hholds₂, by rw [heq₂, heq₁]; simp⟩

/-! ## Folding -/

/-- Once its cell is built, a unit is taken over or linked to; one of the two always works. -/
theorem join_eq (unit next : Fragment) (hroom : unit.KeepsLink) :
    join unit next = next.builder.build >>= fun _ => .ok (unit.joined next) := by
  unfold join
  cases hbuild : next.builder.build with
  | error e => rfl
  | ok cell =>
    obtain ⟨_, rfl⟩ := Builder.build_eq_ok.mp hbuild
    -- Building the cell cannot fail any more, so what is left is to store its content in the unit.
    have hstore (b : Builder) :=
      Builder.storeSlice_toSlice_eq_ok unit.builder b next.builder.cell
    simp only [Builder.bits_cell, Builder.refs_cell] at hstore
    by_cases hfits : (unit.takeOver next).builder.Fits
    · -- There is room for both, so the unit takes over the whole cell.
      have hboth := (hstore _).mpr
        ⟨by simpa [Fragment.takeOver, Builder.Fits] using hfits, rfl⟩
      rw [Fragment.joined, if_pos hfits]
      simp only [bind, Except.bind, hboth]
      rfl
    · have hlink := (Builder.storeRef_eq_ok unit.builder _ next.builder.cell hroom.1).mpr
        ⟨hroom.2, rfl⟩
      -- There is none, so storing the content has failed and the unit stores the cell as its link,
      -- for which it has kept a reference.
      cases hs : unit.builder.storeSlice next.builder.cell.toSlice with
      | ok b =>
        have hboth := ((hstore b).mp hs).1
        exact absurd (by simpa [Fragment.takeOver, Builder.Fits] using hboth) hfits
      | error e =>
        rw [Fragment.joined, if_neg hfits]
        simp only [bind, Except.bind, hs, hlink]
        rfl

theorem join_eq_ok (unit next joined : Fragment) (hroom : unit.KeepsLink) :
    join unit next = .ok joined ↔ next.builder.Buildable ∧ joined = unit.joined next := by
  simp only [join_eq unit next hroom, bind_eq_ok, Builder.build_eq_ok, Except.ok.injEq]
  constructor
  · rintro ⟨_, ⟨hbuild, _⟩, rfl⟩
    exact ⟨hbuild, rfl⟩
  · rintro ⟨hbuild, rfl⟩
    exact ⟨_, ⟨hbuild, rfl⟩, rfl⟩

/-- What folding builds on its way: the last unit, and every other one but the first, joined with
    what is behind it. -/
def builtFrom (next : Fragment) : (earlier : List Fragment) → List Fragment
  | [] => []
  | unit :: earlier => next :: builtFrom (unit.joined next) earlier

/-- The fragments whose cells are built when the chain is folded. -/
def built (c : Chain) : List Fragment := builtFrom c.last c.earlier

/-- What the chain is folded to, however deep its cells get. -/
def root (c : Chain) : Fragment := c.earlier.foldl (fun next unit => unit.joined next) c.last

/-- Folding builds one cell after the other, and then it has the root. -/
theorem foldlM_join_eq (next : Fragment) (earlier : List Fragment)
    (hroom : ∀ unit ∈ earlier, unit.KeepsLink) :
    earlier.foldlM (fun next unit => join unit next) next =
      (builtFrom next earlier).mapM (·.builder.build) >>= fun _ =>
        .ok (earlier.foldl (fun next unit => unit.joined next) next) := by
  -- Induction on the units in front: the join with the first one builds `next`, and the rest starts
  -- from what it gives.
  induction earlier generalizing next with
  | nil => rfl
  | cons unit earlier ih =>
    rw [List.forall_mem_cons] at hroom
    rw [List.foldlM_cons, join_eq unit next hroom.1, builtFrom, List.mapM_cons]
    cases next.builder.build with
    | error e => rfl
    | ok cell =>
      show earlier.foldlM _ (unit.joined next) = _
      rw [ih _ hroom.2]
      cases (builtFrom (unit.joined next) earlier).mapM (·.builder.build) <;> rfl

section Induct

variable (good : List (List Fragment) → Fragment → Prop)
  (hlast : ∀ run, (Fragment.ofRun run).KeepsLink → good [run] (Fragment.ofRun run))
  (htake : ∀ run runs next, good runs next → ((Fragment.ofRun run).takeOver next).builder.Fits →
    ∃ runs', runs'.flatten = run ++ runs.flatten ∧
      good runs' ((Fragment.ofRun run).takeOver next))
  (hlink : ∀ run runs next, good runs next → (Fragment.ofRun run).KeepsLink →
    ¬ ((Fragment.ofRun run).takeOver next).builder.Fits →
    good (run :: runs) ((Fragment.ofRun run).linkTo next))

include htake hlink in
/-- Units with a reference to spare are joined in front of the cells behind them. -/
private theorem foldl_joined_keeps {behind : List (List Fragment)} {next : Fragment}
    (hnext : good behind next) (runs : List (List Fragment))
    (hroom : ∀ run ∈ runs, (Fragment.ofRun run).KeepsLink) :
    (∀ f ∈ builtFrom next (runs.map Fragment.ofRun), ∃ all, good all f) ∧
      ∃ all, all.flatten = runs.reverse.flatten ++ behind.flatten ∧
        good all ((runs.map Fragment.ofRun).foldl (fun next unit => unit.joined next) next) := by
  -- Induction on the units in front, from the last unit to the first: what is behind is `good`, so
  -- either way of joining keeps it `good`.
  induction runs generalizing next behind with
  | nil => exact ⟨nofun, behind, by simp, hnext⟩
  | cons run runs ih =>
    rw [List.forall_mem_cons] at hroom
    obtain ⟨joined, hjoined, hgood⟩ : ∃ runs', runs'.flatten = run ++ behind.flatten ∧
        good runs' ((Fragment.ofRun run).joined next) := by
      rw [Fragment.joined]
      split
      · -- The run and the next cell's run share a cell.
        rename_i hfits
        exact htake run behind next hnext hfits
      · -- The unit links to the cells behind it, so its run stays one of its own.
        rename_i hfull
        exact ⟨run :: behind, by simp, hlink run behind next hnext hroom.1 hfull⟩
    obtain ⟨hbuilt, all, hall, hroot⟩ := ih hgood hroom.2
    refine ⟨?_, all, by rw [hall, hjoined]; simp, hroot⟩
    rw [List.map_cons, builtFrom, List.forall_mem_cons]
    exact ⟨⟨behind, hnext⟩, hbuilt⟩

include hlast htake hlink in
/-- The cells that a chain is folded to have what a last unit has and joining keeps. So have those
    that are built on the way. -/
theorem Holds.root_keeps {c : Chain} {runs : List (List Fragment)} {run : List Fragment}
    (h : c.Holds runs run) :
    (∀ f ∈ c.built, ∃ all, good all f) ∧
      ∃ all, all.flatten = runs.reverse.flatten ++ run ∧ good all c.root := by
  -- The last unit is where the folding starts.
  have hgood : good [run] c.last := by
    have hroom := h.room c.last (by simp)
    rw [h.last] at hroom ⊢
    exact hlast run hroom
  have hroom : ∀ r ∈ runs, (Fragment.ofRun r).KeepsLink := by
    intro r hr
    refine h.room _ (List.mem_cons_of_mem _ ?_)
    rw [h.earlier]
    exact List.mem_map_of_mem hr
  rw [built, root, h.earlier]
  simpa using foldl_joined_keeps good htake hlink hgood runs hroom

end Induct

/-- The cells that a chain is folded to keep to the capacity. So do those built on the way. -/
theorem Holds.root_fitting {c : Chain} {runs : List (List Fragment)} {run : List Fragment}
    (h : c.Holds runs run) :
    (∀ f ∈ c.built, f.builder.Fits) ∧
      ∃ all, all.flatten = runs.reverse.flatten ++ run ∧ Fragment.Fitting all c.root := by
  -- With `good` the chains that keep to the capacity: both ways of joining leave no more than a
  -- full cell.
  obtain ⟨hbuilt, hroot⟩ := h.root_keeps Fragment.Fitting
    (fun run hroom => .last run ⟨hroom.1, Nat.le_of_lt hroom.2⟩)
    (fun run runs next hnext hfits => hnext.takeOver run hfits)
    (fun run runs next hnext hroom _ =>
      .link run ⟨hroom.1, by simpa [Fragment.linkTo] using Nat.succ_le_of_lt hroom.2⟩ hnext)
  refine ⟨fun f hf => ?_, hroot⟩
  obtain ⟨all, hall⟩ := hbuilt f hf
  cases hall with
  | last _ fits => exact fits
  | link _ fits _ => exact fits

/-- Folding a chain gives its root, unless one of the cells on the way has a reference that is too
    deep for it to be built. -/
theorem Holds.finalize_cases {c : Chain} {runs : List (List Fragment)} {run : List Fragment}
    (h : c.Holds runs run) :
    (∀ f ∈ c.built, f.builder.Buildable) ∧ c.finalize = .ok c.root ∨
      ∃ f ∈ c.built, ∃ r ∈ f.builder.refs, Cell.maxRefDepth < r.depth ∧
        c.finalize = .error (.referenceTooDeep r.depth) := by
  -- By `foldlM_join_eq` only the builds of the cells on the way can fail.
  have hfold : c.finalize = c.built.mapM (·.builder.build) >>= fun _ => .ok c.root :=
    foldlM_join_eq c.last c.earlier fun unit hunit => h.room unit (List.mem_cons_of_mem _ hunit)
  cases hbuild : c.built.mapM (·.builder.build) with
  | ok cells =>
    refine .inl ⟨fun f hf => ?_, by rw [hfold, hbuild]; rfl⟩
    obtain ⟨cell, _, hcell⟩ := forall₂_mem_left _ _ ((mapM_eq_ok _ _ _).mp hbuild) f hf
    exact (Builder.build_eq_ok.mp hcell).1
  | error e =>
    -- The first cell that cannot be built fits, so it fails for a reference that is too deep.
    obtain ⟨f, hf, he⟩ := exists_of_mapM_eq_error _ _ e hbuild
    rcases Builder.build_of_fits (h.root_fitting.1 f hf) with ⟨_, hok⟩ | ⟨r, hr, hdeep, herror⟩
    · cases he.symm.trans hok
    · cases he.symm.trans herror
      exact .inr ⟨f, hf, r, hr, hdeep, by rw [hfold, hbuild]; rfl⟩

/-- What folding returns is the root, and all cells on the way were built. -/
theorem Holds.finalize_eq_ok {c : Chain} {runs : List (List Fragment)} {run : List Fragment}
    (h : c.Holds runs run) (f : Fragment) :
    c.finalize = .ok f ↔ (∀ g ∈ c.built, g.builder.Buildable) ∧ f = c.root := by
  rcases h.finalize_cases with ⟨hbuilt, hroot⟩ | ⟨g, hg, r, hr, hdeep, herror⟩
  · rw [hroot, and_iff_right hbuilt, Except.ok.injEq, eq_comm]
  · rw [herror]
    constructor
    · intro h; cases h
    · rintro ⟨hbuilt, _⟩
      -- The chain failed for a reference of `g`, but `g` is among the cells that were built.
      have := (hbuilt g hg).2 r hr
      omega

/-- The root of a chain has its commands in order, one run to a cell. -/
theorem Holds.root_linked {c : Chain} {runs : List (List Fragment)} {run : List Fragment}
    (h : c.Holds runs run) :
    ∃ all, all.flatten = runs.reverse.flatten ++ run ∧ Fragment.Linked all c.root := by
  obtain ⟨-, all, hall, hfitting⟩ := h.root_fitting
  exact ⟨all, hall, hfitting.linked⟩

/-! ## Calls -/

/-- A call that writes a command, given by bytes of which the first `count` bits count. -/
inductive Call
  /-- A command without references. -/
  | bits (bytes : List UInt8) (count : Int) (dbg : Debug.Node)
  /-- A command with references, each held by a builder. -/
  | composite (bytes : List UInt8) (refs : List Builder) (dbg : Debug.Node) (count : Int)

namespace Call

/-- Carries out a call. -/
def write (c : Chain) : Call → Except PackError Chain
  | bits bytes count dbg => c.writeRaw bytes count dbg
  | composite bytes refs dbg count => c.writeRawComposite bytes refs dbg count

/-- The command of a call. -/
def command : Call → Fragment
  | bits bytes count dbg => ⟨⟨(Bits.ofBytes bytes).take count.toNat, []⟩, dbg⟩
  | composite bytes refs dbg count =>
    ⟨⟨(Bits.ofBytes bytes).take count.toNat, refs.map Builder.cell⟩, dbg⟩

/-- A call that succeeds adds its command. -/
theorem write_eq_ok (c c' : Chain) (call : Call) (hlast : c.last.KeepsLink)
    (h : call.write c = .ok c') : c.Added call.command c' := by
  -- The bytes give the first `count` bits of theirs, or they are refused.
  have hbits (bytes : List UInt8) (count : Int) (b : Bits)
      (hb : Builder.bitsOfBytes bytes count = .ok b) :
      b = (Bits.ofBytes bytes).take count.toNat := by
    unfold Builder.bitsOfBytes at hb
    split at hb
    · cases hb
    · cases hb; rfl
  cases call with
  | bits bytes count dbg =>
    simp only [write, writeRaw] at h
    split at h
    · cases h
    · rename_i b hb
      rw [hbits bytes count b hb] at h
      exact (writeBits_eq_ok c c' _ dbg hlast).mp h
  | composite bytes refs dbg count =>
    simp only [write, writeRawComposite] at h
    split at h
    · rename_i b hb
      rw [hbits bytes count b hb] at h
      exact ((writeComposite_eq_ok c c' _ refs dbg hlast).mp h).2.2
    · -- Bits that the bytes do not have are refused, whatever the references are.
      split at h
      · cases h
      · split at h
        · cases h
        · split at h <;> cases h

end Call

/-- When calls on a new chain succeed, it holds their commands in order. -/
theorem holds_of_calls {calls : List Call} {chain : Chain}
    (h : calls.foldlM Call.write start = .ok chain) :
    ∃ runs run, chain.Holds runs run ∧ runs.reverse.flatten ++ run = calls.map Call.command := by
  obtain ⟨runs, run, hholds, hcommands⟩ := holds_of_writes Call.write Call.command
    (fun c c' call hlast => Call.write_eq_ok c c' call hlast) calls start chain [] [] holds_start h
  exact ⟨runs, run, hholds, by simpa using hcommands⟩

/-- Packing loses nothing and keeps the order. When calls on a new chain succeed, their commands
    fall into consecutive runs, one to each cell of the chain that it is folded to. A cell has the
    bits and references of its run in order, and then the next cell; its debug node has each
    command's starts, shifted to where the command starts in the cell, and the commands' debug
    children, and then the next cell's node. Folding returns this chain, or it fails because a cell
    on the way has a reference that is more than 65535 deep. -/
theorem finalize_of_calls (calls : List Call) (chain : Chain)
    (h : calls.foldlM Call.write start = .ok chain) :
    ∃ runs, runs.flatten = calls.map Call.command ∧ Fragment.Linked runs chain.root ∧
      ((∀ f ∈ chain.built, ∀ r ∈ f.builder.refs, r.depth ≤ 65535) ∧
          chain.finalize = .ok chain.root ∨
        ∃ f ∈ chain.built, ∃ r ∈ f.builder.refs, 65535 < r.depth ∧
          chain.finalize = .error (.referenceTooDeep r.depth)) := by
  -- The chain holds the commands in order, and folding keeps their order.
  obtain ⟨runs, run, hholds, hcommands⟩ := holds_of_calls h
  obtain ⟨all, hall, hlinked⟩ := hholds.root_linked
  refine ⟨all, hall.trans hcommands, hlinked, ?_⟩
  exact hholds.finalize_cases.imp_left (And.imp_left fun hbuilt f hf => (hbuilt f hf).2)

/-- Five commands with a reference each need two units, and the second cannot be taken over. -/
theorem finalize_of_five_calls :
    let call := Call.composite [0x88] [.empty] (.mk [(0, ⟨"f", 1⟩)] [.empty]) 8
    ∃ chain, (List.replicate 5 call).foldlM Call.write start = .ok chain ∧
      ∃ runs, runs.flatten = (List.replicate 5 call).map Call.command ∧
        Fragment.Linked runs chain.root ∧
        ((∀ f ∈ chain.built, ∀ r ∈ f.builder.refs, r.depth ≤ 65535) ∧
            chain.finalize = .ok chain.root ∨
          ∃ f ∈ chain.built, ∃ r ∈ f.builder.refs, 65535 < r.depth ∧
            chain.finalize = .error (.referenceTooDeep r.depth)) :=
  ⟨_, rfl, finalize_of_calls _ _ rfl⟩

/-! ## A chain that is too deep -/

/-- A command with three references, which fill up a unit, and one that refers to a cell. -/
def deepCalls (ref : Cell) : List Call := [
  .composite [0x88] (.replicate 3 .empty) (.mk [] (.replicate 3 .empty)) 8,
  .composite [0x88] [.ofCell ref] (.mk [] [.empty]) 8]

/-- The chain in which they are written. -/
def deepChain (ref : Cell) : Chain where
  earlier := [⟨⟨Bits.ofByte 0x88, .replicate 3 (.data [])⟩, .mk [] (.replicate 3 .empty)⟩]
  last := ⟨⟨Bits.ofByte 0x88, [ref]⟩, .mk [] [.empty]⟩

theorem write_deepCalls {ref : Cell} (hbuild : (Builder.ofCell ref).build = .ok ref) :
    (deepCalls ref).foldlM Call.write start = .ok (deepChain ref) := by
  rw [deepCalls, foldlM_cons_eq_ok]
  -- The first call fills the unit that the chain starts with, and the second one opens a unit of
  -- its own.
  refine ⟨⟨[], _⟩, rfl, ?_⟩
  rw [foldlM_cons_eq_ok]
  refine ⟨deepChain ref, ?_, rfl⟩
  simp only [Call.write, writeRawComposite, writeComposite, List.mapM_cons, hbuild]
  rfl

/-- Folding first builds the cell of the second unit, whose reference is too deep. -/
theorem finalize_deepChain {ref : Cell} (hdeep : Cell.maxRefDepth < ref.depth) :
    (deepChain ref).finalize = .error (.referenceTooDeep ref.depth) := by
  -- The unit fits, so nothing but the depth can make its build fail.
  have hfits : (deepChain ref).last.builder.Fits := by
    rw [deepChain, Builder.Fits]
    exact ⟨Nat.le_of_ble_eq_true rfl, Nat.le_of_ble_eq_true rfl⟩
  have hbuild := Builder.build_of_deep hfits rfl hdeep
  show (join _ (deepChain ref).last >>= fun f => .ok f) = _
  rw [join, hbuild]
  rfl

/-- A reference that is 65536 deep can be built, but not below another one. So both calls succeed,
    and then the chain cannot be folded. -/
theorem finalize_of_deepCalls :
    (Cell.tower 65536).Makeable ∧
      ∃ chain, (deepCalls (Cell.tower 65536)).foldlM Call.write start = .ok chain ∧
        chain.finalize = .error (.referenceTooDeep 65536) := by
  have htower : (Cell.tower 65536).Makeable := Cell.makeable_tower (by decide)
  refine ⟨htower, _, write_deepCalls (htower _ (.self _)), ?_⟩
  rw [finalize_deepChain (by rw [Cell.depth_tower]; decide), Cell.depth_tower]

end Chain

end CellCode
