import CellCode.Cell.Slice
import CellCode.Proofs.Packing.Runs

/-!
# What debug trees record

A debug tree that is laid over a cell records positions at bits of the cell and of the cells below
it: a node's starts count from where its content begins, and its children belong to the references
from there on. The map of a tree has an entry exactly where the tree records something, and the
position in it is one of those that are recorded there.

Joining fragments keeps what they record, if each has a child for every reference: what is taken
over is then recorded behind the fragment before it, and what is linked in the cell of the link.

* `Debug.Node.Records`             what a tree records
* `Debug.Map.ofCell_exact`         the map of a tree has exactly this
* `Fragment.records_takeOver`, `Fragment.records_linkTo`   joined fragments
* `Fragment.records_ofRun`         a run of commands
-/

namespace CellCode

namespace Debug

/-- The node, laid over the slice, records a position at a bit of a cell. -/
inductive Node.Records : Node → Slice → Cell → Int → Position → Prop
  | here {node : Node} {s : Slice} {o : Int} {p : Position} (mem : (o, p) ∈ node.offsets) :
      Records node s s.cell (s.bitPos + o) p
  | nested {node child : Node} {s : Slice} {i : Nat} {r c : Cell} {o : Int} {p : Position}
      (child_at : node.children[i]? = some child) (ref_at : s.refs[i]? = some r)
      (inside : Records child r.toSlice c o p) : Records node s c o p

/-- A node records its own starts, and what its children record. -/
theorem Node.records_iff (node : Node) (s : Slice) (c : Cell) (o : Int) (p : Position) :
    node.Records s c o p ↔ (c = s.cell ∧ (o - s.bitPos, p) ∈ node.offsets) ∨
      ∃ (i : Nat) (child : Node) (r : Cell), node.children[i]? = some child ∧ s.refs[i]? = some r ∧
        child.Records r.toSlice c o p := by
  constructor
  · intro h
    cases h with
    -- A start counts from where the content begins.
    | @here _ _ k _ mem =>
      refine .inl ⟨rfl, ?_⟩
      -- An offset in the cell is the position of the window and what the start counts.
      rwa [show (s.bitPos : Int) + k - s.bitPos = k by omega]
    | nested child_at ref_at inside => exact .inr ⟨_, _, _, child_at, ref_at, inside⟩
  · intro h
    rcases h with ⟨rfl, mem⟩ | ⟨i, child, r, child_at, ref_at, inside⟩
    · have hrecords : node.Records s s.cell (s.bitPos + (o - s.bitPos)) p := .here mem
      rwa [show (s.bitPos : Int) + (o - s.bitPos) = o by omega] at hrecords
    · exact .nested child_at ref_at inside

/-- A node without starts and children records nothing. -/
theorem Node.not_records_empty (s : Slice) (c : Cell) (o : Int) (p : Position) :
    ¬ Node.Records .empty s c o p := by
  intro h
  cases h with
  | here mem => cases mem
  | nested child_at => cases child_at

/-- A command that starts at the first bit is recorded there. -/
theorem Node.records_ofPosition (q : Position) (s : Slice) (c : Cell) (o : Int) (p : Position) :
    (Node.ofPosition q).Records s c o p ↔ c = s.cell ∧ o = s.bitPos ∧ p = q := by
  constructor
  · -- There are no children, and the only start is at the first bit.
    intro h
    cases h with
    | here mem =>
      obtain ⟨rfl, rfl⟩ := Prod.mk.inj (List.mem_singleton.mp mem)
      exact ⟨rfl, by omega, rfl⟩
    | nested child_at => cases child_at
  · intro h
    obtain ⟨rfl, rfl, rfl⟩ := h
    have hrecords : (Node.ofPosition p).Records s s.cell (s.bitPos + 0) p :=
      .here (List.mem_singleton.mpr rfl)
    rwa [Int.add_zero] at hrecords

/-! ## Maps -/

namespace Map

/-- The map has an entry exactly where a position is known, and one of those that are known. -/
structure Exact (m : Map) (known : String → Int → Position → Prop) : Prop where
  sound : ∀ hash o p, m.get? hash o = some p → known hash o p
  complete : ∀ hash o p, known hash o p → (m.get? hash o).isSome

variable {m : Map} {known : String → Int → Position → Prop}

/-- What is known may be stated in another way. -/
theorem Exact.congr {known' : String → Int → Position → Prop} (h : m.Exact known)
    (hiff : ∀ hash o p, known hash o p ↔ known' hash o p) : m.Exact known' where
  sound hash o p hget := (hiff hash o p).mp (h.sound hash o p hget)
  complete hash o p hknown := h.complete hash o p ((hiff hash o p).mpr hknown)

/-- Nothing is known by a map without entries. -/
theorem exact_empty : empty.Exact fun _ _ _ => False where
  sound hash o p h := by
    simp [get?, empty] at h
  complete _ _ _ := False.elim

/-- What is known of a cell stands in its tree, and nothing stands in that of an unknown one. -/
theorem getElem?_getD (m : Map) (hash : String) (o : Int) :
    (m.cells.getD hash ∅)[o]? = m.get? hash o := by
  -- The tree of a cell that is not known is empty.
  rw [get?, Std.TreeMap.getD_eq_getD_getElem?]
  cases m.cells[hash]? with
  | none => simp
  | some t => rfl

/-- Starts inserted one after the other: an entry is one of them or was there before. -/
private theorem foldl_insert (offsets : List (Int × Position)) (t : Offsets) (o : Int) :
    (∀ p, (offsets.foldl (fun t (o, p) => t.insert o p) t)[o]? = some p →
      t[o]? = some p ∨ (o, p) ∈ offsets) ∧
    ((t[o]?).isSome ∨ (∃ p, (o, p) ∈ offsets) →
      (offsets.foldl (fun t (o, p) => t.insert o p) t)[o]?.isSome) := by
  -- Induction on the starts, with what has been inserted.
  induction offsets generalizing t with
  | nil => simp
  | cons e offsets ih =>
    obtain ⟨k, q⟩ := e
    obtain ⟨hsound, hcomplete⟩ := ih (t.insert k q)
    -- A start takes the place of an earlier one at the same offset.
    have hinsert : (t.insert k q)[o]? = if k = o then some q else t[o]? := by
      rw [Std.TreeMap.getElem?_insert]
      simp only [Std.compare_eq_iff_eq]
    rw [List.foldl_cons]
    constructor
    · -- What is found was in the tree that the others were inserted into, or is one of them.
      intro p hp
      rcases hsound p hp with hp | hp
      · rw [hinsert] at hp
        by_cases hk : k = o
        · rw [if_pos hk] at hp
          cases hp
          exact .inr (by rw [hk]; exact List.mem_cons_self)
        · rw [if_neg hk] at hp
          exact .inl hp
      · exact .inr (List.mem_cons_of_mem _ hp)
    · -- A start of the same offset may come later, so that there is one is all that can be said.
      intro h
      apply hcomplete
      by_cases hk : k = o
      · rw [hinsert, if_pos hk]
        exact .inl rfl
      · rw [hinsert, if_neg hk]
        rcases h with h | ⟨p, hp⟩
        · exact .inl h
        · -- The first start was inserted at another offset, so the one that is sought is among the
          -- others.
          rcases List.mem_cons.mp hp with hp | hp
          · cases hp
            exact absurd rfl hk
          · exact .inr ⟨p, hp⟩

/-- Adding starts of a cell makes them known. -/
theorem Exact.add (h : m.Exact known) (hash : String) (offsets : List (Int × Position)) :
    (m.add hash offsets).Exact fun k o p => known k o p ∨ (k = hash ∧ (o, p) ∈ offsets) := by
  -- Only what is known of this hash changes.
  have hget (k : String) (o : Int) : (m.add hash offsets).get? k o =
      if hash = k then (offsets.foldl (fun t (o, p) => t.insert o p) (m.cells.getD hash ∅))[o]?
      else m.get? k o := by
    rw [get?, Map.add, get?]
    simp only [Std.TreeMap.getElem?_insert, Std.compare_eq_iff_eq]
    split <;> rfl
  constructor
  · intro k o p hp
    rw [hget] at hp
    -- For this hash an entry is one of the added starts or was there before.
    by_cases hk : hash = k
    · rw [if_pos hk] at hp
      rcases (foldl_insert offsets _ o).1 p hp with hp | hp
      · rw [getElem?_getD, hk] at hp
        exact .inl (h.sound k o p hp)
      · exact .inr ⟨hk.symm, hp⟩
    · -- For any other one nothing has changed.
      rw [if_neg hk] at hp
      exact .inl (h.sound k o p hp)
  · intro k o p hp
    rw [hget]
    by_cases hk : hash = k
    · rw [if_pos hk]
      apply (foldl_insert offsets _ o).2
      rw [getElem?_getD, hk]
      rcases hp with hp | ⟨_, hp⟩
      · exact .inl (h.complete k o p hp)
      · exact .inr ⟨p, hp⟩
    · rw [if_neg hk]
      rcases hp with hp | ⟨hp, _⟩
      · exact h.complete k o p hp
      · exact absurd hp.symm hk

/-- What children that are laid over references record. -/
def ChildrenRecord (children : List Node) (refs : List Cell) (hash : String) (o : Int)
    (p : Position) : Prop :=
  ∃ pair ∈ children.zip refs, ∃ c, pair.1.Records pair.2.toSlice c o p ∧ c.hash = hash

/-- What a node that is laid over a whole cell records. -/
theorem records_toSlice (node : Node) (c : Cell) (hash : String) (o : Int) (p : Position) :
    (∃ d, node.Records c.toSlice d o p ∧ d.hash = hash) ↔
      (hash = c.hash ∧ (o, p) ∈ node.offsets) ∨ ChildrenRecord node.children c.refs hash o p := by
  -- The slice of a whole cell starts at its first bit, and its references are those of the cell.
  have hrecords (d : Cell) := node.records_iff c.toSlice d o p
  rw [show o - (c.toSlice.bitPos : Int) = o from Int.sub_zero o, Slice.refs_toSlice] at hrecords
  constructor
  · intro h
    obtain ⟨d, h, rfl⟩ := h
    rcases (hrecords d).mp h with ⟨rfl, mem⟩ | ⟨i, child, r, child_at, ref_at, inside⟩
    · exact .inl ⟨rfl, mem⟩
    · -- The child and the reference at one place make a pair of the zipped lists.
      refine .inr ⟨(child, r), ?_, d, inside, rfl⟩
      exact List.mem_of_getElem? (i := i) (List.getElem?_zip_eq_some.mpr ⟨child_at, ref_at⟩)
  · intro h
    rcases h with ⟨rfl, mem⟩ | ⟨⟨child, r⟩, hpair, d, inside, rfl⟩
    · exact ⟨c, (hrecords c).mpr (.inl ⟨rfl, mem⟩), rfl⟩
    · obtain ⟨i, hi⟩ := List.mem_iff_getElem?.mp hpair
      obtain ⟨child_at, ref_at⟩ := List.getElem?_zip_eq_some.mp hi
      exact ⟨d, (hrecords d).mpr (.inr ⟨i, child, r, child_at, ref_at, inside⟩), rfl⟩

mutual

/-- Adding a node makes known what it records. -/
theorem addNode_exact (m : Map) (known : String → Int → Position → Prop) (h : m.Exact known)
    (c : Cell) (node : Node) (m' : Map) (hm' : addNode m c node = .ok m') :
    m'.Exact fun hash o p =>
      known hash o p ∨ ∃ d, node.Records c.toSlice d o p ∧ d.hash = hash := by
  match node, hm' with
  | .mk offsets children, hm' =>
    rw [addNode] at hm'
    -- A node with more children than references is refused.
    by_cases hmany : children.length > c.refCount
    · rw [if_pos hmany] at hm'
      cases hm'
    rw [if_neg hmany] at hm'
    -- Adding no starts at all would leave the cell known, but with nothing in it.
    have hstarts : (if offsets.isEmpty then m else m.add c.hash offsets).Exact
        fun hash o p => known hash o p ∨ (hash = c.hash ∧ (o, p) ∈ offsets) := by
      split
      · rename_i hempty
        rw [List.isEmpty_iff] at hempty
        subst hempty
        exact h.congr (by simp)
      · exact h.add c.hash offsets
    -- Its own starts and those of its children together are what it records.
    apply (addChildren_exact _ _ hstarts c.refs children m' hm').congr
    intro hash o p
    rw [or_assoc, records_toSlice]
    rfl
termination_by sizeOf node

theorem addChildren_exact (m : Map) (known : String → Int → Position → Prop) (h : m.Exact known)
    (refs : List Cell) (children : List Node) (m' : Map)
    (hm' : addChildren m refs children = .ok m') :
    m'.Exact fun hash o p => known hash o p ∨ ChildrenRecord children refs hash o p := by
  match children, refs, hm' with
  -- References without a child add nothing, and neither do children without a reference.
  | [], refs, hm' =>
    rw [addChildren] at hm'
    cases hm'
    exact h.congr (by simp [ChildrenRecord])
  | child :: children, [], hm' =>
    rw [addChildren] at hm'
    cases hm'
    exact h.congr (by simp [ChildrenRecord])
  | child :: children, r :: refs, hm' =>
    rw [addChildren] at hm'
    -- The last child is added first.
    obtain ⟨m₁, hm₁, hm'⟩ := (bind_eq_ok _ _ _).mp hm'
    have hothers := addChildren_exact m known h refs children m₁ hm₁
    apply (addNode_exact m₁ _ hothers r child m' hm').congr
    intro hash o p
    -- The first pair is the child that was added last.
    simp only [ChildrenRecord, List.zip_cons_cons, List.exists_mem_cons_iff]
    rw [or_assoc]
    exact or_congr_right or_comm
termination_by sizeOf children

end

/-- The map of a tree and a cell has exactly what the tree records. -/
theorem ofCell_exact (c : Cell) (node : Node) (m : Map) (h : ofCell c node = .ok m) :
    m.Exact fun hash o p => ∃ d, node.Records c.toSlice d o p ∧ d.hash = hash :=
  (addNode_exact empty _ exact_empty c node m h).congr (by simp)

end Map

end Debug

/-! ## Joined fragments -/

namespace Slice

/-- The slice behind bits and references that stand at its front. -/
def behind (s : Slice) (b : Builder) : Slice :=
  { s with bitPos := s.bitPos + b.bits.length, refPos := s.refPos + b.refs.length }

@[simp] theorem bitPos_behind (s : Slice) (b : Builder) :
    (s.behind b).bitPos = s.bitPos + b.bits.length := rfl

@[simp] theorem refs_behind (s : Slice) (b : Builder) :
    (s.behind b).refs = s.refs.drop b.refs.length := by
  rw [refs, refs, List.drop_take, List.drop_drop]
  -- The window's references end where they did.
  show List.take (s.refEnd - (s.refPos + b.refs.length)) _ = _
  rw [Nat.sub_add_eq]
  rfl

@[simp] theorem behind_empty (s : Slice) : s.behind .empty = s := rfl

/-- What is behind two builders in a row is behind the first and then behind the second. -/
theorem behind_append (s : Slice) (bits bits' : Bits) (refs refs' : List Cell) :
    s.behind ⟨bits ++ bits', refs ++ refs'⟩ = (s.behind ⟨bits, refs⟩).behind ⟨bits', refs'⟩ := by
  simp only [behind, List.length_append, Nat.add_assoc]

end Slice

namespace Fragment

open Debug (Position)

variable (s : Slice) (c : Cell) (o : Int) (p : Position)

/-- Children of two nodes in a row: those of the second one belong to the references behind those
    of the first. -/
private theorem children_append (children others : List Debug.Node) (refs : List Cell)
    (record : Debug.Node → Cell → Prop) :
    (∃ (i : Nat) (child : Debug.Node) (r : Cell), (children ++ others)[i]? = some child ∧
        refs[i]? = some r ∧ record child r) ↔
      (∃ (i : Nat) (child : Debug.Node) (r : Cell), children[i]? = some child ∧
        refs[i]? = some r ∧ record child r) ∨
      ∃ (i : Nat) (child : Debug.Node) (r : Cell), others[i]? = some child ∧
        (refs.drop children.length)[i]? = some r ∧ record child r := by
  constructor
  · intro h
    obtain ⟨i, child, r, child_at, ref_at, h⟩ := h
    -- Any child that is not one of the first belongs to a reference behind theirs.
    rw [List.getElem?_append] at child_at
    by_cases hi : i < children.length
    · rw [if_pos hi] at child_at
      exact .inl ⟨i, child, r, child_at, ref_at, h⟩
    · rw [if_neg hi] at child_at
      refine .inr ⟨i - children.length, child, r, child_at, ?_, h⟩
      rwa [List.getElem?_drop, show children.length + (i - children.length) = i by omega]
  · -- The other way round, from the place of a child in its list to that in both.
    intro h
    rcases h with ⟨i, child, r, child_at, ref_at, h⟩ | ⟨i, child, r, child_at, ref_at, h⟩
    · have hi := (List.getElem?_eq_some_iff.mp child_at).1
      exact ⟨i, child, r, by rwa [List.getElem?_append_left hi], ref_at, h⟩
    · refine ⟨children.length + i, child, r, ?_, ?_, h⟩
      · rwa [List.getElem?_append_right (by omega), Nat.add_sub_cancel_left]
      · rwa [List.getElem?_drop] at ref_at

/-- A node that takes over another one records what that does, behind its own content. -/
theorem records_inlined (node other : Debug.Node) (b : Builder)
    (hpaired : node.children.length = b.refs.length) :
    (node.inlined b.bits.length other).Records s c o p ↔
      node.Records s c o p ∨ other.Records (s.behind b) c o p := by
  -- The starts of the other node are shifted by the bits in front, which is where its content
  -- begins.
  have hoffsets : (o - s.bitPos, p) ∈ (node.inlined b.bits.length other).offsets ↔
      (o - s.bitPos, p) ∈ node.offsets ∨ (o - (s.behind b).bitPos, p) ∈ other.offsets := by
    rw [Debug.Node.inlined, Debug.Node.offsets, List.mem_append, List.mem_map, Slice.bitPos_behind]
    apply or_congr_right
    constructor
    · intro h
      obtain ⟨⟨k, q⟩, mem, heq⟩ := h
      obtain ⟨hk, rfl⟩ := Prod.mk.inj heq
      -- The two ways of counting come to the same offset.
      rwa [show o - ((s.bitPos + b.bits.length : Nat) : Int) = k by omega]
    · intro mem
      refine ⟨_, mem, ?_⟩
      simp only [Prod.mk.injEq, and_true]
      omega
  rw [Debug.Node.records_iff, Debug.Node.records_iff node, Debug.Node.records_iff other, hoffsets,
    Slice.refs_behind, ← hpaired]
  -- Its children come behind those of the first node, one for each reference.
  rw [show (node.inlined b.bits.length other).children = node.children ++ other.children from rfl,
    children_append, and_or_left]
  exact or_or_or_comm

/-- A node with one more child records what that does in the cell of the next reference. -/
theorem records_append (node other : Debug.Node) :
    (node.append other).Records s c o p ↔ node.Records s c o p ∨
      ∃ r, s.refs[node.children.length]? = some r ∧ other.Records r.toSlice c o p := by
  rw [Debug.Node.records_iff, Debug.Node.records_iff node]
  rw [show (node.append other).children = node.children ++ [other] from rfl, children_append,
    ← or_assoc]
  -- Only the last child is new, and it belongs to the next reference.
  apply or_congr_right
  constructor
  · intro h
    obtain ⟨i, child, r, child_at, ref_at, inside⟩ := h
    rw [List.getElem?_singleton] at child_at
    by_cases hi : i = 0
    · rw [if_pos hi] at child_at
      cases child_at
      rw [hi, List.getElem?_drop] at ref_at
      exact ⟨r, ref_at, inside⟩
    · -- Any other place is past the end of a list of one child.
      rw [if_neg hi] at child_at
      cases child_at
  · intro h
    obtain ⟨r, ref_at, inside⟩ := h
    exact ⟨0, other, r, rfl, by rwa [List.getElem?_drop], inside⟩

variable (f g : Fragment)

/-- A fragment that takes over another one. -/
theorem records_takeOver (hpaired : f.dbg.children.length = f.builder.refs.length) :
    (f.takeOver g).dbg.Records s c o p ↔
      f.dbg.Records s c o p ∨ g.dbg.Records (s.behind f.builder) c o p :=
  records_inlined s c o p f.dbg g.dbg f.builder hpaired

/-- A fragment that links to another one. -/
theorem records_linkTo (hpaired : f.dbg.children.length = f.builder.refs.length) :
    (f.linkTo g).dbg.Records s c o p ↔ f.dbg.Records s c o p ∨
      ∃ r, s.refs[f.builder.refs.length]? = some r ∧ g.dbg.Records r.toSlice c o p := by
  rw [← hpaired]
  exact records_append s c o p f.dbg g.dbg

/-- A fragment that links to others in a row. -/
theorem records_foldl_linkTo (others : List Fragment)
    (hpaired : f.dbg.children.length = f.builder.refs.length) :
    (others.foldl linkTo f).dbg.Records s c o p ↔ f.dbg.Records s c o p ∨
      ∃ (i : Nat) (g : Fragment) (r : Cell), others[i]? = some g ∧
        s.refs[f.builder.refs.length + i]? = some r ∧ g.dbg.Records r.toSlice c o p := by
  -- Induction on the fragments that are linked.
  induction others generalizing f with
  | nil => simp
  | cons g others ih =>
    -- The first of them takes the next reference, the others those behind it.
    have hlinked : (f.linkTo g).builder.refs.length = f.builder.refs.length + 1 := by
      simp [linkTo]
    have hpaired' : (f.linkTo g).dbg.children.length = (f.linkTo g).builder.refs.length := by
      rw [hlinked, ← hpaired]
      simp [linkTo, Debug.Node.append, Debug.Node.children]
    rw [List.foldl_cons, ih (f.linkTo g) hpaired', hlinked, records_linkTo s c o p f g hpaired,
      or_assoc]
    apply or_congr_right
    constructor
    · intro h
      -- The fragment just linked has place 0, and the others come one place later.
      rcases h with ⟨r, hr, h⟩ | ⟨i, g', r, hg', hr, h⟩
      · exact ⟨0, g, r, rfl, hr, h⟩
      · refine ⟨i + 1, g', r, hg', ?_, h⟩
        rwa [Nat.add_assoc, Nat.add_comm 1 i] at hr
    · intro h
      obtain ⟨i, g', r, hg', hr, h⟩ := h
      cases i with
      | zero =>
        cases hg'
        exact .inl ⟨r, hr, h⟩
      | succ i =>
        refine .inr ⟨i, g', r, hg', ?_, h⟩
        rwa [Nat.add_assoc, Nat.add_comm 1 i]

/-- What is behind a run is behind its first command and then behind the others. -/
theorem behind_ofRun_cons (run : List Fragment) :
    s.behind (ofRun (f :: run)).builder = (s.behind f.builder).behind (ofRun run).builder := by
  rw [ofRun, List.flatMap_cons, List.flatMap_cons, Slice.behind_append]
  rfl

/-- What a run of commands records is recorded by one of them, behind those before it. -/
theorem records_ofRun (run : List Fragment)
    (hpaired : ∀ f ∈ run, f.dbg.children.length = f.builder.refs.length) :
    (ofRun run).dbg.Records s c o p ↔ ∃ (i : Nat) (command : Fragment), run[i]? = some command ∧
      command.dbg.Records (s.behind (ofRun (run.take i)).builder) c o p := by
  -- Induction on the run, with the slice on which it is laid.
  induction run generalizing s with
  | nil =>
    constructor
    · intro h
      exact absurd h (Debug.Node.not_records_empty s c o p)
    · intro h
      obtain ⟨i, command, hcommand, _⟩ := h
      cases hcommand
  | cons f run ih =>
    rw [List.forall_mem_cons] at hpaired
    -- The rest of the run stands behind its first command.
    rw [← List.singleton_append, ofRun_append, ofRun_singleton,
      records_takeOver s c o p f _ hpaired.1, ih _ hpaired.2, List.singleton_append]
    constructor
    · intro h
      -- The first command is recorded at the front, any other one behind the first.
      rcases h with h | ⟨i, command, hcommand, h⟩
      · exact ⟨0, f, rfl, h⟩
      · refine ⟨i + 1, command, hcommand, ?_⟩
        rwa [List.take_succ_cons, behind_ofRun_cons]
    · intro h
      obtain ⟨i, command, hcommand, h⟩ := h
      cases i with
      | zero =>
        cases hcommand
        exact .inl h
      | succ i =>
        rw [List.take_succ_cons, behind_ofRun_cons] at h
        exact .inr ⟨i, command, hcommand, h⟩

end Fragment

end CellCode
