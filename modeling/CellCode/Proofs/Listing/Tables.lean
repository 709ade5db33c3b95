import CellCode.Proofs.JumpTable
import CellCode.Proofs.Listing.Rebuilding

/-!
# Printed jump tables are built again

A jump table is printed as the cells it consists of, and where a method stands in a cell, the
cell is printed as the bits before the method and the method's code. The code is packed again
behind these bits, where it was not packed before, and makes up the same cell.

* `IsCode`              a cell with an assembled program
* `printMethod_gives`   a cell in which a method stands
* `printTable_gives`    a whole table
* `tablePrinter_gives`  the cell of a marked instruction
-/

namespace CellCode.Listing

/-- The cell has the program that was assembled into it, and can be made. -/
def IsCode (v : Cell) : Prop :=
  v.Makeable ∧ ∃ (p : Program) (f : Fragment), p.Assembles f ∧ p.WellKinded ∧ f.builder.cell = v

/-- A slice that shows such a cell shows its program. -/
theorem IsCode.decodes (v : Cell) (h : IsCode v) : ∃ (p : Program) (f : Fragment), p.Assembles f ∧
    f.builder.bits = v.bits ∧ f.builder.refs = v.refs ∧
      ∀ s : Slice, s.Shows v.bits v.refs → s.Decodes p := by
  obtain ⟨_, p, f, hassembles, hkinds, rfl⟩ := h
  have hbits : f.builder.cell.bits = f.builder.bits := Cell.bits_mk _ _
  have hrefs : f.builder.cell.refs = f.builder.refs := Cell.refs_mk _ _
  refine ⟨p, f, hassembles, hbits.symm, hrefs.symm, ?_⟩
  intro s hs
  rw [hbits, hrefs] at hs
  exact hassembles.decodes p f s hkinds hs

/-- So it can be loaded. -/
theorem IsCode.loads (v : Cell) (s : Slice) (h : IsCode v) (hs : s.Shows v.bits v.refs) :
    ∃ store root, loadCode s false = .ok (store, root) := by
  obtain ⟨p, _, _, _, _, hdecodes⟩ := h.decodes
  exact loadCode_of_decodes s false p (hdecodes s hs)

variable {expected : PrintError → Prop}

/-! ## Methods -/

/-- Code in braces behind the raw bits of a cell. -/
private theorem readsAsContent_code (good : List Item → Prop) (front note body pad : String)
    (bits : Bits)
    (hfront : ReadsAsParts (fun blobs children => BlobsSpell blobs bits ∧ children = []) front)
    (hnote : ∀ c ∈ note.toList, c ≠ '\n') (hbody : ReadsAsItems good body)
    (hpad : ∀ c ∈ pad.toList, c = ' ') :
    ReadsAsContent (fun cell => ∃ line blobs items, cell = .code line blobs items ∧
        BlobsSpell blobs bits ∧ good items)
      (front ++ pad ++ ("\x7b" ++ (" " ++ (";;" ++ note ++ "\n"))) ++ body ++ pad ++ "\x7d\n") := by
  intro line at' rest
  -- The text before the code, the brace and its comment, the code, and the brace that closes it.
  obtain ⟨line₁, blobs, _, hreads₁, hblobs, rfl⟩ := hfront line at' rest
  have hopen : Reads Anything "\x7b" line₁ (.cell at' blobs [] :: rest) line₁
      (.items [] :: .cell at' blobs [] :: rest) := Reads.opening _ _ _ rfl
  have hcomment := Reads.comment note line₁ (.items [] :: .cell at' blobs [] :: rest) hnote
  obtain ⟨line₂, frames₂, items, hreads₂, hclose₂, hgood⟩ :=
    hbody (line₁ + 1) (.items [] :: .cell at' blobs [] :: rest) [] _ rfl
  have hend : Reads Anything "\x7d" line₂ frames₂ line₂
      (.cellEnd (.code at' blobs items) :: rest) := by
    apply Reads.closing
    rw [closeBrace, hclose₂]
    rfl
  refine ⟨line₂ + 1, .code at' blobs items, .cellEnd (.code at' blobs items) :: rest, ?_, rfl, at',
    blobs, items, rfl, hblobs, hgood⟩
  have hall := hreads₁.trans ((Reads.blank pad _ _ hpad).trans (hopen.trans
    ((Reads.space _ _).trans (hcomment.trans (hreads₂.trans
      ((Reads.blank pad _ _ hpad).trans (hend.trans (Reads.newline line₂ _))))))))
  rw [show ("\x7d\n" : String) = "\x7d" ++ "\n" from rfl]
  simpa only [String.append_assoc] using hall

/-- The code of a method is read as items that spell its program. -/
private theorem printPlain_gives (store : CodeStore) (root : CodeId) (s : Slice) (p : Program)
    (pad : String) (hpad : ∀ c ∈ pad.toList, c = ' ') (hdecodes : s.Decodes p)
    (hrefs : ∀ r ∈ s.refs, r.Makeable) (hload : loadCode s false = .ok (store, root)) :
    Print.Gives (printPlain false store root pad) (ReadsAsItems (Spells Built · p)) expected := by
  -- The code that is printed was loaded from the slice, so it holds the slice's program.
  obtain ⟨hloaded, q, hq, hholds⟩ := loadCode_holds s false s.cell.Reaches store root
    (fun _ hc => hc.refs) s.reaches_of_mem_refs nofun hload
  obtain rfl := hdecodes.eq s p q hq
  refine printCodeTo_gives _ store _ root p pad hpad (hloaded.ordered rfl) hloaded.root_lt
    (Nat.lt_of_lt_of_le (Nat.lt_succ_self _) (Nat.le_add_left _ _)) hholds
    (fun q => hdecodes.printable s p q) ?_
  intro q id hq hholds i hi c hc pad hpad
  obtain ⟨j, hj, hcell⟩ := hholds.cell store id q i hi c hc
  have hmakeable := hdecodes.cells s p q Cell.Makeable (fun _ hc => hc.refs) hrefs hq j hj c hcell
  exact .pure _ _ ((readsAsCell_literal pad c hpad).imp fun t ht => ht.built t c hmakeable)

/-- There is no line end in the comment that names a method. -/
private theorem method_ne_newline (n : Nat) :
    ∀ c ∈ (" method " ++ toString n).toList, c ≠ '\n' := by
  intro c hc
  rw [String.toList_append, Nat.toString_eq_repr, Nat.toList_repr] at hc
  rcases List.mem_append.mp hc with hc | hc
  · have hword : " method ".toList.all (· ≠ '\n') := by decide
    exact of_decide_eq_true (List.all_eq_true.mp hword c hc)
  · rintro rfl
    exact absurd (Text.isDigit_toDigits n _ hc) (by decide)

/-- A cell in which a method stands is printed as text that builds it again. -/
theorem printMethod_gives (m : JumpTable.Method) (c : Cell) (pad : String)
    (hpad : ∀ ch ∈ pad.toList, ch = ' ') (hm : m.StandsIn IsCode c) (hc : c.Fits) :
    Print.Gives (printMethod false m c pad) (ReadsAsContent (Built · c)) expected := by
  obtain ⟨v, s, hv, hbits, hrefs, hshows, hload⟩ := hm
  obtain ⟨p, f, hassembles, hfbits, hfrefs, hdecodes⟩ := hv.decodes
  have hbelow : ∀ r ∈ s.refs, r.Makeable := by
    rw [hshows.refs_eq]
    exact hv.1.refs
  unfold printMethod
  refine .bind _ _ _ _ (printPlain_gives m.store m.root s p (pad ++ indentStep)
    (indent_blank pad hpad) (hdecodes s hshows) hbelow hload) ?_
  intro code hcode
  refine .pure _ _ ?_
  -- The bits before the code are printed as raw bits, if there are any.
  have hfront : ReadsAsParts
      (fun blobs children => BlobsSpell blobs (c.bits.take m.offset) ∧ children = [])
      (if m.offset = 0 then ""
        else pad ++ ".blob " ++ bitsText (c.bits.take m.offset) ++ "\n") := by
    intro line at' rest
    split
    · rename_i hzero
      exact ⟨line, [], [], Reads.nothing line _, .inl ⟨rfl, by rw [hzero, List.take_zero]⟩, rfl⟩
    · exact ⟨line + 1, _, [], reads_blob pad _ line at' rest hpad, .inr ⟨line, rfl⟩, rfl⟩
  have hreads := readsAsContent_code _ _ _ code pad _ hfront (method_ne_newline m.key) hcode hpad
  have hopen : toString "\x7b ;; method " ++ toString m.key ++ toString "\n" =
      "\x7b" ++ (" " ++ (";;" ++ (" method " ++ toString m.key) ++ "\n")) := by
    rw [show toString "\x7b ;; method " = "\x7b" ++ (" " ++ (";;" ++ " method ")) from rfl]
    simp only [String.append_assoc]
    rfl
  rw [hopen]
  refine hreads.imp ?_
  rintro _ ⟨line, blobs, items, rfl, hblobs, hitems⟩
  refine built_code line blobs items p f _ c hblobs hitems hassembles ?_
    (hrefs.trans hfrefs.symm) hc
  rw [hfbits]
  exact hbits

/-! ## Tables -/

/-- A path that is one reference longer. -/
private theorem follow_concat (root full ref : Cell) (path : Path) (i : Nat)
    (hfull : root.follow path = some full) (href : full.refs[i]? = some ref) :
    root.follow (path ++ [i]) = some ref := by
  rw [root.follow_append full path [i] hfull, full.follow_cons ref i [] href, Cell.follow_nil]

/-- Bits and references that build those of a cell build the cell. -/
private theorem readsAsContent_built (c : Cell) (body : String)
    (h : ReadsAsParts (fun blobs children => BlobsSpell blobs c.bits ∧
      List.Forall₂ Built children c.refs) body) (hc : c.Makeable) :
    ReadsAsContent (Built · c) body := by
  apply readsAsContent_of_parts
  intro line at' rest
  obtain ⟨line', blobs, children, hreads, hblobs, hchildren⟩ := h line at' rest
  exact ⟨line', blobs, children, hreads,
    fun line => built_raw line blobs children c hblobs hchildren hc⟩

/-- The lines of a cell, of which `c` is the bits and the first references: those below it in
    which methods stand are printed as code. -/
private theorem printNodeBody_gives (root : Cell) (methods : JumpTable.Methods)
    (hmethods : methods.StandIn IsCode root) (c full : Cell) (path : Path) (pad : String)
    (hpad : ∀ ch ∈ pad.toList, ch = ' ') (hfull : root.follow path = some full)
    (hrefs : c.refs <+: full.refs) (hc : ∀ r ∈ c.refs, r.Makeable) :
    Print.Gives (printNodeBody false methods pad path c) (ReadsAsParts fun blobs children =>
      BlobsSpell blobs c.bits ∧ List.Forall₂ Built children c.refs) expected := by
  -- Induction along the references: those in front, then the last one and its line.
  induction c generalizing full path pad with
  | data bits =>
    refine .pure _ _ ?_
    intro line at' rest
    obtain ⟨line', blobs, children, hreads, hblobs, rfl⟩ :=
      readsAsParts_blobLine pad bits hpad line at' rest
    exact ⟨line', blobs, [], hreads, hblobs, .nil⟩
  | link c ref ihc ihref =>
    rw [Cell.refs_link] at hrefs hc
    -- The last reference of `c` is one of the whole cell, in the place behind those in front.
    have hlast : full.refs[c.refCount]? = some ref := by
      obtain ⟨others, hothers⟩ := hrefs
      rw [← hothers, List.append_assoc, Cell.refCount_eq,
        List.getElem?_append_right (Nat.le_refl _), Nat.sub_self]
      rfl
    have hhere := follow_concat root full ref path c.refCount hfull hlast
    have href := hc ref (by simp)
    have hinner := indent_blank pad hpad
    unfold printNodeBody
    refine .bind _ _ _ _ (ihc full path pad hpad hfull ((List.prefix_append _ _).trans hrefs)
      fun r hr => hc r (by simp [hr])) ?_
    intro front hfront
    have hlinked (body : String) (hbody : ReadsAsContent (Built · ref) body) :=
      readsAsParts_link Built c ref front body pad hfront hbody hpad
    dsimp only
    -- A reference leads to a method, which is printed as code, or to a node further down.
    split
    · rename_i m hm
      refine .bind _ _ _ _
        (printMethod_gives m ref _ hinner (hmethods.standsIn hhere hm) href.fits) ?_
      intro body hbody
      exact .pure _ _ (hlinked body hbody)
    · refine .bind _ _ _ _ (ihref ref _ _ hinner hhere (List.prefix_refl _) href.refs) ?_
      intro body hbody
      exact .pure _ _ (hlinked body (readsAsContent_built ref body hbody href))

/-- A jump table is printed as text that builds it again. -/
theorem printTable_gives (root : Cell) (methods : JumpTable.Methods) (pad : String)
    (hpad : ∀ ch ∈ pad.toList, ch = ' ') (hmethods : methods.StandIn IsCode root)
    (hroot : root.Makeable) :
    Print.Gives (printTable false root methods pad) (ReadsAsCell (Built · root)) expected := by
  have hinner := indent_blank pad hpad
  have hclosed (body : String) (hbody : ReadsAsContent (Built · root) body) :=
    readsAsCell_of_content (Built · root) root body pad hbody hpad
  unfold printTable
  dsimp only
  -- The root itself may have a method; otherwise its references are gone through.
  split
  · rename_i m hm
    refine .bind _ _ _ _
      (printMethod_gives m root _ hinner (hmethods.standsIn rfl hm) hroot.fits) ?_
    intro body hbody
    exact .pure _ _ (hclosed body hbody)
  · refine .bind _ _ _ _ (printNodeBody_gives root methods hmethods root root [] _ hinner rfl
      (List.prefix_refl _) hroot.refs) ?_
    intro body hbody
    exact .pure _ _ (hclosed body (readsAsContent_built root body hbody hroot))

/-- Keys of a jump table that cannot be resolved. -/
def Unresolved (e : PrintError) : Prop := ∃ error, e = .jumpTable (.resolution error)

/-- The cell of a marked instruction is printed as a jump table, unless its keys cannot be
    resolved. -/
theorem tablePrinter_gives (i : Instruction CodeId) (c : Cell) (pad : String) (width : Int)
    (hpad : ∀ ch ∈ pad.toList, ch = ' ') (hmarked : i.isMarked) (hkey : keyWidth? i = some width)
    (hwidth : 0 ≤ width) (htree : Dictionary.Tree IsCode width.toNat c)
    (hdistinct : c.DistinctDigests) (hc : c.Makeable) :
    Print.Gives (tablePrinter false i c pad) (ReadsAsCell (Built · c)) Unresolved := by
  have hmethods := JumpTable.mark_follow c width hwidth htree hdistinct
  have herror := JumpTable.mark_error c width hwidth htree fun v s hv => hv.loads v s
  unfold tablePrinter
  rw [if_pos hmarked, hkey]
  dsimp only
  split
  · rename_i e he
    rw [he] at herror
    obtain ⟨error, rfl⟩ := herror e rfl
    exact .throw _ _ ⟨error, rfl⟩
  · rename_i methods hmethodsEq
    rw [hmethodsEq] at hmethods
    exact printTable_gives c methods pad hpad hmethods hc

end CellCode.Listing
