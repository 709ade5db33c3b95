import CellCode.Listing.Parser
import CellCode.Proofs.Listing.Tokens
import Mathlib.Data.List.Forall2

/-!
# Reading printed text

Printed text is made up of pieces, and each piece takes the reader from the constructs that are
open before it to those that are open behind it. The pieces are put together as the listing is:
operands behind a name, code and cells in braces.

* `Reads`                 a piece of text takes the reader from here to there
* `ReadsAsTerm`, `ReadsAsCell`, `ReadsAsBlock`, `ReadsAsItems`   pieces that are read as a
  construct, wherever the construct may stand
* `parse_of_readsAsItems` a whole listing
-/

namespace CellCode.Listing

/-! ## Pieces of text -/

/-- The text takes the reader from these open constructs to those, if what follows the text
    lets it. -/
def Reads (follow : List Char → Prop) (text : String) (line : Nat) (frames : Frames) (line' : Nat)
    (frames' : Frames) : Prop :=
  ∃ lexemes : List Lexeme,
    (∀ rest, follow rest → lexFrom line (text.toList ++ rest) = lexemes ++ lexFrom line' rest) ∧
    lexemes.foldlM take frames = some frames'

/-- Nothing is asked of what follows. -/
abbrev Anything : List Char → Prop := fun _ => True

namespace Reads

variable {follow follow' : List Char → Prop} {a b : String} {l l₁ l₂ : Nat} {f f₁ f₂ : Frames}

/-- A text and then another are read one after the other, if the second is what the first may be
    followed by. -/
theorem append (ha : Reads follow a l f l₁ f₁) (hb : Reads follow' b l₁ f₁ l₂ f₂)
    (h : ∀ rest, follow' rest → follow (b.toList ++ rest)) : Reads follow' (a ++ b) l f l₂ f₂ := by
  obtain ⟨as, hlexa, htakea⟩ := ha
  obtain ⟨bs, hlexb, htakeb⟩ := hb
  refine ⟨as ++ bs, ?_, ?_⟩
  · -- The lexemes of both texts come one after the other, whatever follows the second.
    intro rest hrest
    rw [String.toList_append, List.append_assoc, hlexa _ (h rest hrest), hlexb rest hrest,
      List.append_assoc]
  · rw [List.foldlM_append, htakea]
    exact htakeb

/-- A text that asks nothing of what follows may be followed by any other. -/
theorem trans (ha : Reads Anything a l f l₁ f₁) (hb : Reads follow b l₁ f₁ l₂ f₂) :
    Reads follow (a ++ b) l f l₂ f₂ :=
  ha.append hb fun _ _ => trivial

/-- A text that asks nothing of what follows is read in front of anything. -/
theorem weaken (h : Reads Anything a l f l₁ f₁) : Reads follow a l f l₁ f₁ := by
  obtain ⟨as, hlex, htake⟩ := h
  exact ⟨as, fun rest _ => hlex rest trivial, htake⟩

/-- One token. -/
theorem token (c : Char) (cs : List Char) (t : Token) (ha : a.toList = c :: cs)
    (hspace : isSpace c = false) (hcomment : c ≠ ';')
    (htoken : ∀ rest, follow rest → tokenAt c (cs ++ rest) = (t, rest)) (hknown : t ≠ .unknown)
    (htake : take f ⟨l, t⟩ = some f₁) : Reads follow a l f l f₁ := by
  refine ⟨[⟨l, t⟩], ?_, ?_⟩
  · -- The token ends where the text ends, so the lexer goes on with what follows.
    intro rest hrest
    rw [ha, List.cons_append, lexFrom_token l c _ rest t hspace hcomment (htoken rest hrest) hknown]
    rfl
  · rw [List.foldlM_cons, htake]
    rfl

/-- An empty text changes nothing. -/
theorem nothing (l : Nat) (f : Frames) : Reads Anything "" l f l f :=
  ⟨[], fun _ _ => rfl, rfl⟩

/-- Blanks change nothing. -/
theorem blank (a : String) (l : Nat) (f : Frames) (h : ∀ c ∈ a.toList, c = ' ') :
    Reads Anything a l f l f :=
  ⟨[], fun rest _ => lexFrom_blank l a.toList rest h, rfl⟩

/-- A single blank changes nothing. -/
theorem space (l : Nat) (f : Frames) : Reads Anything " " l f l f :=
  blank " " l f fun _ hc => List.mem_singleton.mp hc

/-- The end of a line only adds to the number of the line. -/
theorem newline (l : Nat) (f : Frames) : Reads Anything "\n" l f (l + 1) f :=
  ⟨[], fun rest _ => lexFrom_newline l rest, rfl⟩

/-- Neither does a comment. -/
theorem comment (a : String) (l : Nat) (f : Frames) (h : ∀ c ∈ a.toList, c ≠ '\n') :
    Reads Anything (";;" ++ a ++ "\n") l f (l + 1) f := by
  refine ⟨[], ?_, rfl⟩
  intro rest _
  rw [String.toList_append, String.toList_append, List.append_assoc, List.append_assoc]
  exact lexFrom_comment l a.toList rest h

/-- An opening brace opens what may be opened there. -/
theorem opening (l : Nat) (f f₁ : Frames) (h : openBrace f = some f₁) :
    Reads Anything "\x7b" l f l f₁ :=
  token '\x7b' [] .opening rfl (by decide) (by decide) (fun _ _ => rfl) nofun h

/-- A closing brace closes what is open. -/
theorem closing (l : Nat) (f f₁ : Frames) (h : closeBrace f = some f₁) :
    Reads Anything "\x7d" l f l f₁ :=
  token '\x7d' [] .closing rfl (by decide) (by decide) (fun _ _ => rfl) nofun h

end Reads

/-! ## Operands -/

/-- The text is read as an operand of an instruction that waits for one. -/
def ReadsAsTerm (good : Term → Prop) (text : String) : Prop :=
  ∀ line at' name operands stage rest, stage = .name ∨ stage = .comma → ∃ line' term,
    Reads Stops text line (.instruction at' name operands [] stage :: rest) line'
      (.instruction at' name (operands ++ [term]) [] .operand :: rest) ∧ good term

/-- A single token that is handed to the instruction. -/
private theorem readsAsTerm_of_token (good : Term → Prop) (text : String) (c : Char)
    (cs : List Char) (t : Token) (term : Term) (htext : text.toList = c :: cs)
    (hspace : isSpace c = false) (hcomment : c ≠ ';')
    (htoken : ∀ rest, Stops rest → tokenAt c (cs ++ rest) = (t, rest)) (hknown : t ≠ .unknown)
    (htake : ∀ line at' name operands blocks stage rest,
      take (.instruction at' name operands blocks stage :: rest) ⟨line, t⟩ =
        giveOperand term (.instruction at' name operands blocks stage :: rest))
    (hgood : good term) : ReadsAsTerm good text := by
  intro line at' name operands stage rest hstage
  refine ⟨line, term, ?_, hgood⟩
  refine Reads.token c cs t htext hspace hcomment htoken hknown ?_
  rw [htake, giveOperand, if_pos hstage]

/-- A printed integer is read as an operand. -/
theorem readsAsTerm_integer (good : Term → Prop) (v : Int) (h : good (.integer v)) :
    ReadsAsTerm good (toString v) := by
  obtain ⟨c, cs, htext, hspace, hcomment, _⟩ := tokenAt_integer v [] nofun
  refine readsAsTerm_of_token good _ c cs (.integer v) (.integer v) htext hspace hcomment ?_ nofun
    (fun _ _ _ _ _ _ _ => rfl) h
  -- The first character of the text does not depend on what follows it.
  intro rest hrest
  obtain ⟨c', cs', htext', _, _, htoken⟩ := tokenAt_integer v rest hrest
  rw [htext] at htext'
  obtain ⟨rfl, rfl⟩ := List.cons.inj htext'
  exact htoken

theorem readsAsTerm_stack (good : Term → Prop) (n : Nat) (h : good (.stack n)) :
    ReadsAsTerm good ("s" ++ toString n) :=
  readsAsTerm_of_token good _ 's' (Nat.toDigits 10 n) (.stack n) (.stack n)
    (by rw [String.toList_append, Nat.toString_eq_repr, Nat.toList_repr]; rfl) (by decide)
    (by decide) (fun rest hrest => tokenAt_stack n rest hrest) nofun
    (fun _ _ _ _ _ _ _ => rfl) h

theorem readsAsTerm_control (good : Term → Prop) (n : Nat) (h : good (.control n)) :
    ReadsAsTerm good ("c" ++ toString n) :=
  readsAsTerm_of_token good _ 'c' (Nat.toDigits 10 n) (.control n) (.control n)
    (by rw [String.toList_append, Nat.toString_eq_repr, Nat.toList_repr]; rfl) (by decide)
    (by decide) (fun rest hrest => tokenAt_control n rest hrest) nofun
    (fun _ _ _ _ _ _ _ => rfl) h

theorem readsAsTerm_bits (good : Term → Prop) (bits : Bits) (h : good (.bits (bitsText bits))) :
    ReadsAsTerm good (bitsText bits) := by
  obtain ⟨cs, htext, _⟩ := tokenAt_bitsText bits []
  refine readsAsTerm_of_token good _ 'x' cs (.literal (bitsText bits)) (.bits (bitsText bits)) htext
    (by decide) (by decide) ?_ nofun (fun _ _ _ _ _ _ _ => rfl) h
  intro rest _
  obtain ⟨cs', htext', htoken⟩ := tokenAt_bitsText bits rest
  rw [htext] at htext'
  obtain ⟨_, rfl⟩ := List.cons.inj htext'
  exact htoken

/-- Operands divided by commas are read one after the other. -/
theorem reads_operands {α : Type} (spells : Term → α → Prop) (texts : List String) (as : List α)
    (h : List.Forall₂ (fun text a => ReadsAsTerm (spells · a) text) texts as) (hne : texts ≠ [])
    (line at' : Nat) (name : String) (operands : List Term) (stage : Stage) (rest : Frames)
    (hstage : stage = .name ∨ stage = .comma) :
    ∃ line' terms, Reads Stops (", ".intercalate texts) line
      (.instruction at' name operands [] stage :: rest) line'
      (.instruction at' name (operands ++ terms) [] .operand :: rest) ∧
      List.Forall₂ spells terms as := by
  -- Induction on the texts, for any operands that were read before.
  induction h generalizing line operands stage with
  | nil => exact absurd rfl hne
  | @cons text a texts as htext hrest ih =>
    obtain ⟨line₁, term, hreads, hterm⟩ := htext line at' name operands stage rest hstage
    -- The last operand has no comma behind it.
    cases hrest with
    | nil =>
      rw [String.intercalate_singleton]
      exact ⟨line₁, [term], hreads, .cons hterm .nil⟩
    | @cons text₂ a₂ texts as htext₂ hrest =>
      obtain ⟨line₂, terms, hreads₂, hterms⟩ :=
        ih nofun line₁ (operands ++ [term]) .comma (.inr rfl)
      have hcomma : Reads Anything ", " line₁
          (.instruction at' name (operands ++ [term]) [] .operand :: rest) line₁
          -- A comma and a blank behind an operand make the instruction wait for the next one.
          (.instruction at' name (operands ++ [term]) [] .comma :: rest) := by
        have htoken : Reads Anything "," line₁
            (.instruction at' name (operands ++ [term]) [] .operand :: rest) line₁
            (.instruction at' name (operands ++ [term]) [] .comma :: rest) :=
          Reads.token ',' [] .comma rfl (by decide) (by decide) (fun _ _ => rfl) nofun rfl
        exact htoken.trans (Reads.space _ _)
      refine ⟨line₂, term :: terms, ?_, .cons hterm hterms⟩
      rw [String.intercalate_cons_cons]
      rw [List.append_assoc, List.singleton_append] at hreads₂
      rw [String.append_assoc]
      refine hreads.append (hcomma.trans hreads₂) ?_
      -- What stands behind the operand is the comma, at which every token stops.
      intro more _
      rw [String.toList_append, List.append_assoc]
      exact stops_cons ',' _ (.inr (.inl rfl))

/-! ## Code in braces -/

/-- The text is read as items behind those that were read before. -/
def ReadsAsItems (good : List Item → Prop) (text : String) : Prop :=
  ∀ line frames items rest, closeInstruction frames = .items items :: rest →
    ∃ line' frames' more, Reads Anything text line frames line' frames' ∧
      closeInstruction frames' = .items (items ++ more) :: rest ∧ good more

/-- The text is read as code in braces behind an instruction. -/
def ReadsAsBlock (good : List Item → Prop) (text : String) : Prop :=
  ∀ line at' name operands blocks stage rest, stage ≠ .comma → ∃ line' items,
    Reads Anything text line (.instruction at' name operands blocks stage :: rest) line'
      (.instruction at' name operands (blocks ++ [items]) .block :: rest) ∧ good items

/-- What items that are read are good for may be weakened. -/
theorem ReadsAsItems.imp {good good' : List Item → Prop} {text : String}
    (h : ReadsAsItems good text) (himp : ∀ items, good items → good' items) :
    ReadsAsItems good' text := by
  intro line frames items rest hframes
  obtain ⟨line', frames', more, hreads, hclose, hmore⟩ := h line frames items rest hframes
  exact ⟨line', frames', more, hreads, hclose, himp more hmore⟩

/-- No text is read as no items. -/
theorem readsAsItems_nothing (good : List Item → Prop) (h : good []) : ReadsAsItems good "" := by
  intro line frames items rest hframes
  exact ⟨line, frames, [], Reads.nothing line frames, by rw [List.append_nil]; exact hframes, h⟩

/-- Items are read as a row, one behind the other. -/
theorem readsAsItems_cons {α : Type} (spells : Item → α → Prop) (a : α) (as : List α)
    (first others : String)
    (hfirst : ReadsAsItems (fun items => ∃ item, items = [item] ∧ spells item a) first)
    (hothers : ReadsAsItems (fun items => List.Forall₂ spells items as) others) :
    ReadsAsItems (fun items => List.Forall₂ spells items (a :: as)) (first ++ others) := by
  intro line frames items rest hframes
  obtain ⟨line₁, frames₁, _, hreads₁, hclose₁, item, rfl, hitem⟩ :=
    hfirst line frames items rest hframes
  obtain ⟨line₂, frames₂, more, hreads₂, hclose₂, hmore⟩ := hothers line₁ frames₁ _ rest hclose₁
  -- The items of both are read behind those before, the first item in front.
  refine ⟨line₂, frames₂, item :: more, hreads₁.trans hreads₂, ?_, .cons hitem hmore⟩
  rw [hclose₂, List.append_assoc]
  rfl

/-- Code in braces; `before` is what stands between the opening brace and the code. -/
private theorem readsAsBlock_of_items (good : List Item → Prop) (before body pad : String)
    (hbefore : ∀ line frames, ∃ line', Reads Anything before line frames line' frames)
    (hbody : ReadsAsItems good body) (hpad : ∀ c ∈ pad.toList, c = ' ') :
    ReadsAsBlock good (" " ++ ("\x7b" ++ (before ++ (body ++ (pad ++ "\x7d"))))) := by
  intro line at' name operands blocks stage rest hstage
  have hopen : Reads Anything "\x7b" line (.instruction at' name operands blocks stage :: rest) line
      (.items [] :: .instruction at' name operands blocks stage :: rest) := by
    -- Behind an instruction that does not wait for an operand a brace may open.
    apply Reads.opening
    rw [openBrace, if_neg hstage]
  obtain ⟨line₁, hreads₁⟩ :=
    hbefore line (.items [] :: .instruction at' name operands blocks stage :: rest)
  obtain ⟨line₂, frames₂, items, hreads₂, hclose₂, hgood⟩ :=
    hbody line₁ (.items [] :: .instruction at' name operands blocks stage :: rest) [] _ rfl
  have hend : Reads Anything "\x7d" line₂ frames₂ line₂
      (.instruction at' name operands (blocks ++ [items]) .block :: rest) := by
    -- The items in the braces become the next block of the instruction.
    apply Reads.closing
    rw [closeBrace, hclose₂]
    rfl
  refine ⟨line₂, items, ?_, hgood⟩
  -- A blank, the opening brace, what stands behind it, the items, the indentation and the closing
  -- brace.
  exact (Reads.space _ _).trans (hopen.trans (hreads₁.trans
    (hreads₂.trans ((Reads.blank pad _ _ hpad).trans hend))))

/-- A code on lines of its own is read as a block. -/
theorem readsAsBlock_plain (good : List Item → Prop) (body pad : String)
    (hbody : ReadsAsItems good body) (hpad : ∀ c ∈ pad.toList, c = ' ') :
    ReadsAsBlock good (" \x7b\n" ++ body ++ pad ++ "\x7d") := by
  have h := readsAsBlock_of_items good "\n" body pad
    (fun line frames => ⟨line + 1, Reads.newline line frames⟩) hbody hpad
  rwa [show (" \x7b\n" : String) = " " ++ ("\x7b" ++ "\n") from rfl, String.append_assoc,
    String.append_assoc, String.append_assoc, String.append_assoc]

theorem readsAsBlock_comment (good : List Item → Prop) (note body pad : String)
    (hnote : ∀ c ∈ note.toList, c ≠ '\n') (hbody : ReadsAsItems good body)
    (hpad : ∀ c ∈ pad.toList, c = ' ') :
    ReadsAsBlock good (" \x7b ;;" ++ note ++ "\n" ++ body ++ pad ++ "\x7d") := by
  have h := readsAsBlock_of_items good (" " ++ (";;" ++ note ++ "\n")) body pad
    (fun line frames => ⟨line + 1, (Reads.space line frames).trans
      (Reads.comment note line frames hnote)⟩) hbody hpad
  rw [show (" \x7b ;;" : String) = " " ++ ("\x7b" ++ (" " ++ ";;")) from rfl]
  simpa only [String.append_assoc] using h

/-! ## Instructions -/

/-- Codes in braces are read one after the other. -/
private theorem reads_blocks {α : Type} (spells : List Item → α → Prop) (texts : List String)
    (as : List α) (h : List.Forall₂ (fun text a => ReadsAsBlock (spells · a) text) texts as)
    (line at' : Nat) (name : String) (operands : List Term) (blocks : List (List Item))
    (stage : Stage) (rest : Frames) (hstage : stage ≠ .comma) :
    ∃ line' codes stage', Reads Anything (String.join texts) line
      (.instruction at' name operands blocks stage :: rest) line'
      (.instruction at' name operands (blocks ++ codes) stage' :: rest) ∧ stage' ≠ .comma ∧
      List.Forall₂ spells codes as := by
  -- Induction on the codes: behind each one the instruction has one more block and waits for no
  -- operand.
  induction h generalizing line blocks stage with
  | nil =>
    refine ⟨line, [], stage, ?_, hstage, .nil⟩
    rw [List.append_nil, String.join_nil]
    exact Reads.nothing line _
  | cons htext _ ih =>
    obtain ⟨line₁, items, hreads₁, hitems⟩ := htext line at' name operands blocks stage rest hstage
    obtain ⟨line₂, codes, stage₂, hreads₂, hstage₂, hcodes⟩ :=
      ih line₁ (blocks ++ [items]) .block (by decide)
    refine ⟨line₂, items :: codes, stage₂, ?_, hstage₂, .cons hitems hcodes⟩
    rw [String.join_cons]
    rw [List.append_assoc, List.singleton_append] at hreads₂
    exact hreads₁.trans hreads₂

/-- The characters of a name: a capital letter, then capital letters, digits and underscores. -/
def IsName (name : String) : Prop :=
  ∃ c cs, name.toList = c :: cs ∧ startsName c ∧ ∀ d ∈ cs, continuesName d

/-- A character that starts a name is neither blank nor the start of a comment. -/
private theorem startsName_visible (c : Char) (h : startsName c) : isSpace c = false ∧ c ≠ ';' := by
  constructor
  · -- None of the blank characters starts a name.
    cases hs : isSpace c with
    | false => rfl
    | true =>
      simp only [isSpace, Bool.or_eq_true, beq_iff_eq] at hs
      rcases hs with (((rfl | rfl) | rfl) | rfl) | rfl <;> cases h
  · rintro rfl
    cases h

/-- A line with an instruction: its name, its operands, and the codes in braces behind them. -/
theorem readsAsItems_instruction {α β : Type} (termSpells : Term → α → Prop)
    (blockSpells : List Item → β → Prop) (pad name : String) (texts blocks : List String)
    (as : List α) (bs : List β) (hpad : ∀ c ∈ pad.toList, c = ' ') (hname : IsName name)
    (htexts : List.Forall₂ (fun text a => ReadsAsTerm (termSpells · a) text) texts as)
    (hblocks : List.Forall₂ (fun text b => ReadsAsBlock (blockSpells · b) text) blocks bs)
    (hstart : ∀ block ∈ blocks, ∃ cs, block.toList = ' ' :: cs) :
    ReadsAsItems (fun items => ∃ line terms codes, items = [.instruction line name terms codes] ∧
        List.Forall₂ termSpells terms as ∧ List.Forall₂ blockSpells codes bs)
      (pad ++ name ++ (if texts.isEmpty then "" else " " ++ ", ".intercalate texts) ++
        String.join blocks ++ "\n") := by
  intro line frames items rest hframes
  obtain ⟨c, cs, hchars, hc, hcs⟩ := hname
  have hvisible := startsName_visible c hc
  have hmnemonic : Reads Stops name line frames line
      -- The mnemonic ends the instruction before it and starts a new one.
      (.instruction line name [] [] .name :: .items items :: rest) := by
    refine Reads.token c cs (.mnemonic name) hchars hvisible.1 hvisible.2 ?_ nofun ?_
    · intro more hmore
      rw [tokenAt_mnemonic c cs more hc hcs hmore, ← hchars, String.ofList_toList]
    · simp only [take, hframes]
  -- What follows the name or the operands starts with a blank or the line end.
  have hbehind (more : List Char) : Stops ((String.join blocks ++ "\n").toList ++ more) := by
    cases blocks with
    | nil => exact stops_cons '\n' _ (.inr (.inr rfl))
    | cons block blocks =>
      obtain ⟨cs, hcs⟩ := hstart block (by simp)
      rw [String.join_cons, String.toList_append, String.toList_append, hcs]
      exact stops_cons ' ' _ (.inl rfl)
  have hoperands : ∃ line₁ terms stage, Reads Stops
      (name ++ (if texts.isEmpty then "" else " " ++ ", ".intercalate texts)) line frames line₁
      (.instruction line name terms [] stage :: .items items :: rest) ∧ stage ≠ .comma ∧
      List.Forall₂ termSpells terms as := by
    -- Without operands the name stands alone; otherwise a blank and the operands follow.
    cases htexts with
    | nil =>
      refine ⟨line, [], .name, ?_, by decide, .nil⟩
      rw [List.isEmpty_nil, if_pos rfl, String.append_empty]
      exact hmnemonic
    | @cons text a texts as htext hrest =>
      obtain ⟨line₁, terms, hreads, hterms⟩ := reads_operands termSpells (text :: texts) (a :: as)
        (.cons htext hrest) nofun line line name [] .name (.items items :: rest) (.inl rfl)
      refine ⟨line₁, terms, .operand, ?_, by decide, hterms⟩
      rw [List.isEmpty_cons, if_neg (by decide)]
      refine hmnemonic.append ((Reads.space _ _).trans hreads) ?_
      intro more _
      rw [String.toList_append, List.append_assoc]
      exact stops_cons ' ' _ (.inl rfl)
  obtain ⟨line₁, terms, stage₁, hreads₁, hstage₁, hterms⟩ := hoperands
  -- The blocks follow the operands, and the line end follows the blocks.
  obtain ⟨line₂, codes, stage₂, hreads₂, hstage₂, hcodes⟩ := reads_blocks blockSpells blocks bs
    hblocks line₁ line name terms [] stage₁ (.items items :: rest) hstage₁
  rw [List.nil_append] at hreads₂
  refine ⟨line₂ + 1, .instruction line name terms codes stage₂ :: .items items :: rest,
    [.instruction line name terms codes], ?_, ?_, line, terms, codes, rfl, hterms, hcodes⟩
  · have hreads := (Reads.blank pad line frames hpad).trans
      (hreads₁.append (hreads₂.trans (Reads.newline line₂ _)) fun more _ => hbehind more)
    simpa only [String.append_assoc] using hreads
  · -- The instruction waits for no operand, so it may be closed.
    rw [closeInstruction, if_neg hstage₂]

/-! ## Whole listings -/

/-- A text that is read as items is parsed to them. -/
theorem parse_of_readsAsItems (good : List Item → Prop) (text : String)
    (h : ReadsAsItems good text) : ∃ items, parse (lex text) = .ok items ∧ good items := by
  have hparse (lexemes : List Lexeme) (frames frames' : Frames) (items : List Item) (last : Nat)
      (htake : lexemes.foldlM take frames = some frames')
      (hclose : closeInstruction frames' = [.items items]) :
      parseFrom frames last lexemes = .ok items := by
    -- Induction on the lexemes: the parser takes one after the other, and at the end it closes the
    -- instruction.
    induction lexemes generalizing frames last with
    | nil =>
      cases htake
      rw [parseFrom, hclose]
    | cons lexeme lexemes ih =>
      rw [List.foldlM_cons] at htake
      obtain ⟨frames₁, hfirst, hrest⟩ := Option.bind_eq_some_iff.mp htake
      rw [parseFrom, hfirst]
      exact ih frames₁ lexeme.line hrest
  obtain ⟨line', frames', items, ⟨lexemes, hlex, htake⟩, hclose, hgood⟩ := h 1 [.items []] [] [] rfl
  refine ⟨items, ?_, hgood⟩
  have hall := hlex [] trivial
  -- At the end of the text nothing is left to be read.
  rw [List.append_nil, lexFrom, List.append_nil] at hall
  rw [parse, lex, hall]
  exact hparse lexemes _ frames' items 1 htake hclose

end CellCode.Listing
