import CellCode.Proofs.Debug.Covering
import CellCode.Proofs.Listing.Capacity

/-!
# Debug nodes in step with references

Debug nodes are paired with references by their places only, so each way to make a fragment has to
add as many children as references. All of them do but one: a dictionary comes with an empty debug
node, whatever its references. It is in step nevertheless wherever it gets to, because a dictionary
needs a number, and no instruction with a number takes code into its own bits and references.

* `encodeInstruction_inStep`   instructions
* `Part.inStep`                all parts of a listing
-/

namespace CellCode

/-- The debug node has a child for each reference, and they follow the references. -/
def Encoding.InStep (e : Encoding) : Prop := List.Forall₂ Debug.Node.Follows e.dbg.children e.refs

/-- The debug node of the code is fit for the field: code that becomes a reference needs a node
    that follows it, other code one that is in step. -/
def Field.Admits (field : Field) : Operand Fragment → Prop
  | .code f _ => f.dbg.Follows f.builder.cell ∧ (field ≠ .cell → f.InStep)
  | _ => True

/-- An operand that its field admits keeps an encoding in step. -/
theorem Field.Encodes.inStep {e e' : Encoding} {field : Field} {o : Operand Fragment}
    (h : Field.Encodes e field o e') (he : e.InStep) (hadmits : field.Admits o) : e'.InStep := by
  have href (f : Fragment) (hf : f.dbg.Follows f.builder.cell) : (e.addRef f).InStep :=
    List.rel_append he (.cons hf .nil)
  have hinline (f : Fragment) (bits : Bits) (hf : f.InStep) :
      ((e.addBits bits).addInline f).InStep :=
    List.rel_append he hf
  -- Only code and cells touch the references, and with each of them comes its node.
  cases h with
  | code f source => exact href f hadmits.1
  | cell f source => exact href f hadmits.1
  | inlineCode f source => exact hinline f _ (hadmits.2 nofun)
  | longInlineCode f source => exact hinline f _ (hadmits.2 nofun)
  | _ => exact he

/-- Operands that their fields admit keep it in step, one after the other. -/
theorem foldlM_encode_inStep (fields : List Field) (operands : List (Operand Fragment))
    (e e' : Encoding) (hadmits : List.Forall₂ Field.Admits fields operands) (he : e.InStep)
    (hfold : (fields.zip operands).foldlM (fun e (field, o) => field.encode o e) e = .ok e') :
    e'.InStep := by
  -- Induction on the fields.
  induction hadmits generalizing e with
  | nil =>
    cases hfold
    exact he
  | @cons field o fields operands hfield _ ih =>
    obtain ⟨e₁, he₁, hrest⟩ := (foldlM_cons_eq_ok _ _ _ _ _).mp hfold
    exact ih e₁ ((field.encodes_of_encode o e e₁ he₁).inStep he hfield) hrest

/-- So instructions are encoded in step. -/
theorem Opcode.Format.encode_inStep (h : Opcode.Format) (operands : List (Operand Fragment))
    (e : Encoding) (hadmits : List.Forall₂ Field.Admits h.fields operands)
    (hencode : h.encode operands = .ok e) : e.InStep := by
  unfold Opcode.Format.encode at hencode
  rw [if_neg (by rw [hadmits.length_eq]; simp)] at hencode
  exact foldlM_encode_inStep h.fields operands ⟨h.opcode, [], .empty⟩ e hadmits .nil hencode

namespace Listing

/-- The fields of an instruction admit its operands when the fragments of its arguments are in
    step. -/
theorem admits_of_resolve (format : Opcode.Format) (hmem : format ∈ Opcode.instructions)
    (arguments : List Argument) (operands : List (Operand Fragment))
    (hresolve : List.Forall₂ (fun argument o => argument.resolve arguments = .ok o) arguments
      operands) (hkinds : List.Forall₂ Field.SameKind format.fields operands)
    (harguments : ∀ argument ∈ arguments, argument.AllFragments Fragment.InStep) :
    List.Forall₂ Field.Admits format.fields operands := by
  refine forall₂_imp_mem _ _ ?_ hkinds
  intro field hfield o ho hkind
  obtain ⟨argument, hargument, hresolved⟩ := forall₂_mem_right _ _ hresolve o ho
  have hall := harguments argument hargument
  -- A dictionary may stand for a cell only, and its node has no children.
  cases argument with
  | operand o' =>
    cases hresolved
    cases o with
    | code f source => exact ⟨Fragment.InStep.follows hall, fun _ => hall⟩
    | _ => trivial
  | dict line entries =>
    obtain ⟨f, hf, ho⟩ := (bind_eq_ok _ _ _).mp hresolved
    cases ho
    obtain ⟨_, _, root, _, _, _, rfl⟩ := buildDictionary_eq_ok line entries arguments f hf
    have hcell := buildDictionary_fields format hmem arguments operands hresolve hkinds line
      entries _ hf field hfield hkind
    exact ⟨Debug.Node.follows_empty _, fun hne => absurd hcell hne⟩

/-- An instruction is in step when the fragments of its arguments are. -/
theorem encodeInstruction_inStep (line : Nat) (name : String) (arguments : List Argument)
    (e : Encoding) (harguments : ∀ argument ∈ arguments, argument.AllFragments Fragment.InStep)
    (h : encodeInstruction line name arguments = .ok e) : e.InStep := by
  obtain ⟨operands, hresolve, hencode⟩ := (encodeInstruction_eq_ok line name arguments e).mp h
  obtain ⟨format, hcandidate, hformat, _⟩ := firstEncoding_eq_ok operands _ none e hencode
  have hmem := (List.mem_filter.mp hcandidate).1
  exact format.encode_inStep operands e (admits_of_resolve format hmem arguments operands hresolve
    (format.encode_holds operands e hformat).1 harguments) hformat

variable (file : String)

/-- An item is in step when the parts in it are. -/
theorem assembleItem_inStep (item : Item) (command : Command)
    (hparts : ∀ part f, item.Has part → part.assemble file = .ok f → f.InStep)
    (h : assembleItem file item = .ok command) : command.fragment.InStep := by
  cases item with
  | blob b =>
    rw [assembleItem] at h
    -- Raw bits have neither references nor nodes.
    obtain ⟨_, _, h⟩ := (bind_eq_ok _ _ _).mp h
    cases h
    exact .nil
  | instruction line name terms blocks =>
    obtain ⟨arguments, e, hterms, hencode, rfl⟩ :=
      (assembleItem_terms_eq_ok file line name terms blocks command).mp h
    exact encodeInstruction_inStep line name arguments e
      (allFragments_of_terms file _ line name terms blocks arguments hparts hterms) hencode

/-- Commands in step are packed into a fragment in step. -/
theorem pack_inStep (commands : List Command) (f : Fragment)
    (hcommands : ∀ command ∈ commands, command.fragment.InStep) (h : pack commands = .ok f) :
    f.InStep :=
  -- Packing takes commands over one by one, and links at the ends of units.
  (pack_induct Fragment.InStep (fun f g hf hg => hf.takeOver f g hg)
    (fun f g hf hg _ => hf.linkTo f g hg) Fragment.inStep_empty commands f hcommands h).1

/-- Every part of a listing is assembled in step. -/
theorem Part.inStep (part : Part) (f : Fragment) (h : part.assemble file = .ok f) : f.InStep := by
  revert f
  -- Induction on the parts of the listing.
  refine Part.induct (fun part => ∀ f, part.assemble file = .ok f → f.InStep) ?_ ?_ part
  · intro items hparts f h
    obtain ⟨commands, hcommands, hpack⟩ := (bind_eq_ok _ _ _).mp h
    refine pack_inStep commands f ?_ hpack
    intro command hcommand
    obtain ⟨item, hitem, hassemble⟩ := forall₂_mem_right _ _
      ((assembleItems_eq_ok file items commands).mp hcommands) command hcommand
    exact assembleItem_inStep file item command (fun part f hpart => hparts item hitem part hpart f)
      hassemble
  · -- The children of a cell were assembled before it.
    intro line blobs children hchildren f h
    obtain ⟨raw, fragments, _, hfragments, _, _, rfl⟩ :=
      (Part.assemble_raw_eq_ok file line blobs children f).mp h
    have hparts := rawFragment_parts raw fragments
    rw [Fragment.InStep, hparts.1, hparts.2, List.forall₂_map_left_iff, List.forall₂_map_right_iff,
      List.forall₂_same]
    intro g hg
    obtain ⟨t, ht, hassemble⟩ := forall₂_mem_right _ _ hfragments g hg
    exact (hchildren t ht g hassemble).follows

end Listing

end CellCode
