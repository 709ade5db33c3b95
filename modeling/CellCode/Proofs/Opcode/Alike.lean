import CellCode.Listing.Assemble
import CellCode.Proofs.Debug.Covering
import CellCode.Proofs.Result

/-!
# Encoding the same operands again

How operands are encoded depends on the bits and references of the code among them and not on
its debug nodes, and so does the choice between encodings.

* `Operand.Alike`          operands that hold the same
* `Format.encode_alike`    one encoding takes both or neither
* `firstEncoding_alike`    so the first that can be taken is the same
-/

namespace CellCode

/-- The operands are the same, but for the debug node of the code in them. -/
inductive Operand.Alike : Operand Fragment → Operand Fragment → Prop
  | plain (o : Operand Fragment) (h : o.body? = none) : Alike o o
  | code {f f' : Fragment} (source : Option Cell) (same : f'.builder = f.builder)
      (aligned : f'.Aligned) : Alike (.code f source) (.code f' source)

namespace Encoding

/-- The encodings hold the same, and the debug node of the second covers its references. -/
structure Alike (e e' : Encoding) : Prop where
  bits : e'.bits = e.bits
  refs : e'.refs = e.refs
  covers : List.Forall₂ Debug.Node.Covers e'.dbg.children e'.refs

/-- Both encodings succeed alike or fail for the same reason. -/
inductive Lockstep {ε : Type} : Except ε Encoding → Except ε Encoding → Prop
  | ok {e e' : Encoding} (h : e.Alike e') : Lockstep (.ok e) (.ok e')
  | error (x : ε) : Lockstep (.error x) (.error x)

variable {e e' : Encoding}

theorem Alike.addBits (h : e.Alike e') (bits : Bits) : (e.addBits bits).Alike (e'.addBits bits) :=
  ⟨by simp [Encoding.addBits, h.bits], h.refs, h.covers⟩

theorem Alike.addRef (h : e.Alike e') (f f' : Fragment) (same : f'.builder = f.builder)
    (aligned : f'.Aligned) : (e.addRef f).Alike (e'.addRef f') :=
  ⟨h.bits, by simp [Encoding.addRef, h.refs, same],
    List.rel_append h.covers (.cons aligned.covers .nil)⟩

theorem Alike.addInline (h : e.Alike e') (f f' : Fragment) (same : f'.builder = f.builder)
    (aligned : f'.Aligned) : (e.addInline f).Alike (e'.addInline f') :=
  ⟨by simp [Encoding.addInline, h.bits, same], by simp [Encoding.addInline, h.refs, same],
    List.rel_append h.covers aligned⟩

end Encoding

namespace Field

/-- An operand without code adds bits, whatever was encoded before it. -/
private theorem encode_plain (field : Field) (o : Operand Fragment) (h : o.body? = none) :
    ∃ added : Except EncodeError Bits, ∀ e, field.encode o e = added.map e.addBits := by
  have hnumber (r : Except EncodeError Bits) (e : Encoding) :
      (do return e.addBits (← r)) = r.map e.addBits := by
    cases r <;> rfl
  -- What is added depends on the field and the operand only. An operand of the wrong kind adds
  -- an error.
  cases field with
  | stack width =>
    cases o with
    | stack index => exact ⟨unsignedBits index width, hnumber _⟩
    | _ => exact ⟨.error (.wrongKind "a stack register"), fun e => rfl⟩
  | control width =>
    cases o with
    | control index => exact ⟨unsignedBits index width, hnumber _⟩
    | _ => exact ⟨.error (.wrongKind "a control register"), fun e => rfl⟩
  | unsigned width bias =>
    cases o with
    | integer value => exact ⟨unsignedBits (value - bias) width, hnumber _⟩
    | _ => exact ⟨.error (.wrongKind "an integer"), fun e => rfl⟩
  | signed width =>
    cases o with
    | integer value => exact ⟨signedBits value width, hnumber _⟩
    | _ => exact ⟨.error (.wrongKind "an integer"), fun e => rfl⟩
  | tiny =>
    cases o with
    | integer value =>
      refine ⟨if -5 ≤ value ∧ value ≤ 10 then .ok (.ofInt 4 value) else .error (.tinyRange value),
        ?_⟩
      intro e
      simp only [encode]
      split <;> rfl
    | _ => exact ⟨.error (.wrongKind "an integer"), fun e => rfl⟩
  | shortSlice =>
    cases o with
    | bits bits =>
      refine ⟨if (bits.length + 4) / 8 ≤ 15 then .ok (.ofNat 4 ((bits.length + 4) / 8) ++ bits ++
        true :: List.replicate (8 * ((bits.length + 4) / 8) + 4 - bits.length - 1) false)
        else .error (.sliceTooLong bits.length), ?_⟩
      intro e
      simp only [encode]
      split <;> rfl
    | _ => exact ⟨.error (.wrongKind "a bitstring"), fun e => rfl⟩
  -- An operand with code is what these fields take, so it is excluded here.
  | code =>
    cases o with
    | code f source => cases h
    | _ => exact ⟨.error (.wrongKind "a code block"), fun e => rfl⟩
  | cell =>
    cases o with
    | code f source => cases h
    | _ => exact ⟨.error (.wrongKind "a cell"), fun e => rfl⟩
  | inlineCode =>
    cases o with
    | code f source => cases h
    | _ => exact ⟨.error (.wrongKind "a code block"), fun e => rfl⟩
  | longInlineCode =>
    cases o with
    | code f source => cases h
    | _ => exact ⟨.error (.wrongKind "a code block"), fun e => rfl⟩

theorem encode_alike (field : Field) (o o' : Operand Fragment) (e e' : Encoding)
    (ho : o.Alike o') (he : e.Alike e') :
    Encoding.Lockstep (field.encode o e) (field.encode o' e') := by
  cases ho with
  | plain _ h =>
    obtain ⟨added, hadded⟩ := encode_plain field o h
    rw [hadded e, hadded e']
    cases added with
    | error x => exact .error x
    | ok bits => exact .ok (he.addBits bits)
  | @code f f' source same aligned =>
    cases field with
    | code => exact .ok (he.addRef f f' same aligned)
    | cell => exact .ok (he.addRef f f' same aligned)
    | inlineCode =>
      simp only [encode, same]
      split
      · exact .ok ((he.addBits _).addInline f f' same aligned)
      · exact .error _
    | longInlineCode =>
      simp only [encode, same]
      split
      · exact .ok ((he.addBits _).addInline f f' same aligned)
      · exact .error _
    | _ => exact .error _

end Field

/-- One encoding takes both rows of operands or neither. -/
theorem Opcode.Format.encode_alike (h : Opcode.Format) (os os' : List (Operand Fragment))
    (hos : List.Forall₂ Operand.Alike os os') :
    Encoding.Lockstep (h.encode os) (h.encode os') := by
  have hfields (fields : List Field) (e e' : Encoding) (he : e.Alike e') :
      Encoding.Lockstep
        ((fields.zip os).foldlM (fun e (pair : Field × _) => pair.1.encode pair.2 e) e)
        ((fields.zip os').foldlM (fun e (pair : Field × _) => pair.1.encode pair.2 e) e') := by
    induction hos generalizing fields e e' with
    | nil =>
      rw [List.zip_nil_right]
      exact .ok he
    | @cons o o' os os' ho _ ih =>
      cases fields with
      | nil => exact .ok he
      | cons field fields =>
        simp only [List.zip_cons_cons, List.foldlM_cons]
        have hfirst := field.encode_alike o o' e e' ho he
        generalize field.encode o e = x, field.encode o' e' = x' at hfirst
        cases hfirst with
        | error x => exact .error x
        | ok he => exact ih fields _ _ he
  unfold encode
  rw [hos.length_eq]
  split
  · exact .error _
  · exact hfields h.fields _ _ ⟨rfl, rfl, .nil⟩

/-- The first encoding that can be taken is the same. -/
theorem Listing.firstEncoding_alike (formats : List Opcode.Format) (reason : Option Unfit)
    (os os' : List (Operand Fragment)) (hos : List.Forall₂ Operand.Alike os os') :
    Encoding.Lockstep (firstEncoding os formats reason) (firstEncoding os' formats reason) := by
  induction formats generalizing reason with
  | nil => exact .error reason
  | cons format formats ih =>
    have hfirst := format.encode_alike os os' hos
    unfold firstEncoding tryEncode
    generalize format.encode os = x, format.encode os' = x' at hfirst
    cases hfirst with
    | error x => exact ih _
    | @ok e e' he =>
      dsimp only
      rw [he.bits]
      cases Opcode.standard.shadowing? format e.bits with
      | some other => exact ih _
      | none => exact .ok he

end CellCode
