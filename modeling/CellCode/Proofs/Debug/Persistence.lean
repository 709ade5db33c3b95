import CellCode.Proofs.Debug.Covering
import CellCode.Proofs.Debug.Records
import CellCode.Proofs.Json.RoundTrip
import CellCode.Proofs.Text.Digits

/-!
# Debug maps survive being kept as text

A debug map that is written as JSON and read again has the same hashes, the same offsets under each
of them, and the same position at each offset. That holds whenever every position has a file name
and a line that is not negative:

* A position is written as file, colon, line. The line has no colon, so the last colon is the one
  that was written, however many the file name has.
* Offsets are written as numbers and hashes as they are, so different ones have different names, and
  none of them replaces another one when the text is read.
* The members of an object come in order. They are inserted one after the other into a tree, which
  may then have another shape but knows the same.

## Key results

* `Position.parse_text`           which positions are read back from their texts
* `Map.parse?_toJson`             the text of a map is the JSON that it was written as
* `Map.ofJson_toJson`             a map is read back
* `Map.ofJson_toJson_of_ofCell`   so is the map of a cell and its debug tree
-/

namespace CellCode.Debug

/-! ## Positions -/

namespace Position

/-- The position has a file name, and its line is not negative. -/
def Readable (p : Position) : Prop := p.file ≠ "" ∧ 0 ≤ p.line

instance (p : Position) : Decidable p.Readable := inferInstanceAs (Decidable (_ ∧ _))

/-- A text is split at the last colon, whatever colons are in front of it. -/
theorem splitAtLastColon_append (file line : List Char) (h : ∀ c ∈ line, c ≠ ':') :
    splitAtLastColon (file ++ ':' :: line) = some (file, line) := by
  -- Read from its end, the text has the line in front of the last colon.
  have hreverse : (file ++ ':' :: line).reverse = line.reverse ++ ':' :: file.reverse := by simp
  have hline : ∀ c ∈ line.reverse, (c != ':') = true :=
    fun c hc => by simpa using h c (List.mem_reverse.mp hc)
  have hstop : ∀ c, (':' :: file.reverse).head? = some c → (c != ':') = false := by
    intro c hc
    cases hc
    rfl
  rw [splitAtLastColon, hreverse, dropWhile_stop _ _ hline hstop, takeWhile_stop _ _ hline hstop,
    List.reverse_reverse]
  show some (file.reverse.reverse, line) = _
  rw [List.reverse_reverse]

/-- A position is read back from its text if it has a file name and a line that is not negative, and
    else its text is none of a position. -/
theorem parse_text (p : Position) :
    parse p.text = if p.Readable then .ok p else .error (.malformedPosition p.text) := by
  obtain ⟨file, line⟩ := p
  have htext : (text ⟨file, line⟩).toList = file.toList ++ ':' :: (toString line).toList := by
    rw [text, String.toList_append, String.toList_append, List.append_assoc]
    rfl
  -- The line has no colon, so the one in front of it is the last.
  have hcolon (n : Nat) : ∀ c ∈ Nat.toDigits 10 n, c ≠ ':' := by
    rintro c hc rfl
    exact absurd (Text.isDigit_toDigits n ':' hc) (by decide)
  rw [parse, htext]
  cases line with
  | ofNat n =>
    have hlike : (Nat.toDigits 10 n).all Text.isDigitLike := by
      rw [List.all_eq_true]
      intro c hc
      rw [Text.isDigitLike, Text.isDecimal_of_isDigit c (Text.isDigit_toDigits n c hc),
        Bool.true_or]
    rw [Text.toList_toString_ofNat, splitAtLastColon_append _ _ (hcolon n)]
    by_cases hfile : file = ""
    · subst hfile
      rfl
    · have hreadable : Readable ⟨file, Int.ofNat n⟩ := ⟨hfile, Int.natCast_nonneg n⟩
      have hpassed : (file.toList.isEmpty || (Nat.toDigits 10 n).isEmpty ||
          !(Nat.toDigits 10 n).all Text.isDigitLike) = false := by
        simp [hlike, hfile, Nat.toDigits_ne_nil]
      simp only [hpassed, Text.decimalNat?_toDigits, String.ofList_toList, if_pos hreadable]
      rfl
  | negSucc n =>
    -- The sign is no digit.
    have hreadable : ¬ Readable ⟨file, Int.negSucc n⟩ := fun h =>
      (Int.negSucc_not_nonneg n).mp h.2
    have hsplit := splitAtLastColon_append file.toList ('-' :: Nat.toDigits 10 (n + 1))
      (List.forall_mem_cons.mpr ⟨by decide, hcolon _⟩)
    have hrefused : (file.toList.isEmpty || ('-' :: Nat.toDigits 10 (n + 1)).isEmpty ||
        !('-' :: Nat.toDigits 10 (n + 1)).all Text.isDigitLike) = true := by
      rw [List.all_cons, show Text.isDigitLike '-' = false by decide, Bool.false_and,
        Bool.not_false, Bool.or_true]
    rw [Text.toList_toString_negSucc, hsplit, if_neg hreadable]
    simp only [hrefused, if_true]

end Position

/-! ## Trees that are filled in order -/

/-- A tree into which the entries of another one are inserted in order knows the same. -/
theorem foldl_insert_toList {α β : Type} {cmp : α → α → Ordering} [BEq α] [Std.TransCmp cmp]
    [Std.LawfulEqCmp cmp] [Std.LawfulBEqCmp cmp] (t : Std.TreeMap α β cmp) :
    (t.toList.foldl (fun (t : Std.TreeMap α β cmp) e => t.insert e.1 e.2) ∅).Equiv t := by
  -- Each key is looked up in both trees.
  refine Std.TreeMap.ofList_equiv_foldl.symm.trans (.of_forall_constGet?_eq fun k => ?_)
  cases h : t[k]? with
  | none =>
    apply Std.TreeMap.getElem?_ofList_of_contains_eq_false
    rw [Std.TreeMap.map_fst_toList_eq_keys, Std.TreeMap.contains_keys,
      Std.TreeMap.contains_eq_isSome_getElem?, h, Option.isSome_none]
  | some v =>
    exact Std.TreeMap.getElem?_ofList_of_mem Std.ReflCmp.compare_self t.distinct_keys_toList
      (Std.TreeMap.mem_toList_iff_getElem?_eq_some.mpr h)

namespace Map

/-- The starts of a cell after they were inserted in order into a tree that had none. -/
def refilled (t : Offsets) : Offsets := t.toList.foldl (fun t (o, p) => t.insert o p) ∅

theorem toList_refilled (t : Offsets) : (refilled t).toList = t.toList :=
  (foldl_insert_toList t).toList_eq

/-- Cells that are not yet known are added as they come. -/
theorem foldl_add (cells : List (String × Offsets)) (m : Map)
    (hdistinct : (cells.map (·.1)).Nodup) (hnew : ∀ e ∈ cells, e.1 ∉ m.cells) :
    cells.foldl (fun m e => m.add e.1 e.2.toList) m =
      ⟨(cells.map fun e => (e.1, refilled e.2)).foldl (fun t e => t.insert e.1 e.2) m.cells⟩ := by
  induction cells generalizing m with
  | nil => rfl
  | cons e cells ih =>
    rw [List.map_cons, List.nodup_cons] at hdistinct
    rw [List.forall_mem_cons] at hnew
    -- Nothing is known of the first cell yet, so its starts come into an empty tree.
    have hadd : m.add e.1 e.2.toList = ⟨m.cells.insert e.1 (refilled e.2)⟩ := by
      rw [add, Std.TreeMap.getD_eq_fallback hnew.1]
      rfl
    rw [List.foldl_cons, hadd, ih _ hdistinct.2]
    · rfl
    · intro e' he' hmem
      rw [Std.TreeMap.mem_insert, Std.compare_eq_iff_eq] at hmem
      rcases hmem with heq | hmem
      · exact hdistinct.1 (heq ▸ List.mem_map_of_mem he')
      · exact hnew.2 e' he' hmem

/-! ## Text -/

/-- The starts of a cell as a JSON object. -/
def offsetsJson (t : Offsets) : Json :=
  .object (t.toList.map fun (o, p) => (toString o, .string p.text))

/-- A map as a JSON object. -/
def membersJson (m : Map) : List (String × Json) :=
  m.cells.toList.map fun (hash, t) => (hash, offsetsJson t)

theorem toJson_eq (m : Map) : m.toJson = (Json.object m.membersJson).render := rfl

/-- Different numbers have different texts. -/
theorem toString_injective (a b : Int) (h : toString a = toString b) : a = b := by
  have hread := Text.decimalInt?_toString a
  rw [h, Text.decimalInt?_toString b] at hread
  exact (Option.some.inj hread).symm

/-- Each start has a name of its own. -/
theorem ofTexts_offsetsJson (t : Offsets) : (offsetsJson t).OfTexts := by
  refine .object _ ?_ (List.forall_mem_map.mpr fun e _ => .string _)
  rw [List.map_map]
  have hkeys := t.nodup_keys
  rw [← Std.TreeMap.map_fst_toList_eq_keys] at hkeys
  -- Different offsets have different texts.
  have hnames : ((t.toList.map Prod.fst).map (toString (α := Int))).Nodup :=
    List.Pairwise.map _ (fun a b hne h => hne (toString_injective a b h)) hkeys
  rwa [List.map_map] at hnames

/-- The text of a map is the JSON that it was written as. -/
theorem parse?_toJson (m : Map) : Json.parse? m.toJson = some (.object m.membersJson) := by
  rw [toJson_eq]
  refine Json.parse?_render _ (.object _ ?_ (List.forall_mem_map.mpr fun e _ =>
    ofTexts_offsetsJson e.2))
  have hkeys := m.cells.nodup_keys
  rw [← Std.TreeMap.map_fst_toList_eq_keys] at hkeys
  rwa [membersJson, List.map_map]

/-! ## Reading -/

/-- Starts with positions that can be read are read back. -/
theorem mapM_startOfMember (t : Offsets) (h : ∀ e ∈ t.toList, e.2.Readable) :
    (t.toList.map fun (o, p) => (toString o, Json.string p.text)).mapM startOfMember =
      .ok t.toList := by
  rw [mapM_eq_ok, List.forall₂_map_left_iff, List.forall₂_same]
  intro e he
  simp only [startOfMember, Text.decimalInt?_toString, Position.parse_text, if_pos (h e he)]
  rfl

/-- The member of a cell adds its starts. -/
theorem addMember_offsetsJson (m : Map) (hash : String) (t : Offsets)
    (h : ∀ e ∈ t.toList, e.2.Readable) :
    m.addMember (hash, offsetsJson t) = .ok (m.add hash t.toList) := by
  simp only [addMember, offsetsJson, mapM_startOfMember t h]
  rfl

/-- All members together add the cells as they come. -/
theorem foldlM_addMember (cells : List (String × Offsets)) (m : Map)
    (h : ∀ c ∈ cells, ∀ e ∈ c.2.toList, e.2.Readable) :
    (cells.map fun (hash, t) => (hash, offsetsJson t)).foldlM addMember m =
      .ok (cells.foldl (fun m e => m.add e.1 e.2.toList) m) := by
  induction cells generalizing m with
  | nil => rfl
  | cons c cells ih =>
    rw [List.forall_mem_cons] at h
    rw [List.map_cons, List.foldlM_cons, addMember_offsetsJson m c.1 c.2 h.1]
    exact ih _ h.2

/-! ## Whole maps -/

/-- The cells of a map after they were inserted in order into a map that knew nothing. -/
def refilledCells (m : Map) : Std.TreeMap String Offsets :=
  (m.cells.map fun _ t => refilled t).toList.foldl (fun t e => t.insert e.1 e.2) ∅

theorem ofJson_toJson_eq (m : Map) (h : ∀ c ∈ m.cells.toList, ∀ e ∈ c.2.toList, e.2.Readable) :
    ofJson m.toJson = .ok ⟨m.refilledCells⟩ := by
  have hkeys := m.cells.nodup_keys
  rw [← Std.TreeMap.map_fst_toList_eq_keys] at hkeys
  simp only [ofJson, parse?_toJson]
  rw [membersJson, foldlM_addMember _ empty h, foldl_add _ empty hkeys, refilledCells,
    Std.TreeMap.toList_map]
  · rfl
  · exact fun e _ => Std.TreeMap.not_mem_emptyc

theorem get?_eq_some_iff (m : Map) (hash : String) (o : Int) (p : Position) :
    m.get? hash o = some p ↔ (o, p) ∈ m.offsets hash := by
  rw [offsets, Std.TreeMap.mem_toList_iff_getElem?_eq_some, getElem?_getD]

/-- A map whose positions have a file name and a line that is not negative is read back from its
    text: with the same hashes, and under each of them the same offsets and positions. -/
theorem ofJson_toJson (m : Map) (h : ∀ hash, ∀ e ∈ m.offsets hash, e.2.Readable) :
    ∃ m', ofJson m.toJson = .ok m' ∧ m'.hashes = m.hashes ∧
      (∀ hash, m'.offsets hash = m.offsets hash) ∧
      ∀ hash o, m'.get? hash o = m.get? hash o := by
  -- The trees may have other shapes than those of the map, so they are compared by what they know.
  have hcells := foldl_insert_toList (m.cells.map fun _ t => refilled t)
  have hoffsets (hash : String) :
      offsets ⟨m.refilledCells⟩ hash = m.offsets hash := by
    rw [offsets, offsets, refilledCells, hcells.getD_eq, Std.TreeMap.getD_map,
      Std.TreeMap.getD_eq_getD_getElem?]
    cases m.cells[hash]? with
    | none => rfl
    | some t => exact toList_refilled t
  refine ⟨⟨m.refilledCells⟩, ofJson_toJson_eq m ?_, ?_, hoffsets, fun hash o => ?_⟩
  · intro c hc e he
    apply h c.1 e
    rwa [offsets, Std.TreeMap.getD_eq_getD_getElem?,
      Std.TreeMap.mem_toList_iff_getElem?_eq_some.mp hc]
  · rw [hashes, hashes, refilledCells, hcells.keys_eq, Std.TreeMap.keys_map]
  · apply Option.ext
    intro p
    rw [get?_eq_some_iff, get?_eq_some_iff, hoffsets]

end Map

/-! ## Maps of cells -/

/-- The position stands in the tree. -/
inductive Node.Mentions : Node → Position → Prop
  | here {node : Node} {o : Int} {p : Position} (mem : (o, p) ∈ node.offsets) : Mentions node p
  | nested {node child : Node} {p : Position} (mem : child ∈ node.children)
      (inside : Mentions child p) : Mentions node p

theorem Node.mentions_mk (offsets : List (Int × Position)) (children : List Node) (p : Position) :
    (mk offsets children).Mentions p ↔
      (∃ e ∈ offsets, e.2 = p) ∨ ∃ child ∈ children, child.Mentions p := by
  constructor
  · intro h
    cases h with
    | here mem => exact .inl ⟨_, mem, rfl⟩
    | nested mem inside => exact .inr ⟨_, mem, inside⟩
  · intro h
    rcases h with ⟨⟨o, _⟩, mem, rfl⟩ | ⟨child, mem, inside⟩
    · exact .here mem
    · exact .nested mem inside

/-- What a tree records stands in it. -/
theorem Node.Records.mentions {node : Node} {s : Slice} {c : Cell} {o : Int} {p : Position}
    (h : node.Records s c o p) : node.Mentions p := by
  induction h with
  | here mem => exact .here mem
  | nested child_at _ _ ih => exact .nested (List.mem_of_getElem? child_at) ih

namespace Map

/-- The map of a cell and a debug tree is read back from its text with the same hashes, the same
    offsets under each hash and the same position at each offset, if all positions of the tree have
    a file name and a line that is not negative. -/
theorem ofJson_toJson_of_ofCell (c : Cell) (node : Node) (m : Map) (hmap : ofCell c node = .ok m)
    (hpositions : ∀ p, node.Mentions p → p.Readable) :
    ∃ m', ofJson m.toJson = .ok m' ∧ m'.hashes = m.hashes ∧
      (∀ hash, m'.offsets hash = m.offsets hash) ∧
      ∀ hash o, m'.get? hash o = m.get? hash o := by
  apply ofJson_toJson
  intro hash e he
  have hget := (get?_eq_some_iff m hash e.1 e.2).mpr he
  obtain ⟨d, hrecords, _⟩ := (ofCell_exact c node m hmap).sound hash e.1 e.2 hget
  exact hpositions e.2 hrecords.mentions

/-- A cell with two equal references. -/
def twinCell : Cell := .mk [true, false] [.data [true], .data [true]]

/-- Starts in `twinCell`, out of order and twice at one offset, and in both its references, in files
    with colons, quotation marks, a line break, and characters beyond ASCII and beyond 16 bits. -/
def twinNode : Node :=
  .mk [(10, ⟨"a:1:", 2⟩), (-1, ⟨"\"q\"\\", 0⟩), (10, ⟨":", 33⟩)]
    [.mk [(0, ⟨"é:\n", 7⟩)] [], .mk [(0, ⟨"😀", 8⟩), (1, ⟨"b", 9⟩)] []]

/-- The map of `twinCell` and `twinNode` is read back. -/
theorem ofJson_toJson_of_twinCell :
    (∀ p, twinNode.Mentions p → p.Readable) ∧ ∃ m m', ofCell twinCell twinNode = .ok m ∧
      ofJson m.toJson = .ok m' ∧ m'.hashes = m.hashes ∧
      (∀ hash, m'.offsets hash = m.offsets hash) ∧
      ∀ hash o, m'.get? hash o = m.get? hash o := by
  have hpositions : ∀ p, twinNode.Mentions p → p.Readable := by
    intro p hp
    simp only [twinNode, Node.mentions_mk, List.mem_cons, List.not_mem_nil, or_false, false_and,
      exists_false, exists_eq_or_imp, exists_eq_left] at hp
    rcases hp with (rfl | rfl | rfl) | rfl | rfl | rfl <;> decide
  have hfollows : twinNode.Follows twinCell := by
    refine .intro (by decide) ?_
    rw [show twinCell.refs = [.data [true], .data [true]] from rfl, twinNode]
    simp only [Node.children, List.zip_cons_cons, List.zip_nil_left, List.forall_mem_cons,
      List.not_mem_nil, false_imp_iff, implies_true, and_true]
    exact ⟨Node.follows_leaf _ _, Node.follows_leaf _ _⟩
  obtain ⟨m, hmap⟩ := ofCell_of_follows twinNode twinCell hfollows
  obtain ⟨m', h⟩ := ofJson_toJson_of_ofCell twinCell twinNode m hmap hpositions
  exact ⟨hpositions, m, m', hmap, h⟩

end Map

end CellCode.Debug
