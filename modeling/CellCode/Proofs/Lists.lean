import Mathlib.Data.List.Forall2

/-!
# Lists in step and lists in parts

Two lists are in step when each member of one is related to the member of the other in the same
place. A list in two parts comes apart again where a test that holds of the first part fails.
-/

namespace CellCode

/-- Every member on the right is related to one on the left. -/
theorem forall₂_mem_right {α β : Type} {r : α → β → Prop} (as : List α) (bs : List β)
    (h : List.Forall₂ r as bs) (b : β) (hb : b ∈ bs) : ∃ a ∈ as, r a b := by
  induction h with
  | nil => cases hb
  | cons hab _ ih =>
    rcases List.mem_cons.mp hb with rfl | hb
    · exact ⟨_, List.mem_cons_self .., hab⟩
    · obtain ⟨a, ha, hab⟩ := ih hb
      exact ⟨a, List.mem_cons_of_mem _ ha, hab⟩

/-- Every member on the left is related to one on the right. -/
theorem forall₂_mem_left {α β : Type} {r : α → β → Prop} (as : List α) (bs : List β)
    (h : List.Forall₂ r as bs) (a : α) (ha : a ∈ as) : ∃ b ∈ bs, r a b :=
  forall₂_mem_right bs as h.flip a ha

/-- Members of related lists in one place are related. -/
theorem forall₂_getElem? {α β : Type} {r : α → β → Prop} {as : List α} {bs : List β}
    (h : List.Forall₂ r as bs) (i : Nat) (a : α) (ha : as[i]? = some a) :
    ∃ b, bs[i]? = some b ∧ r a b := by
  induction h generalizing i with
  | nil => cases ha
  | cons hab _ ih =>
    cases i with
    | zero =>
      cases ha
      exact ⟨_, rfl, hab⟩
    | succ i => exact ih i ha

/-- Related lists are related in another way when their members are. -/
theorem forall₂_imp_mem {α β : Type} {r s : α → β → Prop} (as : List α) (bs : List β)
    (h : ∀ a ∈ as, ∀ b ∈ bs, r a b → s a b) (hr : List.Forall₂ r as bs) : List.Forall₂ s as bs := by
  induction hr with
  | nil => exact .nil
  | cons hab _ ih =>
    refine .cons (h _ (List.mem_cons_self ..) _ (List.mem_cons_self ..) hab) (ih ?_)
    intro a ha b hb
    exact h a (List.mem_cons_of_mem _ ha) b (List.mem_cons_of_mem _ hb)

/-- Lists related to one list are related when their members are. -/
theorem forall₂_comp {α β γ : Type} {r : α → β → Prop} {s : γ → β → Prop} {t : α → γ → Prop}
    (h : ∀ a b c, r a b → s c b → t a c) (as : List α) (bs : List β) (cs : List γ)
    (hr : List.Forall₂ r as bs) (hs : List.Forall₂ s cs bs) : List.Forall₂ t as cs := by
  induction hr generalizing cs with
  | nil => cases hs; exact .nil
  | cons hab _ ih =>
    cases hs with
    | cons hcb hrest => exact .cons (h _ _ _ hab hcb) (ih _ hrest)

/-- What is related to a row of two lists is a row of two lists. -/
theorem forall₂_append_left {α β : Type} {r : α → β → Prop} (as as' : List α) (bs : List β)
    (h : List.Forall₂ r (as ++ as') bs) :
    ∃ bs₁ bs₂, List.Forall₂ r as bs₁ ∧ List.Forall₂ r as' bs₂ ∧ bs = bs₁ ++ bs₂ := by
  have htake := List.forall₂_take as.length h
  have hdrop := List.forall₂_drop as.length h
  rw [List.take_left] at htake
  rw [List.drop_left] at hdrop
  exact ⟨_, _, htake, hdrop, (List.take_append_drop _ _).symm⟩

/-- Related lists have a third one related to both when their members do. -/
theorem forall₂_exists {α β γ : Type} {r : α → β → Prop} {s : γ → α → Prop}
    {t : γ → β → Prop} (h : ∀ a b, r a b → ∃ c, s c a ∧ t c b) (as : List α) (bs : List β)
    (hr : List.Forall₂ r as bs) : ∃ cs, List.Forall₂ s cs as ∧ List.Forall₂ t cs bs := by
  induction hr with
  | nil => exact ⟨[], .nil, .nil⟩
  | cons hab _ ih =>
    obtain ⟨c, hca, hcb⟩ := h _ _ hab
    obtain ⟨cs, hcas, hcbs⟩ := ih
    exact ⟨c :: cs, .cons hca hcas, .cons hcb hcbs⟩

/-- What stands in a row on the right stands in a row on the left. -/
theorem forall₂_row {α β : Type} {r : α → β → Prop} (as : List α) (bs bs' : List β)
    (h : List.Forall₂ r as bs) (hrow : bs' <:+: bs) :
    ∃ as', as' <:+: as ∧ List.Forall₂ r as' bs' := by
  obtain ⟨before, after, rfl⟩ := hrow
  obtain ⟨front, as₃, hfront, _, rfl⟩ := forall₂_append_left _ _ as h.flip
  obtain ⟨as₁, as₂, _, h₂, rfl⟩ := forall₂_append_left _ _ front hfront
  exact ⟨as₂, ⟨as₁, as₃, rfl⟩, h₂.flip⟩

/-- Lists with the same images are equal, if members with the same image are. -/
theorem eq_of_map_eq {α β : Type} (f : α → β) (as bs : List α)
    (hf : ∀ a ∈ as, ∀ b ∈ bs, f a = f b → a = b) (h : as.map f = bs.map f) : as = bs := by
  have himages : List.Forall₂ (· = ·) (as.map f) (bs.map f) := by rw [h, List.forall₂_eq_eq_eq]
  rw [List.forall₂_map_left_iff, List.forall₂_map_right_iff] at himages
  rw [← List.forall₂_eq_eq_eq]
  exact forall₂_imp_mem as bs hf himages

/-! ## Lists in parts -/

section Parts

variable {α : Type} {p : α → Bool} (as rest : List α)

theorem takeWhile_stop (has : ∀ a ∈ as, p a) (hrest : ∀ a, rest.head? = some a → p a = false) :
    (as ++ rest).takeWhile p = as := by
  rw [List.takeWhile_append_of_pos has]
  cases rest with
  | nil => simp
  | cons a rest => rw [List.takeWhile_cons_of_neg (by simp [hrest a rfl]), List.append_nil]

theorem dropWhile_stop (has : ∀ a ∈ as, p a) (hrest : ∀ a, rest.head? = some a → p a = false) :
    (as ++ rest).dropWhile p = rest := by
  rw [List.dropWhile_append_of_pos has]
  cases rest with
  | nil => rfl
  | cons a rest => rw [List.dropWhile_cons_of_neg (by simp [hrest a rfl])]

/-- Lists that stop passing the test where their first parts end are equal part by part. -/
theorem append_inj_of_stop (bs rest' : List α) (has : ∀ a ∈ as, p a) (hbs : ∀ b ∈ bs, p b)
    (hrest : ∀ a, rest.head? = some a → p a = false)
    (hrest' : ∀ a, rest'.head? = some a → p a = false) (h : as ++ rest = bs ++ rest') :
    as = bs ∧ rest = rest' := by
  constructor
  · rw [← takeWhile_stop as rest has hrest, h, takeWhile_stop bs rest' hbs hrest']
  · rw [← dropWhile_stop as rest has hrest, h, dropWhile_stop bs rest' hbs hrest']

end Parts

end CellCode
