import CellCode.Result
import Mathlib.Data.List.Forall2

/-!
# Results that may fail

How a successful computation in `Except` comes apart: a map or a fold that succeeds did so in each
of its steps, and one that fails did so in one of them. Steps on a state that is changed in place
fail where they look for something that is not there.
-/

namespace CellCode

variable {ε α β : Type}

/-- A fold that succeeds took its first step. -/
theorem foldlM_cons_eq_ok (f : β → α → Except ε β) (b : β) (a : α) (as : List α) (c : β) :
    (a :: as).foldlM f b = .ok c ↔ ∃ b', f b a = .ok b' ∧ as.foldlM f b' = .ok c := by
  rw [List.foldlM_cons]
  exact bind_eq_ok _ _ _

/-- Results computed in order are there exactly when each of them is. -/
theorem inOrder_eq_ok (f : α → Except ε β) (g : List α → Except ε (List β)) (hnil : g [] = .ok [])
    (hcons : ∀ a as, g (a :: as) = f a >>= fun b => g as >>= fun bs => .ok (b :: bs))
    (as : List α) (bs : List β) : g as = .ok bs ↔ List.Forall₂ (fun a b => f a = .ok b) as bs := by
  induction as generalizing bs with
  | nil =>
    rw [hnil, List.forall₂_nil_left_iff]
    exact ⟨fun h => by cases h; rfl, fun h => by rw [h]⟩
  | cons a as ih =>
    rw [hcons, List.forall₂_cons_left_iff]
    simp only [bind_eq_ok, ih]
    constructor
    · rintro ⟨b, hb, bs, hbs, h⟩
      cases h
      exact ⟨b, bs, hb, hbs, rfl⟩
    · rintro ⟨b, bs, hb, hbs, rfl⟩
      exact ⟨b, hb, bs, hbs, rfl⟩

theorem mapM_eq_ok (f : α → Except ε β) (as : List α) (bs : List β) :
    as.mapM f = .ok bs ↔ List.Forall₂ (fun a b => f a = .ok b) as bs :=
  inOrder_eq_ok f (List.mapM f) rfl (fun _ _ => List.mapM_cons) as bs

/-- Results computed in order are those of `List.mapM`. -/
theorem inOrder_eq_mapM (f : α → Except ε β) (g : List α → Except ε (List β)) (hnil : g [] = .ok [])
    (hcons : ∀ a as, g (a :: as) = f a >>= fun b => g as >>= fun bs => .ok (b :: bs))
    (as : List α) : g as = as.mapM f := by
  induction as with
  | nil => exact hnil
  | cons a as ih =>
    rw [hcons, ih, List.mapM_cons]
    rfl

/-- A function applied to each result is applied to all of them. -/
theorem mapM_map_result {γ : Type} (f : α → Except ε β) (h : β → γ) (as : List α) :
    as.mapM (fun a => h <$> f a) = List.map h <$> as.mapM f := by
  induction as with
  | nil => rfl
  | cons a as ih =>
    rw [List.mapM_cons, List.mapM_cons, ih]
    cases f a with
    | error e => rfl
    | ok b => cases as.mapM f <;> rfl

/-- A result that is there is there whatever its error would be called. -/
theorem mapError_eq_ok {ε' : Type} (f : ε → ε') (x : Except ε α) (a : α) :
    x.mapError f = .ok a ↔ x = .ok a := by
  cases x <;> simp [Except.mapError]

/-- Steps whose errors are called otherwise make up the whole with its errors called so. -/
theorem mapError_bind {ε' : Type} (g : ε → ε') (x : Except ε α) (f : α → Except ε β)
    (f' : α → Except ε' β) (h : ∀ a, x = .ok a → f' a = (f a).mapError g) :
    (x.mapError g >>= f') = (x >>= f).mapError g := by
  cases x with
  | error e => rfl
  | ok a => exact h a rfl

/-- An error of results computed in order is that of one of them. -/
theorem exists_of_mapM_eq_error (f : α → Except ε β) (as : List α) (e : ε)
    (h : as.mapM f = .error e) : ∃ a ∈ as, f a = .error e := by
  induction as with
  | nil => cases h
  | cons a as ih =>
    rw [List.mapM_cons, bind_eq_error] at h
    rcases h with h | ⟨b, _, h⟩
    · exact ⟨a, List.mem_cons_self, h⟩
    · rcases (bind_eq_error _ _ _).mp h with h | ⟨bs, _, h⟩
      · obtain ⟨a', ha', h'⟩ := ih h
        exact ⟨a', List.mem_cons_of_mem _ ha', h'⟩
      · cases h

/-- A fold fails in one of its steps. -/
theorem exists_of_foldlM_eq_error (f : β → α → Except ε β) (b : β) (as : List α) (e : ε)
    (h : as.foldlM f b = .error e) : ∃ a ∈ as, ∃ b', f b' a = .error e := by
  induction as generalizing b with
  | nil => cases h
  | cons a as ih =>
    rw [List.foldlM_cons, bind_eq_error] at h
    rcases h with h | ⟨b', _, h⟩
    · exact ⟨a, List.mem_cons_self, b, h⟩
    · obtain ⟨a', ha', h'⟩ := ih b' h
      exact ⟨a', List.mem_cons_of_mem _ ha', h'⟩

/-- A result that forgets its error is there exactly when there was one. -/
theorem toOption_eq_some (x : Except ε α) (a : α) : x.toOption = some a ↔ x = .ok a := by
  cases x <;> simp [Except.toOption]

/-! ## Steps in place -/

variable {σ : Type}

/-- Looks at the state, and fails if there is not what it looks for. -/
def look (f : σ → Except ε α) : EStateM ε σ α := do
  MonadExcept.ofExcept (f (← get))

/-- A look leaves the state as it is. -/
theorem look_apply (f : σ → Except ε α) (s : σ) :
    look f s = match f s with
      | .ok a => .ok a s
      | .error e => .error e s := by
  show (MonadExcept.ofExcept (f s) : EStateM ε σ α) s = _
  cases f s <;> rfl

/-- Steps after a look fail where the look fails, and find the state as it was. -/
theorem look_bind (f : σ → Except ε α) (x : α → EStateM ε σ β) (s : σ) :
    (look f >>= x) s = match f s with
      | .ok a => x a s
      | .error e => .error e s := by
  show EStateM.bind (look f) x s = _
  rw [EStateM.bind, look_apply]
  cases f s <;> rfl

end CellCode
