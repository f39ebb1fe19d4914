/-!
# Outcomes of steps

When one step after another ends in a result, and when in an error.
-/

namespace DotModel

variable {ε α β γ : Type}

theorem bind_eq_ok_iff {x : Except ε α} {next : α → Except ε β} {b : β} :
    x >>= next = .ok b ↔ ∃ a, x = .ok a ∧ next a = .ok b := by
  cases x with
  | error e => simp [bind, Except.bind]
  | ok a => simp [bind, Except.bind]

theorem bind_eq_error_iff {x : Except ε α} {next : α → Except ε β} {e : ε} :
    x >>= next = .error e ↔ x = .error e ∨ ∃ a, x = .ok a ∧ next a = .error e := by
  cases x with
  | error e => simp [bind, Except.bind]
  | ok a => simp [bind, Except.bind]

theorem exists_eq_ok_of_isOk {x : Except ε α} (h : x.isOk = true) : ∃ a, x = .ok a := by
  cases x with
  | error e => cases h
  | ok a => exact ⟨a, rfl⟩

theorem exists_eq_ok_of_map_eq_ok {x : Except ε α} {f : α → β} {b : β} (h : x.map f = .ok b) :
    ∃ a, x = .ok a ∧ f a = b := by
  cases x with
  | error e => cases h
  | ok a =>
      cases h
      exact ⟨a, rfl, rfl⟩

@[simp] theorem ok_bind (a : α) (next : α → Except ε β) : Except.ok a >>= next = next a := rfl

@[simp] theorem error_bind (e : ε) (next : α → Except ε β) :
    Except.error e >>= next = .error e := rfl

theorem exists_mem_of_mapM_ok {step : α → Except ε β} {xs : List α} {ys : List β}
    (h : xs.mapM step = .ok ys) {y : β} (hy : y ∈ ys) : ∃ x ∈ xs, step x = .ok y := by
  induction xs generalizing ys with
  | nil =>
      cases h
      cases hy
  | cons x xs ih =>
      rw [List.mapM_cons, bind_eq_ok_iff] at h
      obtain ⟨z, hz, h⟩ := h
      rw [bind_eq_ok_iff] at h
      obtain ⟨zs, hzs, h⟩ := h
      cases h
      rcases List.mem_cons.mp hy with rfl | hy
      · exact ⟨x, List.mem_cons_self, hz⟩
      · obtain ⟨w, hw, hstep⟩ := ih hzs hy
        exact ⟨w, List.mem_cons_of_mem x hw, hstep⟩

/-- Steps that make `kept y` of what `back y` gives do so with a whole list. -/
theorem mapM_map_eq_pure_map {m : Type → Type} [Monad m] [LawfulMonad m] {step : α → m γ}
    {back : β → α} {kept : β → γ} {ys : List β} (h : ∀ y ∈ ys, step (back y) = pure (kept y)) :
    (ys.map back).mapM step = pure (ys.map kept) := by
  induction ys with
  | nil => rfl
  | cons y ys ih =>
      rw [List.forall_mem_cons] at h
      rw [List.map_cons, List.mapM_cons, h.1, ih h.2, pure_bind, pure_bind, List.map_cons]

/-- Steps that undo `back` turn the list of what `back` gives into the list itself. -/
theorem mapM_map_eq_pure {m : Type → Type} [Monad m] [LawfulMonad m] {step : α → m β}
    {back : β → α} {ys : List β} (h : ∀ y ∈ ys, step (back y) = pure y) :
    (ys.map back).mapM step = pure ys := by
  have hmap : (ys.map back).mapM step = pure (ys.map id) := mapM_map_eq_pure_map h
  rwa [List.map_id] at hmap

/-- What each step keeps of its argument, all steps together keep of the list. -/
theorem map_eq_map_of_mapM_ok {step : α → Except ε β} {f : α → γ} {k : β → γ} {xs : List α}
    {ys : List β} (h : xs.mapM step = .ok ys)
    (hkeep : ∀ x ∈ xs, ∀ y, step x = .ok y → k y = f x) : ys.map k = xs.map f := by
  induction xs generalizing ys with
  | nil =>
      cases h
      rfl
  | cons x xs ih =>
      rw [List.forall_mem_cons] at hkeep
      rw [List.mapM_cons, bind_eq_ok_iff] at h
      obtain ⟨y, hy, h⟩ := h
      rw [bind_eq_ok_iff] at h
      obtain ⟨ys', hys, h⟩ := h
      cases h
      rw [List.map_cons, List.map_cons, hkeep.1 y hy, ih hys hkeep.2]

end DotModel
