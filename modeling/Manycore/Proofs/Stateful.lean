import Mathlib.Data.List.Basic

/-! # Computations that change a state and may fail

What a computation has done when it succeeds, step by step: each step hands its result and the state
it leaves to the next. It fails with the error of one of its steps.
-/

namespace Manycore.Stateful

variable {σ ε ε' α β : Type} {s s' : σ}

/-- The result of a computation, and the state that it leaves. -/
def outcome (x : ExceptT ε (StateM σ) α) (s : σ) : Except ε α × σ := x.run.run s

/-- From the state `s` the computation succeeds with `a` and leaves the state `s'`. -/
def Succeeds (x : ExceptT ε (StateM σ) α) (s : σ) (a : α) (s' : σ) : Prop :=
  outcome x s = (.ok a, s')

theorem exists_succeeds {x : ExceptT ε (StateM σ) α} (h : (outcome x s).1.isOk = true) :
    ∃ a s', Succeeds x s a s' := by
  rcases hx : outcome x s with ⟨_ | a, s'⟩
  · rw [hx] at h
    cases h
  · exact ⟨a, s', hx⟩

theorem outcome_bind (x : ExceptT ε (StateM σ) α) (f : α → ExceptT ε (StateM σ) β) (s : σ) :
    outcome (x >>= f) s = match outcome x s with
      | (.ok a, s') => outcome (f a) s'
      | (.error e, s') => (.error e, s') := by
  simp only [outcome, bind, ExceptT.bind, ExceptT.mk, ExceptT.run, StateT.run, StateT.bind,
    ExceptT.bindCont]
  cases x s with
  | mk result mid => cases result <;> rfl

theorem outcome_pure (a : α) (s : σ) :
    outcome (pure a : ExceptT ε (StateM σ) α) s = (.ok a, s) := rfl

theorem outcome_throw (e : ε) (s : σ) :
    outcome (throw e : ExceptT ε (StateM σ) α) s = (.error e, s) := rfl

theorem outcome_modify (f : σ → σ) (s : σ) :
    outcome (modify f : ExceptT ε (StateM σ) PUnit) s = (.ok ⟨⟩, f s) := rfl

theorem succeeds_pure_iff {a b : α} :
    Succeeds (pure a : ExceptT ε (StateM σ) α) s b s' ↔ a = b ∧ s = s' := by
  show (Except.ok a, s) = (Except.ok b, s') ↔ _
  simp

theorem succeeds_ofExcept_iff {x : Except ε α} {a : α} :
    Succeeds (ExceptT.mk (pure x) : ExceptT ε (StateM σ) α) s a s' ↔ x = .ok a ∧ s = s' := by
  show (x, s) = (Except.ok a, s') ↔ _
  simp

theorem not_succeeds_throw {e : ε} {a : α} :
    ¬ Succeeds (throw e : ExceptT ε (StateM σ) α) s a s' := by
  show (Except.error e, s) ≠ (Except.ok a, s')
  simp

theorem succeeds_get_iff {t : σ} :
    Succeeds (get : ExceptT ε (StateM σ) σ) s t s' ↔ s = t ∧ s = s' := by
  show (Except.ok s, s) = (Except.ok t, s') ↔ _
  simp

theorem succeeds_set_iff {t : σ} {u : PUnit} :
    Succeeds (set t : ExceptT ε (StateM σ) PUnit) s u s' ↔ t = s' := by
  show (Except.ok PUnit.unit, t) = (Except.ok u, s') ↔ _
  simp

theorem succeeds_bind_iff {x : ExceptT ε (StateM σ) α} {f : α → ExceptT ε (StateM σ) β} {b : β} :
    Succeeds (x >>= f) s b s' ↔ ∃ a mid, Succeeds x s a mid ∧ Succeeds (f a) mid b s' := by
  unfold Succeeds
  rw [outcome_bind]
  rcases outcome x s with ⟨result, mid⟩
  cases result <;> simp

theorem succeeds_mapM_nil_iff {f : α → ExceptT ε (StateM σ) β} {ys : List β} :
    Succeeds (List.mapM f []) s ys s' ↔ [] = ys ∧ s = s' := by
  rw [List.mapM_nil, succeeds_pure_iff]

theorem succeeds_mapM_cons_iff {f : α → ExceptT ε (StateM σ) β} {x : α} {xs : List α}
    {ys : List β} : Succeeds (List.mapM f (x :: xs)) s ys s' ↔ ∃ y mid ys', Succeeds (f x) s y mid
      ∧ Succeeds (List.mapM f xs) mid ys' s' ∧ y :: ys' = ys := by
  simp only [List.mapM_cons, succeeds_bind_iff, succeeds_pure_iff]
  constructor
  · rintro ⟨y, mid, hy, ys', _, hys', heq, rfl⟩
    exact ⟨y, mid, ys', hy, hys', heq⟩
  · rintro ⟨y, mid, ys', hy, hys', heq⟩
    exact ⟨y, mid, hy, ys', s', hys', heq, rfl⟩

section

variable {e e' : ε}

/-- From the state `s` the computation fails with `e`. -/
def Fails (x : ExceptT ε (StateM σ) α) (s : σ) (e : ε) : Prop := (outcome x s).1 = .error e

theorem not_fails_pure {a : α} : ¬ Fails (pure a : ExceptT ε (StateM σ) α) s e :=
  fun h => nomatch h

theorem not_fails_get : ¬ Fails (get : ExceptT ε (StateM σ) σ) s e := fun h => nomatch h

theorem not_fails_set : ¬ Fails (set s' : ExceptT ε (StateM σ) PUnit) s e := fun h => nomatch h

theorem fails_throw_iff : Fails (throw e : ExceptT ε (StateM σ) α) s e' ↔ e = e' := by
  show (Except.error e : Except ε α) = Except.error e' ↔ _
  simp

theorem fails_ofExcept_iff {x : Except ε α} :
    Fails (ExceptT.mk (pure x) : ExceptT ε (StateM σ) α) s e ↔ x = .error e :=
  Iff.rfl

theorem fails_bind_iff {x : ExceptT ε (StateM σ) α} {f : α → ExceptT ε (StateM σ) β} :
    Fails (x >>= f) s e ↔ Fails x s e ∨ ∃ a mid, Succeeds x s a mid ∧ Fails (f a) mid e := by
  unfold Fails Succeeds
  rw [outcome_bind]
  rcases outcome x s with ⟨result, mid⟩
  cases result <;> simp

theorem exists_of_fails_mapM {f : α → ExceptT ε (StateM σ) β} {xs : List α}
    (h : Fails (List.mapM f xs) s e) : ∃ x ∈ xs, ∃ mid, Fails (f x) mid e := by
  induction xs generalizing s with
  | nil => exact absurd h not_fails_pure
  | cons x rest ih =>
      rw [List.mapM_cons, fails_bind_iff] at h
      rcases h with hx | ⟨y, mid, -, h⟩
      · exact ⟨x, List.mem_cons_self, s, hx⟩
      · rcases fails_bind_iff.mp h with hrest | ⟨_, _, -, hpure⟩
        · obtain ⟨x', hx', hf⟩ := ih hrest
          exact ⟨x', List.mem_cons_of_mem _ hx', hf⟩
        · exact absurd hpure not_fails_pure

end

section

variable {e : ε}

theorem outcome_bind_eq_error_iff {x : ExceptT ε (StateM σ) α} {f : α → ExceptT ε (StateM σ) β} :
    outcome (x >>= f) s = (.error e, s') ↔ outcome x s = (.error e, s')
      ∨ ∃ a mid, Succeeds x s a mid ∧ outcome (f a) mid = (.error e, s') := by
  unfold Succeeds
  rw [outcome_bind]
  rcases outcome x s with ⟨result, mid⟩
  cases result <;> simp

/-- A loop fails at the first step that fails, and leaves what the steps before it have made. -/
theorem outcome_forM_eq_error_iff {f : α → ExceptT ε (StateM σ) PUnit} {xs : List α} :
    outcome (forM xs f) s = (.error e, s') ↔ ∃ before x after mid, xs = before ++ x :: after
      ∧ Succeeds (forM before f) s ⟨⟩ mid ∧ outcome (f x) mid = (.error e, s') := by
  induction xs generalizing s with
  | nil =>
      constructor
      · intro h
        cases h
      · rintro ⟨before, x, after, -, hnil, -⟩
        simp at hnil
  | cons x rest ih =>
      rw [List.forM_cons, outcome_bind_eq_error_iff]
      constructor
      · rintro (hx | ⟨_, mid, hx, hrest⟩)
        · exact ⟨[], x, rest, s, rfl, rfl, hx⟩
        · obtain ⟨before, y, after, mid', rfl, hbefore, hy⟩ := ih.mp hrest
          exact ⟨x :: before, y, after, mid', rfl, succeeds_bind_iff.mpr ⟨_, mid, hx, hbefore⟩, hy⟩
      · rintro ⟨before, y, after, mid', hsplit, hbefore, hy⟩
        cases before with
        | nil =>
            cases hsplit
            cases hbefore
            exact .inl hy
        | cons _ before =>
            cases hsplit
            obtain ⟨_, mid, hx, hbefore⟩ := succeeds_bind_iff.mp hbefore
            exact .inr ⟨_, mid, hx, ih.mpr ⟨before, y, after, mid', rfl, hbefore, hy⟩⟩

theorem succeeds_forM_iff {f : α → ExceptT ε (StateM σ) PUnit} {p : α → Prop} {g : σ → α → σ}
    (hstep : ∀ x s s', Succeeds (f x) s ⟨⟩ s' ↔ p x ∧ s' = g s x) {xs : List α} :
    Succeeds (forM xs f) s ⟨⟩ s' ↔ (∀ x ∈ xs, p x) ∧ s' = xs.foldl g s := by
  induction xs generalizing s with
  | nil =>
      rw [List.forM_nil, succeeds_pure_iff]
      simp [eq_comm]
  | cons x rest ih =>
      rw [List.forM_cons, succeeds_bind_iff]
      simp only [hstep, ih, List.forall_mem_cons, List.foldl_cons]
      constructor
      · rintro ⟨_, mid, ⟨hx, rfl⟩, hrest, rfl⟩
        exact ⟨⟨hx, hrest⟩, rfl⟩
      · rintro ⟨⟨hx, hrest⟩, rfl⟩
        exact ⟨⟨⟩, _, ⟨hx, rfl⟩, hrest, rfl⟩

end

end Manycore.Stateful
