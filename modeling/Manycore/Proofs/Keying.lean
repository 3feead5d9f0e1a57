import Manycore.Keyspace.Pool
import Manycore.Proofs.Results
import Manycore.Proofs.Stateful

/-! # Computations on the pool

What a successful computation on the pool has done, step by step: each step hands its result and the
pool it leaves to the next.
-/

namespace Manycore

namespace Keying

variable {ε ε' α β : Type} {p q r : Pool}

/-- The result of a computation, and the pool that it leaves. -/
def outcome (x : Keying ε α) (p : Pool) : Except ε α × Pool := x.run.run p

/-- From the pool `p` the computation succeeds with `a` and leaves the pool `q`. -/
def Yields (x : Keying ε α) (p : Pool) (a : α) (q : Pool) : Prop := outcome x p = (.ok a, q)

theorem exists_yields_of_any {x : Keying ε α} {p : Pool} {P : α → Prop} [DecidablePred P]
    (h : (outcome x p).1.toOption.any (fun a => decide (P a)) = true) :
    ∃ a q, Yields x p a q ∧ P a := by
  cases hx : outcome x p with
  | mk result q =>
      rw [hx] at h
      cases result with
      | error e => cases h
      | ok a => exact ⟨a, q, hx, of_decide_eq_true h⟩

theorem outcome_pure (a : α) (p : Pool) : outcome (pure a : Keying ε α) p = (.ok a, p) := rfl

theorem outcome_throw (e : ε) (p : Pool) : outcome (throw e : Keying ε α) p = (.error e, p) := rfl

theorem outcome_get (p : Pool) : outcome (MonadState.get : Keying ε Pool) p = (.ok p, p) := rfl

theorem outcome_set (q p : Pool) : outcome (set q : Keying ε PUnit) p = (.ok ⟨⟩, q) := rfl

theorem outcome_bind (x : Keying ε α) (f : α → Keying ε β) (p : Pool) :
    outcome (x >>= f) p = match outcome x p with
      | (.ok a, q) => outcome (f a) q
      | (.error e, q) => (.error e, q) := by
  refine (Stateful.outcome_bind x f p).trans ?_
  rw [show Stateful.outcome x p = outcome x p from rfl]
  rcases outcome x p with ⟨result, mid⟩
  cases result <;> rfl

theorem outcome_ofExcept (x : Except ε α) (p : Pool) : outcome (ofExcept x) p = (x, p) := rfl

theorem outcome_mapError (x : Keying ε α) (f : ε → ε') (p : Pool) :
    outcome (x.mapError f) p = ((outcome x p).1.mapError f, (outcome x p).2) := rfl

theorem yields_pure_iff {a b : α} : Yields (pure a : Keying ε α) p b q ↔ a = b ∧ p = q :=
  Stateful.succeeds_pure_iff

theorem not_yields_throw {e : ε} {a : α} : ¬ Yields (throw e : Keying ε α) p a q :=
  Stateful.not_succeeds_throw

theorem yields_bind_iff {x : Keying ε α} {f : α → Keying ε β} {b : β} :
    Yields (x >>= f) p b r ↔ ∃ a q, Yields x p a q ∧ Yields (f a) q b r :=
  Stateful.succeeds_bind_iff

theorem yields_ofExcept_iff {x : Except ε α} {a : α} :
    Yields (ofExcept x) p a q ↔ x = .ok a ∧ p = q :=
  Stateful.succeeds_ofExcept_iff

theorem yields_mapError_iff {x : Keying ε α} {f : ε → ε'} {a : α} :
    Yields (x.mapError f) p a q ↔ Yields x p a q := by
  simp only [Yields, outcome_mapError]
  cases outcome x p with
  | mk result mid => cases result <;> simp [Except.mapError]

theorem yields_foldlM_nil_iff {f : β → α → Keying ε β} {b b' : β} :
    Yields (List.foldlM f b []) p b' q ↔ b = b' ∧ p = q := by
  rw [List.foldlM_nil, yields_pure_iff]

theorem yields_foldlM_cons_iff {f : β → α → Keying ε β} {x : α} {xs : List α} {b b' : β} :
    Yields (List.foldlM f b (x :: xs)) p b' r ↔
      ∃ mid q, Yields (f b x) p mid q ∧ Yields (List.foldlM f mid xs) q b' r := by
  rw [List.foldlM_cons, yields_bind_iff]

/-- What every step keeps holds at the end. -/
theorem yields_foldlM_induct {f : β → α → Keying ε β} {P : β → Prop} {xs : List α} {b b' : β}
    (h : Yields (xs.foldlM f b) p b' q) (hstart : P b)
    (hstep : ∀ x ∈ xs, ∀ b p b' q, P b → Yields (f b x) p b' q → P b') : P b' := by
  induction xs generalizing b p with
  | nil =>
      obtain ⟨rfl, -⟩ := yields_foldlM_nil_iff.mp h
      exact hstart
  | cons x rest ih =>
      obtain ⟨mid, p', hfirst, hrest⟩ := yields_foldlM_cons_iff.mp h
      exact ih hrest (hstep x List.mem_cons_self b p mid p' hstart hfirst)
        fun y hy => hstep y (List.mem_cons_of_mem _ hy)

/-- A computation whose steps can only do what a function does. -/
theorem eq_foldl_of_yields {f : β → α → Keying ε β} {g : β → α → β} {xs : List α} {b b' : β}
    (hstep : ∀ x ∈ xs, ∀ b p b' q, Yields (f b x) p b' q → b' = g b x)
    (h : Yields (xs.foldlM f b) p b' q) : b' = xs.foldl g b := by
  induction xs generalizing b p with
  | nil =>
      obtain ⟨rfl, -⟩ := yields_foldlM_nil_iff.mp h
      rfl
  | cons x rest ih =>
      obtain ⟨mid, p', hfirst, hrest⟩ := yields_foldlM_cons_iff.mp h
      obtain rfl := hstep x List.mem_cons_self b p mid p' hfirst
      exact ih (fun y hy => hstep y (List.mem_cons_of_mem _ hy)) hrest

theorem yields_foldlM {f : β → α → Keying ε β} {g : β → α → β} {xs : List α}
    (hstep : ∀ x ∈ xs, ∀ b, Yields (f b x) p (g b x) p) (b : β) :
    Yields (xs.foldlM f b) p (xs.foldl g b) p := by
  induction xs generalizing b with
  | nil => exact yields_foldlM_nil_iff.mpr ⟨rfl, rfl⟩
  | cons x rest ih =>
      obtain ⟨hfirst, hrest⟩ := List.forall_mem_cons.mp hstep
      exact yields_foldlM_cons_iff.mpr ⟨_, p, hfirst b, ih hrest _⟩

theorem yields_mapM_nil_iff {f : α → Keying ε β} {ys : List β} :
    Yields (List.mapM f []) p ys q ↔ [] = ys ∧ p = q :=
  Stateful.succeeds_mapM_nil_iff

theorem yields_mapM_cons_iff {f : α → Keying ε β} {x : α} {xs : List α} {ys : List β} :
    Yields (List.mapM f (x :: xs)) p ys r ↔ ∃ y q ys', Yields (f x) p y q
      ∧ Yields (List.mapM f xs) q ys' r ∧ y :: ys' = ys :=
  Stateful.succeeds_mapM_cons_iff

theorem exists_yields_mapM {f : α → Keying ε β} {xs : List α}
    (h : ∀ x ∈ xs, ∃ y, Yields (f x) p y p) : ∃ ys, Yields (xs.mapM f) p ys p := by
  induction xs with
  | nil => exact ⟨[], yields_mapM_nil_iff.mpr ⟨rfl, rfl⟩⟩
  | cons x rest ih =>
      obtain ⟨⟨y, hy⟩, hrest⟩ := List.forall_mem_cons.mp h
      obtain ⟨ys, hys⟩ := ih hrest
      exact ⟨y :: ys, yields_mapM_cons_iff.mpr ⟨y, p, ys, hy, hys, rfl⟩⟩

theorem forall₂_of_yields_mapM {f : α → Keying ε β} {xs : List α} {ys : List β}
    (h : Yields (List.mapM f xs) p ys q) :
    List.Forall₂ (fun x y => ∃ p q, Yields (f x) p y q) xs ys := by
  induction xs generalizing p ys with
  | nil =>
      obtain ⟨rfl, -⟩ := yields_mapM_nil_iff.mp h
      exact .nil
  | cons x rest ih =>
      obtain ⟨y, mid, ys', hy, hrest, rfl⟩ := yields_mapM_cons_iff.mp h
      exact .cons ⟨p, mid, hy⟩ (ih hrest)

/-- From the pool `p` the computation fails with `e`. -/
def Fails (x : Keying ε α) (p : Pool) (e : ε) : Prop := (outcome x p).1 = .error e

instance [DecidableEq ε] (x : Keying ε α) (p : Pool) (e : ε) : Decidable (Fails x p e) :=
  match hx : (outcome x p).1 with
  | .error e' => decidable_of_iff (e' = e) (by rw [Fails, hx, Except.error.injEq])
  | .ok _ => .isFalse (by rw [Fails, hx]; exact nofun)

theorem not_fails_pure {a : α} {e : ε} : ¬ Fails (pure a : Keying ε α) p e :=
  fun h => nomatch h

theorem not_fails_of_yields {x : Keying ε α} {a : α} (h : Yields x p a q) (e : ε) :
    ¬ Fails x p e := by
  rw [Fails, show outcome x p = (.ok a, q) from h]
  exact nofun

theorem fails_throw_iff {e e' : ε} : Fails (throw e : Keying ε α) p e' ↔ e = e' := by
  simp [Fails, outcome_throw]

theorem fails_ofExcept_iff {x : Except ε α} {e : ε} : Fails (ofExcept x) p e ↔ x = .error e := by
  simp [Fails, outcome_ofExcept]

theorem fails_ofExcept_mapError_iff {x : Except ε α} {f : ε → ε'} {e : ε'} :
    Fails (ofExcept (x.mapError f)) p e ↔ ∃ cause, x = .error cause ∧ f cause = e := by
  rw [fails_ofExcept_iff, mapError_eq_error_iff]

theorem fails_mapError_iff {x : Keying ε α} {f : ε → ε'} {e : ε'} :
    Fails (x.mapError f) p e ↔ ∃ cause, Fails x p cause ∧ f cause = e := by
  unfold Fails
  rw [outcome_mapError]
  cases (outcome x p).1 <;> simp [Except.mapError]

theorem fails_bind_iff {x : Keying ε α} {f : α → Keying ε β} {e : ε} :
    Fails (x >>= f) p e ↔ Fails x p e ∨ ∃ a q, Yields x p a q ∧ Fails (f a) q e :=
  Stateful.fails_bind_iff

theorem exists_of_fails_mapM {f : α → Keying ε β} {xs : List α} {e : ε}
    (h : Fails (List.mapM f xs) p e) : ∃ x ∈ xs, ∃ p', Fails (f x) p' e :=
  Stateful.exists_of_fails_mapM h

theorem not_fails_mapM {f : α → Keying ε β} {xs : List α} {e : ε}
    (h : ∀ x ∈ xs, ∀ p, ¬ Fails (f x) p e) : ¬ Fails (List.mapM f xs) p e := by
  intro hfails
  obtain ⟨x, hx, p', hstep⟩ := exists_of_fails_mapM hfails
  exact h x hx p' hstep

end Keying

namespace Pool

theorem layoutOf_setLayout {p : Pool} {k : Keyspace} (hk : k.layout < p.layouts.length)
    (l : Keyspace.Layout) : (p.setLayout k l).layoutOf k = l := by
  simp [layoutOf, setLayout, List.getD_eq_getElem?_getD, hk]

theorem layoutOf_setLayout_of_ne {p : Pool} {k k' : Keyspace} (hne : k'.layout ≠ k.layout)
    (l : Keyspace.Layout) : (p.setLayout k l).layoutOf k' = p.layoutOf k' := by
  simp [layoutOf, setLayout, List.getD_eq_getElem?_getD, List.getElem?_set_ne hne.symm]

theorem layoutOf_append (p : Pool) (l : Keyspace.Layout) (b : Keyspace.Bindings) :
    (Pool.mk (p.layouts ++ [l])).layoutOf ⟨p.layouts.length, b⟩ = l := by
  simp [layoutOf, List.getD_eq_getElem?_getD]

theorem setLayout_append (p : Pool) (l l' : Keyspace.Layout) (b : Keyspace.Bindings) :
    (Pool.mk (p.layouts ++ [l])).setLayout ⟨p.layouts.length, b⟩ l' = ⟨p.layouts ++ [l']⟩ := by
  simp [setLayout]

theorem setLayout_layoutOf (p : Pool) (k : Keyspace) : p.setLayout k (p.layoutOf k) = p := by
  cases p with
  | mk layouts =>
      by_cases hk : k.layout < layouts.length
      · simp [setLayout, layoutOf, List.getD_eq_getElem?_getD, hk]
      · simp [setLayout, List.set_eq_of_length_le (Nat.not_lt.mp hk)]

@[simp] theorem length_setLayout (p : Pool) (k : Keyspace) (l : Keyspace.Layout) :
    (p.setLayout k l).layouts.length = p.layouts.length := List.length_set

end Pool

namespace Keyspace

open Keying

variable {k : Keyspace} {p q : Pool}

theorem outcome_onLayout {α : Type} (k : Keyspace) (f : Layout → Except KeyError α × Layout)
    (p : Pool) :
    outcome (k.onLayout f) p = ((f (p.layoutOf k)).1, p.setLayout k (f (p.layoutOf k)).2) := rfl

theorem yields_add_iff {spec : FieldSpec} {u : Unit} :
    Yields (k.add spec) p u q ↔
      ∃ l, (p.layoutOf k).add k.bindings spec = .ok l ∧ p.setLayout k l = q := by
  simp only [Yields, add, outcome_onLayout]
  cases (p.layoutOf k).add k.bindings spec <;> simp

theorem yields_bindAll_iff {pairs : List (String × Nat)} {k' : Keyspace} :
    Yields (k.bind pairs) p k' q ↔
      ∃ b l, (p.layoutOf k).bind k.bindings pairs = .ok (b, l) ∧ { k with bindings := b } = k'
        ∧ p.setLayout k l = q := by
  simp only [Yields, bind, outcome_onLayout]
  cases (p.layoutOf k).bind k.bindings pairs with
  | error e => simp
  | ok made =>
      obtain ⟨b, l⟩ := made
      simp

theorem yields_ofWidth_iff {width : Nat} :
    Yields (ofWidth width) p k q ↔
      ∃ l, Layout.ofWidth width = .ok l ∧ ⟨p.layouts.length, []⟩ = k ∧ ⟨p.layouts ++ [l]⟩ = q := by
  simp only [Yields, ofWidth, outcome_bind, outcome_ofExcept]
  cases Layout.ofWidth width with
  | error e => simp
  | ok l => simp [outcome_get, outcome_set, outcome_pure]

end Keyspace

end Manycore
