import Manycore.Proofs.Keying
import Manycore.Proofs.Keyspace.Finality

/-! # Runs on the pool

The requests that families are asked are operations on the pool. A run makes any number of them, of
any keyspaces; whatever it does, every layout only grows, so what a keyspace has shown once it shows
ever after.
-/

namespace Manycore

open Keyspace (Request Output Selector Layout Bindings)

namespace Keyspace

open Keying

/-- Render a key or a mask. -/
def renders (k : Keyspace) (output : Output) (selector : Selector) : Keying KeyError Nat :=
  k.onLayout fun l => l.render k.bindings output selector

theorem renderKey_eq (k : Keyspace) (selector : Selector) :
    k.renderKey selector = k.renders .key selector := rfl

theorem renderMask_eq (k : Keyspace) (selector : Selector) :
    k.renderMask selector = k.renders .mask selector := rfl

theorem yields_renders_iff {k : Keyspace} {output : Output} {selector : Selector} {v : Nat}
    {p q : Pool} : Yields (k.renders output selector) p v q ↔
      ∃ l, (p.layoutOf k).render k.bindings output selector = (.ok v, l) ∧ p.setLayout k l = q := by
  simp only [Yields, renders, outcome_onLayout, Prod.mk.injEq]
  constructor
  · rintro ⟨hv, hq⟩
    exact ⟨_, Prod.ext hv rfl, hq⟩
  · rintro ⟨l, hrender, rfl⟩
    simp [hrender]

/-- A request as the operation that makes it. -/
def perform (k : Keyspace) : Request → Keying KeyError Unit
  | .add spec => k.add spec
  | .bind pairs => do
    let _ ← k.bind pairs
    pure ()
  | .get name => do
    let _ ← k.get name
    pure ()
  | .render output selector => do
    let _ ← k.renders output selector
    pure ()

/-- An operation on a keyspace answers the request and leaves the layout that the request leaves, and
no other change. -/
theorem outcome_perform (k : Keyspace) (request : Request) (p : Pool) :
    outcome (k.perform request) p = ((p.layoutOf k).answer k.bindings request,
      p.setLayout k ((p.layoutOf k).after k.bindings request)) := by
  cases request with
  | add spec =>
      simp only [perform, add, outcome_onLayout, Layout.answer, Layout.after]
      cases (p.layoutOf k).add k.bindings spec <;> rfl
  | bind pairs =>
      simp only [perform, outcome_bind, bind, outcome_onLayout, Layout.answer, Layout.after]
      cases (p.layoutOf k).bind k.bindings pairs <;> rfl
  | get name =>
      simp only [perform, outcome_bind, get, outcome_onLayout, Layout.answer, Layout.after]
      cases (p.layoutOf k).get k.bindings name <;> rfl
  | render output selector =>
      simp only [perform, outcome_bind, renders, outcome_onLayout, Layout.answer, Layout.after]
      cases ((p.layoutOf k).render k.bindings output selector).1 <;> rfl

end Keyspace

namespace Pool

/-- Requests that may be made of a keyspace when the pool is as it is. -/
abbrev Rule := Pool → Keyspace → Request → Prop

/-- What may become of a pool by requests that the rule allows, and by new layouts. -/
inductive Run (rule : Rule) (p : Pool) : Pool → Prop where
  | refl : Run rule p p
  | ask {q} (k request) : Run rule p q → rule q k request →
    Run rule p (q.setLayout k ((q.layoutOf k).after k.bindings request))
  | make {q width l} : Run rule p q → Layout.ofWidth width = .ok l → Run rule p ⟨q.layouts ++ [l]⟩

/-- What may become of a pool by any requests whatever. -/
abbrev Later : Pool → Pool → Prop := Run fun _ _ _ => True

/-- The request is no addition, and it succeeds. -/
def granted : Rule := fun p k request => (∀ spec, request ≠ .add spec)
  ∧ ∃ u, (Keying.outcome (k.perform request) p).1 = .ok u

/-- The request binds fields, and it succeeds. -/
def binding : Rule := fun p k request => granted p k request ∧ ∃ pairs, request = .bind pairs

namespace Run

variable {rule rule' : Rule} {p q r : Pool}

theorem trans (hpq : Run rule p q) (hqr : Run rule q r) : Run rule p r := by
  induction hqr with
  | refl => exact hpq
  | ask k request _ hrule ih => exact .ask k request ih hrule
  | make _ hwidth ih => exact .make ih hwidth

theorem imp (hrule : ∀ p k request, rule p k request → rule' p k request) (h : Run rule p q) :
    Run rule' p q := by
  induction h with
  | refl => exact .refl
  | ask k request _ hallowed ih => exact .ask k request ih (hrule _ _ _ hallowed)
  | make _ hwidth ih => exact .make ih hwidth

theorem granted (h : Run binding p q) : Run granted p q := h.imp fun _ _ _ hrule => hrule.1

theorem later (h : Run rule p q) : Later p q := h.imp fun _ _ _ _ => trivial

theorem length_le (h : Run rule p q) : p.layouts.length ≤ q.layouts.length := by
  induction h with
  | refl => exact Nat.le_refl _
  | ask k request _ _ ih => rwa [length_setLayout]
  | @make q _ l _ _ ih =>
      rw [List.length_append]
      exact Nat.le_add_right_of_le ih

theorem layoutOf {k : Keyspace} (P : Layout → Prop) (hk : k.layout < p.layouts.length)
    (h : Run rule p q) (hstart : P (p.layoutOf k))
    (hask : ∀ q k' request, rule q k' request → k'.layout = k.layout → P (q.layoutOf k) →
      P ((q.layoutOf k).after k'.bindings request)) : P (q.layoutOf k) := by
  induction h with
  | refl => exact hstart
  | @ask q k' request hrun hrule ih =>
      by_cases hsame : k.layout = k'.layout
      · have hlayout : ∀ p : Pool, p.layoutOf k = p.layoutOf k' := fun p => by
          simp only [Pool.layoutOf, hsame]
        have hk' : k'.layout < q.layouts.length := hsame ▸ Nat.lt_of_lt_of_le hk hrun.length_le
        rw [hlayout, layoutOf_setLayout hk', ← hlayout]
        exact hask q k' request hrule hsame.symm ih
      · rw [layoutOf_setLayout_of_ne hsame]
        exact ih
  | @make q _ l hrun _ ih =>
      have hold : (Pool.mk (q.layouts ++ [l])).layoutOf k = q.layoutOf k := by
        simp only [Pool.layoutOf, List.getD_eq_getElem?_getD]
        rw [List.getElem?_append_left (Nat.lt_of_lt_of_le hk hrun.length_le)]
      rw [hold]
      exact ih

theorem growsTo {k : Keyspace} (hk : k.layout < p.layouts.length) (h : Run rule p q) :
    (p.layoutOf k).GrowsTo (q.layoutOf k) :=
  h.layoutOf (fun l => (p.layoutOf k).GrowsTo l) hk (.refl _)
    fun _ _ _ _ _ hgrown => hgrown.trans (Layout.after_step _ _ _).growsTo

end Run

end Pool

namespace Keying

variable {rule : Pool.Rule} {ε ε' α β : Type}

/-- When the computation succeeds, it has made a run by the rule. -/
def Runs (rule : Pool.Rule) (x : Keying ε α) : Prop := ∀ p a q, Yields x p a q → Pool.Run rule p q

theorem Runs.imp {rule' : Pool.Rule} {x : Keying ε α} (h : Runs rule x)
    (hrule : ∀ p k request, rule p k request → rule' p k request) : Runs rule' x :=
  fun p a q hx => (h p a q hx).imp hrule

/-- Whatever it asks, and whatever of it is refused. -/
abbrev RunsLater (x : Keying ε α) : Prop := Runs (fun _ _ _ => True) x

theorem Runs.later {x : Keying ε α} (h : Runs rule x) : RunsLater x := h.imp fun _ _ _ _ => trivial

theorem runs_pure (a : α) : Runs rule (pure a : Keying ε α) := by
  intro p b q h
  obtain ⟨-, rfl⟩ := yields_pure_iff.mp h
  exact .refl

theorem runs_throw (e : ε) : Runs rule (throw e : Keying ε α) :=
  fun _ _ _ h => absurd h not_yields_throw

theorem Runs.mapError {x : Keying ε α} (h : Runs rule x) (f : ε → ε') :
    Runs rule (x.mapError f) :=
  fun p a q hx => h p a q (yields_mapError_iff.mp hx)

theorem Runs.bind {x : Keying ε α} {f : α → Keying ε β} (hx : Runs rule x)
    (hf : ∀ a, Runs rule (f a)) : Runs rule (x >>= f) := by
  intro p b r h
  obtain ⟨a, q, ha, hb⟩ := yields_bind_iff.mp h
  exact (hx p a q ha).trans (hf a q b r hb)

theorem runs_mapM {f : α → Keying ε β} {xs : List α} (h : ∀ x ∈ xs, Runs rule (f x)) :
    Runs rule (xs.mapM f) := by
  induction xs with
  | nil =>
      rw [List.mapM_nil]
      exact runs_pure []
  | cons x rest ih =>
      obtain ⟨hx, hrest⟩ := List.forall_mem_cons.mp h
      rw [List.mapM_cons]
      exact hx.bind fun y => (ih hrest).bind fun ys => runs_pure (y :: ys)

theorem yields_mapM_getElem? {f : α → Keying ε β} {xs : List α} {ys : List β} {p q : Pool} {i : Nat}
    {x : α} (hruns : ∀ x ∈ xs, Runs rule (f x)) (h : Yields (xs.mapM f) p ys q)
    (hx : xs[i]? = some x) : ∃ p' y q', Pool.Run rule p p' ∧ Yields (f x) p' y q'
      ∧ Pool.Run rule q' q ∧ ys[i]? = some y := by
  induction xs generalizing p ys i with
  | nil => cases hx
  | cons x' rest ih =>
      obtain ⟨hfirst, hrest⟩ := List.forall_mem_cons.mp hruns
      obtain ⟨y', mid, ys', hy', hys', rfl⟩ := yields_mapM_cons_iff.mp h
      cases i with
      | zero =>
          cases hx
          exact ⟨p, y', mid, .refl, hy', runs_mapM hrest mid ys' q hys', rfl⟩
      | succ i =>
          obtain ⟨p', y, q', hbefore, hy, hafter, hget⟩ := ih hrest hys' hx
          exact ⟨p', y, q', (hfirst p y' mid hy').trans hbefore, hy, hafter, hget⟩

/-- What every step does to its element, when later steps leave it so. -/
theorem yields_mapM_forall₂ {P : Pool → Prop} {R : Pool → α → β → Prop} {f : α → Keying ε β}
    {xs : List α} {ys : List β} {p q : Pool} (hP : ∀ p q, P p → Pool.Run rule p q → P q)
    (hR : ∀ p q x y, P p → Pool.Run rule p q → R p x y → R q x y)
    (hstep : ∀ x ∈ xs, ∀ p y q, P p → Yields (f x) p y q → Pool.Run rule p q ∧ R q x y)
    (hp : P p) (h : Yields (xs.mapM f) p ys q) :
    Pool.Run rule p q ∧ List.Forall₂ (R q) xs ys := by
  induction xs generalizing p ys with
  | nil =>
      obtain ⟨rfl, rfl⟩ := yields_mapM_nil_iff.mp h
      exact ⟨.refl, .nil⟩
  | cons x rest ih =>
      obtain ⟨y, mid, ys', hy, hys', rfl⟩ := yields_mapM_cons_iff.mp h
      obtain ⟨hrun, hxy⟩ := hstep x List.mem_cons_self p y mid hp hy
      obtain ⟨hrun', hrest⟩ := ih (fun z hz => hstep z (List.mem_cons_of_mem _ hz))
        (hP p mid hp hrun) hys'
      exact ⟨hrun.trans hrun', .cons (hR mid q x y (hP p mid hp hrun) hrun' hxy) hrest⟩

theorem exists_yields_mapM_iff {P : Pool → Prop} {F : α → Prop} {f : α → Keying ε β} {xs : List α}
    {p : Pool} (hP : ∀ p q, P p → Pool.Run rule p q → P q) (hruns : ∀ x ∈ xs, Runs rule (f x))
    (hstep : ∀ x ∈ xs, ∀ p, P p → ((∃ y q, Yields (f x) p y q) ↔ F x)) (hp : P p) :
    (∃ ys q, Yields (xs.mapM f) p ys q) ↔ ∀ x ∈ xs, F x := by
  induction xs generalizing p with
  | nil => exact ⟨fun _ x hx => (nomatch hx), fun _ => ⟨[], p, yields_mapM_nil_iff.mpr ⟨rfl, rfl⟩⟩⟩
  | cons x rest ih =>
      obtain ⟨hfirst, hrest⟩ := List.forall_mem_cons.mp hruns
      obtain ⟨hx, hsteps⟩ := List.forall_mem_cons.mp hstep
      rw [List.forall_mem_cons]
      constructor
      · rintro ⟨ys, q, h⟩
        obtain ⟨y, mid, ys', hy, hys', -⟩ := yields_mapM_cons_iff.mp h
        exact ⟨(hx p hp).mp ⟨y, mid, hy⟩,
          (ih hrest hsteps (hP p mid hp (hfirst p y mid hy))).mp ⟨ys', q, hys'⟩⟩
      · rintro ⟨hF, hFs⟩
        obtain ⟨y, mid, hy⟩ := (hx p hp).mpr hF
        obtain ⟨ys, q, hys⟩ := (ih hrest hsteps (hP p mid hp (hfirst p y mid hy))).mpr hFs
        exact ⟨y :: ys, q, yields_mapM_cons_iff.mpr ⟨y, mid, ys, hy, hys, rfl⟩⟩

theorem yields_foldlM_forall {P : Pool → Prop} {R : Pool → α → Prop} {f : β → α → Keying ε β}
    {xs : List α} {b b' : β} {p q : Pool} (hP : ∀ p q, P p → Pool.Run rule p q → P q)
    (hR : ∀ p q x, P p → Pool.Run rule p q → R p x → R q x)
    (hstep : ∀ x ∈ xs, ∀ b p b' q, P p → Yields (f b x) p b' q → Pool.Run rule p q ∧ R q x)
    (hp : P p) (h : Yields (xs.foldlM f b) p b' q) :
    Pool.Run rule p q ∧ ∀ x ∈ xs, R q x := by
  induction xs generalizing p b with
  | nil =>
      obtain ⟨-, rfl⟩ := yields_foldlM_nil_iff.mp h
      exact ⟨.refl, fun x hx => nomatch hx⟩
  | cons x rest ih =>
      obtain ⟨mid, p', hfirst, hothers⟩ := yields_foldlM_cons_iff.mp h
      obtain ⟨hrun, hx⟩ := hstep x List.mem_cons_self b p mid p' hp hfirst
      have hp' := hP p p' hp hrun
      obtain ⟨hrun', hrest⟩ := ih (fun y hy => hstep y (List.mem_cons_of_mem _ hy)) hp' hothers
      exact ⟨hrun.trans hrun', List.forall_mem_cons.mpr ⟨hR p' q x hp' hrun' hx, hrest⟩⟩

end Keying

namespace Keyspace

open Keying

variable {k k' : Keyspace} {p q r : Pool} {output : Output} {selector : Selector} {v : Nat}

theorem run_of_yields_bind {rule : Pool.Rule} {pairs : List (String × Nat)}
    (hrule : Pool.binding p k (.bind pairs) → rule p k (.bind pairs))
    (h : Yields (k.bind pairs) p k' q) : Pool.Run rule p q := by
  obtain ⟨b, l, hbind, -, rfl⟩ := yields_bindAll_iff.mp h
  have hafter : (p.layoutOf k).after k.bindings (.bind pairs) = l := by
    simp only [Layout.after, hbind]
  refine hafter ▸ .ask k (.bind pairs) .refl
    (hrule ⟨⟨fun _ hadd => Request.noConfusion hadd, (), ?_⟩, pairs, rfl⟩)
  have hok : outcome (k.bind pairs) p = (.ok _, _) := h
  simp only [perform, outcome_bind, hok, outcome_pure]

theorem runs_bindAll (k : Keyspace) (pairs : List (String × Nat)) :
    Runs Pool.binding (k.bind pairs) := fun _ _ _ h => run_of_yields_bind id h

theorem run_of_yields_renders {rule : Pool.Rule}
    (hrule : Pool.granted p k (.render output selector) → rule p k (.render output selector))
    (h : Yields (k.renders output selector) p v q) : Pool.Run rule p q := by
  obtain ⟨l, hrender, rfl⟩ := yields_renders_iff.mp h
  have hafter : (p.layoutOf k).after k.bindings (.render output selector) = l := by
    simp only [Layout.after, hrender]
  refine hafter ▸ .ask k (.render output selector) .refl
    (hrule ⟨fun _ hadd => Request.noConfusion hadd, (), ?_⟩)
  have hok : outcome (k.renders output selector) p = (.ok _, _) := h
  simp only [perform, outcome_bind, hok, outcome_pure]

theorem runs_renders (k : Keyspace) (output : Output) (selector : Selector) :
    Runs Pool.granted (k.renders output selector) := fun _ _ _ h => run_of_yields_renders id h

/-- The layout of the keyspace is in the pool. -/
def In (k : Keyspace) (p : Pool) : Prop := k.layout < p.layouts.length

theorem In.run {rule : Pool.Rule} (h : k.In p) (hrun : Pool.Run rule p q) : k.In q :=
  Nat.lt_of_lt_of_le h hrun.length_le

/-- What the keyspace renders is fixed. -/
def Shows (k : Keyspace) (p : Pool) (output : Output) (selector : Selector) (v : Nat) : Prop :=
  (p.layoutOf k).render k.bindings output selector = (.ok v, p.layoutOf k)

theorem Shows.run {rule : Pool.Rule} (h : k.Shows p output selector v) (hk : k.In p)
    (hrun : Pool.Run rule p q) : k.Shows q output selector v := by
  have hgrow := hrun.growsTo hk
  refine Layout.render_again (congrArg Prod.fst h) ?_
  rwa [show ((p.layoutOf k).render k.bindings output selector).2 = p.layoutOf k from
    congrArg Prod.snd h]

theorem shows_of_yields (hk : k.In p) (h : Yields (k.renders output selector) p v q) :
    k.Shows q output selector v := by
  obtain ⟨l, hrender, rfl⟩ := yields_renders_iff.mp h
  rw [Shows, Pool.layoutOf_setLayout hk]
  refine Layout.render_again (congrArg Prod.fst hrender) ?_
  rw [hrender]
  exact .refl l

/-- All that binding one field does. -/
structure BindsOne (k : Keyspace) (p : Pool) (name : String) (v : Nat) (k' : Keyspace)
    (q : Pool) : Prop where
  keyspace : k' = { k with bindings := k.bindings.insert name v }
  unbound : k.bindings.get? name = none
  run : Pool.Run Pool.binding p q
  room : ∃ f, (p.layoutOf k).find? name = some f
    ∧ ∀ length, f.length = some length → v ≤ ones length
  notes : (p.layoutOf k).Notes k.bindings → (q.layoutOf k').Notes k'.bindings

theorem bindsOne_of_yields (hk : k.In p) {name : String}
    (h : Yields (k.bind [(name, v)]) p k' q) : k.BindsOne p name v k' q := by
  have hrun := runs_bindAll k _ p k' q h
  obtain ⟨b, l, hbind, rfl, rfl⟩ := yields_bindAll_iff.mp h
  obtain ⟨rfl, -, hunbound, hroom⟩ := Layout.bind_one hbind
  refine ⟨rfl, hunbound, hrun, hroom, fun hnotes => ?_⟩
  have hlayout : (p.setLayout k l).layoutOf ⟨k.layout, k.bindings.insert name v⟩ = l :=
    Pool.layoutOf_setLayout hk l
  rw [hlayout]
  exact hnotes.bind_one hbind

/-- The layout of the keyspace has been told of all that it binds. -/
structure Known (k : Keyspace) (p : Pool) : Prop where
  inPool : k.In p
  notes : (p.layoutOf k).Notes k.bindings

theorem Known.run {rule : Pool.Rule} (h : k.Known p) (hrun : Pool.Run rule p q) : k.Known q :=
  ⟨h.inPool.run hrun, h.notes.of_growsTo (hrun.growsTo h.inPool)⟩

theorem Known.bind {name : String} (h : k.Known p) (hbind : Yields (k.bind [(name, v)]) p k' q) :
    k'.Known q := by
  have hbinds := bindsOne_of_yields h.inPool hbind
  refine ⟨?_, hbinds.notes h.notes⟩
  rw [hbinds.keyspace]
  exact h.inPool.run hbinds.run

/-- The keyspace is one of a family that requests have led to, whose layout is in the pool. -/
structure Belongs (k : Keyspace) (fam : Family) (p : Pool) : Prop where
  reached : ∃ width l, Layout.ofWidth width = .ok l
    ∧ Family.Reaches Family.anything (Family.root l) fam
  inPool : k.In p
  layout : p.layoutOf k = fam.layout
  member : k.bindings ∈ fam.members

theorem Belongs.wellFormed {fam : Family} (h : k.Belongs fam p) : fam.WellFormed := by
  obtain ⟨width, l, hnew, hreach⟩ := h.reached
  exact hreach.wellFormed (Family.wellFormed_root hnew)

end Keyspace

end Manycore
