import Manycore.Keyspace.Pool
import Manycore.Proofs.Keyspace.Operations

/-! # Families of keyspaces

All keyspaces made from one another share a layout. A family is that layout together with the
bindings of every keyspace made so far; any of them may be asked anything at any time. Statements
about runs are inductions over the requests made of a family.
-/

namespace Manycore.Keyspace

open List (Forall₂)

inductive Request where
  | add (spec : FieldSpec)
  | bind (pairs : List (String × Nat))
  | get (name : String)
  | render (output : Output) (selector : Selector)

namespace Layout

/-- The layout that a request leaves, granted or not. -/
def after (l : Layout) (b : Bindings) : Request → Layout
  | .add spec => match l.add b spec with
    | .ok l' => l'
    | .error _ => l
  | .bind pairs => match l.bind b pairs with
    | .ok (_, l') => l'
    | .error _ => l
  | .get _ => l
  | .render output selector => (l.render b output selector).2

/-- Whether a request is granted, and why it is not. -/
def answer (l : Layout) (b : Bindings) : Request → Except KeyError Unit
  | .add spec => (l.add b spec).map fun _ => ()
  | .bind pairs => (l.bind b pairs).map fun _ => ()
  | .get name => (l.get b name).map fun _ => ()
  | .render output selector => (l.render b output selector).1.map fun _ => ()

/-- The bindings of the keyspace that a request makes, if it makes one. -/
def derived (l : Layout) (b : Bindings) : Request → List Bindings
  | .bind pairs => match l.bind b pairs with
    | .ok (all, _) => [all]
    | .error _ => []
  | _ => []

/-- All that a request can do. -/
inductive Step (l : Layout) (b : Bindings) : Request → Layout → List Bindings → Prop where
  | kept {request} : Step l b request l []
  | added {spec} : l.addConflict? b spec = none →
    Step l b (.add spec) { l with fields := l.fields ++ [added b spec] } []
  | bound {pairs values all} : l.Binds b values all →
    Step l b (.bind pairs) (l.noteValues values) [all]
  | rendered {output selector answer l'} : Rendering l b output selector answer l' →
    Step l b (.render output selector) l' []

theorem after_step (l : Layout) (b : Bindings) (request : Request) :
    Step l b request (l.after b request) (l.derived b request) := by
  cases request with
  | add spec =>
      simp only [after, derived]
      split
      · rename_i hadd
        obtain ⟨hconflict, rfl⟩ := add_eq_ok_iff.mp hadd
        exact .added hconflict
      · exact .kept
  | bind pairs =>
      simp only [after, derived]
      split
      · rename_i hbind
        obtain ⟨values, hbinds, rfl⟩ := binds_of_bind hbind
        exact .bound hbinds
      · exact .kept
  | get name => exact .kept
  | render output selector => exact .rendered (render_rendering l b output selector)

theorem Step.growsTo {l l' : Layout} {b : Bindings} {request : Request} {derived : List Bindings}
    (h : Step l b request l' derived) : l.GrowsTo l' := by
  cases h with
  | kept => exact .refl l
  | added hconflict => exact growsTo_of_add (add_eq_ok_iff.mpr ⟨hconflict, rfl⟩)
  | bound => exact growsTo_noteValues l _
  | rendered hrendering => exact hrendering.growsTo

/-- What a request does to a field: it gets a position by a rendering only, in bits that are free
where the request was made. -/
theorem Step.exists_next {l l' : Layout} {b : Bindings} {request : Request}
    {derived : List Bindings} (h : Step l b request l' derived) {x : String × Field}
    (hx : x ∈ l.fields) :
    ∃ y ∈ l'.fields, SameGrown x y ∧ (y.2.start = x.2.start
      ∨ ∃ taken, Covers (l.occupied b) taken ∧ y = (x.1, placeField l.width taken x.2)) := by
  cases h with
  | kept => exact ⟨x, hx, .refl x, Or.inl rfl⟩
  | added => exact ⟨x, List.mem_append_left _ hx, .refl x, Or.inl rfl⟩
  | bound =>
      obtain ⟨y, hy, hname, hfield⟩ := exists_right_of_forall₂ (forall₂_noteValues l _) hx
      refine ⟨y, hy, ⟨hname, hfield ▸ ?_⟩, Or.inl (by rw [hfield])⟩
      exact ⟨rfl, rfl, Nat.le_max_left _ _, fun _ h => h, fun _ h => h⟩
  | rendered hrendering =>
      obtain ⟨y, hy, hxy⟩ := exists_right_of_forall₂ hrendering.forall₂_placed hx
      rcases hxy with rfl | ⟨-, taken, hcovers, rfl⟩
      · exact ⟨y, hy, .refl y, Or.inl rfl⟩
      · exact ⟨_, hy, ⟨rfl, placeField_growsTo _ _ _⟩, Or.inr ⟨taken, hcovers, rfl⟩⟩

theorem Step.exists_previous {l l' : Layout} {b : Bindings} {request : Request}
    {derived : List Bindings} (h : Step l b request l' derived) {y : String × Field}
    (hy : y ∈ l'.fields) :
    (∃ x ∈ l.fields, SameGrown x y) ∨ ∃ spec, request = .add spec
      ∧ l.addConflict? b spec = none ∧ y = Layout.added b spec := by
  cases h with
  | kept => exact Or.inl ⟨y, hy, .refl y⟩
  | @added spec hfree =>
      rcases List.mem_append.mp hy with hy | hy
      · exact Or.inl ⟨y, hy, .refl y⟩
      · exact Or.inr ⟨spec, rfl, hfree, List.mem_singleton.mp hy⟩
  | bound => exact Or.inl (exists_left_of_forall₂ (forall₂_grown_noteValues l _) hy)
  | rendered hrendering => exact Or.inl (exists_left_of_forall₂ hrendering.forall₂_grown hy)

end Layout

structure Family where
  layout : Layout
  members : List Bindings

namespace Family

/-- The keyspace that a layout is made with, alone. -/
def root (l : Layout) : Family := ⟨l, [[]]⟩

def ask (fam : Family) (b : Bindings) (request : Request) : Family :=
  ⟨fam.layout.after b request, fam.members ++ fam.layout.derived b request⟩

/-- Requests that may be made of any layout and bindings. -/
abbrev Rule := Layout → Bindings → Request → Prop

/-- Every request is allowed. -/
def anything : Rule := fun _ _ _ => True

/-- What becomes of a family by requests that the rule allows, made of any of its members. -/
inductive Reaches (rule : Rule) (start : Family) : Family → Prop where
  | refl : Reaches rule start start
  | ask {fam b request} : Reaches rule start fam → b ∈ fam.members → rule fam.layout b request →
    Reaches rule start (fam.ask b request)

/-- Make requests of the members at these places. -/
def play (fam : Family) : List (Nat × Request) → Family
  | [] => fam
  | (place, request) :: rest => play (fam.ask (fam.members.getD place []) request) rest

/-- The largest value that a member binds to the field, one at least. -/
def largest (name : String) (members : List Bindings) : Nat :=
  members.foldl (fun most b => max most ((b.get? name).getD 0)) 1

section

variable {rule : Rule} {start fam : Family}

theorem Reaches.trans {mid : Family} (hmid : Reaches rule start mid) (h : Reaches rule mid fam) :
    Reaches rule start fam := by
  induction h with
  | refl => exact hmid
  | ask _ hmem hrule ih => exact .ask ih hmem hrule

/-- A run by one rule is a run by another that allows the same of every family on the way. -/
theorem Reaches.mono {rule' : Rule} (h : Reaches rule start fam)
    (hrule : ∀ mid b request, Reaches rule start mid → b ∈ mid.members →
      rule mid.layout b request → rule' mid.layout b request) : Reaches rule' start fam := by
  induction h with
  | refl => exact .refl
  | ask hprior hmem hallowed ih => exact .ask ih hmem (hrule _ _ _ hprior hmem hallowed)

theorem Reaches.imp {rule' : Rule} (hrule : ∀ l b request, rule l b request → rule' l b request)
    (h : Reaches rule start fam) : Reaches rule' start fam :=
  h.mono fun mid b request _ _ => hrule mid.layout b request

theorem Reaches.toAnything (h : Reaches rule start fam) : Reaches anything start fam :=
  h.imp fun _ _ _ _ => trivial

theorem Reaches.growsTo (h : Reaches rule start fam) : start.layout.GrowsTo fam.layout := by
  induction h with
  | refl => exact .refl _
  | ask _ _ _ ih => exact ih.trans (Layout.after_step _ _ _).growsTo

theorem Reaches.isPrefix (h : Reaches rule start fam) : start.members <+: fam.members := by
  induction h with
  | refl => exact List.prefix_refl _
  | ask _ _ _ ih => exact ih.trans (List.prefix_append _ _)

theorem Reaches.members (h : Reaches rule start fam) {b : Bindings} (hb : b ∈ start.members) :
    b ∈ fam.members :=
  h.isPrefix.subset hb

theorem Reaches.getD_members (h : Reaches rule start fam) {place : Nat}
    (hplace : place < start.members.length) :
    fam.members.getD place [] = start.members.getD place [] := by
  obtain ⟨more, hmembers⟩ := h.isPrefix
  simp only [← hmembers, List.getD_eq_getElem?_getD, List.getElem?_append_left hplace]

theorem reaches_play_of_steps {requests : List (Nat × Request)} (fam : Family)
    (hmember : [] ∈ fam.members) (hrule : ∀ mid, Reaches anything fam mid → ∀ step ∈ requests,
      rule mid.layout (mid.members.getD step.1 []) step.2) :
    Reaches rule fam (fam.play requests) := by
  induction requests generalizing fam with
  | nil => exact .refl
  | cons step rest ih =>
      have hasked : fam.members.getD step.1 [] ∈ fam.members := by
        rw [List.getD_eq_getElem?_getD]
        cases hget : fam.members[step.1]? with
        | none => exact hmember
        | some b => exact List.mem_of_getElem? hget
      have hfirst : Reaches rule fam (fam.ask (fam.members.getD step.1 []) step.2) :=
        .ask .refl hasked (hrule fam .refl step List.mem_cons_self)
      refine hfirst.trans (ih _ (List.mem_append_left _ hmember) fun mid hmid other hother => ?_)
      exact hrule mid (hfirst.toAnything.trans hmid) other (List.mem_cons_of_mem _ hother)

/-- Requests that the rule allows whenever they are made are a run. -/
theorem reaches_play {requests : List (Nat × Request)} (fam : Family)
    (hmember : [] ∈ fam.members) (hrule : ∀ mid, Reaches anything fam mid → ∀ b request,
      request ∈ requests.map (·.2) → rule mid.layout b request) :
    Reaches rule fam (fam.play requests) :=
  reaches_play_of_steps fam hmember fun mid hmid step hstep =>
    hrule mid hmid _ step.2 (List.mem_map_of_mem hstep)

end

end Family

end Manycore.Keyspace
