import Manycore.Proofs.Keyspace.Run

/-! # Binding in steps

Fields may be bound all at once or in several steps, and in any order: what is checked of the pairs
and what is made of them is the same. That a binding succeeds is said by `BindsPairs` with no regard
to the order in which the checks are made.
-/

namespace Manycore

namespace Keyspace

namespace Layout

variable {l l' : Layout} {b all mid : Bindings} {pairs pairs' first later : List (String × Nat)}

/-- All that is checked before the pairs are bound on top of `b`. -/
structure BindsPairs (l : Layout) (b : Bindings) (pairs : List (String × Nat)) (all : Bindings) :
    Prop where
  nodup : (pairs.map (·.1)).Nodup
  fresh : ∀ x ∈ pairs, l.contains x.1 = true ∧ b.get? x.1 = none
  sorted : all.Sorted
  get? : ∀ name, all.get? name = (Bindings.get? pairs name).or (b.get? name)
  enabled : ∀ x ∈ all, ∀ f, l.find? x.1 = some f → f.isEnabled all = true
  room : ∀ x ∈ pairs, ∀ f, l.find? x.1 = some f → ∀ length, f.length = some length →
    x.2 ≤ ones length

theorem get?_merge_nil (hnodup : (pairs.map (·.1)).Nodup) (name : String) :
    (Bindings.merge [] pairs).get? name = Bindings.get? pairs name := by
  rw [Bindings.get?_merge_of_nodup hnodup, Bindings.get?_nil, Option.or_none]

theorem mem_merge_nil_iff (hnodup : (pairs.map (·.1)).Nodup) (x : String × Nat) :
    x ∈ Bindings.merge [] pairs ↔ x ∈ pairs := by
  have hsorted : (Bindings.merge [] pairs).Sorted := Bindings.sorted_merge .nil pairs
  rw [← Bindings.get?_eq_some_iff hsorted.nodup, get?_merge_nil hnodup,
    Bindings.get?_eq_some_iff hnodup]

theorem bind_iff_bindsPairs (hb : b.Sorted) :
    l.bind b pairs = .ok (all, l') ↔ l.BindsPairs b pairs all ∧ l.noteValues pairs = l' := by
  have hvalues : (Bindings.merge [] pairs).Sorted := Bindings.sorted_merge .nil pairs
  rw [bind_eq_ok_iff]
  constructor
  · rintro ⟨values, hgather, havailable, hroom, rfl, rfl⟩
    obtain ⟨hnodup, hknown, rfl⟩ := gather_eq_ok_iff.mp hgather
    refine ⟨?_, (noteValues_congr (get?_merge_nil hnodup)).symm⟩
    exact {
      nodup := hnodup
      fresh := fun x hx => ⟨(hknown x hx).1, (hknown x hx).2.1⟩
      sorted := Bindings.sorted_merge hb _
      get? := fun name => by rw [Bindings.get?_merge hvalues, get?_merge_nil hnodup]
      enabled := unavailable?_eq_none_iff.mp havailable
      room := fun x hx => tooLarge?_eq_none_iff.mp hroom x ((mem_merge_nil_iff hnodup x).mpr hx) }
  · rintro ⟨h, rfl⟩
    have hall : b.merge (Bindings.merge [] pairs) = all := by
      apply Bindings.eq_of_get?_eq (Bindings.sorted_merge hb _) h.sorted
      intro name
      rw [Bindings.get?_merge hvalues, get?_merge_nil h.nodup, h.get?]
    refine ⟨_, gather_eq_ok_iff.mpr ⟨h.nodup, fun x hx => ?_, rfl⟩, ?_, ?_, hall,
      noteValues_congr (get?_merge_nil h.nodup)⟩
    · exact ⟨(h.fresh x hx).1, (h.fresh x hx).2, rfl⟩
    · rw [hall]
      exact unavailable?_eq_none_iff.mpr h.enabled
    · exact tooLarge?_eq_none_iff.mpr fun x hx => h.room x ((mem_merge_nil_iff h.nodup x).mp hx)

theorem BindsPairs.perm (h : l.BindsPairs b pairs all) (hperm : pairs.Perm pairs') :
    l.BindsPairs b pairs' all where
  nodup := (hperm.map _).nodup_iff.mp h.nodup
  fresh x hx := h.fresh x (hperm.mem_iff.mpr hx)
  sorted := h.sorted
  get? name := by rw [h.get?, Bindings.get?_of_perm hperm h.nodup]
  enabled := h.enabled
  room x hx := h.room x (hperm.mem_iff.mpr hx)

theorem bind_eq_ok_of_perm (hb : b.Sorted) (hperm : pairs.Perm pairs')
    (h : l.bind b pairs = .ok (all, l')) : l.bind b pairs' = .ok (all, l') := by
  obtain ⟨hbinds, rfl⟩ := (bind_iff_bindsPairs hb).mp h
  refine (bind_iff_bindsPairs hb).mpr ⟨hbinds.perm hperm, noteValues_congr fun name => ?_⟩
  exact (Bindings.get?_of_perm hperm hbinds.nodup name).symm

theorem noteValues_noteValues
    (hapart : ∀ name, Bindings.get? first name = none ∨ Bindings.get? later name = none) :
    (l.noteValues first).noteValues later = l.noteValues (first ++ later) := by
  simp only [noteValues_eq, List.map_map]
  congr 1
  refine List.map_congr_left fun x _ => ?_
  simp only [Function.comp_apply, Bindings.get?_append]
  rcases hapart x.1 with h | h <;> simp [h]

/-- What has been noted of a field is neither checked nor changed by a binding. -/
theorem forall_find?_noteValues_iff {values : Bindings} {name : String} {P : Field → Prop}
    (hP : ∀ f maxValue, P { f with maxValue } ↔ P f) :
    (∀ f, (l.noteValues values).find? name = some f → P f) ↔
      ∀ f, l.find? name = some f → P f := by
  rw [find?_noteValues]
  cases l.find? name <;> simp [hP]

theorem get?_eq_none_or (hnodup : ((first ++ later).map (·.1)).Nodup) (name : String) :
    Bindings.get? first name = none ∨ Bindings.get? later name = none := by
  rw [List.map_append, List.nodup_append] at hnodup
  rw [Bindings.get?_eq_none_iff, Bindings.get?_eq_none_iff]
  by_contra hboth
  push Not at hboth
  exact hnodup.2.2 name hboth.1 name hboth.2 rfl

theorem BindsPairs.get?_eq_none_iff (h : l.BindsPairs b first mid) (name : String) :
    mid.get? name = none ↔ name ∉ first.map (·.1) ∧ b.get? name = none := by
  rw [h.get?, Option.or_eq_none_iff, Bindings.get?_eq_none_iff]

/-- What passes the checks in two steps passes them all at once. -/
theorem BindsPairs.append (h : l.BindsPairs b first mid)
    (hlater : (l.noteValues first).BindsPairs mid later all) :
    l.BindsPairs b (first ++ later) all := by
  have hfresh : ∀ x ∈ later, x.1 ∉ first.map (·.1) ∧ b.get? x.1 = none :=
    fun x hx => (h.get?_eq_none_iff x.1).mp (hlater.fresh x hx).2
  exact {
    nodup := by
      rw [List.map_append, List.nodup_append]
      refine ⟨h.nodup, hlater.nodup, fun name hfirst other hother heq => ?_⟩
      obtain ⟨x, hx, rfl⟩ := List.mem_map.mp hother
      exact (hfresh x hx).1 (heq ▸ hfirst)
    fresh := by
      intro x hx
      rcases List.mem_append.mp hx with hx | hx
      · exact h.fresh x hx
      · rw [← l.contains_noteValues first]
        exact ⟨(hlater.fresh x hx).1, (hfresh x hx).2⟩
    sorted := hlater.sorted
    get? := by
      intro name
      rw [hlater.get?, Bindings.get?_append, h.get?]
      cases hget : Bindings.get? later name with
      | none => rw [Option.none_or, Option.or_none]
      | some v =>
          have hfirst := (hfresh _ (Bindings.mem_of_get? hget)).1
          rw [Bindings.get?_eq_none_iff.mpr hfirst, Option.none_or]
          rfl
    enabled := fun x hx =>
      (forall_find?_noteValues_iff fun _ _ => Iff.rfl).mp (hlater.enabled x hx)
    room := by
      intro x hx
      rcases List.mem_append.mp hx with hx | hx
      · exact h.room x hx
      · exact (forall_find?_noteValues_iff fun _ _ => Iff.rfl).mp (hlater.room x hx) }

theorem BindsPairs.of_append (h : l.BindsPairs b first mid)
    (hwhole : l.BindsPairs b (first ++ later) all) :
    (l.noteValues first).BindsPairs mid later all where
  nodup := by
    have hnodup := hwhole.nodup
    rw [List.map_append] at hnodup
    exact (List.nodup_append.mp hnodup).2.1
  fresh := by
    intro x hx
    obtain ⟨hcontains, hnone⟩ := hwhole.fresh x (List.mem_append_right _ hx)
    rw [contains_noteValues, h.get?_eq_none_iff, ← Bindings.get?_eq_none_iff]
    refine ⟨hcontains, (get?_eq_none_or hwhole.nodup x.1).resolve_right fun hlater => ?_, hnone⟩
    exact Bindings.get?_eq_none_iff.mp hlater (List.mem_map_of_mem hx)
  sorted := hwhole.sorted
  get? := by
    intro name
    rw [hwhole.get?, Bindings.get?_append, h.get?]
    rcases get?_eq_none_or hwhole.nodup name with hnone | hnone <;> simp [hnone]
  enabled x hx := (forall_find?_noteValues_iff fun _ _ => Iff.rfl).mpr (hwhole.enabled x hx)
  room x hx := (forall_find?_noteValues_iff fun _ _ => Iff.rfl).mpr
    (hwhole.room x (List.mem_append_right _ hx))

theorem bind_append_iff {mid' : Layout} (hb : b.Sorted) (h : l.bind b first = .ok (mid, mid')) :
    mid'.bind mid later = .ok (all, l') ↔ l.bind b (first ++ later) = .ok (all, l') := by
  obtain ⟨hfirst, rfl⟩ := (bind_iff_bindsPairs hb).mp h
  have hchecks : (l.noteValues first).BindsPairs mid later all ↔
      l.BindsPairs b (first ++ later) all := ⟨hfirst.append, hfirst.of_append⟩
  rw [bind_iff_bindsPairs hfirst.sorted, bind_iff_bindsPairs hb, hchecks]
  refine and_congr_right fun hwhole => ?_
  rw [noteValues_noteValues (get?_eq_none_or hwhole.nodup)]

end Layout

open Keying

variable {p q : Pool} {k : Keyspace}

theorem outcome_bind_of_error {pairs : List (String × Nat)} {e : KeyError}
    (h : (p.layoutOf k).bind k.bindings pairs = .error e) :
    outcome (k.bind pairs) p = (.error e, p) := by
  simp only [bind, outcome_onLayout, h, Pool.setLayout_layoutOf]

/-- Of pairs in another order the outcome is the same, but for which of their faults is told. -/
theorem outcome_bind_of_perm (hsorted : k.bindings.Sorted) {pairs pairs' : List (String × Nat)}
    (hperm : pairs.Perm pairs') :
    outcome (k.bind pairs') p = outcome (k.bind pairs) p
      ∨ ∃ fault fault', outcome (k.bind pairs) p = (.error (.binding fault), p)
        ∧ outcome (k.bind pairs') p = (.error (.binding fault'), p) := by
  cases hbind : (p.layoutOf k).bind k.bindings pairs with
  | ok made =>
      left
      have hbind' := Layout.bind_eq_ok_of_perm hsorted hperm hbind
      simp only [bind, outcome_onLayout, hbind, hbind']
  | error e =>
      right
      cases hbind' : (p.layoutOf k).bind k.bindings pairs' with
      | ok made' =>
          have hok := Layout.bind_eq_ok_of_perm hsorted hperm.symm hbind'
          rw [hbind] at hok
          cases hok
      | error e' =>
          obtain ⟨fault, rfl⟩ := Layout.exists_fault_of_bind hbind
          obtain ⟨fault', rfl⟩ := Layout.exists_fault_of_bind hbind'
          exact ⟨fault, fault', outcome_bind_of_error hbind, outcome_bind_of_error hbind'⟩

theorem yields_bind_append_iff (hk : k.In p) (hsorted : k.bindings.Sorted)
    {first later : List (String × Nat)} {mid k' : Keyspace} {q r : Pool}
    (h : Yields (k.bind first) p mid q) :
    Yields (mid.bind later) q k' r ↔ Yields (k.bind (first ++ later)) p k' r := by
  obtain ⟨b, l, hbind, rfl, rfl⟩ := yields_bindAll_iff.mp h
  have hlayout : (p.setLayout k l).layoutOf ⟨k.layout, b⟩ = l := Pool.layoutOf_setLayout hk l
  have hset : ∀ l', (p.setLayout k l).setLayout ⟨k.layout, b⟩ l' = p.setLayout k l' := by
    intro l'
    simp only [Pool.setLayout, List.set_set]
  simp only [yields_bindAll_iff, hlayout, hset, Layout.bind_append_iff hsorted hbind]

/-- Once some pairs are bound, binding more on top is binding all of them at once, and pairs may be
bound in any order. What is made of the layout, the largest values included, is the same. -/
theorem bind_stepwise {fam : Family} (h : k.Belongs fam p) :
    (∀ first later mid q, Yields (k.bind first) p mid q →
        ∀ k' r, Yields (mid.bind later) q k' r ↔ Yields (k.bind (first ++ later)) p k' r)
      ∧ ∀ pairs pairs' : List (String × Nat), pairs.Perm pairs' →
        outcome (k.bind pairs') p = outcome (k.bind pairs) p
          ∨ ∃ fault fault', outcome (k.bind pairs) p = (.error (.binding fault), p)
            ∧ outcome (k.bind pairs') p = (.error (.binding fault'), p) := by
  have hsorted := h.wellFormed.sorted _ h.member
  constructor
  · intro first later mid q hfirst k' r
    exact yields_bind_append_iff h.inPool hsorted hfirst
  · intro pairs pairs' hperm
    exact outcome_bind_of_perm hsorted hperm

/-- A field that exists only where another one is bound. -/
def nestedRequests : List (Nat × Request) :=
  [(0, .add (FieldSpec.named "a")), (0, .bind [("a", 1)]), (1, .add (FieldSpec.named "b"))]

def nested : Family := (Family.root ⟨8, [], false⟩).play nestedRequests

/-- The field that depends on the other may be bound after it, or at once and named before it. -/
theorem bind_stepwise_nested : (⟨0, []⟩ : Keyspace).Belongs nested ⟨[nested.layout]⟩
    ∧ ∃ mid q k' r, Yields ((⟨0, []⟩ : Keyspace).bind [("a", 1)]) ⟨[nested.layout]⟩ mid q
      ∧ Yields (mid.bind [("b", 5)]) q k' r
      ∧ Yields ((⟨0, []⟩ : Keyspace).bind [("b", 5), ("a", 1)]) ⟨[nested.layout]⟩ k' r := by
  have hbelongs : (⟨0, []⟩ : Keyspace).Belongs nested ⟨[nested.layout]⟩ :=
    ⟨⟨8, _, rfl, Family.reaches_play _ (by decide) fun _ _ _ _ _ => trivial⟩,
      show 0 < 1 by decide, rfl, by decide⟩
  obtain ⟨hsteps, horder⟩ := bind_stepwise hbelongs
  obtain ⟨mid, q, hfirst⟩ : ∃ mid q,
      Yields ((⟨0, []⟩ : Keyspace).bind [("a", 1)]) ⟨[nested.layout]⟩ mid q := ⟨_, _, rfl⟩
  obtain ⟨k', r, hall⟩ : ∃ k' r,
      Yields ((⟨0, []⟩ : Keyspace).bind [("a", 1), ("b", 5)]) ⟨[nested.layout]⟩ k' r := ⟨_, _, rfl⟩
  refine ⟨hbelongs, mid, q, k', r, hfirst, (hsteps _ _ mid q hfirst k' r).mpr hall, ?_⟩
  rcases horder [("a", 1), ("b", 5)] [("b", 5), ("a", 1)] (by decide) with heq | ⟨_, _, hfails, -⟩
  · exact heq.trans hall
  · rw [show outcome _ _ = _ from hall] at hfails
    cases hfails

end Keyspace

end Manycore
