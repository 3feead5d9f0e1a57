import Manycore.Proofs.Keyspace.Run

/-! # Requests that fail

A request that fails leaves the layout as it was, but for one case: a rendering that has fixed some
fields when it finds no room for the next one. Those keep what they were given, and all that was
bound to them before still fits.
-/

namespace Manycore

namespace Keyspace

open List (Forall₂)

namespace Layout

variable {l l' : Layout} {b : Bindings} {request : Request} {e : KeyError}

/-- A rendering that fails has changed something only when a field found no room, and it never
freezes the layout. -/
theorem Rendering.of_error {output : Output} {selector : Selector}
    (h : Rendering l b output selector (.error e) l') :
    (l' = l ∨ ∃ cause, e = .conflict cause) ∧ l'.frozen = l.frozen := by
  cases h with
  | refused => exact ⟨Or.inl rfl, rfl⟩
  | blocked => exact ⟨Or.inr ⟨_, rfl⟩, rfl⟩

theorem after_of_error (h : l.answer b request = .error e) :
    (l.after b request = l
        ∨ ∃ output selector cause, request = .render output selector ∧ e = .conflict cause)
      ∧ (l.after b request).frozen = l.frozen := by
  cases request with
  | add spec =>
      have hadd : l.add b spec = .error e := map_eq_error_iff.mp h
      simp [after, hadd]
  | bind pairs =>
      have hbind : l.bind b pairs = .error e := map_eq_error_iff.mp h
      simp [after, hbind]
  | get name => simp [after]
  | render output selector =>
      have hrender : (l.render b output selector).1 = .error e := map_eq_error_iff.mp h
      have hrendering := render_rendering l b output selector
      rw [hrender] at hrendering
      obtain ⟨hleft, hfrozen⟩ := hrendering.of_error
      refine ⟨hleft.imp_right ?_, hfrozen⟩
      rintro ⟨cause, rfl⟩
      exact ⟨output, selector, cause, rfl, rfl⟩

theorem Rendering.forall₂_fixedIf {output : Output} {selector : Selector}
    {answer : Except KeyError Nat} (hnames : (l.fields.map (·.1)).Nodup)
    (h : Rendering l b output selector answer l') :
    Forall₂ (fun x y => FixedIf (x.2.isEnabled b = true) x y) l.fields l'.fields := by
  have hpass : ∀ {conflict fields}, Placing l.width ((l.needed b output selector).contains ·)
      (l.occupied b) l.fields conflict fields →
      Forall₂ (fun x y => FixedIf (x.2.isEnabled b = true) x y) l.fields fields := by
    intro conflict fields hplacing
    refine (forall₂_and_mem hplacing.forall₂_fixedIf).imp ?_
    rintro x y ⟨hfixed, hx, -⟩
    apply hfixed.imp
    intro hneeded
    exact Field.isEnabled_of_isInvolved (isInvolved_of_contains_needed
      (List.forall₂_same.mpr fun _ _ => .refl _) hnames hx hneeded)
  cases h with
  | refused => exact List.forall₂_same.mpr fun _ _ => .refl _ _
  | blocked _ hplacing => exact hpass hplacing
  | rendered _ hplacing => exact hpass hplacing

/-- What a failure may leave of the layout of a family: open bounds of fields that `b` enables are
fixed, and there is room for every value bound so far. -/
structure LeftByFailure (fam : Family) (b : Bindings) (l' : Layout) : Prop where
  width : l'.width = fam.layout.width
  frozen : l'.frozen = fam.layout.frozen
  fixed : Forall₂ (fun x y => FixedIf (x.2.isEnabled b = true) x y) fam.layout.fields l'.fields
  room : ∀ c ∈ fam.members, ∀ name v, c.get? name = some v →
    ∃ f, l'.find? name = some f ∧ ∀ n, f.length = some n → v < twoTo n

/-- After any request a fixed length has room for every value bound before. -/
theorem room_after {fam : Family} (h : fam.WellFormed) (hb : b ∈ fam.members)
    (request : Request) {c : Bindings} (hc : c ∈ fam.members) {name : String} {v : Nat}
    (hget : c.get? name = some v) : ∃ f, (fam.layout.after b request).find? name = some f
      ∧ ∀ n, f.length = some n → v < twoTo n := by
  have hafter := h.ask hb request
  obtain ⟨f, hfind, hle⟩ := hafter.notes (List.mem_append_left _ hc) name v hget
  refine ⟨f, hfind, fun n hlength => ?_⟩
  exact Nat.lt_of_le_of_lt hle (hafter.room _ (mem_of_find? hfind) n hlength)

theorem leftByFailure {fam : Family} (h : fam.WellFormed) (hb : b ∈ fam.members)
    (hfails : fam.layout.answer b request = .error e) :
    LeftByFailure fam b (fam.layout.after b request) where
  width := (after_step _ _ _).growsTo.width
  frozen := (after_of_error hfails).2
  fixed := by
    rcases (after_of_error hfails).1 with hsame | ⟨output, selector, cause, rfl, rfl⟩
    · rw [hsame]
      exact List.forall₂_same.mpr fun _ _ => .refl _ _
    · exact (render_rendering _ _ _ _).forall₂_fixedIf h.names
  room c hc name v hget := room_after h hb request hc hget

end Layout

open Keying

variable {k : Keyspace} {p q : Pool} {request : Request} {e : KeyError}

/-- A request that fails changes nothing, unless it renders and finds no room: then no more than open
bounds of fields enabled there have been fixed, lengths by the largest values bound, and whatever was
bound still fits. -/
theorem perform_failure {fam : Family} (h : k.Belongs fam p)
    (hfails : outcome (k.perform request) p = (.error e, q)) :
    (q = p ∨ ∃ output selector cause,
        request = .render output selector ∧ e = .conflict cause)
      ∧ ∃ l', q = p.setLayout k l' ∧ Layout.LeftByFailure fam k.bindings l' := by
  rw [outcome_perform, h.layout, Prod.mk.injEq] at hfails
  obtain ⟨hanswer, rfl⟩ := hfails
  refine ⟨?_, _, rfl, Layout.leftByFailure h.wellFormed h.member hanswer⟩
  apply (Layout.after_of_error hanswer).1.imp_left
  intro hsame
  rw [hsame, ← h.layout, Pool.setLayout_layoutOf]

/-- A value is bound to an open field before a longer one is added. -/
def crampedRequests : List (Nat × Request) :=
  [(0, .add (FieldSpec.named "f")), (0, .bind [("f", 9)]),
   (0, .add { FieldSpec.named "whole" with length := some 8 })]

def cramped : Family := (Family.root ⟨8, [], false⟩).play crampedRequests

/-- The first field has its length when the second finds no room. -/
theorem perform_failure_cramped : (⟨0, []⟩ : Keyspace).Belongs cramped ⟨[cramped.layout]⟩
    ∧ ∃ q, outcome ((⟨0, []⟩ : Keyspace).perform (.render .mask .all)) ⟨[cramped.layout]⟩
        = (.error (.conflict (.noRoom "whole" 8 8)), q)
      ∧ (q.layoutOf ⟨0, []⟩).find? "f" = some ⟨some 4, some 0, [], [], 9⟩ ∧ 9 < twoTo 4
      ∧ ∃ l', q = Pool.setLayout ⟨[cramped.layout]⟩ ⟨0, []⟩ l'
        ∧ Layout.LeftByFailure cramped [] l' := by
  have hbelongs : (⟨0, []⟩ : Keyspace).Belongs cramped ⟨[cramped.layout]⟩ :=
    ⟨⟨8, _, rfl, Family.reaches_play _ (by decide) fun _ _ _ _ _ => trivial⟩,
      show 0 < 1 by decide, rfl, by decide⟩
  have hfails : outcome ((⟨0, []⟩ : Keyspace).perform (.render .mask .all)) ⟨[cramped.layout]⟩
      = (.error (.conflict (.noRoom "whole" 8 8)), _) := rfl
  exact ⟨hbelongs, _, hfails, by decide +kernel, by decide, (perform_failure hbelongs hfails).2⟩

end Keyspace

end Manycore
