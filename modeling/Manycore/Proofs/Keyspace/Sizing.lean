import Manycore.Proofs.Keyspace.Family
import Manycore.Proofs.Keyspace.Reading

/-! # Room for values

A length that is fixed has room for every value noted before, and keeps larger ones out. This does
not depend on the bindings under which anything is asked.
-/

namespace Manycore.Keyspace.Layout

structure Sized (l : Layout) : Prop where
  width : l.width ≤ 64
  names : (l.fields.map (·.1)).Nodup
  /-- A fixed length has room for everything noted of the field. -/
  room : ∀ x ∈ l.fields, ∀ n, x.2.length = some n → x.2.maxValue < twoTo n

namespace Sized

variable {l l' : Layout} {b : Bindings}

theorem added (h : l.Sized) {spec : FieldSpec} (hfree : l.addConflict? b spec = none) :
    Sized { l with fields := l.fields ++ [Layout.added b spec] } := by
  obtain ⟨-, hfresh, hlength, -⟩ := addConflict?_eq_none_iff.mp hfree
  rw [contains_eq_false_iff] at hfresh
  refine ⟨h.width, ?_, ?_⟩
  · simp only [List.map_append, List.map_cons, List.map_nil]
    refine List.nodup_append.mpr ⟨h.names, by simp, ?_⟩
    intro name hname other hother
    obtain ⟨x, hx, rfl⟩ := List.mem_map.mp hname
    cases List.mem_singleton.mp hother
    exact hfresh x hx
  · intro x hx n hn
    rcases List.mem_append.mp hx with hx | hx
    · exact h.room x hx n hn
    · cases List.mem_singleton.mp hx
      have hpos : n ≠ 0 := by
        rintro rfl
        exact hlength hn
      exact Nat.one_lt_two_pow hpos

theorem bound (h : l.Sized) {values all : Bindings} (hbinds : l.Binds b values all) :
    (l.noteValues values).Sized := by
  have hpairs := forall₂_noteValues l values
  refine ⟨h.width, ?_, ?_⟩
  · rw [map_eq_map_of_forall₂ hpairs fun x y hxy => hxy.1]
    exact h.names
  · intro y hy n hn
    obtain ⟨x, hx, hname, hy⟩ := exists_left_of_forall₂ hpairs hy
    rw [hy] at hn ⊢
    have hold := h.room x hx n hn
    cases hvalue : values.get? x.1 with
    | none => simpa using hold
    | some v =>
        have hfit := hbinds.room _ (Bindings.mem_of_get? hvalue) _ (find?_of_mem h.names hx) n hn
        have hlt := ones_lt n
        simp only [Option.getD_some]
        omega

theorem rendered (h : l.Sized) {output : Output} {selector : Selector}
    {answer : Except KeyError Nat} (hrendering : Rendering l b output selector answer l') :
    l'.Sized := by
  refine ⟨hrendering.growsTo.width ▸ h.width, ?_, ?_⟩
  · rw [map_eq_map_of_forall₂ hrendering.forall₂_grown fun x y hxy => hxy.1]
    exact h.names
  · intro y hy n hn
    obtain ⟨x, hx, hxy⟩ := exists_left_of_forall₂ hrendering.forall₂_placed hy
    rcases hxy with rfl | ⟨-, taken, -, rfl⟩
    · exact h.room _ hx n hn
    · rw [placeField_length] at hn
      cases hn
      cases hlength : x.2.length with
      | some n => simpa [Field.fixedLength, placeField, hlength] using h.room x hx n hlength
      | none =>
          simpa [Field.fixedLength, placeField, hlength] using lt_twoTo_bitLength (Nat.le_refl _)

theorem after (h : l.Sized) (b : Bindings) (request : Request) : (l.after b request).Sized := by
  have hstep := after_step l b request
  generalize l.after b request = l' at hstep ⊢
  generalize l.derived b request = derived at hstep
  cases hstep with
  | kept => exact h
  | added hfree => exact h.added hfree
  | bound hbinds => exact h.bound hbinds
  | rendered hrendering => exact h.rendered hrendering

theorem exists_holds (h : l.Sized) (hnotes : l.Notes b) {name : String} {f : Field}
    (hfind : l.find? name = some f) (hfits : fits l.width f = true) {v : Nat}
    (hget : b.get? name = some v) : ∃ length start, l.Holds b name f length start v := by
  obtain ⟨length, start, hlength, hstart, hinside⟩ := fits_iff.mp hfits
  have hroom := h.room _ (mem_of_find? hfind) length hlength
  obtain ⟨f', hfind', hle⟩ := hnotes name v hget
  cases hfind.symm.trans hfind'
  exact ⟨length, start, hfind, hlength, hstart, hinside, hget, Nat.lt_of_le_of_lt hle hroom⟩

end Sized

theorem sized_of_ofWidth {width : Nat} {l : Layout} (h : ofWidth width = .ok l) : l.Sized := by
  obtain ⟨hwidth, rfl⟩ := ofWidth_eq_ok_iff.mp h
  exact ⟨hwidth.2, List.nodup_nil, fun x hx => nomatch hx⟩

end Manycore.Keyspace.Layout
