import Manycore.Proofs.Keyspace.Composition
import Manycore.Proofs.Keyspace.Run

/-! # Masks under one more binding

With one more field bound, other fields may come to exist, and the mask may grow by them. It does
not where a key can be rendered: all fields of a key are bound, and a field that exists only under
the new binding could not have been bound before it. So the keyspace without the new binding has
the same mask as the one that the key is rendered from.
-/

namespace Manycore

namespace Keyspace

namespace Layout

variable {l l' : Layout} {b : Bindings} {selector : Selector} {name : String} {v : Nat}

/-- No field exists under a value of its own. -/
def Selfless (l : Layout) : Prop := ∀ x ∈ l.fields, x.2.conditions.get? x.1 = none

/-- A field is added before anything can be bound to it. -/
theorem Selfless.after (h : l.Selfless) (hb : l.Registers b) (request : Request) :
    (l.after b request).Selfless := by
  intro y hy
  rcases (after_step l b request).exists_previous hy with ⟨x, hx, hname, hgrows⟩ |
    ⟨spec, -, hfree, rfl⟩
  · rw [hname, hgrows.conditions]
    exact h x hx
  · obtain ⟨-, hfresh, -⟩ := addConflict?_eq_none_iff.mp hfree
    change b.get? spec.name = none
    cases hget : b.get? spec.name with
    | none => rfl
    | some v =>
        rw [hb _ v hget] at hfresh
        cases hfresh

/-- What a layout and bindings made on it keep while anything is asked. -/
structure Grounded (l : Layout) (b : Bindings) : Prop where
  sized : l.Sized
  selfless : l.Selfless
  notes : l.Notes b
  /-- Bound fields are registered, and enabled where they are bound. -/
  bound : ∀ name v, b.get? name = some v → ∃ f, l.find? name = some f ∧ f.isEnabled b = true

theorem render_mask_congr {b' : Bindings} (h : l.enabled b = l.enabled b') :
    l.render b .mask .all = l.render b' .mask .all := by
  simp only [render, renderMask, select, assign, occupied, h]

theorem Settled.isSome_of_enabled {selected : List String}
    (h : l.Settled b .key .all selected) :
    ∀ x ∈ l.enabled b, (b.get? x.1).isSome = true := by
  intro x hx
  refine h.isSome_get? ?_
  cases h.assigns.select
  exact List.mem_map_of_mem hx

namespace Grounded

theorem registers (h : l.Grounded b) : l.Registers b := registers_of_enabled h.bound

theorem after {at' : Bindings} (h : l.Grounded b) (hat : l.Registers at') (request : Request) :
    (l.after at' request).Grounded b := by
  have hgrow := (after_step l at' request).growsTo
  exact {
    sized := h.sized.after at' request
    selfless := h.selfless.after hat request
    notes := h.notes.of_growsTo hgrow
    bound := fun name v hget => Family.exists_enabled_of_growsTo hgrow (h.bound name v hget) }

theorem bindOne {all : Bindings} (h : l.Grounded b) (hbind : l.bind b [(name, v)] = .ok (all, l')) :
    l'.Grounded all := by
  have hnotes := h.notes.bind_one hbind
  obtain ⟨values, hbinds, rfl⟩ := binds_of_bind hbind
  have hasked : l.after b (.bind [(name, v)]) = l.noteValues values := by
    simp only [Layout.after, hbind]
  exact {
    sized := h.sized.bound hbinds
    selfless := hasked ▸ h.selfless.after h.registers (.bind [(name, v)])
    notes := hnotes
    bound := fun other w hget => Family.exists_enabled_of_growsTo (growsTo_noteValues l values)
      (hbinds.exists_enabled h.registers hget) }

/-- One more binding enables nothing new when all that it enables is bound. -/
theorem enabled_insert (h : l.Grounded b) (hfresh : b.get? name = none)
    (hbound : ∀ x ∈ l.enabled (b.insert name v), ((b.insert name v).get? x.1).isSome = true) :
    l.enabled (b.insert name v) = l.enabled b := by
  refine List.filter_congr fun x hx => ?_
  rw [Bool.eq_iff_iff]
  constructor
  · intro henabled
    by_cases hname : name = x.1
    · subst hname
      exact (Bindings.holds_insert (h.selfless x hx) v b).symm.trans henabled
    · -- an other field was bound before, so it existed before
      obtain ⟨w, hget⟩ :=
        Option.isSome_iff_exists.mp (hbound x (List.mem_filter.mpr ⟨hx, henabled⟩))
      rw [Bindings.get?_insert, if_neg hname] at hget
      obtain ⟨f, hfind, hold⟩ := h.bound x.1 w hget
      cases (find?_of_mem h.sized.names hx).symm.trans hfind
      exact hold
  · intro henabled
    refine Bindings.holds_of_get? henabled fun other w hget => ?_
    have hother : name ≠ other := by
      rintro rfl
      rw [hfresh] at hget
      cases hget
    rw [Bindings.get?_insert, if_neg hother]
    exact hget

theorem render_mask_insert {key : Nat} (h : l.Grounded b) (hfresh : b.get? name = none)
    (hkey : l.render (b.insert name v) .key .all = (.ok key, l)) :
    l.render (b.insert name v) .mask .all = l.render b .mask .all := by
  obtain ⟨selected, hsettled, -⟩ := settled_of_rendering (rendering_of_render hkey)
  exact render_mask_congr (h.enabled_insert hfresh hsettled.isSome_of_enabled)

theorem covers {key mask : Nat} (h : l.Grounded b)
    (hkey : l.render b .key selector = (.ok key, l))
    (hmask : l.render b .mask selector = (.ok mask, l)) : Covers key mask := by
  obtain ⟨selected, hkeyed, rfl⟩ := settled_of_rendering (rendering_of_render hkey)
  obtain ⟨masked, hmasked, rfl⟩ := settled_of_rendering (rendering_of_render hmask)
  cases hkeyed.assigns.select.symm.trans hmasked.assigns.select
  exact covers_keyBits_maskBits h.sized.width (hkeyed.holds h.sized h.notes)

end Grounded

end Layout

namespace Family

variable {fam : Family} {b : Bindings}

theorem selfless_of_reaches {width : Nat} {l : Layout} (hnew : Layout.ofWidth width = .ok l)
    (hreach : Reaches anything (root l) fam) : fam.layout.Selfless := by
  induction hreach with
  | refl =>
      obtain ⟨-, rfl⟩ := Layout.ofWidth_eq_ok_iff.mp hnew
      exact fun x hx => nomatch hx
  | @ask fam b request hprior hmem _ ih =>
      have hwell := hprior.wellFormed (wellFormed_root hnew)
      exact ih.after (hwell.registers hmem) request

end Family

end Keyspace

namespace Pool

open Keyspace

/-- Requests are made of keyspaces that bind only fields of their layouts. -/
def registered : Rule := fun p k _ => (p.layoutOf k).Registers k.bindings

end Pool

namespace Keyspace

open Keying

variable {k k' : Keyspace} {p q : Pool} {selector : Selector} {name : String} {v : Nat}

/-- The keyspace was made by requests, on a layout that is in the pool. -/
structure Grounded (k : Keyspace) (p : Pool) : Prop where
  inPool : k.In p
  layout : (p.layoutOf k).Grounded k.bindings

theorem Belongs.grounded {fam : Family} (h : k.Belongs fam p) : k.Grounded p := by
  obtain ⟨width, l, hnew, hreach⟩ := h.reached
  have hwell := h.wellFormed
  refine ⟨h.inPool, h.layout ▸ ?_⟩
  exact {
    sized := hwell.sized
    selfless := Family.selfless_of_reaches hnew hreach
    notes := hwell.notes h.member
    bound := hwell.bound k.bindings h.member }

namespace Grounded

theorem registered (h : k.Grounded p) (request : Request) : Pool.registered p k request :=
  h.layout.registers

theorem run (h : k.Grounded p) (hrun : Pool.Run Pool.registered p q) : k.Grounded q := by
  refine ⟨h.inPool.run hrun, ?_⟩
  refine hrun.layoutOf (fun l => l.Grounded k.bindings) h.inPool h.layout ?_
  intro q k' request hregistered hsame hgrounded
  refine hgrounded.after ?_ request
  rw [show q.layoutOf k = q.layoutOf k' by simp only [Pool.layoutOf, hsame]]
  exact hregistered

theorem run_of_yields_bind {pairs : List (String × Nat)} (h : k.Grounded p)
    (hbind : Yields (k.bind pairs) p k' q) : Pool.Run Pool.registered p q :=
  Keyspace.run_of_yields_bind (fun _ => h.registered _) hbind

theorem run_of_yields_renders {output : Output} (h : k.Grounded p)
    (hrender : Yields (k.renders output selector) p v q) : Pool.Run Pool.registered p q :=
  Keyspace.run_of_yields_renders (fun _ => h.registered _) hrender

theorem bind (h : k.Grounded p) (hbind : Yields (k.bind [(name, v)]) p k' q) : k'.Grounded q := by
  obtain ⟨b, l, hbound, rfl, rfl⟩ := yields_bindAll_iff.mp hbind
  have hlayout : (p.setLayout k l).layoutOf ⟨k.layout, b⟩ = l := Pool.layoutOf_setLayout h.inPool l
  refine ⟨h.inPool.run (h.run_of_yields_bind hbind), ?_⟩
  rw [hlayout]
  exact h.layout.bindOne hbound

/-- Once the key with the field filled in is known, the mask without it is the mask with it. -/
theorem shows_mask_insert_iff {key mask : Nat} (h : k.Grounded p)
    (hfresh : k.bindings.get? name = none)
    (hkey : Shows { k with bindings := k.bindings.insert name v } p .key .all key) :
    Shows { k with bindings := k.bindings.insert name v } p .mask .all mask
      ↔ k.Shows p .mask .all mask := by
  have hsame := h.layout.render_mask_insert hfresh hkey
  exact Eq.congr_left hsame

theorem covers {key mask : Nat} (h : k.Grounded p) (hkey : k.Shows p .key selector key)
    (hmask : k.Shows p .mask selector mask) : Covers key mask :=
  h.layout.covers hkey hmask

end Grounded

end Keyspace

end Manycore
