import Manycore.Proofs.Keyspace.Separation

/-! # Flat layouts

When every field is added to the root, all fields exist on every keyspace, so that no position is
ever found in bits that only seem free. Whole keys can then be read back, whenever and wherever they
were rendered, and tell the keyspaces of the family apart.
-/

namespace Manycore.Keyspace.Family

open List (Forall₂)

/-- Fields are added to the root, and get no position before their length. -/
def flat : Rule := fun _ b request =>
  ∀ spec, request = .add spec → b = [] ∧ (spec.start.isSome = true → spec.length.isSome = true)

/-- On the way to `fam` the keyspace of these bindings was asked for the output. -/
def Answered (rule : Rule) (start fam : Family) (b : Bindings) (output : Output)
    (selector : Selector) (v : Nat) : Prop :=
  ∃ mid, Reaches rule start mid ∧ b ∈ mid.members
    ∧ (mid.layout.render b output selector).1 = .ok v
    ∧ Reaches rule (mid.ask b (.render output selector)) fam

variable {rule : Rule} {start fam : Family} {b : Bindings} {output : Output} {selector : Selector}
  {v : Nat}

namespace Answered

theorem reaches (h : Answered rule start fam b output selector v)
    (hrule : ∀ l, rule l b (.render output selector)) : Reaches rule start fam := by
  obtain ⟨mid, hmid, hb, -, hlater⟩ := h
  exact (Reaches.ask hmid hb (hrule _)).trans hlater

theorem member (h : Answered rule start fam b output selector v) : b ∈ fam.members := by
  obtain ⟨mid, -, hb, -, hlater⟩ := h
  exact hlater.members (List.mem_append_left _ hb)

/-- Whenever an answer was given, the layout gives it still. -/
theorem settled (h : Answered rule start fam b output selector v) :
    ∃ selected, fam.layout.Settled b output selector selected
      ∧ v = fam.layout.bits b output selected := by
  obtain ⟨mid, -, -, hok, hlater⟩ := h
  obtain ⟨selected, hsettled, hbits⟩ := Layout.settled_of_rendering
    (hok ▸ Layout.render_rendering mid.layout b output selector)
  refine ⟨selected, hsettled.of_growsTo hlater.growsTo, ?_⟩
  rw [hbits]
  exact (hsettled.bits_eq hlater.growsTo).symm

end Answered

/-- Every field exists on every keyspace. -/
def Unconditional (l : Layout) : Prop := ∀ x ∈ l.fields, x.2.conditions = []

theorem Unconditional.isEnabled {l : Layout} (h : Unconditional l) {x : String × Field}
    (hx : x ∈ l.fields) (b : Bindings) : x.2.isEnabled b = true :=
  Field.isEnabled_of_conditions (h x hx) b

theorem Unconditional.enabled_eq {l : Layout} (h : Unconditional l) (b : Bindings) :
    l.enabled b = l.fields :=
  List.filter_eq_self.mpr fun _ hx => h.isEnabled hx b

theorem Unconditional.after {l : Layout} (h : Unconditional l) {request : Request}
    (hflat : flat l b request) : Unconditional (l.after b request) := by
  intro y hy
  rcases (Layout.after_step l b request).exists_previous hy with hold | hnew
  · obtain ⟨x, hx, -, hgrows⟩ := hold
    exact hgrows.conditions.trans (h x hx)
  · obtain ⟨spec, rfl, -, rfl⟩ := hnew
    exact (hflat spec rfl).1

theorem Reaches.unconditional (h : Reaches flat start fam) (hstart : Unconditional start.layout) :
    Unconditional fam.layout := by
  induction h with
  | refl => exact hstart
  | ask _ _ hflat ih => exact ih.after hflat

theorem Unconditional.seesAll {l : Layout} (h : Unconditional l) {at' : Bindings}
    {request : Request} (hflat : flat l at' request) : SeesAll b l at' request := by
  constructor
  · intro spec hspec _
    exact (hflat spec hspec).2
  · rintro _ _ _ ⟨f, g, -, -, -, -, z, hz, -, -, hhidden⟩
    rw [h.isEnabled hz] at hhidden
    cases hhidden

section

variable {width k : Nat} {l : Layout}

theorem unconditional_of_ofWidth (hnew : Layout.ofWidth width = .ok l) : Unconditional l := by
  obtain ⟨-, rfl⟩ := Layout.ofWidth_eq_ok_iff.mp hnew
  exact fun x hx => nomatch hx

theorem Reaches.laidOut_of_flat (hnew : Layout.ofWidth width = .ok l)
    (h : Reaches flat (root l) fam) (b : Bindings) :
    LaidOut fam.layout.width b fam.layout.fields := by
  have hsees : Reaches (SeesAll b) (root l) fam := h.mono fun mid at' request hmid _ hflat =>
    (hmid.unconditional (unconditional_of_ofWidth hnew)).seesAll hflat
  exact hsees.laidOut (wellFormed_root hnew) (laidOut_of_ofWidth hnew b)

theorem Answered.readable (hnew : Layout.ofWidth width = .ok l)
    (h : Answered flat (root l) fam b .key .all k) :
    fam.layout.Readable b (fam.layout.fields.map (·.1))
      ∧ k = fam.layout.keyBits b (fam.layout.fields.map (·.1)) := by
  have hreach := h.reaches fun _ _ => nofun
  have hwell := hreach.wellFormed (wellFormed_root hnew)
  have hunconditional := hreach.unconditional (unconditional_of_ofWidth hnew)
  have hlaid := hreach.laidOut_of_flat hnew b
  obtain ⟨names, hsettled, hbits⟩ := h.settled
  have hholds := hsettled.holds hwell.sized (hwell.notes h.member)
  have hnames : names = fam.layout.fields.map (·.1) := by
    rw [← hunconditional.enabled_eq b]
    exact (Except.ok.inj hsettled.assigns.select).symm
  subst hnames
  refine ⟨hlaid.readable hwell.width ?_, hbits⟩
  intro name hname
  obtain ⟨f, length, start, v, hf⟩ := hholds name hname
  exact ⟨f, length, start, v, hf, hunconditional.isEnabled (Layout.mem_of_find? hf.find) b⟩

/-- In the whole key of a flat layout every field shows its value, so that equal keys are keys of
equal bindings, and the mask of a tag cuts the key of the tag out of it. -/
theorem flat_keys_read_back (hnew : Layout.ofWidth width = .ok l)
    (hkey : Answered flat (root l) fam b .key .all k) :
    (∀ x ∈ fam.layout.fields, ∃ length start v, x.2.length = some length ∧ x.2.start = some start
        ∧ b.get? x.1 = some v ∧ (k >>> start) &&& (twoTo length - 1) = v)
      ∧ (∀ b', Answered flat (root l) fam b' .key .all k → b' = b)
      ∧ ∀ tag tagKey tagMask, Answered flat (root l) fam b .key (.tag tag) tagKey →
        Answered flat (root l) fam b .mask (.tag tag) tagMask → tagKey = k &&& tagMask := by
  have hwell := (hkey.reaches fun _ _ => nofun).wellFormed (wellFormed_root hnew)
  obtain ⟨hreadable, hbits⟩ := hkey.readable hnew
  refine ⟨?_, ?_, ?_⟩
  · intro x hx
    have hname : x.1 ∈ fam.layout.fields.map (·.1) := List.mem_map_of_mem hx
    obtain ⟨f, length, start, v, hf⟩ := hreadable.holds x.1 hname
    cases hf.find.symm.trans (Layout.find?_of_mem hwell.names hx)
    rw [hbits]
    exact ⟨length, start, v, hf.length_eq, hf.start_eq, hf.value, hreadable.shift_and_eq hname hf⟩
  · intro b' hkey'
    obtain ⟨hreadable', hbits'⟩ := hkey'.readable hnew
    have hsame := (hreadable'.keyBits_eq_iff hreadable).mp (hbits'.symm.trans hbits)
    apply Bindings.eq_of_get?_eq (hwell.sorted b' hkey'.member) (hwell.sorted b hkey.member)
    intro name
    by_cases hname : name ∈ fam.layout.fields.map (·.1)
    · exact hsame name hname
    · rw [hwell.get?_eq_none hkey'.member hname, hwell.get?_eq_none hkey.member hname]
  · intro tag tagKey tagMask htagKey htagMask
    obtain ⟨part, hpart, rfl⟩ := htagKey.settled
    obtain ⟨part', hpart', rfl⟩ := htagMask.settled
    cases hpart.assigns.select.symm.trans hpart'.assigns.select
    rw [hbits]
    refine (hreadable.keyBits_and_maskBits ?_).symm
    intro name hname
    obtain ⟨f, hfind, -⟩ := Layout.exists_of_mem_selected hpart.assigns.select .key hname
    exact List.mem_map_of_mem (Layout.mem_of_find? hfind)

theorem reaches_play_of_root {requests : List (Nat × Request)} (l : Layout)
    (h : ∀ step ∈ requests, ∀ spec, step.2 = .add spec →
      step.1 = 0 ∧ (spec.start.isSome = true → spec.length.isSome = true)) :
    Reaches flat (root l) ((root l).play requests) := by
  apply reaches_play_of_steps _ List.mem_cons_self
  intro mid hmid step hstep spec hspec
  obtain ⟨hplace, hlength⟩ := h step hstep spec hspec
  rw [hplace, hmid.getD_members Nat.zero_lt_one]
  exact ⟨rfl, hlength⟩

/-- A field of fixed range, one of fixed length and one without either; a key is asked for too early,
and the key of a tag before any whole key. -/
def mixedRequests : List (Nat × Request) :=
  [(0, .add ((FieldSpec.named "x").placed 4 3)),
   (0, .add { FieldSpec.named "y" with length := some 2 }),
   (0, .bind [("x", 5)]),
   (1, .render .key .all),
   (0, .add ((FieldSpec.named "z").tagged "t")),
   (1, .bind [("y", 3), ("z", 9)]),
   (2, .render .key (.tag "t"))]

def mixed : Family := (root ⟨16, [], false⟩).play mixedRequests

theorem flat_keys_read_back_mixed :
    Answered flat (root ⟨16, [], false⟩)
        (mixed.ask [("x", 5), ("y", 3), ("z", 9)] (.render .key .all))
        [("x", 5), ("y", 3), ("z", 9)] .key .all 473
      ∧ ∀ b, Answered flat (root ⟨16, [], false⟩)
          (mixed.ask [("x", 5), ("y", 3), ("z", 9)] (.render .key .all)) b .key .all 473 →
        b = [("x", 5), ("y", 3), ("z", 9)] := by
  have hreach : Reaches flat (root ⟨16, [], false⟩) mixed := by
    apply reaches_play_of_root
    simp [mixedRequests, FieldSpec.named, FieldSpec.placed, FieldSpec.tagged]
  have hkey : Answered flat (root ⟨16, [], false⟩)
      (mixed.ask [("x", 5), ("y", 3), ("z", 9)] (.render .key .all))
      [("x", 5), ("y", 3), ("z", 9)] .key .all 473 :=
    ⟨mixed, hreach, by decide, by decide, .refl⟩
  exact ⟨hkey, (flat_keys_read_back (show Layout.ofWidth 16 = _ from rfl) hkey).2.1⟩

end

end Manycore.Keyspace.Family
