import Manycore.Proofs.Keyspace.Separation

/-! # Explicit layouts

When every field is added with its range, ranges are compared once, at the addition, and only the
conditions of the two fields decide whether they are compared at all. Conditions that do not
contradict each other can be bound together, since what a condition itself depends on is among the
conditions too. So a field is refused only for one that it could really be met with.
-/

namespace Manycore.Keyspace

theorem Field.exists_occupies_iff {f : Field} {n s length start : Nat} (hn : f.length = some n)
    (hs : f.start = some s) (hpos : 0 < n) (hlength : 0 < length) :
    (∃ bit, f.Occupies bit ∧ start ≤ bit ∧ bit < start + length) ↔
      ¬ (start + length ≤ s ∨ s + n ≤ start) := by
  constructor
  · rintro ⟨bit, ⟨n', s', hn', hs', hlow, hhigh⟩, hlow', hhigh'⟩
    cases hn.symm.trans hn'
    cases hs.symm.trans hs'
    omega
  · intro hmeet
    exact ⟨max s start, ⟨n, s, hn, hs, by omega, by omega⟩, by omega, by omega⟩

namespace Family

/-- Every field is added with its length and its position. -/
def explicit : Rule := fun _ _ request =>
  ∀ spec, request = .add spec → spec.length.isSome = true ∧ spec.start.isSome = true

/-- Every field has its range, and was added to a keyspace of the family. -/
structure Explicit (fam : Family) : Prop where
  fits : ∀ x ∈ fam.layout.fields, Layout.fits fam.layout.width x.2 = true
  conditions : ∀ x ∈ fam.layout.fields, x.2.conditions ∈ fam.members

variable {fam : Family} {b : Bindings} {width : Nat} {l : Layout}

theorem Explicit.ask (h : fam.Explicit) (hb : b ∈ fam.members) {request : Request}
    (hrule : explicit fam.layout b request) : (fam.ask b request).Explicit := by
  have hstep := Layout.after_step fam.layout b request
  have hfields : ∀ y ∈ (fam.ask b request).layout.fields,
      Layout.fits fam.layout.width y.2 = true ∧ y.2.conditions ∈ fam.members := by
    intro y hy
    rcases hstep.exists_previous hy with ⟨x, hx, -, hgrows⟩ | ⟨spec, hadd, hfree, rfl⟩
    · exact ⟨Layout.fits_of_growsTo hgrows (h.fits x hx), hgrows.conditions ▸ h.conditions x hx⟩
    · obtain ⟨hlength, hstart⟩ := hrule spec hadd
      obtain ⟨length, hlength⟩ := Option.isSome_iff_exists.mp hlength
      obtain ⟨start, hstart⟩ := Option.isSome_iff_exists.mp hstart
      obtain ⟨-, -, -, hrange⟩ := Layout.addConflict?_eq_none_iff.mp hfree
      obtain ⟨hinside, -⟩ := Layout.positionConflict?_eq_none_iff.mp (hrange start hstart)
      rw [hlength, Option.getD_some] at hinside
      exact ⟨Layout.fits_iff.mpr ⟨length, start, hlength, hstart, hinside⟩, hb⟩
  constructor
  · intro y hy
    rw [show (fam.ask b request).layout.width = fam.layout.width from hstep.growsTo.width]
    exact (hfields y hy).1
  · intro y hy
    exact List.mem_append_left _ (hfields y hy).2

section

variable (hnew : Layout.ofWidth width = .ok l) (hreach : Reaches explicit (root l) fam)

include hnew hreach

theorem Reaches.isExplicit : fam.Explicit := by
  induction hreach with
  | refl =>
      obtain ⟨-, rfl⟩ := Layout.ofWidth_eq_ok_iff.mp hnew
      exact ⟨fun x hx => (nomatch hx), fun x hx => nomatch hx⟩
  | ask _ hb hrule ih => exact ih.ask hb hrule

/-- No field waits for a position, so none gets one unseen. -/
theorem Reaches.laidOut_of_explicit (b : Bindings) :
    LaidOut fam.layout.width b fam.layout.fields := by
  have hsees : Reaches (SeesAll b) (root l) fam := by
    apply hreach.mono
    intro mid at' request hmid _ hrule
    constructor
    · exact fun spec hspec _ _ => (hrule spec hspec).1
    · rintro x - - ⟨f, g, hf, hopen, -⟩
      obtain ⟨_, start, -, hstart, -⟩ := Layout.fits_iff.mp ((hmid.isExplicit hnew).fits _ hf)
      cases hopen.symm.trans hstart
  exact hsees.laidOut (wellFormed_root hnew) (laidOut_of_ofWidth hnew b)

end

theorem Explicit.exists_key (h : fam.Explicit) (hwell : fam.WellFormed) (hb : b ∈ fam.members)
    (hlaid : LaidOut fam.layout.width b fam.layout.fields)
    (hbound : ∀ x ∈ fam.layout.enabled b, (b.get? x.1).isSome = true) :
    ∃ key, (fam.layout.render b .key .all).1 = .ok key ∧ ∀ x ∈ fam.layout.enabled b,
      ∃ length start v, x.2.length = some length ∧ x.2.start = some start
        ∧ b.get? x.1 = some v ∧ (key >>> start) &&& (twoTo length - 1) = v := by
  have henabled : ∀ x ∈ fam.layout.enabled b, Layout.fits fam.layout.width x.2 = true :=
    fun x hx => h.fits x (List.mem_filter.mp hx).1
  have hreadable := hwell.readable hb hlaid henabled hbound
  have hassigns : fam.layout.Assigns b .key .all ((fam.layout.enabled b).map (·.1)) := by
    refine ⟨rfl, List.filter_eq_nil_iff.mpr ?_⟩
    intro name hname
    obtain ⟨x, hx, rfl⟩ := List.mem_map.mp hname
    simpa [Option.isSome_iff_ne_none] using hbound x hx
  have hassign : fam.layout.assign b (fam.layout.needed b .key .all) = (none, fam.layout) := by
    simp only [Layout.assign, Layout.placeAll_of_fits fun x hx _ => h.fits x hx]
  refine ⟨fam.layout.keyBits b ((fam.layout.enabled b).map (·.1)), ?_, ?_⟩
  · rw [Layout.render_eq_of_assigns hassigns, hassign]
    rfl
  · intro x hx
    have hname : x.1 ∈ (fam.layout.enabled b).map (·.1) := List.mem_map_of_mem hx
    obtain ⟨f, length, start, v, hf⟩ := hreadable.holds x.1 hname
    cases hf.find.symm.trans (Layout.find?_of_mem hwell.names (List.mem_filter.mp hx).1)
    exact ⟨length, start, v, hf.length_eq, hf.start_eq, hf.value, hreadable.shift_and_eq hname hf⟩

theorem Explicit.binds_merge (h : fam.Explicit) (hwell : fam.WellFormed) {c : Bindings}
    (hb : b ∈ fam.members) (hc : c ∈ fam.members) (hagree : c.agree b = true) :
    fam.layout.Binds [] (b.merge c) (b.merge c) := by
  have hsorted := Bindings.sorted_merge (hwell.sorted b hb) c
  have hkept : ∀ name v, b.get? name = some v → (b.merge c).get? name = some v :=
    fun _ _ => Bindings.get?_merge_of_agree (hwell.sorted c hc) hagree
  have hadded : ∀ name v, c.get? name = some v → (b.merge c).get? name = some v :=
    fun _ _ => Bindings.get?_merge_of_some (hwell.sorted c hc)
  -- every value comes from one of the two keyspaces, where its field exists
  have hsource : ∀ name v, (b.merge c).get? name = some v → ∃ d ∈ fam.members,
      d.get? name = some v ∧ ∀ name v, d.get? name = some v → (b.merge c).get? name = some v := by
    intro name v hget
    rw [Bindings.get?_merge (hwell.sorted c hc), Option.or_eq_some_iff] at hget
    rcases hget with hget | ⟨-, hget⟩
    · exact ⟨c, hc, hget, hadded⟩
    · exact ⟨b, hb, hget, hkept⟩
  exact {
    sorted := hsorted
    fresh := fun name v hget => by
      obtain ⟨d, hd, hget, -⟩ := hsource name v hget
      obtain ⟨f, hfind, -⟩ := hwell.bound d hd name v hget
      exact ⟨Layout.contains_eq_true_iff.mpr ⟨f, hfind⟩, rfl⟩
    merged := (Bindings.merge_nil hsorted).symm
    enabled := fun pair hpair f hfind => by
      obtain ⟨d, hd, hget, hextends⟩ := hsource _ _ (Bindings.get?_of_mem hsorted hpair)
      obtain ⟨f', hfind', henabled⟩ := hwell.bound d hd _ _ hget
      cases hfind.symm.trans hfind'
      exact Bindings.holds_of_get? henabled hextends
    room := fun pair hpair f hfind length hlength => by
      obtain ⟨d, hd, hget, -⟩ := hsource _ _ (Bindings.get?_of_mem hsorted hpair)
      have hfits := h.fits _ (Layout.mem_of_find? hfind)
      obtain ⟨length', start, hholds⟩ := hwell.exists_holds hd hfind hfits hget
      cases hlength.symm.trans hholds.length_eq
      have hroom := hholds.room
      have hinside := hholds.inside
      have hwidth := hwell.width
      rw [ones_eq (by omega)]
      omega }

/-- Two fields can be met together when one binding of the root leads to where both exist. -/
def MetAtOnce (l : Layout) (f g : Field) : Prop :=
  ∃ pairs all bound, l.bind [] pairs = .ok (all, bound) ∧ f.isEnabled all = true
    ∧ g.isEnabled all = true

theorem Explicit.mayMeet_iff (h : fam.Explicit) (hwell : fam.WellFormed) {x : String × Field}
    (hx : x ∈ fam.layout.fields) (hb : b ∈ fam.members) (spec : FieldSpec) :
    x.2.mayMeet b = true ↔ MetAtOnce fam.layout x.2 (Layout.added b spec).2 := by
  constructor
  · intro hagree
    have hc := h.conditions x hx
    have hbinds := h.binds_merge hwell hb hc hagree
    refine ⟨_, _, _, Layout.bind_eq_ok hbinds, ?_, ?_⟩
    · apply Bindings.holds_iff.mpr
      intro pair hpair
      apply Bindings.get?_merge_of_some (hwell.sorted _ hc)
      exact Bindings.get?_of_mem (hwell.sorted _ hc) hpair
    · apply Bindings.holds_iff.mpr
      intro pair hpair
      apply Bindings.get?_merge_of_agree (hwell.sorted _ hc) hagree
      exact Bindings.get?_of_mem (hwell.sorted _ hb) hpair
  · rintro ⟨pairs, all, bound, -, hold, hnew⟩
    exact Bindings.agree_of_holds hold hnew

/-- A new field of known range is refused for the fields that it overlaps where both exist. -/
theorem Explicit.exists_error_iff (h : fam.Explicit) (hwell : fam.WellFormed)
    (hb : b ∈ fam.members) {spec : FieldSpec} {length start : Nat}
    (hopen : fam.layout.frozen = false) (hfresh : fam.layout.contains spec.name = false)
    (hlength : spec.length = some length) (hpos : 1 ≤ length) (hstart : spec.start = some start)
    (hinside : start + length ≤ fam.layout.width) :
    (∃ e, fam.layout.add b spec = .error e) ↔ ∃ x ∈ fam.layout.fields,
      (∃ bit, x.2.Occupies bit ∧ start ≤ bit ∧ bit < start + length)
        ∧ MetAtOnce fam.layout x.2 (Layout.added b spec).2 := by
  have hzero : ¬ length = 0 := by omega
  have haccepted : fam.layout.addConflict? b spec = none ↔ ∀ x ∈ fam.layout.fields,
      ∀ s, x.2.start = some s → x.2.mayMeet b = true →
        start + length ≤ s ∨ s + x.2.length.getD 1 ≤ start := by
    simp only [Layout.addConflict?_eq_none_iff, hopen, hfresh, hzero, hstart, hlength, hinside,
      Layout.positionConflict?_eq_none_iff, Layout.overlap?_eq_none_iff, Option.getD_some, ne_eq,
      not_false_eq_true, true_and, Option.some.injEq, forall_eq']
  rw [Layout.exists_error_of_add_iff, Ne, haccepted]
  simp only [not_forall]
  constructor
  · rintro ⟨x, hx, s, hs, hmeet, hclash⟩
    obtain ⟨n, s', hn, hs', -⟩ := Layout.fits_iff.mp (h.fits x hx)
    cases hs.symm.trans hs'
    rw [hn, Option.getD_some] at hclash
    have hoccupies :=
      (Field.exists_occupies_iff hn hs (hwell.length_pos hx hn) hpos).mpr hclash
    exact ⟨x, hx, hoccupies, (h.mayMeet_iff hwell hx hb spec).mp hmeet⟩
  · rintro ⟨x, hx, hoccupies, hmeet⟩
    obtain ⟨n, s, hn, hs, -⟩ := Layout.fits_iff.mp (h.fits x hx)
    have hclash := (Field.exists_occupies_iff hn hs (hwell.length_pos hx hn) hpos).mp hoccupies
    refine ⟨x, hx, s, hs, (h.mayMeet_iff hwell hx hb spec).mpr hmeet, ?_⟩
    rwa [hn, Option.getD_some]

/-- Additions of explicit fields are sound: the fields of a keyspace are apart, inside the width,
and can be read from its key. They are complete: one that is well formed in itself is refused only
for a field that shares a bit with it on some keyspace, one binding away from the root. -/
theorem explicit_sound_and_complete (hnew : Layout.ofWidth width = .ok l)
    (hreach : Reaches explicit (root l) fam) :
    (∀ b ∈ fam.members,
      (fam.layout.enabled b).Pairwise (fun x y => x.2.Apart y.2)
        ∧ (∀ x ∈ fam.layout.enabled b, Layout.fits width x.2 = true)
        ∧ ((∀ x ∈ fam.layout.enabled b, (b.get? x.1).isSome = true) →
          ∃ key, (fam.layout.render b .key .all).1 = .ok key ∧ ∀ x ∈ fam.layout.enabled b,
            ∃ length start v, x.2.length = some length ∧ x.2.start = some start
              ∧ b.get? x.1 = some v ∧ (key >>> start) &&& (twoTo length - 1) = v))
      ∧ ∀ b ∈ fam.members, ∀ spec length start, fam.layout.frozen = false →
        fam.layout.contains spec.name = false → spec.length = some length → 1 ≤ length →
        spec.start = some start → start + length ≤ width →
        ((∃ e, fam.layout.add b spec = .error e) ↔ ∃ x ∈ fam.layout.fields,
          (∃ bit, x.2.Occupies bit ∧ start ≤ bit ∧ bit < start + length)
            ∧ MetAtOnce fam.layout x.2 (Layout.added b spec).2) := by
  have hexplicit := hreach.isExplicit hnew
  have hwell := hreach.wellFormed (wellFormed_root hnew)
  have hwidth : fam.layout.width = width := by
    obtain ⟨-, rfl⟩ := Layout.ofWidth_eq_ok_iff.mp hnew
    exact hreach.growsTo.width
  subst hwidth
  constructor
  · intro b hb
    have hlaid := hreach.laidOut_of_explicit hnew b
    refine ⟨?_, fun x hx => hexplicit.fits x (List.mem_filter.mp hx).1,
      hexplicit.exists_key hwell hb hlaid⟩
    apply (hlaid.apart.filter _).imp_of_mem
    intro x y hx hy hapart
    exact hapart (List.mem_filter.mp hx).2 (List.mem_filter.mp hy).2
  · intro b hb spec length start hopen hfresh hlength hpos hstart hinside
    exact hexplicit.exists_error_iff hwell hb hopen hfresh hlength hpos hstart hinside

/-- Fields in the same bits under different values of `x`. -/
def branchingRequests : List (Nat × Request) :=
  [(0, .add ((FieldSpec.named "x").placed 0 4)),
   (0, .bind [("x", 3)]),
   (1, .add ((FieldSpec.named "y").placed 4 2)),
   (0, .bind [("x", 1)]),
   (2, .add ((FieldSpec.named "z").placed 4 3)),
   (1, .bind [("y", 2)])]

def branching : Family := (root ⟨8, [], false⟩).play branchingRequests

theorem explicit_sound_and_complete_branching :
    (∃ key, (branching.layout.render [("x", 3), ("y", 2)] .key .all).1 = .ok key)
      ∧ ∃ x ∈ branching.layout.fields, MetAtOnce branching.layout x.2
        (Layout.added [] ((FieldSpec.named "w").placed 5 1)).2 := by
  have hreach : Reaches explicit (root ⟨8, [], false⟩) branching := by
    apply reaches_play _ List.mem_cons_self
    intro mid _ b request hmem spec hspec
    subst hspec
    simp [branchingRequests, FieldSpec.named, FieldSpec.placed] at hmem
    rcases hmem with rfl | rfl | rfl <;> decide
  obtain ⟨hsound, hcomplete⟩ :=
    explicit_sound_and_complete (show Layout.ofWidth 8 = _ from rfl) hreach
  constructor
  · obtain ⟨-, -, hkey⟩ := hsound [("x", 3), ("y", 2)] (by decide)
    obtain ⟨key, hkey, -⟩ := hkey (by decide)
    exact ⟨key, hkey⟩
  · have hrejected := hcomplete [] (by decide) ((FieldSpec.named "w").placed 5 1) 1 5 (by decide)
      (by decide) rfl (Nat.le_refl 1) rfl (by decide)
    obtain ⟨x, hx, -, hmeet⟩ := hrejected.mp ⟨_, rfl⟩
    exact ⟨x, hx, hmeet⟩

end Family

end Manycore.Keyspace
