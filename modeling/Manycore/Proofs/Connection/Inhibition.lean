import Manycore.Proofs.Connection.Acceptance
import Manycore.Proofs.Connection.Edges

/-! # Inhibition of all neurons alike

An ensemble that inhibits all neurons of a layer by one factor sends a single row. Nothing of the
layer is left in what is sent, so layers of any size share it.
-/

namespace Manycore

open List (Forall₂)

namespace Binary64

variable {x y : Binary64}

/-- Equal, where the zeros count as one number and the NaNs as one. -/
def Alike (x y : Binary64) : Prop :=
  x = y ∨ (x.magnitudeBits = 0 ∧ y.magnitudeBits = 0) ∨ (x.isNaN = true ∧ y.isNaN = true)

instance : Decidable (Alike x y) := inferInstanceAs (Decidable (_ ∨ _))

theorem isNaN_of_zero (h : x.magnitudeBits = 0) : x.isNaN = false := by
  simp [isNaN, h]

theorem magnitudeBits_contentBits_eq_zero_iff :
    (mk x.contentBits).magnitudeBits = 0 ↔ x.magnitudeBits = 0 := by
  unfold contentBits
  split
  · rename_i hzero
    exact iff_of_true rfl hzero
  · rename_i hzero
    split
    · exact iff_of_false (by decide) hzero
    · rfl

theorem isNaN_contentBits : (mk x.contentBits).isNaN = x.isNaN := by
  unfold contentBits
  split
  · rename_i hzero
    rw [isNaN_of_zero hzero]
    rfl
  · split
    · rename_i hnan
      rw [hnan]
      rfl
    · rfl

theorem contentBits_of_alike (h : x.Alike y) : x.contentBits = y.contentBits := by
  rcases h with rfl | ⟨hx, hy⟩ | ⟨hx, hy⟩
  · rfl
  · rw [contentBits, contentBits, if_pos hx, if_pos hy]
  · have hzero (z : Binary64) (hz : z.isNaN = true) : z.magnitudeBits ≠ 0 := by
      intro h
      rw [isNaN_of_zero h] at hz
      cases hz
    rw [contentBits, contentBits, if_neg (hzero x hx), if_neg (hzero y hy), if_pos hx, if_pos hy]

theorem contentBits_eq_iff : x.contentBits = y.contentBits ↔ x.Alike y := by
  refine ⟨fun h => ?_, contentBits_of_alike⟩
  -- A pattern is zero or a NaN itself exactly where the number is that it stands for.
  have hzeros : x.magnitudeBits = 0 ↔ y.magnitudeBits = 0 := by
    rw [← magnitudeBits_contentBits_eq_zero_iff, h, magnitudeBits_contentBits_eq_zero_iff]
  have hnans : x.isNaN = y.isNaN := by
    rw [← isNaN_contentBits, h, isNaN_contentBits]
  by_cases hx : x.magnitudeBits = 0
  · exact .inr (.inl ⟨hx, hzeros.mp hx⟩)
  · cases hnan : x.isNaN with
    | true => exact .inr (.inr ⟨hnan, hnans ▸ hnan⟩)
    | false =>
        have hy : y.magnitudeBits ≠ 0 := fun hy => hx (hzeros.mpr hy)
        have hbits : x.bits = y.bits := by
          simpa [contentBits, hx, hy, hnan, ← hnans] using h
        exact .inl (congrArg mk hbits)

theorem Alike.symm (h : x.Alike y) : y.Alike x :=
  contentBits_eq_iff.mp (contentBits_of_alike h).symm

theorem Alike.trans {z : Binary64} (h : x.Alike y) (h' : y.Alike z) : x.Alike z :=
  contentBits_eq_iff.mp ((contentBits_of_alike h).trans (contentBits_of_alike h'))

end Binary64

namespace Matrix

variable {m : Matrix} {x y : Binary64}

/-- All entries are alike. -/
def Uniform (m : Matrix) : Prop := ∀ x ∈ m.entries, ∀ y ∈ m.entries, x.Alike y

instance : Decidable m.Uniform := inferInstanceAs (Decidable (∀ x ∈ m.entries, _))

theorem entries_ne_nil (hrows : 0 < m.nRows) (hcols : 0 < m.nCols) : m.entries ≠ [] := by
  intro hnil
  obtain ⟨row, hrow⟩ := List.exists_mem_of_length_pos hrows
  have hempty : row = [] := List.flatten_eq_nil_iff.mp hnil row hrow
  have hlength := m.row_length row hrow
  simp [hempty] at hlength
  omega

theorem uniformValue?_eq_some_iff : m.uniformValue? = some x ↔
    m.entries.head? = some x ∧ ∀ y ∈ m.entries, y.Alike x := by
  unfold uniformValue?
  cases m.entries with
  | nil => simp
  | cons first rest =>
      simp only [List.all_eq_true, beq_iff_eq, Binary64.contentBits_eq_iff, List.head?_cons,
        List.forall_mem_cons, Option.some.injEq]
      constructor
      · intro h
        split at h
        · rename_i hrest
          cases h
          exact ⟨rfl, .inl rfl, hrest⟩
        · cases h
      · rintro ⟨rfl, -, hrest⟩
        exact if_pos hrest

theorem exists_uniformValue?_iff (hne : m.entries ≠ []) :
    (∃ x, m.uniformValue? = some x) ↔ m.Uniform := by
  simp only [uniformValue?_eq_some_iff]
  constructor
  · rintro ⟨x, -, hx⟩ y hy z hz
    exact (hx y hy).trans (hx z hz).symm
  · intro h
    obtain ⟨x, hx⟩ := Option.ne_none_iff_exists'.mp (mt List.head?_eq_none_iff.mp hne)
    exact ⟨x, hx, fun y hy => h y hy x (List.mem_of_head? hx)⟩

theorem same_fill (h : x.Alike y) (nRows nCols : Nat) :
    (fill nRows nCols x).same (fill nRows nCols y) = true := by
  have hbits := Binary64.contentBits_of_alike h
  rw [same_iff, content, content, shape_fill, shape_fill]
  simp [entries, fill, hbits]

theorem forall₂_alike_replicate (h : ∀ y ∈ m.entries, y.Alike x) :
    ∀ row ∈ m.rows, Forall₂ Binary64.Alike row (List.replicate m.nCols x) := by
  intro row hrow
  rw [← m.row_length row hrow, ← List.map_const', List.forall₂_map_right_iff, List.forall₂_same]
  intro y hy
  exact h y (List.mem_flatten_of_mem hrow hy)

end Matrix

namespace Expansion

variable {c : Connection} {objects : ObjectTable} {e e' g g' : Expansion} {gain : Binary64}

/-- The expansion with one row of one number, on the global inhibition inlet. -/
def collapsed (e : Expansion) (gain : Binary64) : Expansion :=
  { e with
    transform := .fill 1 e.transform.nCols gain
    width := 1
    postSlice := ⟨0, 1, Nat.one_pos⟩
    inlet := .globalInhibition }

theorem toGlobalInhibition_eq_ok_iff : e.toGlobalInhibition = .ok g ↔ e.preKind = .ensemble
    ∧ e.postKind = .neurons ∧ ∃ gain, e.transform.uniformValue? = some gain
      ∧ g = e.collapsed gain := by
  unfold toGlobalInhibition
  split
  · rename_i hkinds
    constructor
    · intro h
      cases h
    · rintro ⟨hpre, hpost, -⟩
      exact absurd hkinds (by simp [hpre, hpost])
  · rename_i hkinds
    obtain ⟨hpre, hpost⟩ := not_or.mp hkinds
    rw [and_iff_right (not_not.mp hpre), and_iff_right (not_not.mp hpost)]
    cases e.transform.uniformValue? with
    | none => simp
    | some gain => simp [collapsed, eq_comm]

theorem one_le_nCols_of_fullTransform {sizeOut sizeIn : Nat} {preSlice postSlice : Slice}
    {m : Matrix} (h : fullTransform c sizeOut sizeIn preSlice postSlice = .ok m) :
    1 ≤ m.nCols := by
  rw [fullTransform] at h
  split at h
  · obtain ⟨results, -, hfull⟩ := bind_eq_ok_iff.mp h
    obtain ⟨hshape, hwithin, -⟩ := Transform.shape_of_expand hfull
    have hresults := results.start_lt_stop
    have hcols := (Shape.mk.inj hshape).2
    omega
  · obtain ⟨hshape, hwithin, -⟩ := Transform.shape_of_expand h
    have hpre := preSlice.start_lt_stop
    have hcols := (Shape.mk.inj hshape).2
    omega

theorem entries_ne_nil_of_ofConnection (h : ofConnection c objects = .ok e) :
    e.transform.entries ≠ [] := by
  obtain ⟨_, _, -, -, haccepts⟩ := accepts_of_ofConnection h
  have hchecked := haccepts.checked
  apply Matrix.entries_ne_nil
  · rw [← hchecked.width]
    exact hchecked.one_le
  · exact one_le_nCols_of_fullTransform haccepts.transform

/-- One row is as every row of the expansion, and nothing but the transform, the width, the selected
inputs and the inlet is another. -/
structure CollapsesTo (e g : Expansion) : Prop where
  row : ∃ row, g.transform.rows = [row] ∧ ∀ r ∈ e.transform.rows, Forall₂ Binary64.Alike r row
  kept : g = { e with
    transform := g.transform
    width := 1
    postSlice := ⟨0, 1, Nat.one_pos⟩
    inlet := .globalInhibition }

theorem collapsesTo_collapsed (h : e.transform.uniformValue? = some gain) :
    e.CollapsesTo (e.collapsed gain) where
  row := ⟨_, rfl, Matrix.forall₂_alike_replicate (Matrix.uniformValue?_eq_some_iff.mp h).2⟩
  kept := rfl

/-- Both are from one object, with one factor, and send values computed alike. -/
structure SendsAlike (e e' : Expansion) : Prop where
  pre : e.pre = e'.pre
  gain : ∀ x ∈ e.transform.entries, ∀ y ∈ e'.transform.entries, x.Alike y
  nCols : e.transform.nCols = e'.transform.nCols
  preSlice : e.preSlice = e'.preSlice
  samples : ∃ points points' samples samples', e.evalPoints = some points
    ∧ e'.evalPoints = some points' ∧ points.same points' = true
    ∧ e.samples points = .ok samples ∧ e'.samples points' = .ok samples'
    ∧ samples.same samples' = true
  solver : e.solver.same e'.solver = true
  keyspace : e.keyspace = e'.keyspace
  rule : e.senderRule = e'.senderRule

theorem stream_collapsed {points samples : Matrix} (hpoints : e.evalPoints = some points)
    (hsamples : e.samples points = .ok samples) :
    (e.collapsed gain).stream = .ok
      { width := 1
        transform := .fill 1 e.transform.nCols gain
        preSlice := e.preSlice
        postSlice := ⟨0, 1, Nat.one_pos⟩
        keyspace := e.keyspace
        source := .decoded points e.solver samples e.senderRule e.function } := by
  have hsource : (e.collapsed gain).source
      = .ok (.decoded points e.solver samples e.senderRule e.function) := by
    have hpoints' : (e.collapsed gain).evalPoints = some points := hpoints
    have hsamples' : (e.collapsed gain).samples points = .ok samples := hsamples
    simp only [source, hpoints', hsamples']
    rfl
  rw [Expansion.stream, hsource]
  rfl

theorem SendsAlike.same_stream (h : e.SendsAlike e') (hg : e.toGlobalInhibition = .ok g)
    (hg' : e'.toGlobalInhibition = .ok g') :
    ∃ s s', g.stream = .ok s ∧ g'.stream = .ok s' ∧ s.same s' = true := by
  obtain ⟨-, -, gain, hgain, rfl⟩ := toGlobalInhibition_eq_ok_iff.mp hg
  obtain ⟨-, -, gain', hgain', rfl⟩ := toGlobalInhibition_eq_ok_iff.mp hg'
  obtain ⟨points, points', samples, samples', hpoints, hpoints', hsamePoints, hsamples, hsamples',
    hsameSamples⟩ := h.samples
  have halike : gain.Alike gain' :=
    h.gain gain (List.mem_of_head? (Matrix.uniformValue?_eq_some_iff.mp hgain).1)
      gain' (List.mem_of_head? (Matrix.uniformValue?_eq_some_iff.mp hgain').1)
  refine ⟨_, _, stream_collapsed hpoints hsamples, stream_collapsed hpoints' hsamples', ?_⟩
  simp [Stream.same, Source.same, h.nCols, h.preSlice, h.keyspace, h.solver, h.rule, hsamePoints,
    hsameSamples, Matrix.same_fill halike]

end Expansion

namespace StreamTree

variable {t : StreamTree} {es : List Expansion} {g g' : Expansion} {s s' : Stream}

/-- Two receivers are under one stream of a sender. -/
def Shares (t : StreamTree) (origin : ObjectId) (s : Stream) (r r' : Receiver) : Prop :=
  ∃ out k rs, (origin, out) ∈ t.origins ∧ (k, rs) ∈ out ∧ k.same s = true ∧ r ∈ rs ∧ r' ∈ rs

theorem exists_leaf (h : ofExpansions es = .ok t) (hg : g ∈ es) (hs : g.stream = .ok s) :
    ∃ x ∈ t.placedLeaves, x.origin = g.pre ∧ g.receiver = .ok x.receiver
      ∧ x.stream.same s = true := by
  obtain ⟨es', hperm, hmakes⟩ := exists_order_of_ofExpansions h
  obtain ⟨x, hx, horigin, hreceiver, s', hs', hsame⟩ :=
    exists_right_of_forall₂ hmakes (hperm.mem_iff.mpr hg)
  cases hs.symm.trans hs'
  exact ⟨x, hx, horigin, hreceiver, hsame⟩

/-- Connections of one sender with streams that are the same share one of them. -/
theorem shares_of_same (h : ofExpansions es = .ok t) (hg : g ∈ es) (hg' : g' ∈ es)
    (hpre : g.pre = g'.pre) (hs : g.stream = .ok s) (hs' : g'.stream = .ok s')
    (hsame : s.same s' = true) :
    ∃ r r', g.receiver = .ok r ∧ g'.receiver = .ok r' ∧ t.Shares g.pre s r r' := by
  obtain ⟨x, hx, hxOrigin, hxReceiver, hxs⟩ := exists_leaf h hg hs
  obtain ⟨y, hy, hyOrigin, hyReceiver, hys⟩ := exists_leaf h hg' hs'
  have hseparate := separate_of_ofExpansions h
  have horigin : x.origin = y.origin := by rw [hxOrigin, hyOrigin, hpre]
  have hxy : x.stream.same y.stream = true := by
    rw [Stream.same_iff] at *
    rw [hxs, hsame, hys]
  have hplace := (hseparate.place_eq_iff hx hy horigin).mpr hxy
  obtain ⟨out, rs, hout, hstream, hr⟩ := mem_placedLeaves.mp hx
  obtain ⟨out', rs', hout', hstream', hr'⟩ := mem_placedLeaves.mp hy
  have hpair := List.inj_on_of_nodup_map hseparate.senders hout hout' horigin
  obtain rfl := (Prod.mk.inj hpair).2
  rw [← hplace, hstream] at hstream'
  obtain rfl := (Prod.mk.inj (Option.some.inj hstream')).2
  exact ⟨x.receiver, y.receiver, hxReceiver, hyReceiver, out, x.stream, rs, hxOrigin ▸ hout,
    List.mem_of_getElem? hstream, hxs, hr, hr'⟩

end StreamTree

namespace Expansion

variable {c : Connection} {objects : ObjectTable} {e : Expansion}

/-- The expansion of a connection collapses exactly when it goes from an ensemble to neurons and all
its factors are alike, and then to a row that is as each of its own. Collapsed connections of one
ensemble that send alike have streams that are the same, and in every tree that holds both of them
their receivers are under one stream, whatever objects and inputs they go to. -/
theorem collapses_of_ofConnection (h : ofConnection c objects = .ok e) :
    ((∃ g, e.toGlobalInhibition = .ok g) ↔
      e.preKind = .ensemble ∧ e.postKind = .neurons ∧ e.transform.Uniform)
    ∧ (∀ g, e.toGlobalInhibition = .ok g → e.CollapsesTo g)
    ∧ ∀ e' g g', e.toGlobalInhibition = .ok g → e'.toGlobalInhibition = .ok g' →
      e.SendsAlike e' → ∃ s s', g.stream = .ok s ∧ g'.stream = .ok s' ∧ s.same s' = true
        ∧ ∀ es t, StreamTree.ofExpansions es = .ok t → g ∈ es → g' ∈ es →
          t.Separate ∧ ∃ r r', g.receiver = .ok r ∧ g'.receiver = .ok r'
            ∧ t.Shares g.pre s r r' := by
  refine ⟨?_, fun g hg => ?_, fun e' g g' hg hg' halike => ?_⟩
  · rw [← Matrix.exists_uniformValue?_iff (entries_ne_nil_of_ofConnection h)]
    simp only [toGlobalInhibition_eq_ok_iff]
    constructor
    · rintro ⟨g, hpre, hpost, gain, hgain, -⟩
      exact ⟨hpre, hpost, gain, hgain⟩
    · rintro ⟨hpre, hpost, gain, hgain⟩
      exact ⟨_, hpre, hpost, gain, hgain, rfl⟩
  · obtain ⟨-, -, gain, hgain, rfl⟩ := toGlobalInhibition_eq_ok_iff.mp hg
    exact collapsesTo_collapsed hgain
  · obtain ⟨s, s', hs, hs', hsame⟩ := halike.same_stream hg hg'
    have hpre : g.pre = g'.pre := by
      obtain ⟨-, -, _, -, rfl⟩ := toGlobalInhibition_eq_ok_iff.mp hg
      obtain ⟨-, -, _, -, rfl⟩ := toGlobalInhibition_eq_ok_iff.mp hg'
      exact halike.pre
    refine ⟨s, s', hs, hs', hsame, fun es t ht hmem hmem' => ?_⟩
    exact ⟨StreamTree.separate_of_ofExpansions ht,
      StreamTree.shares_of_same ht hmem hmem' hpre hs hs' hsame⟩

/-- An ensemble and two layers of neurons. -/
def crowdAndLayers : ObjectTable :=
  ⟨[⟨⟨0⟩, "crowd", .ensemble, 2, 2, some (.fill 4 2 .one)⟩, ⟨⟨1⟩, "cells", .neurons, 3, 3, none⟩,
    ⟨⟨2⟩, "relays", .neurons, 2, 2, none⟩]⟩

/-- The second output, inhibiting a layer of so many neurons. -/
def inhibitionOf (layer : UInt32) (size : Nat) : Connection :=
  { Connection.between ⟨0⟩ ⟨layer⟩ with
    preSlice := some ⟨1, 2, Nat.one_lt_two⟩
    function := some ⟨0, "same", 1, id⟩
    transform := .dense (.fill size 1 .one) }

theorem collapses_of_ofConnection_layers : ∃ e e' g g' s s',
    ofConnection (inhibitionOf 1 3) crowdAndLayers = .ok e
      ∧ ofConnection (inhibitionOf 2 2) crowdAndLayers = .ok e'
      ∧ e.toGlobalInhibition = .ok g ∧ e'.toGlobalInhibition = .ok g'
      ∧ e.transform.nRows = 3 ∧ e'.transform.nRows = 2 ∧ e.CollapsesTo g ∧ e.SendsAlike e'
      ∧ g.stream = .ok s ∧ g'.stream = .ok s' ∧ s.same s' = true
      ∧ ∃ t, StreamTree.ofExpansions [g, g'] = .ok t ∧ t.Separate
        ∧ ∃ r r', g.receiver = .ok r ∧ g'.receiver = .ok r' ∧ t.Shares g.pre s r r' := by
  obtain ⟨e, he⟩ : ∃ e, ofConnection (inhibitionOf 1 3) crowdAndLayers = .ok e := ⟨_, rfl⟩
  obtain ⟨e', he'⟩ : ∃ e', ofConnection (inhibitionOf 2 2) crowdAndLayers = .ok e' := ⟨_, rfl⟩
  obtain ⟨hcollapses, hrow, hshares⟩ := collapses_of_ofConnection he
  obtain ⟨hcollapses', -, -⟩ := collapses_of_ofConnection he'
  obtain ⟨g, hg⟩ := hcollapses.mpr (by cases he; decide +kernel)
  obtain ⟨g', hg'⟩ := hcollapses'.mpr (by cases he'; decide +kernel)
  have halike : e.SendsAlike e' := by
    cases he
    cases he'
    exact {
      pre := rfl
      gain := by decide +kernel
      nCols := rfl
      preSlice := rfl
      samples := ⟨_, _, _, _, rfl, rfl, by decide +kernel, rfl, rfl, by decide +kernel⟩
      solver := by decide +kernel
      keyspace := rfl
      rule := rfl }
  obtain ⟨s, s', hs, hs', hsame, htree⟩ := hshares e' g g' hg hg' halike
  obtain ⟨r, hr, -⟩ := ((checked_of_ofConnection he).collapse hg).2.receiver_ok
  obtain ⟨r', hr', -⟩ := ((checked_of_ofConnection he').collapse hg').2.receiver_ok
  obtain ⟨t, ht⟩ : ∃ t, StreamTree.ofExpansions [g, g'] = .ok t := by
    simp [StreamTree.ofExpansions, hs, hs', hr, hr', bind, Except.bind, pure, Except.pure]
  obtain ⟨hseparate, hunder⟩ := htree [g, g'] t ht (by simp) (by simp)
  exact ⟨e, e', g, g', s, s', he, he', hg, hg', by cases he; rfl, by cases he'; rfl, hrow g hg,
    halike, hs, hs', hsame, t, ht, hseparate, hunder⟩

end Expansion

end Manycore
