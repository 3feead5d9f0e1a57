import Manycore.Proofs.Connection.Keyed
import Manycore.Proofs.FullMatrix

/-! # Accepted connections reduce

What is checked when a connection is expanded is enough for its reduction: the receiver is always
there, nothing is read outside the evaluation points, and the sender fails only on a function whose
results have another length than declared. Collapsing the expansion to one row keeps all of it.
-/

namespace Manycore

open List (Forall₂)

namespace VectorFunction

variable {f : VectorFunction} {points : List (List Binary64)} {cause : WrongLength}

/-- What is reported of a point whose result has another length. -/
def wrongLength (f : VectorFunction) (point : List Binary64) : WrongLength :=
  ⟨f.name, (f.apply point).length, f.sizeOut⟩

/-- The first point whose result does not have the declared length is the cause. -/
def FailsFirst (f : VectorFunction) (points : List (List Binary64)) (cause : WrongLength) : Prop :=
  ∃ before point after, points = before ++ point :: after
    ∧ (∀ x ∈ before, (f.apply x).length = f.sizeOut) ∧ (f.apply point).length ≠ f.sizeOut
    ∧ cause = f.wrongLength point

theorem evaluateRows_of_fits (h : ∀ point ∈ points, (f.apply point).length = f.sizeOut) :
    ∃ rows, f.evaluateRows points = .ok rows ∧ rows.val = points.map f.apply := by
  induction points with
  | nil => exact ⟨_, rfl, rfl⟩
  | cons point rest ih =>
      obtain ⟨hpoint, hrest⟩ := List.forall_mem_cons.mp h
      obtain ⟨⟨rows, hlengths⟩, heval, rfl⟩ := ih hrest
      refine ⟨⟨f.apply point :: rest.map f.apply, by simpa [hpoint] using hlengths⟩, ?_, rfl⟩
      rw [evaluateRows, dif_pos hpoint, heval]

theorem evaluateRows_of_failsFirst (h : f.FailsFirst points cause) :
    f.evaluateRows points = .error cause := by
  obtain ⟨before, point, after, rfl, hbefore, hpoint, rfl⟩ := h
  induction before with
  | nil => exact dif_neg hpoint
  | cons x rest ih =>
      obtain ⟨hx, hrest⟩ := List.forall_mem_cons.mp hbefore
      rw [List.cons_append, evaluateRows, dif_pos hx, ih hrest]

/-- Unless all results have the declared length, there is a first that has not. -/
theorem fits_or_failsFirst (f : VectorFunction) (points : List (List Binary64)) :
    (∀ point ∈ points, (f.apply point).length = f.sizeOut) ∨ ∃ cause, f.FailsFirst points cause := by
  induction points with
  | nil => exact .inl fun _ h => nomatch h
  | cons point rest ih =>
      by_cases hpoint : (f.apply point).length = f.sizeOut
      · rcases ih with hrest | ⟨cause, before, x, after, rfl, hbefore, hx, hcause⟩
        · exact .inl (List.forall_mem_cons.mpr ⟨hpoint, hrest⟩)
        · exact .inr ⟨cause, point :: before, x, after, rfl,
            List.forall_mem_cons.mpr ⟨hpoint, hbefore⟩, hx, hcause⟩
      · exact .inr ⟨_, [], point, rest, rfl, fun _ h => (nomatch h), hpoint, rfl⟩

theorem evaluateRows_eq_error_iff :
    f.evaluateRows points = .error cause ↔ f.FailsFirst points cause := by
  refine ⟨fun h => ?_, evaluateRows_of_failsFirst⟩
  rcases fits_or_failsFirst f points with hfits | ⟨cause', hfails⟩
  · obtain ⟨rows, hrows, -⟩ := evaluateRows_of_fits hfits
    cases hrows.symm.trans h
  · cases (evaluateRows_of_failsFirst hfails).symm.trans h
    exact hfails

theorem evaluate_eq_error_iff {m : Matrix} {s : Slice} :
    f.evaluate m s = .error cause ↔ f.FailsFirst (m.columns s).rows cause := by
  rw [← evaluateRows_eq_error_iff, evaluate]
  split <;> simp_all

theorem rows_of_evaluate {m samples : Matrix} {s : Slice} (h : f.evaluate m s = .ok samples) :
    samples.rows = (m.columns s).rows.map f.apply := by
  rcases fits_or_failsFirst f (m.columns s).rows with hfits | ⟨cause, hfails⟩
  · obtain ⟨rows, hrows, hval⟩ := evaluateRows_of_fits hfits
    rw [evaluate, hrows] at h
    cases h
    exact hval
  · rw [evaluate_eq_error_iff.mpr hfails] at h
    cases h

end VectorFunction

/-- The row has a value at every index of the slice, and these are the values. -/
def Slice.Reads (s : Slice) (row values : List Binary64) : Prop :=
  Forall₂ (fun index value => row[index]? = some value) s.indices values

theorem Slice.reads_take_drop {s : Slice} {row : List Binary64} (h : s.stop ≤ row.length) :
    s.Reads row ((row.take s.stop).drop s.start) := by
  have hlength : ((row.take s.stop).drop s.start).length = s.size := by
    rw [List.length_drop, List.length_take, Nat.min_eq_left h, Slice.size]
  refine List.forall₂_iff_get.mpr ⟨by simp [Slice.indices, hlength], fun i hi hi' => ?_⟩
  have hlt : s.start + i < s.stop := by
    rw [hlength, Slice.size] at hi'
    omega
  have hrow : s.start + i < row.length := by omega
  simp [Slice.indices, List.getElem?_eq_getElem hrow]

theorem Transform.shape_of_expand {t : Transform} {sizeOut sizeIn : Nat} {preSlice postSlice : Slice}
    {m : Matrix} (h : t.expand sizeOut sizeIn preSlice postSlice = .ok m) :
    m.shape = ⟨sizeIn, sizeOut⟩ ∧ preSlice.stop ≤ sizeOut ∧ postSlice.stop ≤ sizeIn := by
  have hfull := full_of_expand h
  obtain ⟨hout, hin, -, -⟩ := full_eq_ok_iff.mp hfull
  exact ⟨shape_of_full hfull, hout, hin⟩

namespace Expansion

variable {c : Connection} {objects : ObjectTable} {e g : Expansion}

theorem shape_of_fullTransform {sizeOut sizeIn : Nat} {preSlice postSlice : Slice} {m : Matrix}
    (h : fullTransform c sizeOut sizeIn preSlice postSlice = .ok m) :
    m.shape = ⟨sizeIn, (c.function.map (·.sizeOut)).getD sizeOut⟩ ∧ 1 ≤ sizeIn := by
  have hpost := postSlice.start_lt_stop
  rw [fullTransform] at h
  split at h
  · rename_i f hf
    obtain ⟨results, -, hfull⟩ := bind_eq_ok_iff.mp h
    obtain ⟨hshape, -, hwithin⟩ := Transform.shape_of_expand hfull
    rw [hf]
    exact ⟨hshape, by omega⟩
  · rename_i hf
    obtain ⟨hshape, -, hwithin⟩ := Transform.shape_of_expand h
    rw [hf]
    exact ⟨hshape, by omega⟩

theorem nCols_of_resolvePoints {pre : NetworkObject} {points : Matrix}
    (h : resolvePoints c pre = .ok (some points)) : points.nCols = pre.sizeOut := by
  rw [resolvePoints] at h
  split at h
  · split at h
    · cases h
    · split at h
      · cases h
        assumption
      · cases h
  · cases h

/-- What the sender makes of the values that it reads. -/
def transmits (e : Expansion) (values : List Binary64) : List Binary64 :=
  match e.function with
  | some f => f.apply values
  | none => values

/-- The expansion has a receiver for all its values. It has a stream, which reads columns of the
evaluation points that are there, unless a result of its function has the wrong length. -/
structure Reduces (e : Expansion) : Prop where
  width : e.width = e.transform.nRows
  one_le : 1 ≤ e.width
  receiver : ∃ r, e.receiver = .ok r ∧ r.slice.start = 0 ∧ r.slice.stop = e.width
  columns : ∀ points, e.evalPoints = some points → ∀ i ∈ e.preSlice.indices, i < points.nCols
  reads : ∀ points, e.evalPoints = some points →
    Forall₂ e.preSlice.Reads points.rows (points.columns e.preSlice).rows
  samples : ∀ points samples, e.evalPoints = some points → e.samples points = .ok samples →
    samples.rows = (points.columns e.preSlice).rows.map e.transmits
  /-- The first evaluation point whose result has the wrong length is the only cause. -/
  stream : ∀ cause, e.stream = .error cause ↔ ∃ points f wrong, e.evalPoints = some points
    ∧ e.function = some f ∧ f.FailsFirst (points.columns e.preSlice).rows wrong
    ∧ cause = .invalid (.functionResult wrong)

theorem reads_columns {points : Matrix} {s : Slice} (h : s.stop ≤ points.nCols) :
    Forall₂ s.Reads points.rows (points.columns s).rows := by
  refine List.forall₂_map_right_iff.mpr (List.forall₂_same.mpr fun row hrow => ?_)
  apply Slice.reads_take_drop
  rw [points.row_length row hrow]
  exact h

theorem rows_of_samples {points samples : Matrix} (h : e.samples points = .ok samples) :
    samples.rows = (points.columns e.preSlice).rows.map e.transmits := by
  rw [Expansion.samples] at h
  split at h
  · rename_i f hf
    have htransmits : e.transmits = f.apply := by
      funext values
      rw [transmits, hf]
    rw [htransmits]
    exact VectorFunction.rows_of_evaluate (mapError_eq_ok_iff.mp h)
  · rename_i hf
    have htransmits : e.transmits = id := by
      funext values
      rw [transmits, hf, id]
    cases h
    rw [htransmits, List.map_id]

theorem stream_eq_error_iff {cause : ConnectionError} :
    e.stream = .error cause ↔ ∃ points f wrong, e.evalPoints = some points
      ∧ e.function = some f ∧ f.FailsFirst (points.columns e.preSlice).rows wrong
      ∧ cause = .invalid (.functionResult wrong) := by
  rw [Expansion.stream, map_eq_error_iff, source]
  cases hpoints : e.evalPoints with
  | none => simp
  | some points =>
      cases hf : e.function with
      | none => simp [map_eq_error_iff, Expansion.samples, hf]
      | some f =>
          simp only [map_eq_error_iff, Expansion.samples, hf, mapError_eq_error_iff,
            VectorFunction.evaluate_eq_error_iff]
          constructor
          · rintro ⟨wrong, hwrong, rfl⟩
            exact ⟨points, f, wrong, rfl, rfl, hwrong, rfl⟩
          · rintro ⟨_, _, wrong, hpoints', hf', hwrong, rfl⟩
            cases hpoints'
            cases hf'
            exact ⟨wrong, hwrong, rfl⟩

/-- What the reductions rely on. -/
structure Checked (e : Expansion) : Prop where
  width : e.width = e.transform.nRows
  one_le : 1 ≤ e.width
  filter : ∃ filter, filterOf e.synapse e.accumulatory = .ok filter
  within : ∀ points, e.evalPoints = some points → e.preSlice.stop ≤ points.nCols

theorem Checked.receiver_ok (h : e.Checked) :
    ∃ r, e.receiver = .ok r ∧ r.slice.start = 0 ∧ r.slice.stop = e.width := by
  have hpos : 0 < e.width := h.one_le
  obtain ⟨filter, hfilter⟩ := h.filter
  refine ⟨⟨e.post, ⟨0, e.width, hpos⟩, e.inlet, filter⟩, ?_, rfl, rfl⟩
  rw [Expansion.receiver, Slice.full, Slice.ofBounds, dif_pos hpos, hfilter]
  rfl

theorem Checked.reduces (h : e.Checked) : e.Reduces where
  width := h.width
  one_le := h.one_le
  receiver := h.receiver_ok
  columns points hpoints i hi := by
    have hlt := (Slice.mem_indices.mp hi).2
    have hwithin := h.within points hpoints
    omega
  reads points hpoints := reads_columns (h.within points hpoints)
  samples _ _ _ hsamples := rows_of_samples hsamples
  stream _ := stream_eq_error_iff

/-- An expansion of a connection between two objects that has passed every check. -/
structure Accepts (c : Connection) (pre post : NetworkObject) (e : Expansion) : Prop where
  function : e.function = c.function
  transform : fullTransform c pre.sizeOut post.sizeIn e.preSlice e.postSlice = .ok e.transform
  width : e.width = e.transform.nRows
  within : e.preSlice.stop ≤ pre.sizeOut
  points : resolvePoints c pre = .ok e.evalPoints
  filter : ∃ filter, filterOf e.synapse e.accumulatory = .ok filter

theorem accepts_of_ofConnection (h : ofConnection c objects = .ok e) :
    ∃ pre post, objects.get c.pre = .ok pre ∧ objects.get c.post = .ok post
      ∧ Accepts c pre post e := by
  simp only [ofConnection, bind_eq_ok_iff, mapError_eq_ok_iff] at h
  obtain ⟨pre, hpre, post, hpost, preSlice, -, postSlice, -, h⟩ := h
  split at h
  · obtain ⟨_, hthrow, -⟩ := bind_eq_ok_iff.mp h
    cases hthrow
  · rename_i hwithin
    simp only [bind_eq_ok_iff] at h
    obtain ⟨transform, htransform, points, hpoints, _, -, filter, hfilter, h⟩ := h
    cases h
    exact ⟨pre, post, hpre, hpost, rfl, mapError_eq_ok_iff.mp htransform, rfl,
      Nat.le_of_not_lt hwithin, hpoints, filter, hfilter⟩

theorem Accepts.checked {pre post : NetworkObject} (h : Accepts c pre post e) : e.Checked := by
  obtain ⟨hshape, hpos⟩ := shape_of_fullTransform h.transform
  refine ⟨h.width, ?_, h.filter, fun points hpoints => ?_⟩
  · have hrows : e.transform.nRows = post.sizeIn := congrArg Shape.rows hshape
    rw [h.width, hrows]
    exact hpos
  · rw [nCols_of_resolvePoints (hpoints ▸ h.points)]
    exact h.within

theorem checked_of_ofConnection (h : ofConnection c objects = .ok e) : e.Checked := by
  obtain ⟨_, _, -, -, haccepts⟩ := accepts_of_ofConnection h
  exact haccepts.checked

/-- A collapsed expansion has one row of the same length, and reads what it read before. -/
theorem Checked.collapse (he : e.Checked) (h : e.toGlobalInhibition = .ok g) :
    g.transform.shape = ⟨1, e.transform.nCols⟩ ∧ g.Checked := by
  rw [toGlobalInhibition] at h
  split at h
  · cases h
  · split at h
    · cases h
    · cases h
      have hrows : (Matrix.fill 1 e.transform.nCols ‹_›).nRows = 1 := List.length_replicate
      exact ⟨congrArg (Shape.mk · _) hrows, hrows.symm, le_rfl, he.filter, he.within⟩

/-- The expansion of a connection has a row for every input of the receiver and a column for every
value that enters it, and reduces; collapsed to a single row, it still does. -/
theorem reduces_of_ofConnection (h : ofConnection c objects = .ok e) :
    (∃ pre post, objects.get c.pre = .ok pre ∧ objects.get c.post = .ok post
      ∧ e.transform.shape = ⟨post.sizeIn, (c.function.map (·.sizeOut)).getD pre.sizeOut⟩)
    ∧ e.function = c.function ∧ e.Reduces
    ∧ ∀ g, e.toGlobalInhibition = .ok g →
      g.transform.shape = ⟨1, e.transform.nCols⟩ ∧ g.Reduces := by
  obtain ⟨pre, post, hpre, hpost, haccepts⟩ := accepts_of_ofConnection h
  have hchecked := haccepts.checked
  refine ⟨⟨pre, post, hpre, hpost, (shape_of_fullTransform haccepts.transform).1⟩,
    haccepts.function, hchecked.reduces, fun g hg => ?_⟩
  obtain ⟨hshape, hg⟩ := hchecked.collapse hg
  exact ⟨hshape, hg.reduces⟩

/-- An ensemble of two outputs, and three neurons. -/
def crowdAndCells : ObjectTable :=
  ⟨[⟨⟨0⟩, "crowd", .ensemble, 2, 2, some (.fill 4 2 .one)⟩, ⟨⟨1⟩, "cells", .neurons, 3, 3, none⟩]⟩

/-- The second output, inhibiting all neurons alike. -/
def inhibition : Connection :=
  { Connection.between ⟨0⟩ ⟨1⟩ with
    preSlice := some ⟨1, 2, by decide⟩
    function := some ⟨0, "same", 1, id⟩
    transform := .dense (.fill 3 1 .one) }

theorem reduces_of_ofConnection_inhibition :
    ∃ e g, ofConnection inhibition crowdAndCells = .ok e ∧ e.toGlobalInhibition = .ok g
      ∧ e.transform.shape = ⟨3, 1⟩ ∧ e.Reduces ∧ g.transform.shape = ⟨1, 1⟩ ∧ g.Reduces := by
  obtain ⟨e, he⟩ : ∃ e, ofConnection inhibition crowdAndCells = .ok e := ⟨_, rfl⟩
  obtain ⟨⟨pre, post, hpre, hpost, hshape⟩, -, hreduces, hcollapse⟩ := reduces_of_ofConnection he
  cases hpre
  cases hpost
  have hcollapses : e.toGlobalInhibition.isOk = true := by
    cases he
    decide +kernel
  obtain ⟨g, hg⟩ := exists_of_isOk hcollapses
  obtain ⟨hshape', hreduces'⟩ := hcollapse g hg
  have hcols : e.transform.nCols = 1 := congrArg Shape.cols hshape
  exact ⟨e, g, he, hg, hshape, hreduces, by rw [hshape', hcols], hreduces'⟩

end Expansion

end Manycore
