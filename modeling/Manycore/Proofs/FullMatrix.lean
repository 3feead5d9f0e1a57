import Manycore.Transform
import Manycore.Proofs.Number.Scaling

/-! # Full matrices

Entries that are put into a matrix one after the other are found where they were put, and nothing
else changes. So a full matrix holds its transform at the selected rows and columns, and transforms
with the same factors have the same full matrix, however they are written.
-/

namespace Manycore

open Binary64

namespace Matrix

variable {a b m : Matrix} {i j : Nat} {value : Binary64}

theorem entry_fill_zero (nRows nCols i j : Nat) :
    (fill nRows nCols (zero false)).entry i j = zero false := by
  simp only [entry, fill, List.getD_eq_getElem?_getD, List.getElem?_replicate]
  split
  · simp only [Option.getD_some, List.getElem?_replicate]
    split <;> rfl
  · rfl

theorem entry_set_self (hi : i < m.nRows) (hj : j < m.nCols) :
    (m.set i j value).entry i j = value := by
  have hi' : i < m.rows.length := hi
  have hlength := m.row_length m.rows[i] (List.getElem_mem hi')
  simp [entry, set, List.getD_eq_getElem?_getD, List.getElem?_eq_getElem hi', hlength, hj]

theorem entry_set_of_ne {i' j' : Nat} (h : ¬ (i = i' ∧ j = j')) :
    (m.set i j value).entry i' j' = m.entry i' j' := by
  simp only [entry, set, List.getD_eq_getElem?_getD, List.getElem?_modify]
  cases m.rows[i']? with
  | none => rfl
  | some row =>
      by_cases hi : i = i'
      · have hj : j ≠ j' := fun hj => h ⟨hi, hj⟩
        simp [hi, List.getElem?_set_ne hj]
      · simp [hi]

/-- Where every entry put into a matrix is that of `value`, and what nothing is put upon is so
already, the whole is. -/
theorem entry_setAll {value : Nat → Nat → Binary64} {cells : List (Nat × Nat × Binary64)}
    (hcells : ∀ x ∈ cells, x.1 < m.nRows ∧ x.2.1 < m.nCols ∧ x.2.2 = value x.1 x.2.1)
    (hrest : (∀ x ∈ cells, ¬ (x.1 = i ∧ x.2.1 = j)) → m.entry i j = value i j) :
    (m.setAll cells).entry i j = value i j := by
  unfold setAll
  induction cells generalizing m with
  | nil => exact hrest fun x hx => nomatch hx
  | cons x rest ih =>
      obtain ⟨⟨hrow, hcol, hvalue⟩, hothers⟩ := List.forall_mem_cons.mp hcells
      obtain ⟨hrows, hcols⟩ := Shape.mk.inj (m.shape_set x.1 x.2.1 x.2.2)
      rw [List.foldl_cons]
      apply ih
      · intro y hy
        obtain ⟨hrow', hcol', hvalue'⟩ := hothers y hy
        exact ⟨hrows ▸ hrow', hcols ▸ hcol', hvalue'⟩
      · intro hnone
        by_cases hplace : x.1 = i ∧ x.2.1 = j
        · obtain ⟨rfl, rfl⟩ := hplace
          rw [entry_set_self hrow hcol, hvalue]
        · rw [entry_set_of_ne hplace]
          exact hrest (List.forall_mem_cons.mpr ⟨hplace, hnone⟩)

theorem entry_ofFn {nRows nCols : Nat} {f : Nat → Nat → Binary64} (hi : i < nRows) (hj : j < nCols) :
    (ofFn nRows nCols f).entry i j = f i j := by
  simp [entry, ofFn, List.getD_eq_getElem?_getD, hi, hj]

theorem entry_scaled {factor : Binary64} (hi : i < m.nRows) (hj : j < m.nCols) :
    (m.scaled factor).entry i j = m.entry i j * factor := by
  have hi' : i < m.rows.length := hi
  have hlength := m.row_length m.rows[i] (List.getElem_mem hi')
  have hj' : j < m.rows[i].length := hlength ▸ hj
  simp [entry, scaled, map, List.getD_eq_getElem?_getD, List.getElem?_eq_getElem hi',
    List.getElem?_eq_getElem hj']

theorem map_rows_eq {β : Type} {f : Binary64 → β} (hshape : a.shape = b.shape)
    (h : ∀ i < a.nRows, ∀ j < a.nCols, f (a.entry i j) = f (b.entry i j)) :
    a.rows.map (List.map f) = b.rows.map (List.map f) := by
  obtain ⟨hrows, hcols⟩ := Shape.mk.inj hshape
  have hlength (m : Matrix) {i : Nat} (hi : i < m.rows.length) : m.rows[i].length = m.nCols :=
    m.row_length _ (List.getElem_mem hi)
  refine List.ext_getElem (by simpa [nRows] using hrows) fun i hi hi' => ?_
  rw [List.length_map] at hi hi'
  simp only [List.getElem_map]
  refine List.ext_getElem (by simp [hlength, hcols]) fun j hj hj' => ?_
  rw [List.length_map] at hj hj'
  have hentry := h i hi j (by rwa [← hlength a hi])
  simpa [entry, List.getD_eq_getElem?_getD, hi, hi', hj, hj'] using hentry

theorem eq_of_entry (hshape : a.shape = b.shape)
    (h : ∀ i < a.nRows, ∀ j < a.nCols, a.entry i j = b.entry i j) : a = b := by
  have hrows : a.rows = b.rows := by
    have hmap := map_rows_eq (f := fun x => x) hshape h
    simpa using hmap
  obtain ⟨-, hcols⟩ := Shape.mk.inj hshape
  cases a
  cases b
  cases hrows
  cases hcols
  rfl

theorem same_of_entry (hshape : a.shape = b.shape) (h : ∀ i < a.nRows, ∀ j < a.nCols,
    (a.entry i j).contentBits = (b.entry i j).contentBits) : a.same b = true := by
  have hrows := congrArg List.flatten (map_rows_eq hshape h)
  rw [← List.map_flatten, ← List.map_flatten] at hrows
  rw [same_iff, content, content, hshape]
  exact congrArg _ hrows

end Matrix

theorem Slice.getElem?_indices {s : Slice} {r i : Nat} :
    s.indices[r]? = some i ↔ r < s.size ∧ i = s.start + r := by
  by_cases hr : r < s.size <;> simp [indices, hr, eq_comm]

namespace Transform

variable {t t' : Transform} {sizeOut sizeIn : Nat} {preSlice postSlice : Slice} {m : Matrix}
  {i j r c : Nat} {value : Binary64}

/-- What a transform takes from the `c`-th selected output to the `r`-th selected input. -/
def factor : Transform → Nat → Nat → Binary64
  | scalar k, r, c => if r = c then k else zero false
  | diagonal ks, r, c => if r = c then ks.getD r (zero false) else zero false
  | dense m, r, c => m.entry r c

/-- The dimensions of a transform are those of slices of these sizes. -/
def Fits (t : Transform) (nPost nPre : Nat) : Prop :=
  match t with
  | scalar _ => nPre = nPost
  | diagonal ks => nPre = nPost ∧ ks.length = nPre
  | dense m => m.nRows = nPost ∧ m.nCols = nPre

/-- Where a transform has factors of its own: a scalar and a diagonal on the diagonal only. -/
def Reaches : Transform → Nat → Nat → Prop
  | scalar _, r, c => r = c
  | diagonal _, r, c => r = c
  | dense _, _, _ => True

theorem factor_of_not_reaches (h : ¬ t.Reaches r c) : t.factor r c = zero false := by
  cases t with
  | scalar k => exact if_neg h
  | diagonal ks => exact if_neg h
  | dense m => exact absurd trivial h

theorem mismatch?_eq_none_iff {nPost nPre : Nat} :
    t.mismatch? nPost nPre = none ↔ t.Fits nPost nPre := by
  cases t <;> simp [mismatch?, Fits, Matrix.shape]

/-- What is put into the full matrix: the factors, each at its row and column. -/
theorem mem_cells_iff (h : t.Fits postSlice.size preSlice.size) :
    (i, j, value) ∈ t.cells preSlice postSlice ↔ ∃ r c, r < postSlice.size ∧ c < preSlice.size
      ∧ i = postSlice.start + r ∧ j = preSlice.start + c ∧ t.Reaches r c ∧ value = t.factor r c := by
  cases t with
  | scalar k =>
      rw [cells, List.mem_map]
      simp only [List.mem_iff_getElem?, List.getElem?_zip_eq_some, Slice.getElem?_indices, Reaches,
        factor]
      constructor
      · rintro ⟨⟨i, j⟩, ⟨r, ⟨hr, rfl⟩, hr', rfl⟩, heq⟩
        cases heq
        exact ⟨r, r, hr, hr', rfl, rfl, rfl, (if_pos rfl).symm⟩
      · rintro ⟨r, _, hr, hr', rfl, rfl, rfl, rfl⟩
        exact ⟨(_, _), ⟨r, ⟨hr, rfl⟩, hr', rfl⟩, by rw [if_pos rfl]⟩
  | diagonal ks =>
      obtain ⟨hsize, hlength⟩ := h
      rw [cells, List.mem_map]
      simp only [List.mem_iff_getElem?, List.getElem?_zip_eq_some, Slice.getElem?_indices, Reaches,
        factor]
      constructor
      · rintro ⟨⟨⟨i, j⟩, k⟩, ⟨r, ⟨⟨hr, rfl⟩, hr', rfl⟩, hk⟩, heq⟩
        cases heq
        refine ⟨r, r, hr, hr', rfl, rfl, rfl, ?_⟩
        rw [if_pos rfl, List.getD_eq_getElem?_getD, hk, Option.getD_some]
      · rintro ⟨r, _, hr, hr', rfl, rfl, rfl, rfl⟩
        have hk : r < ks.length := hlength ▸ hr'
        refine ⟨((_, _), ks[r]), ⟨r, ⟨⟨hr, rfl⟩, hr', rfl⟩, List.getElem?_eq_getElem hk⟩, ?_⟩
        rw [if_pos rfl, List.getD_eq_getElem?_getD, List.getElem?_eq_getElem hk, Option.getD_some]
  | dense m =>
      simp only [cells, List.mem_flatMap, List.mem_map, Prod.exists, List.mem_zipIdx_iff_getElem?,
        Slice.getElem?_indices, Reaches, factor]
      constructor
      · rintro ⟨i, r, ⟨hr, rfl⟩, j, c, ⟨hc, rfl⟩, heq⟩
        cases heq
        exact ⟨r, c, hr, hc, rfl, rfl, trivial, rfl⟩
      · rintro ⟨r, c, hr, hc, rfl, rfl, -, rfl⟩
        exact ⟨_, r, ⟨hr, rfl⟩, _, c, ⟨hc, rfl⟩, rfl⟩

/-- The factors at the rows of one slice and the columns of the other, and zeros elsewhere. -/
def placed (t : Transform) (preSlice postSlice : Slice) (i j : Nat) : Binary64 :=
  if postSlice.contains i && preSlice.contains j then
    t.factor (i - postSlice.start) (j - preSlice.start)
  else zero false

theorem placed_of_lt (hr : r < postSlice.size) (hc : c < preSlice.size) :
    t.placed preSlice postSlice (postSlice.start + r) (preSlice.start + c) = t.factor r c := by
  rw [Slice.size] at hr hc
  have hrow : postSlice.contains (postSlice.start + r) = true := decide_eq_true (by omega)
  have hcol : preSlice.contains (preSlice.start + c) = true := decide_eq_true (by omega)
  simp only [placed, hrow, hcol, Bool.and_self, if_true, Nat.add_sub_cancel_left]

theorem full_eq_ok_iff : t.full sizeOut sizeIn preSlice postSlice = .ok m ↔
    preSlice.stop ≤ sizeOut ∧ postSlice.stop ≤ sizeIn ∧ t.Fits postSlice.size preSlice.size
      ∧ m = (Matrix.fill sizeIn sizeOut (zero false)).setAll (t.cells preSlice postSlice) := by
  rw [← mismatch?_eq_none_iff, full]
  split
  · grind
  · split <;> grind

theorem entry_of_full (h : t.full sizeOut sizeIn preSlice postSlice = .ok m) (i j : Nat) :
    m.entry i j = t.placed preSlice postSlice i j := by
  obtain ⟨hout, hin, hfits, rfl⟩ := full_eq_ok_iff.mp h
  obtain ⟨hrows, hcols⟩ := Shape.mk.inj (Matrix.shape_fill sizeIn sizeOut (zero false))
  apply Matrix.entry_setAll
  · rintro ⟨i, j, value⟩ hcell
    obtain ⟨r, c, hr, hc, rfl, rfl, -, rfl⟩ := (mem_cells_iff hfits).mp hcell
    refine ⟨?_, ?_, (placed_of_lt hr hc).symm⟩
    · rw [hrows]
      show postSlice.start + r < sizeIn
      unfold Slice.size at hr
      omega
    · rw [hcols]
      show preSlice.start + c < sizeOut
      unfold Slice.size at hc
      omega
  · -- Where nothing is put, the transform has no factor of its own.
    intro hnone
    rw [Matrix.entry_fill_zero, placed]
    split
    · rename_i hwithin
      simp only [Bool.and_eq_true, Slice.contains, decide_eq_true_eq] at hwithin
      refine (factor_of_not_reaches fun hreaches => ?_).symm
      refine hnone _ ((mem_cells_iff hfits).mpr ⟨i - postSlice.start, j - preSlice.start, ?_, ?_, rfl,
        rfl, hreaches, rfl⟩) ⟨by dsimp only; omega, by dsimp only; omega⟩
      · unfold Slice.size
        omega
      · unfold Slice.size
        omega
    · rfl

theorem shape_of_full (h : t.full sizeOut sizeIn preSlice postSlice = .ok m) :
    m.shape = ⟨sizeIn, sizeOut⟩ := by
  obtain ⟨-, -, -, rfl⟩ := full_eq_ok_iff.mp h
  simp

theorem full_of_expand (h : t.expand sizeOut sizeIn preSlice postSlice = .ok m) :
    t.full sizeOut sizeIn preSlice postSlice = .ok m := by
  rw [expand] at h
  split at h
  · cases h
  · exact h

theorem placed_congr {β : Type} {f : Binary64 → β} (h : ∀ r < postSlice.size,
    ∀ c < preSlice.size, f (t.factor r c) = f (t'.factor r c)) (i j : Nat) :
    f (t.placed preSlice postSlice i j) = f (t'.placed preSlice postSlice i j) := by
  unfold placed
  split
  · rename_i hwithin
    simp only [Bool.and_eq_true, Slice.contains, decide_eq_true_eq] at hwithin
    unfold Slice.size at h
    exact h _ (by omega) _ (by omega)
  · rfl

/-- Transforms that fit and have the same factors succeed with the same matrix, or fail alike. -/
theorem full_congr (hfits : t.Fits postSlice.size preSlice.size)
    (hfits' : t'.Fits postSlice.size preSlice.size) (h : ∀ r < postSlice.size,
      ∀ c < preSlice.size, t.factor r c = t'.factor r c) :
    t.full sizeOut sizeIn preSlice postSlice = t'.full sizeOut sizeIn preSlice postSlice := by
  by_cases hwithin : preSlice.stop ≤ sizeOut ∧ postSlice.stop ≤ sizeIn
  · have hm := full_eq_ok_iff.mpr ⟨hwithin.1, hwithin.2, hfits, rfl⟩
    have hm' := full_eq_ok_iff.mpr ⟨hwithin.1, hwithin.2, hfits', rfl⟩
    have hshape := (shape_of_full hm).trans (shape_of_full hm').symm
    rw [hm, hm', Matrix.eq_of_entry hshape]
    intro i _ j _
    rw [entry_of_full hm, entry_of_full hm']
    exact placed_congr (f := id) h i j
  · rw [full, full, if_pos (by omega), if_pos (by omega)]

theorem same_of_full {m' : Matrix} (hm : t.full sizeOut sizeIn preSlice postSlice = .ok m)
    (hm' : t'.full sizeOut sizeIn preSlice postSlice = .ok m') (h : ∀ r < postSlice.size,
      ∀ c < preSlice.size, (t.factor r c).contentBits = (t'.factor r c).contentBits) :
    m.same m' = true := by
  apply Matrix.same_of_entry ((shape_of_full hm).trans (shape_of_full hm').symm)
  intro i _ j _
  rw [entry_of_full hm, entry_of_full hm']
  exact placed_congr h i j

end Transform

/-- The identity with another number on its diagonal. -/
def Matrix.timesIdentity (k : Binary64) (n : Nat) : Matrix :=
  ofFn n n fun i j => if i = j then k else zero false

namespace Transform

variable {k : Binary64} {n r c : Nat}

theorem factor_diagonal_replicate (hc : c < n) :
    (diagonal (List.replicate n k)).factor r c = (scalar k).factor r c := by
  simp only [factor]
  split
  · rw [List.getD_eq_getElem?_getD, List.getElem?_replicate_of_lt (by omega), Option.getD_some]
  · rfl

theorem factor_timesIdentity (hr : r < n) (hc : c < n) :
    (dense (.timesIdentity k n)).factor r c = (scalar k).factor r c :=
  Matrix.entry_ofFn hr hc

theorem contentBits_factor_scaled (hk : k.isFinite = true) (hr : r < n) (hc : c < n) :
    ((dense ((Matrix.identity n).scaled k)).factor r c).contentBits
      = ((scalar k).factor r c).contentBits := by
  have hrow : r < (Matrix.identity n).nRows := by simpa [Matrix.identity, Matrix.nRows, Matrix.ofFn]
  have hentry : (Matrix.identity n).entry r c = if r = c then one else zero false :=
    Matrix.entry_ofFn hr hc
  simp only [factor]
  rw [Matrix.entry_scaled hrow hc, hentry]
  split
  · rw [one_mul hk]
  · rw [contentBits_zero_mul hk]
    rfl

/-- Expansion succeeds exactly when the slices are within the objects and the dimensions of the
transform are those of the slices. It makes a row for every input of the receiver and a column for
every output of the sender, with the transform at the selected ones and zeros elsewhere. On slices of
`n` indices a scalar, `n` copies of it as a diagonal, and the identity times it make one matrix; where
the identity was multiplied by a number, the zeros of the product may have another sign. -/
theorem full_places (t : Transform) (sizeOut sizeIn : Nat) (preSlice postSlice : Slice) :
    ((∃ m, t.full sizeOut sizeIn preSlice postSlice = .ok m) ↔
      preSlice.stop ≤ sizeOut ∧ postSlice.stop ≤ sizeIn ∧ t.Fits postSlice.size preSlice.size)
    ∧ (∀ m, t.full sizeOut sizeIn preSlice postSlice = .ok m →
      m.nRows = sizeIn ∧ m.nCols = sizeOut
        ∧ ∀ i j, m.entry i j = t.placed preSlice postSlice i j)
    ∧ ∀ k n, preSlice.size = n → postSlice.size = n →
      (diagonal (List.replicate n k)).full sizeOut sizeIn preSlice postSlice
        = (scalar k).full sizeOut sizeIn preSlice postSlice
      ∧ (dense (.timesIdentity k n)).full sizeOut sizeIn preSlice postSlice
        = (scalar k).full sizeOut sizeIn preSlice postSlice
      ∧ (k.isFinite = true → ∀ m, (scalar k).full sizeOut sizeIn preSlice postSlice = .ok m →
        ∃ m', (dense ((Matrix.identity n).scaled k)).full sizeOut sizeIn preSlice postSlice = .ok m'
          ∧ m'.same m = true) := by
  refine ⟨?_, fun m hm => ?_, ?_⟩
  · constructor
    · rintro ⟨m, hm⟩
      obtain ⟨hout, hin, hfits, -⟩ := full_eq_ok_iff.mp hm
      exact ⟨hout, hin, hfits⟩
    · rintro ⟨hout, hin, hfits⟩
      exact ⟨_, full_eq_ok_iff.mpr ⟨hout, hin, hfits, rfl⟩⟩
  · obtain ⟨hrows, hcols⟩ := Shape.mk.inj (shape_of_full hm)
    exact ⟨hrows, hcols, entry_of_full hm⟩
  · rintro k n hpre hpost
    have hscalar : (scalar k).Fits postSlice.size preSlice.size := hpre.trans hpost.symm
    have hdiagonal : (diagonal (List.replicate n k)).Fits postSlice.size preSlice.size :=
      ⟨hscalar, List.length_replicate.trans hpre.symm⟩
    have hsquare : ∀ d : Matrix, d.shape = ⟨n, n⟩ →
        (dense d).Fits postSlice.size preSlice.size := by
      intro d hd
      obtain ⟨hrows, hcols⟩ := Shape.mk.inj hd
      exact ⟨hrows.trans hpost.symm, hcols.trans hpre.symm⟩
    refine ⟨full_congr hdiagonal hscalar fun r _ c hc => ?_,
      full_congr (hsquare _ ?_) hscalar fun r hr c hc => ?_, fun hk m hm => ?_⟩
    · exact factor_diagonal_replicate (hpre ▸ hc)
    · simp [Matrix.shape, Matrix.nRows, Matrix.timesIdentity, Matrix.ofFn]
    · exact factor_timesIdentity (hpost ▸ hr) (hpre ▸ hc)
    · obtain ⟨hout, hin, -, -⟩ := full_eq_ok_iff.mp hm
      have hfits := hsquare ((Matrix.identity n).scaled k)
        (by simp [Matrix.shape, Matrix.nRows, Matrix.scaled, Matrix.map, Matrix.identity, Matrix.ofFn])
      have hproduct := full_eq_ok_iff.mpr ⟨hout, hin, hfits, rfl⟩
      refine ⟨_, hproduct, same_of_full hproduct hm fun r hr c hc => ?_⟩
      exact contentBits_factor_scaled hk (hpost ▸ hr) (hpre ▸ hc)

/-- The last two of four outputs, negated, to both inputs of a receiver. -/
theorem full_places_shifted :
    (∃ m, (scalar (-one)).full 4 2 ⟨2, 4, by decide⟩ ⟨0, 2, by decide⟩ = .ok m
      ∧ m.entry 0 2 = -one ∧ m.entry 0 3 = zero false ∧ m.entry 1 1 = zero false
      ∧ ∃ m', (dense ((Matrix.identity 2).scaled (-one))).full 4 2 ⟨2, 4, by decide⟩
          ⟨0, 2, by decide⟩ = .ok m' ∧ m'.same m = true)
    ∧ (diagonal [-one, -one]).full 4 2 ⟨2, 4, by decide⟩ ⟨0, 2, by decide⟩
      = (scalar (-one)).full 4 2 ⟨2, 4, by decide⟩ ⟨0, 2, by decide⟩ := by
  obtain ⟨hsucceeds, hplaced, hsame⟩ :=
    full_places (scalar (-one)) 4 2 ⟨2, 4, by decide⟩ ⟨0, 2, by decide⟩
  obtain ⟨m, hm⟩ := hsucceeds.mpr ⟨by decide, by decide, rfl⟩
  obtain ⟨-, -, hentry⟩ := hplaced m hm
  obtain ⟨hdiagonal, -, hproduct⟩ := hsame (-one) 2 rfl rfl
  exact ⟨⟨m, hm, hentry 0 2, hentry 0 3, hentry 1 1, hproduct (by decide +kernel) m hm⟩, hdiagonal⟩

end Transform

end Manycore
