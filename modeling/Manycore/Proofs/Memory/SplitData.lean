import Manycore.Proofs.Keyspace.Run
import Manycore.Proofs.Memory.PointerTable
import Manycore.Proofs.Memory.RegionGrowth
import Manycore.Proofs.Memory.RegionSizes
import Manycore.Proofs.Memory.Regions

/-! # Data of split vertices

A vertex is split into slices that lie side by side, and each slice gets its part of a table. The
parts of a list make up the list, so the rows, columns and records that the slices write are those
of the whole, however far the slices reach beyond the data. Keys are rendered slice by slice from
layouts that change on the way; still the records are the same, as long as no further word of a
record tells the slices apart.
-/

namespace Manycore

open List (Forall₂)
open Keying Keyspace

namespace Slice.Tiles

variable {start stop : Nat} {slices : List Slice}

/-- The parts of a list side by side are the list between the outer bounds. -/
theorem flatMap_part {α : Type} (h : Tiles start stop slices) (xs : List α) :
    slices.flatMap (fun s => s.part xs) = (xs.take stop).drop start := by
  induction slices generalizing start with
  | nil =>
      obtain rfl : start = stop := h
      exact (List.drop_eq_nil_of_le (List.length_take_le _ _)).symm
  | cons s rest ih =>
      obtain ⟨rfl, hrest⟩ := h
      have hstart := Nat.le_of_lt s.start_lt_stop
      have hstop : (xs.take stop).take s.stop = xs.take s.stop := by
        rw [List.take_take, Nat.min_eq_left hrest.le]
      have hlength : ((xs.take stop).take s.stop).length ≤ s.stop := List.length_take_le _ _
      rw [List.flatMap_cons, ih hrest, part, ← hstop]
      calc ((xs.take stop).take s.stop).drop s.start ++ (xs.take stop).drop s.stop
          = ((xs.take stop).drop s.start).take (s.stop - s.start)
            ++ ((xs.take stop).drop s.start).drop (s.stop - s.start) := by
            rw [List.drop_take, List.drop_drop, Nat.add_sub_cancel' hstart]
        _ = (xs.take stop).drop s.start := List.take_append_drop _ _

theorem flatMap_part_eq {α : Type} {xs : List α} (h : Tiles 0 stop slices)
    (hlength : xs.length ≤ stop) : slices.flatMap (fun s => s.part xs) = xs := by
  rw [h.flatMap_part, List.take_of_length_le hlength, List.drop_zero]

theorem total_overlap (h : Tiles start stop slices) (count : Nat) :
    total (slices.map fun s => s.overlap count) = min stop count - start := by
  induction slices generalizing start with
  | nil =>
      obtain rfl : start = stop := h
      simp only [List.map_nil, total_nil]
      omega
  | cons s rest ih =>
      obtain ⟨rfl, hrest⟩ := h
      have hlt := s.start_lt_stop
      have hle := hrest.le
      rw [List.map_cons, total_cons, ih hrest]
      simp only [overlap]
      omega

theorem total_overlap_eq {count : Nat} (h : Tiles 0 stop slices) (hcount : count ≤ stop) :
    total (slices.map fun s => s.overlap count) = count := by
  rw [h.total_overlap, Nat.min_eq_right hcount, Nat.sub_zero]

end Slice.Tiles

theorem flatMap_zipIdx {α β : Type} (xs : List α) (f : α → List β) :
    (xs.zipIdx.flatMap fun x => f x.1) = xs.flatMap f := by
  rw [← List.flatMap_map, List.zipIdx_map_fst]

theorem total_map_mul {α : Type} (f : α → Nat) (n : Nat) (xs : List α) :
    total (xs.map fun x => f x * n) = total (xs.map f) * n := by
  induction xs with
  | nil => exact (Nat.zero_mul n).symm
  | cons x rest ih => simp only [List.map_cons, total_cons, ih, Nat.add_mul]

namespace MatrixTable

variable {n : Nat} {slices : List Slice} {m : Matrix} {format : WordFormat}

/-- A matrix with nothing in front. -/
def ofMatrix (m : Matrix) (format : WordFormat) (axis : Option MatrixAxis) : MatrixTable :=
  ⟨.filled m format, axis, []⟩

/-- One row of words that were written row by row. -/
def rowOf (width i : Nat) (words : List UInt32) : List UInt32 := (words.drop (width * i)).take width

theorem words_render (m : Matrix) (format : WordFormat) (axis : Option MatrixAxis) (s : Slice)
    (index : Nat) : ((ofMatrix m format axis).render s index).words
      = (cut axis s m).entries.map format.encode := rfl

theorem rows_joined (h : Slice.Tiles 0 n slices) (hrows : m.nRows ≤ n) (s : Slice) (index : Nat) :
    (slices.zipIdx.flatMap fun x => ((ofMatrix m format (some .rows)).render x.1 x.2).words)
      = ((ofMatrix m format none).render s index).words := by
  have hpart : ∀ s : Slice, (cut (some .rows) s m).entries = (s.part m.rows).flatten := fun _ => rfl
  simp only [words_render, hpart]
  calc (slices.zipIdx.flatMap fun x => (x.1.part m.rows).flatten.map format.encode)
      = slices.flatMap fun s => (s.part m.rows).flatten.map format.encode :=
        flatMap_zipIdx slices fun s => (s.part m.rows).flatten.map format.encode
    _ = (slices.flatMap fun s => s.part m.rows).flatten.map format.encode := by
        rw [← List.map_flatMap, List.flatMap_def, List.flatMap_def, List.flatten_flatten,
          List.map_map]
        rfl
    _ = m.entries.map format.encode := by rw [h.flatMap_part_eq hrows, Matrix.entries]

theorem rowOf_columns {row : List Binary64} {i : Nat} (hrow : m.rows[i]? = some row) (s : Slice) :
    rowOf (s.overlap m.nCols) i ((cut (some .columns) s m).entries.map format.encode)
      = (s.part row).map format.encode := by
  have hentries : (cut (some .columns) s m).entries.map format.encode
      = (m.rows.map fun row => (s.part row).map format.encode).flatten := by
    rw [Matrix.entries, List.map_flatten]
    exact congrArg List.flatten (List.map_map ..)
  have hlength : ∀ words ∈ m.rows.map fun row => (s.part row).map format.encode,
      words.length = s.overlap m.nCols := by
    intro words hwords
    obtain ⟨row, hmem, rfl⟩ := List.mem_map.mp hwords
    rw [List.length_map, s.length_part, m.row_length row hmem]
  rw [hentries]
  exact take_drop_flatten hlength (by rw [List.getElem?_map, hrow, Option.map_some])

/-- Columns: row by row, the slices write the parts of the row one after the other. -/
theorem columns_joined (h : Slice.Tiles 0 n slices) (hcols : m.nCols ≤ n) (s : Slice) (index : Nat) :
    ((List.range m.nRows).flatMap fun i => slices.zipIdx.flatMap fun x =>
      rowOf (x.1.overlap m.nCols) i ((ofMatrix m format (some .columns)).render x.1 x.2).words)
      = ((ofMatrix m format none).render s index).words := by
  have hrows : ((List.range m.nRows).map fun i => slices.zipIdx.flatMap fun x =>
      rowOf (x.1.overlap m.nCols) i ((ofMatrix m format (some .columns)).render x.1 x.2).words)
        = m.rows.map (List.map format.encode) := by
    refine List.ext_getElem (by simp [Matrix.nRows]) fun i hi hi' => ?_
    have hlt : i < m.rows.length := by simpa using hi'
    have hlength : m.rows[i].length ≤ n := by
      rw [m.row_length _ (List.getElem_mem hlt)]
      exact hcols
    rw [List.getElem_map, List.getElem_range, List.getElem_map]
    simp only [words_render, rowOf_columns (List.getElem?_eq_getElem hlt)]
    rw [flatMap_zipIdx slices fun s => (s.part m.rows[i]).map format.encode, ← List.map_flatMap,
      h.flatMap_part_eq hlength]
  rw [List.flatMap_def, hrows, words_render, ← List.map_flatten]
  rfl

/-- The length of the axis that is split. -/
def axisLength (axis : MatrixAxis) (shape : Shape) : Nat :=
  match axis with
  | .rows => shape.rows
  | .columns => shape.cols

theorem sizes_joined (h : Slice.Tiles 0 n slices) {content : MatrixContent} {axis : MatrixAxis}
    (hlength : axisLength axis content.shape ≤ n) (s : Slice) :
    total (slices.map (MatrixTable.mk content (some axis) []).sizeWords)
      = (MatrixTable.mk content none []).sizeWords s := by
  cases axis with
  | rows =>
      have hrows : content.shape.rows ≤ n := hlength
      calc total (slices.map (MatrixTable.mk content (some .rows) []).sizeWords)
          = total (slices.map fun s => s.overlap content.shape.rows * content.shape.cols) := rfl
        _ = content.shape.rows * content.shape.cols := by
            rw [total_map_mul, h.total_overlap_eq hrows]
  | columns =>
      have hcols : content.shape.cols ≤ n := hlength
      calc total (slices.map (MatrixTable.mk content (some .columns) []).sizeWords)
          = total (slices.map fun s => s.overlap content.shape.cols * content.shape.rows) := by
            simp only [Nat.mul_comm _ content.shape.rows]
            rfl
        _ = content.shape.rows * content.shape.cols := by
            rw [total_map_mul, h.total_overlap_eq hcols, Nat.mul_comm]

end MatrixTable

section

variable {f : Type → Type} [Monad f] [LawfulMonad f] {α β γ : Type}

theorem mapM_blocks (g : α → f (List β)) (part : γ → List α) (blocks : List γ) :
    (do
      let parts ← blocks.mapM fun c => (part c).mapM g >>= fun records => pure records.flatten
      pure parts.flatten)
      = (blocks.flatMap part).mapM g >>= fun records => pure records.flatten := by
  induction blocks with
  | nil => simp
  | cons c rest ih =>
      have hrest := congrArg (fun x => do
        let records ← (part c).mapM g
        let words ← x
        pure (records.flatten ++ words)) ih
      simpa only [List.mapM_cons, List.flatMap_cons, List.mapM_append, bind_assoc, pure_bind,
        List.flatten_cons, List.flatten_append] using hrest

end

namespace Keying

variable {ε ε' α β : Type} {p q : Pool}

/-- From `p` on, what the computation has given once it gives ever after, and changes nothing. -/
def Steady (x : Keying ε α) (p : Pool) : Prop := ∀ q a r, Pool.Later p q → Yields x q a r →
  Pool.Later q r ∧ ∀ r', Pool.Later r r' → Yields x r' a r'

theorem steady_pure (a : α) : Steady (pure a : Keying ε α) p := by
  intro q b r _ h
  obtain ⟨rfl, rfl⟩ := yields_pure_iff.mp h
  exact ⟨.refl, fun r' _ => yields_pure_iff.mpr ⟨rfl, rfl⟩⟩

theorem Steady.mapError {x : Keying ε α} (h : Steady x p) (f : ε → ε') :
    Steady (x.mapError f) p := by
  intro q a r hq hx
  obtain ⟨hrun, hagain⟩ := h q a r hq (yields_mapError_iff.mp hx)
  exact ⟨hrun, fun r' hr' => yields_mapError_iff.mpr (hagain r' hr')⟩

theorem Steady.bind {x : Keying ε α} {f : α → Keying ε β} (hx : Steady x p)
    (hf : ∀ a, Steady (f a) p) : Steady (x >>= f) p := by
  intro q b r hq h
  obtain ⟨a, mid, ha, hb⟩ := yields_bind_iff.mp h
  obtain ⟨hfirst, haAgain⟩ := hx q a mid hq ha
  obtain ⟨hsecond, hbAgain⟩ := hf a mid b r (hq.trans hfirst) hb
  refine ⟨hfirst.trans hsecond, fun r' hr' => yields_bind_iff.mpr ⟨a, r', ?_, hbAgain r' hr'⟩⟩
  exact haAgain r' (hsecond.trans hr')

theorem steady_mapM {f : α → Keying ε β} {xs : List α} (h : ∀ x ∈ xs, Steady (f x) p) :
    Steady (xs.mapM f) p := by
  induction xs with
  | nil =>
      rw [List.mapM_nil]
      exact steady_pure []
  | cons x rest ih =>
      obtain ⟨hx, hrest⟩ := List.forall_mem_cons.mp h
      rw [List.mapM_cons]
      exact hx.bind fun y => (ih hrest).bind fun ys => steady_pure (y :: ys)

theorem steady_renders {k : Keyspace} (hk : k.In p) (output : Output) (selector : Selector) :
    Steady (k.renders output selector) p := by
  intro q v r hq h
  have hrun := (runs_renders k output selector q v r h).later
  refine ⟨hrun, fun r' hr' => ?_⟩
  have hshows := (shows_of_yields (hk.run hq) h).run ((hk.run hq).run hrun) hr'
  exact yields_renders_iff.mpr ⟨_, hshows, Pool.setLayout_layoutOf r' k⟩

theorem forall₂_of_steady {f : α → Keying ε β} {xs : List α} {ys : List β}
    (hsteady : ∀ x ∈ xs, Steady (f x) p) (h : Yields (xs.mapM f) p ys q) :
    Forall₂ (fun x y => ∃ r r', Pool.Later p r ∧ Yields (f x) r y r' ∧ Pool.Later r' q) xs ys := by
  refine (yields_mapM_forall₂ (P := Pool.Later p)
    (R := fun q x y => ∃ r r', Pool.Later p r ∧ Yields (f x) r y r' ∧ Pool.Later r' q)
    (fun _ _ hp hrun => hp.trans hrun) ?_ (fun x hx p' y q' hp' hy => ?_) .refl h).2
  · rintro p' q' x y - hrun ⟨r, r', hbefore, hy, hafter⟩
    exact ⟨r, r', hbefore, hy, hafter.trans hrun⟩
  · exact ⟨(hsteady x hx p' y q' hp' hy).1, p', q', hp', hy, .refl⟩

theorem yields_mapM_of_forall₂ {f : α → Keying ε β} {xs : List α} {ys : List β}
    (h : Forall₂ (fun x y => Yields (f x) p y p) xs ys) : Yields (xs.mapM f) p ys p := by
  induction h with
  | nil => exact yields_mapM_nil_iff.mpr ⟨rfl, rfl⟩
  | cons hxy _ ih => exact yields_mapM_cons_iff.mpr ⟨_, p, _, hxy, ih, rfl⟩

end Keying

/-- For these keyspaces the word is the same for all slices. -/
def KeyWord.IgnoresIndex (word : KeyWord) (keys : List Keyspace) : Prop :=
  ∀ k ∈ keys, ∀ i j, word k i = word k j

/-- What the word has been for one of these keyspaces it stays. -/
def KeyWord.Stays (word : KeyWord) (keys : List Keyspace) (p : Pool) : Prop :=
  ∀ k ∈ keys, ∀ i, Steady (word k i) p

theorem KeyWord.ignoresIndex_mask (keys : List Keyspace) : KeyWord.mask.IgnoresIndex keys :=
  fun _ _ _ _ => rfl

theorem KeyWord.stays_mask {keys : List Keyspace} {p : Pool} (hkeys : ∀ k ∈ keys, k.In p) :
    KeyWord.mask.Stays keys p :=
  fun k hk _ => (steady_renders (hkeys k hk) .mask .all).mapError MemoryError.key

namespace KeyTable

variable {n : Nat} {slices : List Slice} {keys : List Keyspace} {further : List KeyWord}
  {p q : Pool}

/-- A table with nothing to fill in and nothing in front. -/
def plain (keys : List Keyspace) (further : List KeyWord) (partitioned : Bool) : KeyTable :=
  { KeyTable.ofKeys keys with further, partitioned }

theorem words_plain (partitioned : Bool) (s : Slice) (index : Nat) :
    (plain keys further partitioned).words s index
      = (if partitioned then s.part keys else keys).mapM
          (fun k => (plain keys further partitioned).record k index)
        >>= fun records => pure records.flatten := rfl

theorem record_plain_eq (hwords : ∀ word ∈ further, word.IgnoresIndex keys) {k : Keyspace}
    (hk : k ∈ keys) (partitioned : Bool) (i j : Nat) :
    (plain keys further partitioned).record k i = (plain keys further false).record k j := by
  have hfurther : (further.mapM fun word => word k i >>= narrow k)
      = further.mapM fun word => word k j >>= narrow k :=
    mapM_congr fun word hword => by rw [hwords word hword k hk i j]
  simp only [record, plain, ofKeys, key, hfurther]

/-- Rendering the slices one after the other is rendering the whole table. -/
theorem words_joined (h : Slice.Tiles 0 n slices) (hlength : keys.length ≤ n)
    (hwords : ∀ word ∈ further, word.IgnoresIndex keys) (s : Slice) (index : Nat) :
    (do
      let parts ← slices.zipIdx.mapM fun x => (plain keys further true).words x.1 x.2
      pure parts.flatten) = (plain keys further false).words s index := by
  have hslice : ∀ x ∈ slices.zipIdx, (plain keys further true).words x.1 x.2
      = (x.1.part keys).mapM (fun k => (plain keys further false).record k index)
        >>= fun records => pure records.flatten := by
    intro x _
    rw [words_plain, if_pos rfl, mapM_congr fun k hk =>
      record_plain_eq hwords (Slice.mem_of_mem_part hk) true x.2 index]
  rw [mapM_congr hslice, mapM_blocks, flatMap_zipIdx slices fun s => s.part keys,
    h.flatMap_part_eq hlength]
  rfl

theorem steady_narrow (k : Keyspace) (value : Nat) : Steady (narrow k value) p := by
  intro q w r _ h
  obtain ⟨rfl, hw⟩ := yields_narrow_iff.mp h
  exact ⟨.refl, fun r' _ => yields_narrow_iff.mpr ⟨rfl, hw⟩⟩

theorem steady_words (hkeys : ∀ k ∈ keys, k.In p) (hwords : ∀ word ∈ further, word.Stays keys p)
    (partitioned : Bool) (s : Slice) (index : Nat) :
    Steady ((plain keys further partitioned).words s index) p := by
  have hrecord : ∀ k ∈ keys, Steady ((plain keys further partitioned).record k index) p := by
    intro k hk
    refine ((steady_renders (hkeys k hk) .key .all).mapError MemoryError.key).bind fun key => ?_
    refine (steady_narrow k key).bind fun first => ?_
    refine (steady_mapM fun word hword => ?_).bind fun rest => steady_pure _
    exact (hwords word hword k hk index).bind fun value => steady_narrow k value
  rw [words_plain]
  refine (steady_mapM fun k hk => hrecord k ?_).bind fun records => steady_pure _
  split at hk
  · exact Slice.mem_of_mem_part hk
  · exact hk

/-- Whenever the slices were rendered, and whatever was asked in between, the whole table is rendered
to the same words afterwards. -/
theorem words_joined_later (h : Slice.Tiles 0 n slices) (hlength : keys.length ≤ n)
    (hwords : ∀ word ∈ further, word.IgnoresIndex keys) (hkeys : ∀ k ∈ keys, k.In p)
    (hstays : ∀ word ∈ further, word.Stays keys p) {parts : List (List UInt32)}
    (hparts : Forall₂ (fun x words => ∃ r r', Pool.Later p r
      ∧ Yields ((plain keys further true).words x.1 x.2) r words r' ∧ Pool.Later r' q)
      slices.zipIdx parts) (s : Slice) (index : Nat) :
    Yields ((plain keys further false).words s index) q parts.flatten q := by
  have hagain : Forall₂ (fun x words => Yields ((plain keys further true).words x.1 x.2) q words q)
      slices.zipIdx parts := by
    refine hparts.imp ?_
    rintro x words ⟨r, r', hbefore, hyields, hafter⟩
    exact (steady_words hkeys hstays true x.1 x.2 r words r' hbefore hyields).2 q hafter
  rw [← words_joined h hlength hwords s index]
  exact yields_bind_iff.mpr ⟨parts, q, yields_mapM_of_forall₂ hagain, yields_pure_iff.mpr ⟨rfl, rfl⟩⟩

theorem sizes_joined (h : Slice.Tiles 0 n slices) (hlength : keys.length ≤ n) (s : Slice) :
    total (slices.map (plain keys further true).sizeWords)
      = (plain keys further false).sizeWords s := by
  calc total (slices.map (plain keys further true).sizeWords)
      = total (slices.map fun s => s.overlap keys.length * (1 + further.length)) := by
        simp only [← Slice.length_part]
        rfl
    _ = keys.length * (1 + further.length) := by
        rw [total_map_mul, h.total_overlap_eq hlength]

end KeyTable

open MatrixTable KeyTable

/-- When a vertex of `n` atoms is split, nothing of its data is lost or written twice. A matrix whose
rows or columns follow the atoms is put together from what the slices write, and so is a table of
keys when no further word tells the slices apart: rendering the slices in order is rendering the
whole, with the same failures and the same layouts left, and words that stay once they were given
make up the whole whenever the slices were rendered. The sizes of the slices sum to that of the
whole. -/
theorem split_keeps_data {n count : Nat} (hpos : 0 < count) (hle : count ≤ n) :
    ∃ whole slices, Slice.full n = .ok whole ∧ whole.splitInto count = .ok slices
      ∧ (∀ (m : Matrix) (format : WordFormat) (index : Nat), m.nRows ≤ n →
        (slices.zipIdx.flatMap fun x => ((ofMatrix m format (some .rows)).render x.1 x.2).words)
          = ((ofMatrix m format none).render whole index).words)
      ∧ (∀ (m : Matrix) (format : WordFormat) (index : Nat), m.nCols ≤ n →
        ((List.range m.nRows).flatMap fun i => slices.zipIdx.flatMap fun x =>
          rowOf (x.1.overlap m.nCols) i ((ofMatrix m format (some .columns)).render x.1 x.2).words)
          = ((ofMatrix m format none).render whole index).words)
      ∧ (∀ keys further (index : Nat), keys.length ≤ n →
        (∀ word ∈ further, KeyWord.IgnoresIndex word keys) →
        (do
          let parts ← slices.zipIdx.mapM fun x => (plain keys further true).words x.1 x.2
          pure parts.flatten) = (plain keys further false).words whole index
        ∧ ∀ p q parts, (∀ k ∈ keys, k.In p) → (∀ word ∈ further, KeyWord.Stays word keys p) →
          Forall₂ (fun x words => ∃ r r', Pool.Later p r
            ∧ Yields ((plain keys further true).words x.1 x.2) r words r' ∧ Pool.Later r' q)
            slices.zipIdx parts →
          Yields ((plain keys further false).words whole index) q parts.flatten q)
      ∧ (∀ (content : MatrixContent) (axis : MatrixAxis), axisLength axis content.shape ≤ n →
        total (slices.map (MatrixTable.mk content (some axis) []).sizeWords)
          = (MatrixTable.mk content none []).sizeWords whole)
      ∧ ∀ keys further, keys.length ≤ n → total (slices.map (plain keys further true).sizeWords)
          = (plain keys further false).sizeWords whole := by
  let whole : Slice := ⟨0, n, Nat.lt_of_lt_of_le hpos hle⟩
  have hfull : Slice.full n = .ok whole := dif_pos whole.start_lt_stop
  have hsplit : whole.splitInto count = .ok (whole.pieces count hpos hle) :=
    Slice.splitInto_eq_ok_iff.mpr ⟨hpos, hle, rfl⟩
  have htiles : Slice.Tiles 0 n (whole.pieces count hpos hle) := whole.tiles_pieces hpos hle
  refine ⟨whole, _, hfull, hsplit, ?_, ?_, ?_, ?_, ?_⟩
  · exact fun m format index hrows => rows_joined htiles hrows whole index
  · exact fun m format index hcols => columns_joined htiles hcols whole index
  · intro keys further index hlength hwords
    refine ⟨words_joined htiles hlength hwords whole index, fun p q parts hkeys hstays hparts => ?_⟩
    exact words_joined_later htiles hlength hwords hkeys hstays hparts whole index
  · exact fun content axis hlength => MatrixTable.sizes_joined htiles hlength whole
  · exact fun keys further hlength => KeyTable.sizes_joined htiles hlength whole

/-- Keyspaces on the layout of four bits. -/
def fourKeys : List Keyspace := [⟨0, [("k", 4)]⟩, ⟨0, [("k", 5)]⟩, ⟨0, [("k", 1)]⟩, ⟨0, [("k", 2)]⟩]

def firstThree : Slice := ⟨0, 3, by decide⟩

def lastTwo : Slice := ⟨3, 5, by decide⟩

/-- The second slice reaches beyond the data. -/
theorem split_keeps_data_five : 0 < 2 ∧ 2 ≤ 5
    ∧ ∃ whole, Slice.full 5 = .ok whole ∧ whole.splitInto 2 = .ok [firstThree, lastTwo]
      ∧ ([firstThree, lastTwo].zipIdx.flatMap fun x =>
        ((ofMatrix (.identity 4) .unsigned (some .rows)).render x.1 x.2).words)
          = ((ofMatrix (.identity 4) .unsigned none).render whole 0).words
      ∧ ((List.range (Matrix.identity 4).nRows).flatMap fun i =>
        [firstThree, lastTwo].zipIdx.flatMap fun x => rowOf (x.1.overlap (Matrix.identity 4).nCols) i
          ((ofMatrix (.identity 4) .unsigned (some .columns)).render x.1 x.2).words)
          = ((ofMatrix (.identity 4) .unsigned none).render whole 0).words
      ∧ total ([firstThree, lastTwo].map
          (MatrixTable.mk (.reserved ⟨4, 3⟩) (some .rows) []).sizeWords)
          = (MatrixTable.mk (.reserved ⟨4, 3⟩) none []).sizeWords whole
      ∧ total ([firstThree, lastTwo].map (plain fourKeys [KeyWord.mask] true).sizeWords)
          = (plain fourKeys [KeyWord.mask] false).sizeWords whole
      ∧ ∃ q, Yields ((plain fourKeys [KeyWord.mask] false).words whole 0) fourBits
          [4, 15, 5, 15, 1, 15, 2, 15] q
        ∧ ∀ later, Pool.Later q later →
          Yields ((plain fourKeys [KeyWord.mask] false).words whole 0) later
            [4, 15, 5, 15, 1, 15, 2, 15] later := by
  obtain ⟨whole, slices, hfull, hsplit, hrows, hcolumns, hkeys, hsizes, hkeySizes⟩ :=
    @split_keeps_data 5 2 (by decide) (by decide)
  cases (show Slice.full 5 = .ok ⟨0, 5, by decide⟩ from rfl).symm.trans hfull
  have hslices : (Slice.mk 0 5 (by decide)).splitInto 2 = .ok [firstThree, lastTwo] := by
    simp [Slice.splitInto, Slice.pieces, Slice.size, Slice.run, firstThree, lastTwo]
  cases hslices.symm.trans hsplit
  have hignores : ∀ word ∈ [KeyWord.mask], KeyWord.IgnoresIndex word fourKeys :=
    List.forall_mem_singleton.mpr (KeyWord.ignoresIndex_mask fourKeys)
  have hin : ∀ k ∈ fourKeys, k.In fourBits := by simp [fourKeys, In, fourBits]
  have hstays : ∀ word ∈ [KeyWord.mask], KeyWord.Stays word fourKeys fourBits :=
    List.forall_mem_singleton.mpr (KeyWord.stays_mask hin)
  obtain ⟨hjoined, hafter⟩ := hkeys fourKeys [KeyWord.mask] 0 (by decide) hignores
  obtain ⟨parts, q, hparts, rfl⟩ : ∃ parts q, Yields ([firstThree, lastTwo].zipIdx.mapM fun x =>
      (plain fourKeys [KeyWord.mask] true).words x.1 x.2) fourBits parts q
      ∧ parts = [[4, 15, 5, 15, 1, 15], [2, 15]] := exists_yields_of_any (by decide +kernel)
  have hwords : Yields ((plain fourKeys [KeyWord.mask] false).words ⟨0, 5, by decide⟩ 0) fourBits
      [4, 15, 5, 15, 1, 15, 2, 15] q := by
    rw [← hjoined]
    exact yields_bind_iff.mpr ⟨_, q, hparts, yields_pure_iff.mpr ⟨rfl, rfl⟩⟩
  have hrendered := forall₂_of_steady (fun x _ => steady_words hin hstays true x.1 x.2) hparts
  refine ⟨by decide, by decide, _, hfull, hslices, hrows (.identity 4) .unsigned 0 (by decide),
    hcolumns (.identity 4) .unsigned 0 (by decide), hsizes (.reserved ⟨4, 3⟩) .rows (by decide),
    hkeySizes fourKeys [KeyWord.mask] (by decide), q, hwords, fun later hrun => ?_⟩
  refine hafter fourBits later _ hin hstays (hrendered.imp ?_)
  rintro x words ⟨r, r', hbefore, hyields, hend⟩
  exact ⟨r, r', hbefore, hyields, hend.trans hrun⟩

/-- A further word that is the index of the slice. -/
def indexWord : KeyWord := fun _ index => pure index

theorem record_indexWord {keys : List Keyspace} {partitioned : Bool} {k : Keyspace} {index : Nat}
    {p q : Pool} {record : List UInt32}
    (h : Yields ((plain keys [indexWord] partitioned).record k index) p record q) :
    ∃ key word, record = [key, word] ∧ word.toNat = index := by
  simp only [KeyTable.record, plain, indexWord, yields_bind_iff, yields_mapM_cons_iff,
    yields_mapM_nil_iff, yields_pure_iff, yields_narrow_iff] at h
  obtain ⟨_, _, -, first, _, -, _, _, hword, rfl, -⟩ := h
  obtain ⟨word, _, _, ⟨_, _, ⟨rfl, -⟩, -, hword⟩, ⟨rfl, -⟩, rfl⟩ := hword
  exact ⟨first, word, rfl, hword⟩

/-- With the index behind each key, the slices do not write what the whole table is for any index. -/
theorem index_tells_slices_apart :
    (fourKeys.take 2).length ≤ 2 ∧ Slice.full 2 = .ok ⟨0, 2, by decide⟩
    ∧ (Slice.mk 0 2 (by decide)).splitInto 2 = .ok [.atom 0, .atom 1]
    ∧ ∃ parts q, Yields ([Slice.atom 0, Slice.atom 1].zipIdx.mapM fun x =>
        (plain (fourKeys.take 2) [indexWord] true).words x.1 x.2) fourBits parts q
      ∧ ∀ index words q', Yields ((plain (fourKeys.take 2) [indexWord] false).words
        (Slice.mk 0 2 (by decide)) index) fourBits words q' → words ≠ parts.flatten := by
  refine ⟨by decide, rfl, ?_, ?_⟩
  · simp [Slice.splitInto, Slice.pieces, Slice.size, Slice.run, Slice.atom]
  · obtain ⟨parts, q, hparts, rfl⟩ : ∃ parts q, Yields ([Slice.atom 0, Slice.atom 1].zipIdx.mapM
        fun x => (plain (fourKeys.take 2) [indexWord] true).words x.1 x.2) fourBits parts q
        ∧ parts = [[4, 0], [5, 1]] := exists_yields_of_any (by decide +kernel)
    refine ⟨_, q, hparts, fun index words q' h => ?_⟩
    rw [words_plain] at h
    obtain ⟨records, _, hrecords, hwords⟩ := yields_bind_iff.mp h
    obtain ⟨rfl, -⟩ := yields_pure_iff.mp hwords
    -- both records end in the one index
    cases forall₂_of_yields_mapM hrecords with
    | cons hfirst hrest =>
        cases hrest with
        | cons hsecond hnone =>
            cases hnone
            obtain ⟨_, _, hfirst⟩ := hfirst
            obtain ⟨_, _, hsecond⟩ := hsecond
            obtain ⟨key, word, rfl, hword⟩ := record_indexWord hfirst
            obtain ⟨key', word', rfl, hword'⟩ := record_indexWord hsecond
            intro heq
            simp only [List.flatten_cons, List.flatten_nil, List.cons_append, List.nil_append,
              List.append_nil, List.cons.injEq] at heq
            obtain ⟨-, rfl, -, rfl, -⟩ := heq
            cases hword.trans hword'.symm

end Manycore
