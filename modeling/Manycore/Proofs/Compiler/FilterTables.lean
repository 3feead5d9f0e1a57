import Manycore.Compiler.ValueFilter
import Manycore.Proofs.Lists
import Manycore.Proofs.Results

/-! # Tables of filters and of routes

Both tables start with the number of their records. A record is found at its place by the width of
the records alone, and equal filters have equal records.
-/

namespace Manycore

open List (Forall₂)

/-- The words of one record of a table that starts with the number of records. -/
def wordsAt (width place : Nat) (table : List UInt32) : List UInt32 :=
  (table.drop (1 + width * place)).take width

section

variable {α : Type} {f : α → List UInt32} {width : Nat} {xs : List α}

theorem wordsAt_flatMap (hf : ∀ x, (f x).length = width) {place : Nat} {x : α}
    (hx : xs[place]? = some x) (count : UInt32) :
    wordsAt width place (count :: xs.flatMap f) = f x := by
  rw [wordsAt, Nat.add_comm, List.drop_succ_cons]
  exact take_drop_flatMap hf hx

end

namespace Binary64

theorem not_zero_lt_of_magnitudeBits {x : Binary64} (h : x.magnitudeBits = 0) :
    (zero false).lt x = false := by
  have hinfinite : x.isInfinite = false := by
    rw [isInfinite, h]
    decide
  have hunits : x.units = 0 := by
    rw [units, exponentField, fraction, h]
    decide
  have hsigned : x.signedUnits = 0 := by
    simp only [signedUnits, hinfinite, hunits, Bool.false_eq_true, if_false]
    cases x.isNegative <;> rfl
  have hzero : (zero false).signedUnits = 0 := by decide
  simp [lt, hsigned, hzero]

/-- Numbers that are recognised as equal are equal, or both of them are zeros. -/
theorem eq_or_zeros_of_exactBits {x y : Binary64} (h : x.exactBits = y.exactBits) :
    x = y ∨ x.magnitudeBits = 0 ∧ y.magnitudeBits = 0 := by
  have hbits : ∀ z : Binary64, z.bits = 0 → z.magnitudeBits = 0 := by
    intro z hz
    rw [magnitudeBits, hz]
    decide
  rw [exactBits, exactBits] at h
  split at h
  · rename_i hx
    split at h
    · rename_i hy
      exact Or.inr ⟨hx, hy⟩
    · exact Or.inr ⟨hx, hbits y h.symm⟩
  · rename_i hx
    split at h
    · exact absurd (hbits x h) hx
    · cases x
      cases y
      exact Or.inl (congrArg mk h)

end Binary64

namespace ValueFilter

theorem decay_eq_of_exactBits {timestep x y : Binary64} (h : x.exactBits = y.exactBits) :
    decay timestep x = decay timestep y := by
  rcases Binary64.eq_or_zeros_of_exactBits h with rfl | ⟨hx, hy⟩
  · rfl
  · simp only [decay, Binary64.not_zero_lt_of_magnitudeBits hx,
      Binary64.not_zero_lt_of_magnitudeBits hy, Bool.false_eq_true, if_false]

theorem filterWords_eq_of_same {format : WordFormat} {timestep : Binary64} {width : Nat}
    {a b : Filter} (h : a.same b = true) :
    filterWords format timestep width a = filterWords format timestep width b := by
  obtain ⟨htau, haccumulatory⟩ := Prod.ext_iff.mp (of_decide_eq_true h)
  have htau' : a.tau.exactBits = b.tau.exactBits := htau
  have haccumulatory' : a.accumulatory = b.accumulatory := haccumulatory
  rw [filterWords, filterWords, decay_eq_of_exactBits htau', haccumulatory']

theorem length_filterWords (format : WordFormat) (timestep : Binary64) (width : Nat) (f : Filter) :
    (filterWords format timestep width f).length = 4 := rfl

theorem length_filterTable (format : WordFormat) (timestep : Binary64) (width : Nat)
    (fs : List Filter) : (filterTable format timestep width fs).length = 1 + 4 * fs.length := by
  rw [filterTable, List.length_cons, length_flatMap_of_length (length_filterWords _ _ _),
    Nat.add_comm]

theorem wordsAt_filterTable {format : WordFormat} {timestep : Binary64} {width place : Nat}
    {fs : List Filter} {f : Filter} (h : fs[place]? = some f) :
    wordsAt 4 place (filterTable format timestep width fs)
      = filterWords (coefficientFormat format) timestep width f :=
  wordsAt_flatMap (length_filterWords _ _ _) h _

end ValueFilter

/-- A record of a routing table: the streams that have the key under the mask go to the filter. -/
structure RouteRecord where
  key : UInt32
  mask : UInt32
  filter : UInt32
  deriving DecidableEq

namespace RouteRecord

def words (r : RouteRecord) : List UInt32 := [r.key, r.mask, r.filter]

/-- The words of a routing table. -/
def table (rs : List RouteRecord) : List UInt32 :=
  countWord rs.length :: rs.flatMap words

theorem length_words (r : RouteRecord) : r.words.length = 3 := rfl

theorem length_table (rs : List RouteRecord) : (table rs).length = 1 + 3 * rs.length := by
  rw [table, List.length_cons, length_flatMap_of_length length_words, Nat.add_comm]

end RouteRecord

namespace ValueFilter

/-- The record has the key and the mask of the route as they are. -/
structure Recorded (r : Route) (x : RouteRecord) : Prop where
  key : x.key.toNat = r.key
  mask : x.mask.toNat = r.mask
  filter : x.filter = countWord r.filter

theorem routeWord_eq_ok {object : ObjectId} {value : Nat} {w : UInt32}
    (h : routeWord object value = .ok w) : w.toNat = value := by
  rw [routeWord] at h
  split at h
  · rename_i hvalue
    cases h
    exact UInt32.toNat_ofNat_of_lt' hvalue
  · cases h

theorem words_eq_ok {object : ObjectId} {r : Route} {words : List UInt32}
    (h : r.words object = .ok words) : ∃ x : RouteRecord, words = x.words ∧ Recorded r x := by
  rw [Route.words, bind_eq_ok_iff] at h
  obtain ⟨key, hkey, h⟩ := h
  rw [bind_eq_ok_iff] at h
  obtain ⟨mask, hmask, h⟩ := h
  cases h
  exact ⟨⟨key, mask, _⟩, rfl, routeWord_eq_ok hkey, routeWord_eq_ok hmask, rfl⟩

theorem records_of_words {object : ObjectId} {rs : List Route} {wss : List (List UInt32)}
    (h : Forall₂ (fun r words => r.words object = .ok words) rs wss) :
    ∃ xs, wss.flatten = xs.flatMap RouteRecord.words ∧ Forall₂ Recorded rs xs := by
  induction h with
  | nil => exact ⟨[], rfl, .nil⟩
  | cons hwords _ ih =>
      obtain ⟨x, rfl, hx⟩ := words_eq_ok hwords
      obtain ⟨xs, hxs, hrest⟩ := ih
      refine ⟨x :: xs, ?_, .cons hx hrest⟩
      rw [List.flatten_cons, List.flatMap_cons, hxs]

theorem routeTable_eq_ok {object : ObjectId} {rs : List Route} {words : List UInt32}
    (h : routeTable object rs = .ok words) :
    ∃ xs, words = RouteRecord.table xs ∧ Forall₂ Recorded rs xs := by
  rw [routeTable, bind_eq_ok_iff] at h
  obtain ⟨wss, hwss, h⟩ := h
  cases h
  obtain ⟨xs, hxs, hrecorded⟩ := records_of_words (forall₂_of_mapM_ok hwss)
  refine ⟨xs, ?_, hrecorded⟩
  rw [RouteRecord.table, hrecorded.length_eq, hxs]

end ValueFilter

end Manycore
