import Mathlib.Data.List.Forall2
import Mathlib.Data.List.SplitLengths

/-! # Lists that stand for each other

What is true of the elements of two lists that are related place by place.
-/

namespace Manycore

open List (Forall₂)

variable {α β γ : Type} {R : α → β → Prop} {xs : List α} {ys : List β}

theorem exists_right_of_forall₂ (h : Forall₂ R xs ys) {x : α} (hx : x ∈ xs) :
    ∃ y ∈ ys, R x y := by
  induction h with
  | nil => cases hx
  | cons hxy _ ih =>
      rcases List.mem_cons.mp hx with rfl | hx
      · exact ⟨_, List.mem_cons_self, hxy⟩
      · obtain ⟨y, hy, hR⟩ := ih hx
        exact ⟨y, List.mem_cons_of_mem _ hy, hR⟩

theorem exists_left_of_forall₂ (h : Forall₂ R xs ys) {y : β} (hy : y ∈ ys) :
    ∃ x ∈ xs, R x y :=
  exists_right_of_forall₂ h.flip hy

theorem forall₂_trans (S : α → α → Prop) (hS : ∀ x y z, S x y → S y z → S x z) {xs ys zs : List α}
    (hxy : Forall₂ S xs ys) (hyz : Forall₂ S ys zs) : Forall₂ S xs zs := by
  induction hxy generalizing zs with
  | nil => exact hyz
  | cons hhead _ ih =>
      cases hyz with
      | cons hhead' htail' => exact .cons (hS _ _ _ hhead hhead') (ih htail')

theorem forall₂_comp {S : β → γ → Prop} {zs : List γ} (h : Forall₂ R xs ys)
    (h' : Forall₂ S ys zs) : Forall₂ (fun x z => ∃ y, R x y ∧ S y z) xs zs := by
  induction h generalizing zs with
  | nil =>
      cases h'
      exact .nil
  | cons hxy _ ih =>
      cases h' with
      | cons hyz htail => exact .cons ⟨_, hxy, hyz⟩ (ih htail)

theorem forall₂_getElem? (h : Forall₂ R xs ys) {i : Nat} {y : β} (hy : ys[i]? = some y) :
    ∃ x, xs[i]? = some x ∧ R x y := by
  induction h generalizing i with
  | nil => cases hy
  | @cons x _ _ _ hxy _ ih =>
      cases i with
      | zero =>
          cases hy
          exact ⟨x, rfl, hxy⟩
      | succ i => exact ih hy

theorem forall₂_flatten_of_singletons {yss : List (List β)}
    (h : Forall₂ (fun x ys => ∃ y, ys = [y] ∧ R x y) xs yss) : Forall₂ R xs yss.flatten := by
  induction h with
  | nil => exact .nil
  | cons hhead _ ih =>
      obtain ⟨y, rfl, hy⟩ := hhead
      exact .cons hy ih

theorem forall₂_filterMap_of_some {yss : List (Option β)}
    (h : Forall₂ (fun x o => ∃ y, o = some y ∧ R x y) xs yss) :
    Forall₂ R xs (yss.filterMap fun o => o) := by
  induction h with
  | nil => exact .nil
  | cons hhead _ ih =>
      obtain ⟨y, rfl, hy⟩ := hhead
      exact .cons hy ih

theorem exists_append_of_forall₂ {xs xs' : List α} (h : Forall₂ R (xs ++ xs') ys) :
    ∃ zs zs', ys = zs ++ zs' ∧ Forall₂ R xs zs ∧ Forall₂ R xs' zs' := by
  induction xs generalizing ys with
  | nil => exact ⟨[], ys, rfl, .nil, h⟩
  | cons x xs ih =>
      cases h with
      | cons hhead htail =>
          obtain ⟨zs, zs', rfl, hzs, hzs'⟩ := ih htail
          exact ⟨_ :: zs, zs', rfl, .cons hhead hzs, hzs'⟩

theorem forall₂_and_mem (h : Forall₂ R xs ys) :
    Forall₂ (fun x y => R x y ∧ x ∈ xs ∧ y ∈ ys) xs ys := by
  induction h with
  | nil => exact .nil
  | cons hxy _ ih =>
      refine .cons ⟨hxy, List.mem_cons_self, List.mem_cons_self⟩ (ih.imp ?_)
      rintro x y ⟨hR, hx, hy⟩
      exact ⟨hR, List.mem_cons_of_mem _ hx, List.mem_cons_of_mem _ hy⟩

theorem forall₂_zipIdx (h : Forall₂ R xs ys) :
    Forall₂ (fun x z => R x z.1 ∧ ys[z.2]? = some z.1) xs ys.zipIdx := by
  rw [← List.zipIdx_map_fst 0 ys, List.forall₂_map_right_iff] at h
  exact (forall₂_and_mem h).imp fun _ _ hxz => ⟨hxz.1, List.mem_zipIdx_iff_getElem?.mp hxz.2.2⟩

theorem exists_parts_of_forall₂_flatten {xss : List (List α)} (h : Forall₂ R xss.flatten ys) :
    ∃ yss, ys = yss.flatten ∧ Forall₂ (Forall₂ R) xss yss := by
  induction xss generalizing ys with
  | nil =>
      cases h
      exact ⟨[], rfl, .nil⟩
  | cons xs rest ih =>
      obtain ⟨zs, zs', rfl, hzs, hzs'⟩ := exists_append_of_forall₂ h
      obtain ⟨yss, rfl, hyss⟩ := ih hzs'
      exact ⟨zs :: yss, rfl, .cons hzs hyss⟩

theorem splitLengths_flatten (xss : List (List α)) :
    (xss.map List.length).splitLengths xss.flatten = xss := by
  induction xss with
  | nil => rfl
  | cons xs rest ih => simp [ih]

theorem filter_eq_singleton [DecidableEq β] {f : α → β} (h : xs.Pairwise fun x y => f x ≠ f y)
    {x : α} (hx : x ∈ xs) : xs.filter (fun y => decide (f y = f x)) = [x] := by
  induction h with
  | nil => cases hx
  | @cons head rest hhead _ ih =>
      rcases List.mem_cons.mp hx with rfl | hx
      · rw [List.filter_cons_of_pos (by simp), List.filter_eq_nil_iff.mpr]
        intro y hy
        simpa using (hhead y hy).symm
      · rw [List.filter_cons_of_neg (by simpa using hhead x hx), ih hx]

section

variable {f : α → List β} {width : Nat}

theorem length_flatten_of_length {xss : List (List β)} (h : ∀ xs ∈ xss, xs.length = width) :
    xss.flatten.length = width * xss.length := by
  induction xss with
  | nil => rfl
  | cons xs rest ih =>
      obtain ⟨hxs, hrest⟩ := List.forall_mem_cons.mp h
      rw [List.flatten_cons, List.length_append, hxs, ih hrest, List.length_cons, Nat.mul_succ,
        Nat.add_comm]

theorem length_flatMap_of_length (hf : ∀ x, (f x).length = width) :
    (xs.flatMap f).length = width * xs.length := by
  rw [List.flatMap_def, length_flatten_of_length, List.length_map]
  intro row hrow
  obtain ⟨x, -, rfl⟩ := List.mem_map.mp hrow
  exact hf x

theorem drop_flatten_of_length {xss : List (List β)} (h : ∀ xs ∈ xss, xs.length = width)
    (place : Nat) : xss.flatten.drop (width * place) = (xss.drop place).flatten := by
  induction place generalizing xss with
  | zero => simp
  | succ place ih =>
      cases xss with
      | nil => simp
      | cons xs rest =>
          obtain ⟨hxs, hrest⟩ := List.forall_mem_cons.mp h
          rw [List.flatten_cons, Nat.mul_succ, Nat.add_comm, ← List.drop_drop, ← hxs, List.drop_left,
            hxs, ih hrest, List.drop_succ_cons]

/-- A record is found at its place by the width alone. -/
theorem take_drop_flatten {xss : List (List β)} (h : ∀ xs ∈ xss, xs.length = width) {place : Nat}
    {xs : List β} (hxs : xss[place]? = some xs) :
    (xss.flatten.drop (width * place)).take width = xs := by
  obtain ⟨hlt, rfl⟩ := List.getElem?_eq_some_iff.mp hxs
  rw [drop_flatten_of_length h, List.drop_eq_getElem_cons hlt, List.flatten_cons,
    ← h _ (List.getElem_mem hlt), List.take_left]

theorem take_drop_flatMap (hf : ∀ x, (f x).length = width) {place : Nat} {x : α}
    (hx : xs[place]? = some x) : ((xs.flatMap f).drop (width * place)).take width = f x := by
  rw [List.flatMap_def]
  apply take_drop_flatten
  · intro row hrow
    obtain ⟨y, -, rfl⟩ := List.mem_map.mp hrow
    exact hf y
  · rw [List.getElem?_map, hx, Option.map_some]

end

theorem exists_of_mem_getD {xss : List (List α)} {i : Nat} {x : α} (h : x ∈ xss.getD i []) :
    ∃ xs, xss[i]? = some xs ∧ x ∈ xs := by
  rw [List.getD_eq_getElem?_getD] at h
  cases hi : xss[i]? with
  | none =>
      rw [hi] at h
      cases h
  | some xs =>
      rw [hi] at h
      exact ⟨xs, rfl, h⟩

theorem mapM_congr {f : Type → Type} [Monad f] [LawfulMonad f] {g h : α → f β} {xs : List α}
    (heq : ∀ x ∈ xs, g x = h x) : xs.mapM g = xs.mapM h := by
  induction xs with
  | nil => rfl
  | cons x rest ih =>
      obtain ⟨hx, hrest⟩ := List.forall_mem_cons.mp heq
      rw [List.mapM_cons, List.mapM_cons, hx, ih hrest]

theorem pairwise_of_forall₂ {S : α → α → Prop} {T : β → β → Prop} (h : Forall₂ R xs ys)
    (hS : xs.Pairwise S) (hT : ∀ x x' y y', R x y → R x' y' → S x x' → T y y') :
    ys.Pairwise T := by
  induction h with
  | nil => exact List.Pairwise.nil
  | cons hxy htail ih =>
      obtain ⟨hhead, hrest⟩ := List.pairwise_cons.mp hS
      refine List.pairwise_cons.mpr ⟨fun y' hy' => ?_, ih hrest⟩
      obtain ⟨x', hx', hR⟩ := exists_left_of_forall₂ htail hy'
      exact hT _ _ _ _ hxy hR (hhead x' hx')

theorem pairwise_getElem? {S : α → α → Prop} (h : xs.Pairwise S) {i j : Nat} {x x' : α}
    (hx : xs[i]? = some x) (hx' : xs[j]? = some x') (hlt : i < j) : S x x' := by
  obtain ⟨hi, rfl⟩ := List.getElem?_eq_some_iff.mp hx
  obtain ⟨hj, rfl⟩ := List.getElem?_eq_some_iff.mp hx'
  exact List.pairwise_iff_getElem.mp h i j hi hj hlt

theorem forall₂_filter {p : α → Bool} {q : β → Bool} (h : Forall₂ R xs ys)
    (hR : ∀ x y, R x y → p x = q y) : Forall₂ R (xs.filter p) (ys.filter q) := by
  induction h with
  | nil => exact .nil
  | @cons x y _ _ hxy _ ih =>
      cases hq : q y with
      | false =>
          rw [List.filter_cons_of_neg (by simp [hR x y hxy, hq]),
            List.filter_cons_of_neg (by simp [hq])]
          exact ih
      | true =>
          rw [List.filter_cons_of_pos (by simp [hR x y hxy, hq]),
            List.filter_cons_of_pos (by simp [hq])]
          exact .cons hxy ih

theorem countP_eq_of_forall₂ {p : α → Bool} {q : β → Bool} (h : Forall₂ R xs ys)
    (hR : ∀ x y, R x y → p x = q y) : xs.countP p = ys.countP q := by
  rw [List.countP_eq_length_filter, List.countP_eq_length_filter]
  exact (forall₂_filter h hR).length_eq

theorem map_eq_map_of_forall₂ {f : α → γ} {g : β → γ} (h : Forall₂ R xs ys)
    (hR : ∀ x y, R x y → g y = f x) : ys.map g = xs.map f := by
  induction h with
  | nil => rfl
  | cons hxy _ ih => simp only [List.map_cons, hR _ _ hxy, ih]

theorem map_filter_eq_of_forall₂ {p : α → Bool} {q : β → Bool} {f : α → γ} {g : β → γ}
    (h : Forall₂ R xs ys) (hR : ∀ x y, R x y → q y = p x ∧ g y = f x) :
    (ys.filter q).map g = (xs.filter p).map f := by
  induction h with
  | nil => rfl
  | @cons x y _ _ hxy _ ih =>
      obtain ⟨hkeep, hvalue⟩ := hR x y hxy
      cases hp : p x with
      | false => simp [hkeep, hp, ih]
      | true => simp [hkeep, hp, hvalue, ih]

end Manycore
