import Manycore.Groups
import Manycore.Proofs.Lists
import Mathlib.Data.List.Induction

/-! # Distinct elements

The elements of a list that are not the same as an earlier one, for a relation in which elements may
be the same without being equal. In another order the list has the same kinds of elements, though
other elements may stand for them.
-/

namespace Manycore

open List (Forall₂)

variable {α β : Type} {same : α → α → Bool} {xs ys : List α}

theorem equivalence_of_content {κ : Type} (content : α → κ)
    (h : ∀ {x y}, same x y = true ↔ content x = content y) :
    Equivalence fun x y => same x y = true where
  refl _ := h.mpr rfl
  symm hxy := h.mpr (h.mp hxy).symm
  trans hxy hyz := h.mpr ((h.mp hxy).trans (h.mp hyz))

section

variable (hsame : Equivalence fun x y => same x y = true)
include hsame

theorem same_comm (x y : α) : same x y = same y x :=
  Bool.eq_iff_iff.mpr ⟨hsame.symm, hsame.symm⟩

theorem same_congr {x y : α} (h : same x y = true) (z : α) : same z x = same z y :=
  Bool.eq_iff_iff.mpr ⟨fun hzx => hsame.trans hzx h, fun hzy => hsame.trans hzy (hsame.symm h)⟩

end

theorem loop_eraseDupsBy_append (same : α → α → Bool) (xs : List α) (x : α) (seen : List α) :
    List.eraseDupsBy.loop same (xs ++ [x]) seen
      = if (List.eraseDupsBy.loop same xs seen).any (same x) then List.eraseDupsBy.loop same xs seen
        else List.eraseDupsBy.loop same xs seen ++ [x] := by
  induction xs generalizing seen with
  | nil =>
      cases hany : seen.any (same x) <;> simp [List.eraseDupsBy.loop, hany]
  | cons y rest ih =>
      cases hany : seen.any (same y) <;> simp only [List.cons_append, List.eraseDupsBy.loop, hany, ih]

theorem eraseDupsBy_append_singleton (same : α → α → Bool) (xs : List α) (x : α) :
    (xs ++ [x]).eraseDupsBy same = if (xs.eraseDupsBy same).any (same x) then xs.eraseDupsBy same
      else xs.eraseDupsBy same ++ [x] :=
  loop_eraseDupsBy_append same xs x []

theorem mem_of_mem_eraseDupsBy {x : α} (h : x ∈ xs.eraseDupsBy same) : x ∈ xs := by
  induction xs using List.reverseRecOn with
  | nil => cases h
  | append_singleton xs y ih =>
      rw [eraseDupsBy_append_singleton] at h
      split at h
      · exact List.mem_append_left _ (ih h)
      · rcases List.mem_append.mp h with h | h
        · exact List.mem_append_left _ (ih h)
        · exact List.mem_append_right _ h

theorem pairwise_eraseDupsBy (same : α → α → Bool) (xs : List α) :
    (xs.eraseDupsBy same).Pairwise fun x y => same y x = false := by
  induction xs using List.reverseRecOn with
  | nil => exact List.Pairwise.nil
  | append_singleton xs x ih =>
      rw [eraseDupsBy_append_singleton]
      split
      · exact ih
      · rename_i hnew
        simp only [List.any_eq_true, not_exists, not_and, Bool.not_eq_true] at hnew
        refine List.pairwise_append.mpr ⟨ih, List.pairwise_singleton _ _, ?_⟩
        intro y hy z hz
        cases List.mem_singleton.mp hz
        exact hnew y hy

theorem exists_mem_eraseDupsBy (hsame : Equivalence fun x y => same x y = true) {x : α}
    (h : x ∈ xs) : ∃ y ∈ xs.eraseDupsBy same, same x y = true := by
  induction xs using List.reverseRecOn with
  | nil => cases h
  | append_singleton xs z ih =>
      rw [eraseDupsBy_append_singleton]
      rcases List.mem_append.mp h with h | h
      · obtain ⟨y, hy, hxy⟩ := ih h
        split
        · exact ⟨y, hy, hxy⟩
        · exact ⟨y, List.mem_append_left _ hy, hxy⟩
      · cases List.mem_singleton.mp h
        split
        · rename_i hold
          exact List.any_eq_true.mp hold
        · exact ⟨x, by simp, hsame.refl x⟩

section

variable (hsame : Equivalence fun x y => same x y = true)
include hsame

theorem findIdx_eq_iff {known : List α} (happart : known.Pairwise fun x y => same y x = false)
    {i : Nat} (hi : i < known.length) (x : α) :
    (known.findIdx fun k => same k x) = i ↔ same known[i] x = true := by
  rw [List.findIdx_eq hi]
  refine ⟨And.left, fun hx => ⟨hx, fun j hj => ?_⟩⟩
  have hother := List.pairwise_iff_getElem.mp happart j i (hj.trans hi) hi hj
  rw [← Bool.not_eq_true] at hother ⊢
  exact fun hjx => hother (hsame.trans hx (hsame.symm hjx))

theorem intern_eq (known : List α) (x : α) :
    intern same x known = (if known.any (same x) then known else known ++ [x],
      (if known.any (same x) then known else known ++ [x]).findIdx fun k => same k x) := by
  have hany : known.any (same x) = (known.findIdx? fun k => same k x).isSome := by
    rw [List.findIdx?_isSome]
    congr 1
    funext k
    exact same_comm hsame x k
  rw [intern, hany]
  cases hfind : known.findIdx? fun k => same k x with
  | some i => simp [(List.findIdx?_eq_some_iff_findIdx_eq.mp hfind).2]
  | none =>
      have hnew : ¬ ∃ k ∈ known, same k x = true := by
        simpa using List.findIdx?_eq_none_iff.mp hfind
      simp [List.findIdx_append, hnew, List.findIdx_cons, hsame.refl x]

/-- Every element is told its place among the distinct ones. -/
theorem distinct_eq (xs : List α) : distinct same xs
    = (xs.eraseDupsBy same, xs.map fun x => (xs.eraseDupsBy same).findIdx fun k => same k x) := by
  induction xs using List.reverseRecOn with
  | nil => rfl
  | append_singleton xs x ih =>
      have hstep : distinct same (xs ++ [x])
          = ((intern same x (distinct same xs).1).1,
            (distinct same xs).2 ++ [(intern same x (distinct same xs).1).2]) := by
        simp only [distinct, List.foldl_append, List.foldl_cons, List.foldl_nil]
      rw [hstep, ih, intern_eq hsame, ← eraseDupsBy_append_singleton, List.map_append,
        List.map_singleton]
      -- A new element goes behind the known ones, so those before it keep their places.
      have hkept : ∀ y ∈ xs, ((xs ++ [x]).eraseDupsBy same).findIdx (fun k => same k y)
          = (xs.eraseDupsBy same).findIdx fun k => same k y := by
        intro y hy
        obtain ⟨k, hk, hyk⟩ := exists_mem_eraseDupsBy hsame hy
        have hky : same k y = true := hsame.symm hyk
        rw [eraseDupsBy_append_singleton]
        split
        · rfl
        · rw [List.findIdx_append, if_pos (List.findIdx_lt_length_of_exists ⟨k, hk, hky⟩)]
      rw [List.map_congr_left hkept]

theorem forall₂_distinct (xs : List α) :
    Forall₂ (fun x i => ∃ y, (distinct same xs).1[i]? = some y ∧ same y x = true) xs
      (distinct same xs).2 := by
  rw [distinct_eq hsame, List.forall₂_map_right_iff, List.forall₂_same]
  intro x hx
  obtain ⟨y, hy, hxy⟩ := exists_mem_eraseDupsBy hsame hx
  have hyx : same y x = true := hsame.symm hxy
  have hplace : (xs.eraseDupsBy same).findIdx (fun k => same k x) < (xs.eraseDupsBy same).length :=
    List.findIdx_lt_length_of_exists ⟨y, hy, hyx⟩
  exact ⟨_, List.getElem?_eq_getElem hplace,
    (findIdx_eq_iff hsame (pairwise_eraseDupsBy same xs) hplace x).mp rfl⟩

end

/-- Two lists can be brought into one order when every element has its partner in the other list and
none has two. -/
theorem exists_perm_of_partners {R : α → β → Prop} {ys : List β}
    (hleft : ∀ x ∈ xs, ∃ y ∈ ys, R x y) (hright : ∀ y ∈ ys, ∃ x ∈ xs, R x y)
    (honeLeft : xs.Pairwise fun x x' => ∀ y, R x y → ¬ R x' y)
    (honeRight : ys.Pairwise fun y y' => ∀ x, R x y → ¬ R x y') :
    ∃ zs, zs.Perm ys ∧ Forall₂ R xs zs := by
  induction xs generalizing ys with
  | nil =>
      cases ys with
      | nil => exact ⟨[], List.Perm.nil, .nil⟩
      | cons y rest =>
          obtain ⟨x, hx, -⟩ := hright y List.mem_cons_self
          cases hx
  | cons x rest ih =>
      obtain ⟨hx, hrest⟩ := List.forall_mem_cons.mp hleft
      obtain ⟨hother, honeRest⟩ := List.pairwise_cons.mp honeLeft
      obtain ⟨y, hy, hxy⟩ := hx
      obtain ⟨front, back, rfl⟩ := List.append_of_mem hy
      have hmoved : (y :: (front ++ back)).Perm (front ++ y :: back) := List.perm_middle.symm
      have honeMoved : (y :: (front ++ back)).Pairwise fun y y' => ∀ x, R x y → ¬ R x y' := by
        refine honeRight.perm hmoved.symm ?_
        intro y y' h x hy' hy
        exact h x hy hy'
      obtain ⟨hlater, honeLater⟩ := List.pairwise_cons.mp honeMoved
      have hleft' : ∀ x' ∈ rest, ∃ y' ∈ front ++ back, R x' y' := by
        intro x' hx'
        obtain ⟨y', hy', hR⟩ := hrest x' hx'
        rcases List.mem_cons.mp (hmoved.mem_iff.mpr hy') with rfl | hy'
        · exact absurd hR (hother x' hx' _ hxy)
        · exact ⟨y', hy', hR⟩
      have hright' : ∀ y' ∈ front ++ back, ∃ x' ∈ rest, R x' y' := by
        intro y' hy'
        obtain ⟨x', hx', hR⟩ := hright y' (hmoved.mem_iff.mp (List.mem_cons_of_mem _ hy'))
        rcases List.mem_cons.mp hx' with rfl | hx'
        · exact absurd hR (hlater y' hy' _ hxy)
        · exact ⟨x', hx', hR⟩
      obtain ⟨zs, hzs, hforall⟩ := ih hleft' hright' honeRest honeLater
      exact ⟨y :: zs, (hzs.cons y).trans hmoved, .cons hxy hforall⟩

/-- The distinct elements do not depend on the order, but for which ones stand for the others. -/
theorem exists_perm_eraseDupsBy (hsame : Equivalence fun x y => same x y = true)
    (hperm : xs.Perm ys) : ∃ zs, zs.Perm (ys.eraseDupsBy same)
      ∧ Forall₂ (fun x y => same x y = true) (xs.eraseDupsBy same) zs := by
  apply exists_perm_of_partners
  · intro x hx
    exact exists_mem_eraseDupsBy hsame (hperm.mem_iff.mp (mem_of_mem_eraseDupsBy hx))
  · intro y hy
    obtain ⟨x, hx, hyx⟩ :=
      exists_mem_eraseDupsBy hsame (hperm.mem_iff.mpr (mem_of_mem_eraseDupsBy hy))
    exact ⟨x, hx, hsame.symm hyx⟩
  · refine (pairwise_eraseDupsBy same xs).imp ?_
    intro x x' hother y hxy hx'y
    rw [same_congr hsame hxy, hx'y] at hother
    cases hother
  · refine (pairwise_eraseDupsBy same ys).imp ?_
    intro y y' hother x hxy hxy'
    rw [same_comm hsame, ← same_congr hsame hxy', same_comm hsame, hxy] at hother
    cases hother

end Manycore
