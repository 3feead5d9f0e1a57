import Manycore.Keyspace.Field

/-! # Bindings as maps

Bindings are looked at through `get?`. Those that are made by binding keep the names in ascending
order, so they are equal as lists when they bind the same values.
-/

namespace Manycore.Keyspace.Bindings

/-- The names ascend, so none is there twice. -/
def Sorted (b : Bindings) : Prop := b.Pairwise fun x y => x.1 < y.1

@[simp] theorem get?_nil (name : String) : get? [] name = none := rfl

theorem get?_cons (other : String) (v : Nat) (rest : Bindings) (name : String) :
    get? ((other, v) :: rest) name = if other = name then some v else get? rest name := by
  by_cases h : other = name <;> simp [get?, h]

theorem mem_of_get? {b : Bindings} {name : String} {v : Nat} (h : b.get? name = some v) :
    (name, v) ∈ b := by
  induction b with
  | nil => simp at h
  | cons pair rest ih =>
      obtain ⟨other, w⟩ := pair
      rw [get?_cons] at h
      split at h
      · rename_i hname
        cases h
        simp [hname]
      · exact List.mem_cons_of_mem _ (ih h)

theorem get?_eq_none_iff {b : Bindings} {name : String} :
    b.get? name = none ↔ name ∉ b.map (·.1) := by
  induction b with
  | nil => simp
  | cons head rest ih =>
      rw [get?_cons, List.map_cons, List.mem_cons, not_or, ← ih]
      by_cases hname : head.1 = name <;> simp [hname, Ne.symm]

theorem get?_eq_some_iff {b : Bindings} (hnodup : (b.map (·.1)).Nodup) {name : String} {v : Nat} :
    b.get? name = some v ↔ (name, v) ∈ b := by
  refine ⟨mem_of_get?, fun hmem => ?_⟩
  induction b with
  | nil => cases hmem
  | cons head rest ih =>
      obtain ⟨hhead, hrest⟩ := List.nodup_cons.mp hnodup
      rw [get?_cons]
      rcases List.mem_cons.mp hmem with rfl | hmem
      · rw [if_pos rfl]
      · have hother : head.1 ≠ name := by
          rintro rfl
          exact hhead (List.mem_map.mpr ⟨_, hmem, rfl⟩)
        rw [if_neg hother, ih hrest hmem]

theorem get?_append (a c : Bindings) (name : String) :
    get? (a ++ c) name = (get? a name).or (get? c name) := by
  simp [get?, List.find?_append, Option.map_or]

theorem get?_of_perm {a c : Bindings} (hperm : a.Perm c) (hnodup : (a.map (·.1)).Nodup)
    (name : String) : a.get? name = c.get? name := by
  apply Option.ext
  intro v
  rw [get?_eq_some_iff hnodup, get?_eq_some_iff ((hperm.map _).nodup_iff.mp hnodup), hperm.mem_iff]

theorem get?_insert (name : String) (v : Nat) (b : Bindings) (other : String) :
    get? (insert name v b) other = if name = other then some v else get? b other := by
  induction b with
  | nil => rw [insert, get?_cons]
  | cons pair rest ih =>
      obtain ⟨head, w⟩ := pair
      simp only [insert]
      split
      · rename_i heq
        subst heq
        simp only [get?_cons]
        split <;> rfl
      · split
        · rw [get?_cons]
        · rename_i hne _
          simp only [get?_cons, ih]
          split <;> split <;> simp_all

theorem mem_insert {name : String} {v : Nat} {b : Bindings} {pair : String × Nat}
    (h : pair ∈ insert name v b) : pair = (name, v) ∨ pair ∈ b := by
  induction b with
  | nil => simpa [insert] using h
  | cons head rest ih =>
      simp only [insert] at h
      split at h
      · rcases List.mem_cons.mp h with h | h
        · exact Or.inl h
        · exact Or.inr (List.mem_cons_of_mem _ h)
      · split at h
        · exact List.mem_cons.mp h
        · rcases List.mem_cons.mp h with h | h
          · exact Or.inr (h ▸ List.mem_cons_self)
          · exact (ih h).imp_right (List.mem_cons_of_mem _)

theorem sorted_insert {b : Bindings} (hsorted : b.Sorted) (name : String) (v : Nat) :
    Sorted (insert name v b) := by
  induction b with
  | nil => exact List.pairwise_singleton _ _
  | cons pair rest ih =>
      obtain ⟨head, w⟩ := pair
      obtain ⟨hlt, hrest⟩ := List.pairwise_cons.mp hsorted
      simp only [insert]
      split
      · rename_i heq
        subst heq
        exact List.pairwise_cons.mpr ⟨hlt, hrest⟩
      · rename_i hne
        split
        · rename_i hbefore
          refine List.pairwise_cons.mpr ⟨fun x hx => ?_, hsorted⟩
          rcases List.mem_cons.mp hx with rfl | hx
          · exact hbefore
          · exact String.lt_trans hbefore (hlt x hx)
        · rename_i hafter
          refine List.pairwise_cons.mpr ⟨fun x hx => ?_, ih hrest⟩
          rcases mem_insert hx with rfl | hx
          · rcases Std.lt_trichotomy name head with h | h | h
            · exact absurd h hafter
            · exact absurd h hne
            · exact h
          · exact hlt x hx

theorem sorted_merge {b : Bindings} (hsorted : b.Sorted) (more : Bindings) :
    Sorted (merge b more) := by
  induction more generalizing b with
  | nil => exact hsorted
  | cons pair rest ih => exact ih (sorted_insert hsorted pair.1 pair.2)

theorem mem_merge {b more : Bindings} {pair : String × Nat} (h : pair ∈ merge b more) :
    pair ∈ b ∨ pair ∈ more := by
  induction more generalizing b with
  | nil => exact Or.inl h
  | cons head rest ih =>
      rcases ih h with hinsert | hrest
      · rcases mem_insert hinsert with rfl | hb
        · exact Or.inr List.mem_cons_self
        · exact Or.inl hb
      · exact Or.inr (List.mem_cons_of_mem _ hrest)

theorem Sorted.nodup {b : Bindings} (hsorted : b.Sorted) : (b.map (·.1)).Nodup := by
  refine List.pairwise_map.mpr (hsorted.imp fun hlt heq => ?_)
  exact String.lt_irrefl _ (heq ▸ hlt)

theorem get?_of_mem {b : Bindings} (hsorted : b.Sorted) {pair : String × Nat} (h : pair ∈ b) :
    b.get? pair.1 = some pair.2 :=
  (get?_eq_some_iff hsorted.nodup).mpr h

/-- Sorted bindings are known by what they bind. -/
theorem eq_of_get?_eq {b c : Bindings} (hb : b.Sorted) (hc : c.Sorted)
    (h : ∀ name, b.get? name = c.get? name) : b = c := by
  have hmem : ∀ pair, pair ∈ b ↔ pair ∈ c := fun pair =>
    ⟨fun hpair => mem_of_get? ((h _).symm.trans (get?_of_mem hb hpair)),
      fun hpair => mem_of_get? ((h _).trans (get?_of_mem hc hpair))⟩
  have hne : ∀ {x y : String × Nat}, x.1 < y.1 → x ≠ y := by
    rintro x _ hlt rfl
    exact String.lt_irrefl _ hlt
  have hperm : b.Perm c := (List.perm_ext_iff_of_nodup (hb.imp hne) (hc.imp hne)).mpr hmem
  refine hperm.eq_of_pairwise (fun x y _ _ hxy hyx => ?_) hb hc
  exact absurd (String.lt_trans hxy hyx) (String.lt_irrefl _)

/-- New bindings come first, the old ones stay where nothing new is bound. -/
theorem get?_merge_of_nodup {more : Bindings} (hnodup : (more.map (·.1)).Nodup) (b : Bindings)
    (name : String) : get? (merge b more) name = (get? more name).or (get? b name) := by
  induction more generalizing b with
  | nil => rfl
  | cons pair rest ih =>
      obtain ⟨hhead, hrest⟩ := List.nodup_cons.mp hnodup
      have hstep : get? (merge b (pair :: rest)) name
          = (get? rest name).or (get? (insert pair.1 pair.2 b) name) := ih hrest _
      rw [hstep, get?_insert, get?_cons]
      split
      · rename_i heq
        rw [get?_eq_none_iff.mpr (heq ▸ hhead), Option.none_or, Option.some_or]
      · rfl

theorem get?_merge {more : Bindings} (hsorted : more.Sorted) (b : Bindings) (name : String) :
    get? (merge b more) name = (get? more name).or (get? b name) :=
  get?_merge_of_nodup hsorted.nodup b name

theorem merge_nil {b : Bindings} (hsorted : b.Sorted) : merge [] b = b := by
  apply eq_of_get?_eq (sorted_merge List.Pairwise.nil b) hsorted
  intro name
  rw [get?_merge hsorted, get?_nil, Option.or_none]

theorem holds_iff {b wanted : Bindings} :
    b.holds wanted = true ↔ ∀ pair ∈ wanted, b.get? pair.1 = some pair.2 := by
  simp [holds, List.all_eq_true]

theorem holds_nil (b : Bindings) : b.holds [] = true := rfl

theorem nil_holds_iff {wanted : Bindings} : holds [] wanted = true ↔ wanted = [] := by
  simp [holds_iff, List.eq_nil_iff_forall_not_mem]

theorem holds_of_get? {b c wanted : Bindings} (h : b.holds wanted = true)
    (hget : ∀ name v, b.get? name = some v → c.get? name = some v) : c.holds wanted = true := by
  rw [holds_iff] at h ⊢
  exact fun pair hpair => hget _ _ (h pair hpair)

theorem holds_insert {wanted : Bindings} {name : String} (h : wanted.get? name = none) (v : Nat)
    (b : Bindings) : holds (insert name v b) wanted = b.holds wanted := by
  rw [Bool.eq_iff_iff, holds_iff, holds_iff]
  refine forall₂_congr fun pair hpair => ?_
  have hother : name ≠ pair.1 := by
    rintro rfl
    exact get?_eq_none_iff.mp h (List.mem_map_of_mem hpair)
  rw [get?_insert, if_neg hother]

/-- Two sets of conditions that hold under the same bindings do not contradict each other. -/
theorem agree_of_holds {b x y : Bindings} (hx : b.holds x = true) (hy : b.holds y = true) :
    x.agree y = true := by
  rw [holds_iff] at hx hy
  simp only [agree, List.all_eq_true]
  intro pair hpair
  cases hget : y.get? pair.1 with
  | none => rfl
  | some v =>
      have hv : some v = some pair.2 := (hy _ (mem_of_get? hget)).symm.trans (hx _ hpair)
      simpa using hv

theorem get?_merge_of_agree {b more : Bindings} (hsorted : more.Sorted)
    (hagree : more.agree b = true) {name : String} {v : Nat} (hget : b.get? name = some v) :
    (merge b more).get? name = some v := by
  rw [get?_merge hsorted]
  cases hmore : more.get? name with
  | none => exact hget
  | some w =>
      simp only [agree, List.all_eq_true] at hagree
      have hsame := hagree _ (mem_of_get? hmore)
      simp only [hget, beq_iff_eq] at hsame
      rw [hsame, Option.some_or]

theorem get?_merge_of_some {b more : Bindings} (hsorted : more.Sorted) {name : String} {v : Nat}
    (hget : more.get? name = some v) : (merge b more).get? name = some v := by
  rw [get?_merge hsorted, hget, Option.some_or]

end Manycore.Keyspace.Bindings

namespace Manycore.Keyspace.Field

theorem isEnabled_of_conditions {f : Field} (h : f.conditions = []) (b : Bindings) :
    f.isEnabled b = true := by
  rw [isEnabled, h, Bindings.holds_nil]

theorem isEnabled_nil_iff {f : Field} : f.isEnabled [] = true ↔ f.conditions = [] :=
  Bindings.nil_holds_iff

end Manycore.Keyspace.Field
