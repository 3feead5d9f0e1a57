import Manycore.Groups
import Manycore.Proofs.Distinct

/-! # Groups

Updating a group either changes the value of its first key that is the same, or puts a new key at
the end. Values that are pushed one after the other keep their order within every group.
-/

namespace Manycore.Groups

open List (Forall₂)

variable {κ ν α β : Type} {same : κ → κ → Bool} {key : κ} {g : Groups κ ν}

theorem update_cases (same : κ → κ → Bool) (key : κ) (f : Option ν → ν) (g : Groups κ ν) :
    (∃ before k v after, g = before ++ (k, v) :: after ∧ same k key = true
      ∧ update same key f g = before ++ (k, f (some v)) :: after)
    ∨ ((∀ x ∈ g, same x.1 key = false) ∧ update same key f g = g ++ [(key, f none)]) := by
  induction g with
  | nil => exact Or.inr ⟨fun x hx => (nomatch hx), rfl⟩
  | cons x rest ih =>
      obtain ⟨k, v⟩ := x
      cases hsame : same k key with
      | true =>
          refine Or.inl ⟨[], k, v, rest, rfl, hsame, ?_⟩
          simp [update, hsame]
      | false =>
          have hstep : update same key f ((k, v) :: rest) = (k, v) :: update same key f rest := by
            simp [update, hsame]
          rw [hstep]
          rcases ih with ⟨before, k', v', after, rfl, hk', heq⟩ | ⟨hnew, heq⟩
          · exact Or.inl ⟨(k, v) :: before, k', v', after, rfl, hk', by rw [heq]; rfl⟩
          · exact Or.inr ⟨List.forall_mem_cons.mpr ⟨hsame, hnew⟩, by rw [heq]; rfl⟩

theorem update_of_new (f : Option ν → ν) (h : ∀ x ∈ g, same x.1 key = false) :
    update same key f g = g ++ [(key, f none)] := by
  rcases update_cases same key f g with ⟨before, k, v, after, rfl, hk, -⟩ | ⟨-, heq⟩
  · have hfalse := h (k, v) (by simp)
    rw [hk] at hfalse
    cases hfalse
  · exact heq

theorem update_last {k : κ} {v : ν} (f : Option ν → ν) (h : ∀ x ∈ g, same x.1 key = false)
    (hk : same k key = true) : update same key f (g ++ [(k, v)]) = g ++ [(k, f (some v))] := by
  induction g with
  | nil => simp [update, hk]
  | cons x rest ih =>
      obtain ⟨k', v'⟩ := x
      obtain ⟨hhead, hrest⟩ := List.forall_mem_cons.mp h
      have hhead' : same k' key = false := hhead
      simp only [List.cons_append, update, hhead', Bool.false_eq_true, if_false, ih hrest]

theorem exists_of_find? {v : ν} (h : find? same key g = some v) :
    ∃ k, (k, v) ∈ g ∧ same k key = true := by
  induction g with
  | nil => cases h
  | cons x rest ih =>
      obtain ⟨k, v'⟩ := x
      simp only [find?] at h
      split at h
      · rename_i hk
        cases h
        exact ⟨k, List.mem_cons_self, hk⟩
      · obtain ⟨k', hmem, hk'⟩ := ih h
        exact ⟨k', List.mem_cons_of_mem _ hmem, hk'⟩

theorem isSome_find? (same : κ → κ → Bool) (key : κ) (g : Groups κ ν) :
    (find? same key g).isSome = g.any fun x => same x.1 key := by
  induction g with
  | nil => rfl
  | cons x rest ih => cases hk : same x.1 key <;> simp [find?, hk, ih]

theorem forall_mem_update {P : κ × ν → Prop} {f : Option ν → ν} (hold : ∀ y ∈ g, P y)
    (hchanged : ∀ k v, (k, v) ∈ g → same k key = true → P (k, f (some v)))
    (hnew : P (key, f none)) : ∀ y ∈ update same key f g, P y := by
  intro y hy
  rcases update_cases same key f g with ⟨before, k, v, after, rfl, hk, heq⟩ | ⟨-, heq⟩
  · rw [heq] at hy
    rcases List.mem_append.mp hy with hy | hy
    · exact hold y (List.mem_append_left _ hy)
    · rcases List.mem_cons.mp hy with rfl | hy
      · exact hchanged k v (by simp) hk
      · exact hold y (by simp [hy])
  · rw [heq] at hy
    rcases List.mem_append.mp hy with hy | hy
    · exact hold y hy
    · cases List.mem_singleton.mp hy
      exact hnew

theorem update_ne_nil (same : κ → κ → Bool) (key : κ) (f : Option ν → ν) (g : Groups κ ν) :
    update same key f g ≠ [] := by
  rcases update_cases same key f g with ⟨_, _, _, _, -, -, heq⟩ | ⟨-, heq⟩ <;> simp [heq]

theorem nodup_keys_update {f : Option ν → ν} (hrefl : ∀ k, same k k = true)
    (h : (g.map (·.1)).Nodup) : ((update same key f g).map (·.1)).Nodup := by
  rcases update_cases same key f g with ⟨before, k, v, after, rfl, hk, heq⟩ | ⟨hnew, heq⟩
  · rw [heq]
    simpa using h
  · rw [heq, List.map_append]
    refine List.nodup_append.mpr ⟨h, by simp, ?_⟩
    intro k hk k' hk' hsame
    obtain ⟨x, hx, rfl⟩ := List.mem_map.mp hk
    cases List.mem_singleton.mp hk'
    have hfalse := hnew x hx
    rw [hsame] at hfalse
    exact absurd (hrefl key) (by simp [hfalse])

theorem pairwise_keys_update {f : Option ν → ν}
    (h : (g.map (·.1)).Pairwise fun a b => same a b = false) :
    ((update same key f g).map (·.1)).Pairwise fun a b => same a b = false := by
  rcases update_cases same key f g with ⟨before, k, v, after, rfl, -, heq⟩ | ⟨hnew, heq⟩
  · rw [heq]
    simpa using h
  · rw [heq, List.map_append, List.pairwise_append]
    refine ⟨h, by simp, fun k hk k' hk' => ?_⟩
    obtain ⟨x, hx, rfl⟩ := List.mem_map.mp hk
    obtain rfl := List.mem_singleton.mp hk'
    exact hnew x hx

section

variable [DecidableEq κ]

/-- A key is the same as itself only. -/
def sameKey (a b : κ) : Bool := decide (a = b)

theorem find?_update (k key : κ) (f : Option ν → ν) (g : Groups κ ν) :
    find? sameKey k (update sameKey key f g)
      = if k = key then some (f (find? sameKey key g)) else find? sameKey k g := by
  induction g with
  | nil => simp [update, find?, sameKey, eq_comm]
  | cons x rest ih =>
      obtain ⟨k', v⟩ := x
      by_cases hkey : k' = key
      · subst hkey
        by_cases hk : k = k' <;> simp [update, find?, sameKey, hk, eq_comm]
      · by_cases hk : k = key
        · subst hk
          simp [update, find?, sameKey, hkey, ih]
        · simp [update, find?, sameKey, hkey, hk, ih]

theorem find?_map {μ : Type} (k : κ) (f : κ → ν → μ) (g : Groups κ ν) :
    find? sameKey k (g.map fun x => (x.1, f x.1 x.2)) = (find? sameKey k g).map (f k) := by
  induction g with
  | nil => rfl
  | cons x rest ih =>
      by_cases hk : x.1 = k
      · subst hk
        simp [find?, sameKey]
      · simp [find?, sameKey, hk, ih]

theorem find?_of_mem {k : κ} {v : ν} (hnodup : (g.map (·.1)).Nodup) (h : (k, v) ∈ g) :
    find? sameKey k g = some v := by
  induction g with
  | nil => cases h
  | cons x rest ih =>
      obtain ⟨hnew, hrest⟩ := List.nodup_cons.mp hnodup
      rcases List.mem_cons.mp h with rfl | h
      · simp [find?, sameKey]
      · have hne : x.1 ≠ k := by
          rintro rfl
          exact hnew (List.mem_map.mpr ⟨_, h, rfl⟩)
        simp [find?, sameKey, hne, ih hrest h]

/-- Values that replace one another: the last of every key is found. -/
def replaceAll (xs : List (κ × ν)) (g : Groups κ ν) : Groups κ ν :=
  xs.foldl (fun g x => update sameKey x.1 (fun _ => x.2) g) g

theorem isSome_find?_replaceAll {xs : List (κ × ν)} {g : Groups κ ν} {k : κ}
    (h : (find? sameKey k g).isSome ∨ ∃ x ∈ xs, x.1 = k) :
    (find? sameKey k (replaceAll xs g)).isSome := by
  unfold replaceAll
  induction xs generalizing g with
  | nil => simpa using h
  | cons x rest ih =>
      apply ih
      rw [find?_update]
      grind

theorem nodup_keys_replaceAll {g : Groups κ ν} (h : (g.map (·.1)).Nodup) (xs : List (κ × ν)) :
    ((replaceAll xs g).map (·.1)).Nodup := by
  unfold replaceAll
  induction xs generalizing g with
  | nil => exact h
  | cons x rest ih => exact ih (nodup_keys_update (fun k => decide_eq_true rfl) h)

theorem mem_of_find?_replaceAll {xs : List (κ × ν)} {g : Groups κ ν} {k : κ} {v : ν}
    (h : find? sameKey k (replaceAll xs g) = some v) :
    find? sameKey k g = some v ∨ (k, v) ∈ xs := by
  unfold replaceAll at h
  induction xs generalizing g with
  | nil => exact Or.inl h
  | cons x rest ih =>
      have hrest := ih h
      rw [find?_update] at hrest
      grind

end

section

variable (hsame : Equivalence fun k k' => same k k' = true)
include hsame

/-- An update of groups whose keys are distinct and tell their values. -/
theorem update_map {keys : List κ} (happart : keys.Pairwise fun k k' => same k' k = false)
    (value : κ → ν) (change : ν → ν) (start : ν)
    (hnew : (∀ k ∈ keys, same k key = false) → value key = start) :
    update same key (fun v => change (v.getD start)) (keys.map fun k => (k, value k))
      = (if keys.any (same key) then keys else keys ++ [key]).map fun k =>
        (k, if same k key then change (value k) else value k) := by
  induction keys with
  | nil =>
      have hstart := hnew fun k hk => nomatch hk
      simp [update, hsame.refl key, hstart]
  | cons k rest ih =>
      obtain ⟨hother, hrest⟩ := List.pairwise_cons.mp happart
      cases hk : same k key with
      | true =>
          have hkept : ∀ k' ∈ rest, same k' key = false := by
            intro k' hk'
            rw [← same_congr hsame hk, hother k' hk']
          simp only [List.map_cons, update, hk, same_comm hsame key k, List.any_cons, Bool.true_or,
            if_true, Option.getD_some, List.cons.injEq, true_and]
          refine List.map_congr_left fun k' hk' => ?_
          simp [hkept k' hk']
      | false =>
          have hnew' : (∀ k' ∈ rest, same k' key = false) → value key = start := by
            intro hall
            exact hnew (List.forall_mem_cons.mpr ⟨hk, hall⟩)
          simp only [List.map_cons, update, hk, same_comm hsame key k, List.any_cons,
            Bool.false_or, Bool.false_eq_true, if_false, ih hrest hnew']
          split <;> simp [hk]

/-- Everything is gathered under the first of the keys that are the same, in order. -/
theorem foldl_update_eq (keyOf : α → κ) (gather : ν → α → ν) (start : ν) (xs : List α) :
    xs.foldl (fun g x => update same (keyOf x) (fun v => gather (v.getD start) x) g) []
      = ((xs.map keyOf).eraseDupsBy same).map fun k =>
        (k, (xs.filter fun x => same k (keyOf x)).foldl gather start) := by
  induction xs using List.reverseRecOn with
  | nil => rfl
  | append_singleton xs x ih =>
      have hnew : (∀ k ∈ (xs.map keyOf).eraseDupsBy same, same k (keyOf x) = false) →
          (xs.filter fun y => same (keyOf x) (keyOf y)).foldl gather start = start := by
        intro hall
        have hnone : xs.filter (fun y => same (keyOf x) (keyOf y)) = [] := by
          refine List.filter_eq_nil_iff.mpr fun y hy hxy => ?_
          obtain ⟨k, hk, hyk⟩ := exists_mem_eraseDupsBy hsame (List.mem_map_of_mem (f := keyOf) hy)
          have hkx := hall k hk
          rw [same_comm hsame, hsame.trans hxy hyk] at hkx
          cases hkx
        rw [hnone, List.foldl_nil]
      rw [List.foldl_append, List.foldl_cons, List.foldl_nil, ih,
        update_map hsame (pairwise_eraseDupsBy same _) _ (fun v => gather v x) start hnew,
        List.map_append, List.map_singleton, eraseDupsBy_append_singleton]
      refine List.map_congr_left fun k _ => ?_
      cases hk : same k (keyOf x) <;> simp [hk]

theorem foldl_push_eq (keyOf : α → κ) (value : α → β) (xs : List α) :
    xs.foldl (fun g x => push same (keyOf x) (value x) g) []
      = ((xs.map keyOf).eraseDupsBy same).map fun k =>
        (k, (xs.filter fun x => same k (keyOf x)).map value) := by
  refine (foldl_update_eq hsame keyOf (fun values x => values ++ [value x]) [] xs).trans ?_
  refine List.map_congr_left fun k _ => ?_
  rw [← List.flatMap_eq_foldl, ← List.map_eq_flatMap]

end

section

variable {keyOf : α → κ} {value : α → β}

/-- The elements of `part` are those whose values are in the group. -/
def Holds (same : κ → κ → Bool) (keyOf : α → κ) (value : α → β) (part : List α)
    (y : κ × List β) : Prop :=
  y.2 = part.map value ∧ ∀ x ∈ part, same y.1 (keyOf x) = true

theorem exists_parts_push (hrefl : ∀ k, same k k = true) {parts : List (List α)}
    {g : Groups κ (List β)} (h : Forall₂ (Holds same keyOf value) parts g) (x : α) :
    ∃ parts', parts'.flatten.Perm (parts.flatten ++ [x])
      ∧ Forall₂ (Holds same keyOf value) parts' (push same (keyOf x) (value x) g) := by
  rcases update_cases same (keyOf x) (fun values => values.getD [] ++ [value x]) g with
    ⟨before, k, vs, after, rfl, hk, heq⟩ | ⟨-, heq⟩
  · obtain ⟨ps, rest, rfl, hps, hrest⟩ := exists_append_of_forall₂ h.flip
    cases hrest with
    | @cons _ part _ qs hpart hqs =>
        refine ⟨ps ++ (part ++ [x]) :: qs, ?_, ?_⟩
        · simp only [List.flatten_append, List.flatten_cons, List.append_assoc]
          refine (List.Perm.append_left part ?_).append_left _
          exact List.perm_append_comm
        · rw [push, heq]
          refine List.rel_append hps.flip (.cons ⟨?_, ?_⟩ hqs.flip)
          · have hvalues : vs = part.map value := hpart.1
            simp [hvalues]
          · intro y hy
            rcases List.mem_append.mp hy with hy | hy
            · exact hpart.2 y hy
            · cases List.mem_singleton.mp hy
              exact hk
  · refine ⟨parts ++ [[x]], by simp, ?_⟩
    rw [push, heq]
    refine List.rel_append h (.cons ⟨rfl, fun y hy => ?_⟩ .nil)
    cases List.mem_singleton.mp hy
    exact hrefl _

/-- Pushing the values of a list puts its elements into parts, one for each group. -/
theorem exists_parts (keyOf : α → κ) (value : α → β) (hrefl : ∀ k, same k k = true) (xs : List α) :
    ∃ parts : List (List α), parts.flatten.Perm xs ∧ Forall₂ (Holds same keyOf value) parts
      (xs.foldl (fun g x => push same (keyOf x) (value x) g) []) := by
  -- The groups so far stand for parts of what has been pushed; the induction is on what is left.
  have hfold : ∀ (parts : List (List α)) (g : Groups κ (List β)),
      Forall₂ (Holds same keyOf value) parts g → ∃ parts' : List (List α),
        parts'.flatten.Perm (parts.flatten ++ xs) ∧ Forall₂ (Holds same keyOf value) parts'
          (xs.foldl (fun g x => push same (keyOf x) (value x) g) g) := by
    induction xs with
    | nil => exact fun parts g h => ⟨parts, by simp, h⟩
    | cons x rest ih =>
        intro parts g h
        obtain ⟨mid, hmid, hpushed⟩ := exists_parts_push hrefl h x
        obtain ⟨parts', hperm, hparts'⟩ := ih mid _ hpushed
        refine ⟨parts', hperm.trans ?_, hparts'⟩
        simpa using hmid.append_right rest
  exact hfold [] [] .nil

theorem perm_flatMap_filter (hsame : Equivalence fun k k' => same k k' = true) (keyOf : α → κ)
    (xs : List α) : (((xs.map keyOf).eraseDupsBy same).flatMap fun k =>
      xs.filter fun x => same k (keyOf x)).Perm xs := by
  obtain ⟨parts, hperm, hparts⟩ := exists_parts keyOf id hsame.refl xs
  rw [foldl_push_eq hsame, List.forall₂_map_right_iff] at hparts
  have hflat : (((xs.map keyOf).eraseDupsBy same).flatMap fun k =>
      xs.filter fun x => same k (keyOf x)) = parts.flatten := by
    rw [List.flatMap_def]
    congr 1
    refine (map_eq_map_of_forall₂ hparts fun part k hpart => ?_).trans (List.map_id _)
    simpa using hpart.1
  rw [hflat]
  exact hperm

end

end Manycore.Groups
