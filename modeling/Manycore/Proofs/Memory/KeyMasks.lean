import Manycore.Memory.Region.Keys
import Manycore.Proofs.Keyspace.FilledMasks
import Manycore.Proofs.Memory.Regions

/-! # Keys and their masks

A key table renders a key from the keyspace with the index of the slice filled in, but its further
words, the mask among them, from the keyspace as it was given. The two still belong together: a
record that is rendered at all has the mask of the keyspace that its key is from.
-/

namespace Manycore

open List (Forall₂)
open Keying Keyspace

variable {p q : Pool} {k : Keyspace} {index : Nat}

/-- From `p` on, all that the word does to the pool are requests, made of keyspaces that requests
have made. -/
def KeyWord.Asks (word : KeyWord) (p : Pool) : Prop :=
  ∀ q k index v r, Pool.Run Pool.registered p q → k.Grounded q → Yields (word k index) q v r →
    Pool.Run Pool.registered q r

theorem yields_mask_iff {v : Nat} :
    Yields (KeyWord.mask k index) p v q ↔ Yields (k.renders .mask .all) p v q := by
  rw [KeyWord.mask, yields_mapError_iff, renderMask_eq]

theorem KeyWord.asks_mask (p : Pool) : KeyWord.mask.Asks p :=
  fun _ _ _ _ _ _ hk h => hk.run_of_yields_renders (yields_mask_iff.mp h)

namespace KeyTable

variable {t : KeyTable}

/-- The keyspace that the key of a record is rendered from. -/
def filled (t : KeyTable) (k : Keyspace) (index : Nat) : Keyspace :=
  match t.fill with
  | some field => { k with bindings := k.bindings.insert field index }
  | none => k

/-- The record is the key of the keyspace with the index filled in and as many further words as the
table has, and wherever the mask is asked for, it is the mask of that keyspace and covers the key. -/
structure Masked (t : KeyTable) (index : Nat) (q : Pool) (k : Keyspace) (record : List UInt32) :
    Prop where
  length : record.length = 1 + t.further.length
  masked : ∃ key, record[0]? = some key ∧ (t.filled k index).Shows q .key .all key.toNat
    ∧ ∀ j, t.further[j]? = some KeyWord.mask → ∃ mask, record[1 + j]? = some mask
      ∧ (t.filled k index).Shows q .mask .all mask.toNat ∧ key &&& ~~~mask = 0

/-- What is known of a keyspace once the key of its record has been rendered. -/
structure KeyShown (t : KeyTable) (index : Nat) (k : Keyspace) (key : Nat) (p : Pool) : Prop where
  given : k.Grounded p
  filled : (t.filled k index).Grounded p
  unbound : ∀ field, t.fill = some field → k.bindings.get? field = none
  shows_key : (t.filled k index).Shows p .key .all key

theorem KeyShown.run {key : Nat} (h : t.KeyShown index k key p)
    (hrun : Pool.Run Pool.registered p q) : t.KeyShown index k key q where
  given := h.given.run hrun
  filled := h.filled.run hrun
  unbound := h.unbound
  shows_key := h.shows_key.run h.filled.inPool hrun

theorem KeyShown.shows_mask {key mask : Nat} (h : t.KeyShown index k key p)
    (hmask : k.Shows p .mask .all mask) : (t.filled k index).Shows p .mask .all mask := by
  have hkey := h.shows_key
  unfold KeyTable.filled at hkey ⊢
  split at hkey
  · rename_i field hfill
    exact (h.given.shows_mask_insert_iff (h.unbound field hfill) hkey).mpr hmask
  · exact hmask

theorem keyShown_of_yields {key : Nat} (hk : k.Grounded p) (h : Yields (t.key k index) p key q) :
    Pool.Run Pool.registered p q ∧ t.KeyShown index k key q := by
  unfold KeyTable.key at h
  split at h
  · rename_i field hfill
    obtain ⟨k', mid, hbind, hrender⟩ := yields_bind_iff.mp h
    rw [renderKey_eq] at hrender
    have hbinds := bindsOne_of_yields hk.inPool hbind
    have hk' := hk.bind hbind
    have hkeyspace : t.filled k index = k' := by simp only [filled, hfill, hbinds.keyspace]
    have hrun := hk'.run_of_yields_renders hrender
    have hall := (hk.run_of_yields_bind hbind).trans hrun
    refine ⟨hall, hk.run hall, ?_, fun other hother => ?_, ?_⟩
    · rw [hkeyspace]
      exact hk'.run hrun
    · cases hfill.symm.trans hother
      exact hbinds.unbound
    · rw [hkeyspace]
      exact shows_of_yields hk'.inPool hrender
  · rename_i hfill
    rw [renderKey_eq] at h
    have hkeyspace : t.filled k index = k := by simp only [filled, hfill]
    have hrun := hk.run_of_yields_renders h
    refine ⟨hrun, hk.run hrun, ?_, fun other hother => ?_, ?_⟩
    · rw [hkeyspace]
      exact hk.run hrun
    · cases hfill.symm.trans hother
    · rw [hkeyspace]
      exact shows_of_yields hk.inPool h

/-- The further words are rendered after the key, and no request takes back what it has shown. -/
theorem masks_of_yields {key : Nat} {start : Pool} {ws : List UInt32}
    (hwords : ∀ word ∈ t.further, word.Asks start) (hstart : Pool.Run Pool.registered start p)
    (hk : t.KeyShown index k key p)
    (h : Yields (t.further.mapM fun word => do
      let value ← word k index
      narrow k value) p ws q) :
    Pool.Run Pool.registered p q ∧ Forall₂ (fun word w => word = KeyWord.mask →
      (t.filled k index).Shows q .mask .all w.toNat) t.further ws := by
  refine yields_mapM_forall₂
    (P := fun p => Pool.Run Pool.registered start p ∧ t.KeyShown index k key p)
    (R := fun p word (w : UInt32) =>
      word = KeyWord.mask → (t.filled k index).Shows p .mask .all w.toNat)
    (fun p q hp hrun => ⟨hp.1.trans hrun, hp.2.run hrun⟩)
    (fun p q word w hp hrun hw hmask => (hw hmask).run hp.2.filled.inPool hrun)
    (fun word hword p w q hp h => ?_) ⟨hstart, hk⟩ h
  obtain ⟨hstart, hk⟩ := hp
  obtain ⟨value, mid, hvalue, hnarrow⟩ := yields_bind_iff.mp h
  obtain ⟨rfl, hw⟩ := yields_narrow_iff.mp hnarrow
  have hrun := hwords word hword p k index value mid hstart hk.given hvalue
  refine ⟨hrun, ?_⟩
  rintro rfl
  rw [hw]
  exact (hk.run hrun).shows_mask (shows_of_yields hk.given.inPool (yields_mask_iff.mp hvalue))

theorem and_not_eq_zero_of_covers {key mask : UInt32} (h : Covers key.toNat mask.toNat) :
    key &&& ~~~mask = 0 := by
  apply UInt32.eq_of_toBitVec_eq
  apply BitVec.eq_of_getLsbD_eq
  intro bit hbit
  have hcovers : key.toBitVec.getLsbD bit = true → mask.toBitVec.getLsbD bit = true := h bit
  simp only [UInt32.toBitVec_and, UInt32.toBitVec_not, BitVec.getLsbD_and, BitVec.getLsbD_not]
  cases hkey : key.toBitVec.getLsbD bit with
  | false => simp
  | true => simp [hcovers hkey]

theorem masked_of_yields_record {start : Pool} {record : List UInt32}
    (hwords : ∀ word ∈ t.further, word.Asks start) (hstart : Pool.Run Pool.registered start p)
    (hk : k.Grounded p) (h : Yields (t.record k index) p record q) :
    Pool.Run Pool.registered p q ∧ t.Masked index q k record := by
  simp only [KeyTable.record, yields_bind_iff, yields_mapError_iff, yields_pure_iff] at h
  obtain ⟨key, mid, hkey, first, mid', hfirst, ws, q', hws, rfl, rfl⟩ := h
  obtain ⟨rfl, rfl⟩ := yields_narrow_iff.mp hfirst
  obtain ⟨hrun, hshown⟩ := keyShown_of_yields hk hkey
  obtain ⟨hrun', hmasks⟩ := masks_of_yields hwords (hstart.trans hrun) hshown hws
  have hshown' := hshown.run hrun'
  refine ⟨hrun.trans hrun', ?_, first, rfl, hshown'.shows_key, fun j hj => ?_⟩
  · rw [List.length_cons, ← hmasks.length_eq, Nat.add_comm]
  · obtain ⟨mask, hmask, hshows⟩ := forall₂_getElem? hmasks.flip hj
    refine ⟨mask, ?_, hshows rfl, ?_⟩
    · rw [Nat.add_comm, List.getElem?_cons_succ]
      exact hmask
    · exact and_not_eq_zero_of_covers (hshown'.filled.covers hshown'.shows_key (hshows rfl))

theorem Masked.run {record : List UInt32} (h : t.Masked index p k record) (hk : k.In p)
    (hrun : Pool.Run Pool.registered p q) : t.Masked index q k record := by
  have hfilled : (t.filled k index).In p := by
    unfold KeyTable.filled
    split <;> exact hk
  obtain ⟨key, hkey, hshows, hmasks⟩ := h.masked
  refine ⟨h.length, key, hkey, hshows.run hfilled hrun, fun j hj => ?_⟩
  obtain ⟨mask, hmask, hshowsMask, hcovered⟩ := hmasks j hj
  exact ⟨mask, hmask, hshowsMask.run hfilled hrun, hcovered⟩

theorem keysFor_subset {s : Slice} : t.keysFor s ⊆ t.keys := by
  unfold keysFor
  split
  · exact fun k hk => Slice.mem_of_mem_part hk
  · exact fun k hk => hk

/-- A table that is rendered has a record for each keyspace of the slice. In each the mask covers the
key, and it is the mask that the very keyspace with the index filled in has when all is rendered. -/
theorem mask_is_of_key {s : Slice} {words : List UInt32}
    (hkeys : ∀ k ∈ t.keys, ∃ fam, k.Belongs fam p) (hfurther : ∀ word ∈ t.further, word.Asks p)
    (h : Yields (t.words s index) p words q) :
    ∃ records, words = t.leading s ++ records.flatten
      ∧ Forall₂ (t.Masked index q) (t.keysFor s) records := by
  obtain ⟨records, q, hrecords, hpure⟩ := yields_bind_iff.mp h
  obtain ⟨rfl, rfl⟩ := yields_pure_iff.mp hpure
  have hgrounded : ∀ k ∈ t.keys, k.Grounded p := by
    intro k hk
    obtain ⟨fam, hbelongs⟩ := hkeys k hk
    exact hbelongs.grounded
  have hstep : ∀ k ∈ t.keysFor s, ∀ p' record q',
      (Pool.Run Pool.registered p p' ∧ ∀ k ∈ t.keys, k.Grounded p') →
      Yields (t.record k index) p' record q' →
      Pool.Run Pool.registered p' q' ∧ k.In q' ∧ t.Masked index q' k record := by
    rintro k hk p' record q' ⟨hbefore, hall⟩ hrecord
    have hgiven := hall k (keysFor_subset hk)
    obtain ⟨hrun, hmasked⟩ := masked_of_yields_record hfurther hbefore hgiven hrecord
    exact ⟨hrun, hgiven.inPool.run hrun, hmasked⟩
  obtain ⟨-, hmasked⟩ := yields_mapM_forall₂
    (fun _ _ hp hrun => ⟨hp.1.trans hrun, fun k hk => (hp.2 k hk).run hrun⟩)
    (fun _ _ _ _ _ hrun hrecord => ⟨hrecord.1.run hrun, hrecord.2.run hrecord.1 hrun⟩)
    hstep ⟨.refl, hgrounded⟩ hrecords
  exact ⟨records, rfl, hmasked.imp fun _ _ hrecord => hrecord.2⟩

/-- A field that exists only while the field to be filled in is 0. -/
def branchedRequests : List (Nat × Request) :=
  [(0, .add ((FieldSpec.named "s").placed 0 2)), (0, .add (FieldSpec.named "x")),
   (0, .bind [("s", 0)]), (1, .add (FieldSpec.named "only")), (0, .bind [("x", 5)])]

def branched : Family := (Family.root ⟨8, [], false⟩).play branchedRequests

/-- A record of key, another word and mask, behind the number of records. -/
def maskedTable : KeyTable where
  keys := [⟨0, [("x", 5)]⟩]
  fill := some "s"
  further := [fun _ index => pure (10 + index), KeyWord.mask]
  partitioned := true
  leadingCount := true

/-- A slice that reaches behind the last keyspace. -/
def maskedSlice : Slice := ⟨0, 4, by decide⟩

/-- With 1 filled in, the field is in neither the key nor the mask. -/
theorem mask_is_of_key_branched :
    (∀ k ∈ maskedTable.keys, ∃ fam, k.Belongs fam ⟨[branched.layout]⟩)
    ∧ (∀ word ∈ maskedTable.further, word.Asks ⟨[branched.layout]⟩)
    ∧ ∃ q, Yields (maskedTable.words maskedSlice 1) ⟨[branched.layout]⟩ [1, 21, 11, 31] q
      ∧ ∃ records, [1, 21, 11, 31] = maskedTable.leading maskedSlice ++ records.flatten
        ∧ Forall₂ (maskedTable.Masked 1 q) (maskedTable.keysFor maskedSlice) records := by
  have hbelongs : ∀ k ∈ maskedTable.keys, ∃ fam, k.Belongs fam ⟨[branched.layout]⟩ := by
    intro k hk
    cases List.mem_singleton.mp hk
    exact ⟨branched, ⟨8, _, rfl, Family.reaches_play _ (by decide) fun _ _ _ _ _ => trivial⟩,
      show 0 < 1 by decide, rfl, by decide⟩
  have hasks : ∀ word ∈ maskedTable.further, word.Asks ⟨[branched.layout]⟩ := by
    intro word hword
    simp only [maskedTable, List.mem_cons, List.not_mem_nil, or_false] at hword
    rcases hword with rfl | rfl
    · exact fun q k index v r _ _ h => (yields_pure_iff.mp h).2 ▸ .refl
    · exact KeyWord.asks_mask _
  obtain ⟨words, q, hyields, rfl⟩ : ∃ words q,
      Yields (maskedTable.words maskedSlice 1) ⟨[branched.layout]⟩ words q
      ∧ words = [1, 21, 11, 31] :=
    exists_yields_of_any (by decide +kernel)
  exact ⟨hbelongs, hasks, q, hyields, mask_is_of_key hbelongs hasks hyields⟩

end KeyTable

end Manycore
