import Manycore.Compiler.ValueFilter
import Manycore.Proofs.Keyspace.Run
import Manycore.Proofs.Number.Rounding

/-! # Rendered regions

What the regions of a filter's vertex hold when they are rendered: given words as they are, and one
word for each keyspace of a key table.
-/

namespace Manycore

open List (Forall₂)
open Keying Keyspace

theorem Slice.mem_of_mem_part {α : Type} {s : Slice} {xs : List α} {x : α} (hx : x ∈ s.part xs) :
    x ∈ xs := List.mem_of_mem_take (List.mem_of_mem_drop hx)

theorem ValueTable.words_ofWords (words : List UInt32) (s : Slice) :
    (ofWords words).words s = words := by
  simp only [ValueTable.words, leading, ofWords, Bool.false_eq_true, if_false, List.nil_append,
    List.map_map]
  refine (List.map_congr_left fun w _ => ?_).trans (List.map_id words)
  exact WordFormat.encode_unsigned_ofNat w

theorem ValueTable.sizeWords_ofWords (words : List UInt32) :
    (ofWords words).sizeWords = words.length := by
  simp [ValueTable.sizeWords, ofWords]

/-- The word is the key of the keyspace with the index filled in, rendered at some later time. -/
def Written (q : Pool) (index : Nat) (k : Keyspace) (w : UInt32) : Prop :=
  ∃ p filled p' v p'', Pool.Later q p ∧ Yields (k.bind [(subvertexField, index)]) p filled p'
    ∧ Yields (filled.renderKey .all) p' v p'' ∧ w.toNat = v

section

variable {q p p' : Pool} {index : Nat}

/-- The table of the keys of a filter. -/
def filledTable (keys : List Keyspace) : KeyTable :=
  { KeyTable.ofKeys keys with fill := some subvertexField }

/-- The slot has the keys of the keyspaces, the index of the slice filled in. -/
def RegionedVertex.HasKeys (v : RegionedVertex) (slot : Nat) (keys : List Keyspace) : Prop :=
  ∃ shared, v.regions[slot]? = some (some ⟨.keys (filledTable keys), shared⟩)

theorem yields_narrow_iff {k : Keyspace} {value : Nat} {w : UInt32} :
    Yields (KeyTable.narrow k value) p w p' ↔ p = p' ∧ w.toNat = value := by
  simp only [KeyTable.narrow]
  split
  · rename_i hvalue
    have hnat : (UInt32.ofNat value).toNat = value := UInt32.toNat_ofNat_of_lt' hvalue
    rw [yields_pure_iff, and_comm, ← UInt32.toNat_inj, hnat, eq_comm (a := value)]
  · rename_i hvalue
    constructor
    · intro h
      obtain ⟨_, _, -, hthrow⟩ := yields_bind_iff.mp h
      exact absurd hthrow not_yields_throw
    · rintro ⟨-, rfl⟩
      exact absurd (UInt32.toNat_lt w) hvalue

/-- A record fills the index in and renders one key. -/
theorem yields_record_iff {keys : List Keyspace} {k : Keyspace} {ws : List UInt32} :
    Yields ((filledTable keys).record k index) p ws p' ↔ ∃ filled mid w,
      Yields (k.bind [(subvertexField, index)]) p filled mid
        ∧ Yields (filled.renderKey .all) mid w.toNat p' ∧ ws = [w] := by
  simp only [KeyTable.record, filledTable, KeyTable.ofKeys, KeyTable.key, yields_bind_iff,
    yields_mapError_iff, yields_pure_iff, yields_mapM_nil_iff, yields_narrow_iff]
  constructor
  · rintro ⟨key, _, ⟨filled, mid, hbind, hrender⟩, w, _, ⟨rfl, rfl⟩, _, _, ⟨rfl, rfl⟩, rfl, rfl⟩
    exact ⟨filled, mid, w, hbind, hrender, rfl⟩
  · rintro ⟨filled, mid, w, hbind, hrender, rfl⟩
    exact ⟨_, p', ⟨filled, mid, hbind, hrender⟩, w, p', ⟨rfl, rfl⟩, [], p', ⟨rfl, rfl⟩, rfl, rfl⟩

theorem yields_record {keys : List Keyspace} {k : Keyspace} {ws : List UInt32}
    (hlater : Pool.Later q p) (h : Yields ((filledTable keys).record k index) p ws p') :
    Pool.Later p p' ∧ ∃ w, ws = [w] ∧ Written q index k w := by
  obtain ⟨filled, mid, w, hbind, hrender, rfl⟩ := yields_record_iff.mp h
  have hrendered := runs_renders filled .key .all _ _ _ hrender
  have hrun := (runs_bindAll _ _ _ _ _ hbind).later.trans hrendered.later
  exact ⟨hrun, w, rfl, p, filled, mid, w.toNat, p', hlater, hbind, hrender, rfl⟩

theorem yields_keyWords {keys : List Keyspace} {s : Slice} {words : List UInt32}
    (hlater : Pool.Later q p) (h : Yields ((filledTable keys).words s index) p words p') :
    Pool.Later p p' ∧ Forall₂ (Written q index) keys words := by
  have hkeys : (filledTable keys).keysFor s = keys := rfl
  have hleading : (filledTable keys).leading s = [] := rfl
  simp only [KeyTable.words, hkeys, hleading, List.nil_append, yields_bind_iff,
    yields_pure_iff] at h
  obtain ⟨records, _, hrecords, rfl, rfl⟩ := h
  obtain ⟨hrun, hwritten⟩ := yields_mapM_forall₂ (P := Pool.Later q)
    (R := fun _ k ws => ∃ w, ws = [w] ∧ Written q index k w) (fun _ _ hp hrun => hp.trans hrun)
    (fun _ _ _ _ _ _ h => h) (fun k _ p ws p' hp h => yields_record hp h) hlater hrecords
  exact ⟨hrun, forall₂_flatten_of_singletons hwritten⟩

theorem yields_wordSlot {words : List UInt32} {s : Slice} {slot : Option Subregion}
    (h : Yields (RegionedVertex.renderSlot (ValueFilter.wordRegion words) s index) p slot p') :
    p = p' ∧ slot = some (.filled words) := by
  simp only [ValueFilter.wordRegion, RegionedVertex.renderSlot, Region.render, RegionContent.render,
    yields_bind_iff, yields_pure_iff, ValueTable.words_ofWords] at h
  obtain ⟨_, _, ⟨rfl, rfl⟩, rfl, rfl⟩ := h
  exact ⟨rfl, rfl⟩

theorem yields_tableSlot_iff {table : KeyTable} {shared : Bool} {s : Slice}
    {slot : Option Subregion} :
    Yields (RegionedVertex.renderSlot (some ⟨.keys table, shared⟩) s index) p slot p' ↔
      ∃ words, slot = some (.filled words) ∧ Yields (table.words s index) p words p' := by
  simp only [RegionedVertex.renderSlot, Region.render, RegionContent.render, yields_bind_iff,
    yields_pure_iff]
  constructor
  · rintro ⟨_, _, ⟨words, _, hwords, rfl, rfl⟩, rfl, rfl⟩
    exact ⟨words, rfl, hwords⟩
  · rintro ⟨words, rfl, hwords⟩
    exact ⟨_, p', ⟨words, p', hwords, rfl, rfl⟩, rfl, rfl⟩

theorem yields_keySlot {keys : List Keyspace} {s : Slice} {slot : Option Subregion}
    (hlater : Pool.Later q p)
    (h : Yields (RegionedVertex.renderSlot (ValueFilter.keyRegion keys) s index) p slot p') :
    Pool.Later p p' ∧ ∃ words, slot = some (.filled words) ∧ Forall₂ (Written q index) keys words := by
  obtain ⟨words, rfl, hwords⟩ := yields_tableSlot_iff.mp h
  obtain ⟨hrun, hwritten⟩ := yields_keyWords hlater hwords
  exact ⟨hrun, words, rfl, hwritten⟩

theorem yields_transformSlot {m : Matrix} {format : WordFormat} {s : Slice}
    {slot : Option Subregion}
    (h : Yields (RegionedVertex.renderSlot (ValueFilter.transformRegion m format) s index) p slot
      p') : p = p' := by
  simp only [ValueFilter.transformRegion, RegionedVertex.renderSlot, Region.render,
    RegionContent.render, yields_bind_iff, yields_pure_iff] at h
  obtain ⟨_, _, ⟨-, rfl⟩, -, rfl⟩ := h
  rfl

theorem yields_render {id : ObjectId} {label : String} {system filters taken : List UInt32}
    {keys : List Keyspace} {m : Matrix} {format : WordFormat} {s : Slice} {slots : Slots}
    (hlater : Pool.Later q p)
    (h : Yields ((RegionedVertex.ofRegions id label 1 [ValueFilter.wordRegion system,
      ValueFilter.keyRegion keys, ValueFilter.wordRegion filters, ValueFilter.wordRegion taken,
      ValueFilter.transformRegion m format]).render s index) p slots p') :
    Pool.Later p p' ∧ slots[2]? = some (some (.filled filters))
      ∧ slots[3]? = some (some (.filled taken))
      ∧ ∃ words, slots[1]? = some (some (.filled words))
        ∧ Forall₂ (Written q index) keys words := by
  simp only [RegionedVertex.render, RegionedVertex.ofRegions, yields_mapM_cons_iff,
    yields_mapM_nil_iff] at h
  obtain ⟨_, _, _, hsystem, ⟨_, _, _, hkeys, ⟨_, _, _, hfilters, ⟨_, _, _, htaken,
    ⟨_, _, _, htransform, ⟨rfl, rfl⟩, rfl⟩, rfl⟩, rfl⟩, rfl⟩, rfl⟩ := h
  obtain ⟨rfl, rfl⟩ := yields_wordSlot hsystem
  obtain ⟨hrun, words, rfl, hwords⟩ := yields_keySlot hlater hkeys
  obtain ⟨rfl, rfl⟩ := yields_wordSlot hfilters
  obtain ⟨rfl, rfl⟩ := yields_wordSlot htaken
  obtain rfl := yields_transformSlot htransform
  exact ⟨hrun, rfl, rfl, words, rfl, hwords⟩

end

end Manycore
