import Manycore.Compiler.Network
import Manycore.Proofs.Config
import Manycore.Proofs.Keyspace.StreamRoom

/-! # Room for keys

The check of a configuration asks for one bit of the key beside the fields of sub-vertices and
dimensions. A network needs more: these two fields must have bits of their own, and the object and
the stream take one bit each even when there is only one of either.
-/

namespace Manycore

open Keying Keyspace

namespace Keyspace

variable {w sb db : Nat} {most : String → Nat} {p q : Pool} {k : Keyspace}

theorem Layout.noteValues_zero (l : Layout) (name : String) : l.noteValues [(name, 0)] = l := by
  have hzero : ∀ other, (Bindings.get? [(name, 0)] other).getD 0 = 0 := by
    intro other
    rw [Bindings.get?_cons]
    split <;> rfl
  simp [Layout.noteValues_eq, hzero]

theorem contains_openStreams :
    ∀ name ∈ streamNames, (openStreams w sb db most).contains name = true := by
  simp only [streamNames, List.forall_mem_cons]
  exact ⟨rfl, rfl, rfl, rfl, List.forall_mem_nil _⟩

theorem yields_bind_zero {name : String} (hl : p.layoutOf k = openStreams w sb db most)
    (hname : name ∈ streamNames) (hunbound : k.bindings.get? name = none) :
    Yields (k.bind [(name, 0)]) p { k with bindings := k.bindings.insert name 0 } p := by
  obtain ⟨f, hf⟩ := Layout.contains_eq_true_iff.mp (contains_openStreams name hname)
  have hconditions : ∀ x ∈ (p.layoutOf k).fields, x.2.conditions = [] := by
    rw [hl]
    exact conditions_streamFields
  have hbind := yields_bind_one hconditions (hl.symm ▸ hf) (fun _ _ => Nat.zero_le _) hunbound
  rwa [Layout.noteValues_zero, Pool.setLayout_layoutOf] at hbind

/-- Bind fields to zero, one after the other. -/
def bindZeros (k : Keyspace) (names : List String) : Keying KeyError Keyspace :=
  names.foldlM (fun k name => k.bind [(name, 0)]) k

theorem yields_bindZeros {layout : Nat} (hl : p.layoutOf ⟨layout, []⟩ = openStreams w sb db most) :
    Yields (bindZeros ⟨layout, []⟩ [objectField, connectionField, subvertexField, dimensionField]) p
      (filledValue layout 0 0 0 0) p := by
  simp only [bindZeros, yields_foldlM_cons_iff, yields_foldlM_nil_iff]
  have hbind : ∀ (b : Bindings) (name : String), name ∈ streamNames → b.get? name = none →
      Yields ((⟨layout, b⟩ : Keyspace).bind [(name, 0)]) p ⟨layout, b.insert name 0⟩ p :=
    fun _ _ hname hunbound => yields_bind_zero hl hname hunbound
  exact ⟨_, p, hbind [] objectField (by decide) rfl,
    _, p, hbind _ connectionField (by decide) rfl, _, p, hbind _ subvertexField (by decide) rfl,
    _, p, hbind _ dimensionField (by decide) rfl, rfl, rfl⟩

/-- What is rendered of the keyspace of a value: its key, what routers match, and what receivers
match. -/
def routedOutputs : List (Output × Selector) :=
  [(.key, .all), (.mask, .tag routingTag), (.key, .tag filterRoutingTag),
    (.mask, .tag filterRoutingTag)]

theorem exists_assigns {l : Layout} (most : String → Nat) {connection object : Option Span}
    (hl : l.fields = streamFields sb db most connection object) {b : Bindings}
    (hbound : BindsStream b) {x : Output × Selector} (hx : x ∈ routedOutputs) :
    ∃ selected, l.Assigns b x.1 x.2 selected := by
  cases l with
  | mk width fields frozen =>
      cases hl
      simp only [routedOutputs, List.mem_cons, List.not_mem_nil, or_false] at hx
      rcases hx with rfl | rfl | rfl | rfl
      · exact ⟨streamNames, rfl, hbound.missing (fun _ => id) _⟩
      · exact ⟨routedNames, rfl, hbound.missing subset_routedNames _⟩
      · exact ⟨filteredNames, rfl, hbound.missing subset_filteredNames _⟩
      · exact ⟨filteredNames, rfl, hbound.missing subset_filteredNames _⟩

theorem StreamsPlaced.exists_yields {ib ob : Nat} (h : StreamsPlaced w sb db ib ob (p.layoutOf k))
    (hbound : BindsStream k.bindings) {x : Output × Selector} (hx : x ∈ routedOutputs) :
    ∃ v, Yields (k.renders x.1 x.2) p v p := by
  obtain ⟨most, hpairs⟩ := h.forall₂
  have hplaced : ∃ selected, (placedStreams w sb db most ib ob).Assigns k.bindings x.1 x.2 selected :=
    exists_assigns most rfl hbound hx
  obtain ⟨selected, hassigns⟩ := hplaced
  have hassigned := Layout.Assigns.of_forall₂ hpairs hassigns
  have hrender := h.render_eq hassigned.select hassigned.missing
  exact ⟨_, yields_renders_iff.mpr ⟨_, hrender, Pool.setLayout_layoutOf p k⟩⟩

section

variable (hbounds : StreamBounds w sb db) (hin : k.In p)
  (hl : p.layoutOf k = openStreams w sb db fun _ => 1) (hbound : BindsStream k.bindings)
include hbounds hin hl hbound

/-- The first rendering finds room for two more bits, or fails. -/
theorem first_render {x : Output × Selector} (hx : x ∈ routedOutputs) :
    (db + sb + 2 ≤ w ∧ ∃ v q, Yields (k.renders x.1 x.2) p v q
      ∧ StreamsPlaced w sb db 1 1 (q.layoutOf k))
    ∨ (w < db + sb + 2 ∧ ∃ cause, Fails (k.renders x.1 x.2) p (.conflict cause)) := by
  have hassigns : ∃ selected, (openStreams w sb db fun _ => 1).Assigns k.bindings x.1 x.2 selected :=
    exists_assigns (fun _ => 1) rfl hbound hx
  obtain ⟨selected, hassigns⟩ := hassigns
  have hone : bitLength 1 = 1 := rfl
  rcases render_openStreams hbounds hassigns with ⟨hroom, v, hrender⟩ | ⟨hroom, cause, hrender⟩
  · rw [hone, Nat.add_assoc] at hroom
    refine Or.inl ⟨hroom, v, _, yields_renders_iff.mpr ⟨_, by rw [hl]; exact hrender, rfl⟩, ?_⟩
    rw [Pool.layoutOf_setLayout hin]
    exact ⟨⟨_, .refl _⟩, hbounds.width, hroom⟩
  · rw [hone, Nat.add_assoc] at hroom
    refine Or.inr ⟨hroom, cause, ?_⟩
    rw [Fails, renders, outcome_onLayout, hl]
    exact hrender

theorem exists_first_iff {x : Output × Selector} (hx : x ∈ routedOutputs) :
    (∃ v q, Yields (k.renders x.1 x.2) p v q) ↔ db + sb + 2 ≤ w := by
  rcases first_render hbounds hin hl hbound hx with ⟨hroom, v, q, h, -⟩ | ⟨hroom, cause, hfails⟩
  · exact ⟨fun _ => hroom, fun _ => ⟨v, q, h⟩⟩
  · constructor
    · rintro ⟨v, q, h⟩
      exact absurd hfails (not_fails_of_yields h _)
    · intro hle
      omega

/-- All of them can be rendered one after the other if there is room, and only then. -/
theorem exists_all_iff :
    (∃ vs q, Yields (routedOutputs.mapM fun x => k.renders x.1 x.2) p vs q) ↔ db + sb + 2 ≤ w := by
  have hfirst : (Output.key, Selector.all) ∈ routedOutputs := List.mem_cons_self
  constructor
  · rintro ⟨vs, q, h⟩
    obtain ⟨v, mid, -, hv, -⟩ := yields_mapM_cons_iff.mp h
    exact (exists_first_iff hbounds hin hl hbound hfirst).mp ⟨v, mid, hv⟩
  · intro hroom
    rcases first_render hbounds hin hl hbound hfirst with ⟨-, v, mid, hv, hplaced⟩ | ⟨hfull, -⟩
    · have hrest : ∃ vs, Yields (routedOutputs.tail.mapM fun x => k.renders x.1 x.2) mid vs mid :=
        exists_yields_mapM fun x hx => hplaced.exists_yields hbound (List.mem_of_mem_tail hx)
      obtain ⟨vs, hvs⟩ := hrest
      exact ⟨v :: vs, mid, yields_mapM_cons_iff.mpr ⟨v, mid, vs, hv, hvs, rfl⟩⟩
    · omega

end

end Keyspace

namespace Compiler

variable {c : Compiler}

theorem exists_wordFormat (h : c.config.Accepted) : ∃ format, c.wordFormat = .ok format := by
  refine ⟨.fixed ⟨c.config.fixed.bits.toNat, c.config.fixed.fraction, c.config.fixed.signed,
    h.fixedBits_pos, h.fixedBits_le, h.fixedFraction_ge, h.fixedFraction_le⟩, ?_⟩
  simp [wordFormat, FixedPoint.ofFields, h.fixedBits_pos, h.fixedBits_le, h.fixedFraction_ge,
    h.fixedFraction_le, Except.map]

/-- The bits that the layout of streams has. -/
def keyBounds (c : Compiler) : Prop :=
  StreamBounds c.config.keys.width.toNat c.config.keys.subvertexBits.toNat
    c.config.keys.dimensionBits.toNat

theorem keyBounds_iff (h : c.config.Accepted) : c.keyBounds ↔
    0 < c.config.keys.subvertexBits.toNat ∧ 0 < c.config.keys.dimensionBits.toNat := by
  have hreserved := h.reserved_lt
  constructor
  · intro hbounds
    exact ⟨hbounds.subvertex, hbounds.dimension⟩
  · intro hpos
    exact ⟨h.width_le, hpos.2, hpos.1, by omega⟩

/-- With a configuration that is accepted there is a word format. There is a default keyspace when
the fields of sub-vertices and dimensions have bits; the first stream of the first object can then
be bound, and its keys and masks can be rendered when two bits are left beside these fields. -/
theorem keys_network_iff (hvalid : c.config.validate = .ok ()) (p : Pool) :
    (∃ format, c.wordFormat = .ok format)
    ∧ ((∃ k q, Yields c.defaultKeyspace p k q) ↔
      0 < c.config.keys.subvertexBits.toNat ∧ 0 < c.config.keys.dimensionBits.toNat)
    ∧ ∀ k q, Yields c.defaultKeyspace p k q → ∃ k',
      Yields (k.bindZeros [objectField, connectionField, subvertexField, dimensionField]) q k' q
      ∧ (∀ x ∈ routedOutputs, (∃ v r, Yields (k'.renders x.1 x.2) q v r) ↔
        c.config.keys.dimensionBits.toNat + c.config.keys.subvertexBits.toNat + 2
          ≤ c.config.keys.width.toNat)
      ∧ ((∃ vs r, Yields (routedOutputs.mapM fun x => k'.renders x.1 x.2) q vs r) ↔
        c.config.keys.dimensionBits.toNat + c.config.keys.subvertexBits.toNat + 2
          ≤ c.config.keys.width.toNat) := by
  have haccepted := Config.validate_eq_ok_iff.mp hvalid
  refine ⟨exists_wordFormat haccepted, ?_, ?_⟩
  · rw [← keyBounds_iff haccepted]
    constructor
    · rintro ⟨k, q, h⟩
      exact (yields_forStreams h).1
    · intro hbounds
      exact ⟨_, _, hbounds.yields_forStreams p⟩
  · intro k q h
    obtain ⟨hbounds, rfl, rfl⟩ := yields_forStreams h
    have hl := Pool.layoutOf_append p (openStreams c.config.keys.width.toNat
      c.config.keys.subvertexBits.toNat c.config.keys.dimensionBits.toNat fun _ => 1)
    have hin : (filledValue p.layouts.length 0 0 0 0).In ⟨p.layouts ++ [openStreams
        c.config.keys.width.toNat c.config.keys.subvertexBits.toNat
        c.config.keys.dimensionBits.toNat fun _ => 1]⟩ := by
      simp [In, filledValue]
    have hbound := bindsStream_filledValue p.layouts.length 0 0 0 0
    exact ⟨_, yields_bindZeros (hl []), fun x hx => exists_first_iff hbounds hin (hl _) hbound hx,
      exists_all_iff hbounds hin (hl _) hbound⟩

/-- A compiler with these bits in its keys, and else the standard configuration. -/
def ofKeyBits (width subvertexBits dimensionBits : UInt32) : Compiler where
  config := { Config.standard with keys := ⟨width, subvertexBits, dimensionBits⟩ }
  transforms := []
  assemblers := []
  constraints := []

theorem keys_network_iff_sixteen : (ofKeyBits 16 8 6).config.validate = .ok ()
    ∧ ∃ k q k' vs r, Yields (ofKeyBits 16 8 6).defaultKeyspace Pool.empty k q
      ∧ Yields (k.bindZeros [objectField, connectionField, subvertexField, dimensionField]) q k' q
      ∧ Yields (routedOutputs.mapM fun x => k'.renders x.1 x.2) q vs r := by
  have hvalid : (ofKeyBits 16 8 6).config.validate = .ok () :=
    Config.validate_eq_ok_iff_problems.mpr (List.isEmpty_iff.mp (by decide +kernel))
  obtain ⟨-, hdefault, hkeys⟩ := keys_network_iff hvalid Pool.empty
  obtain ⟨k, q, hk⟩ := hdefault.mpr (by decide)
  obtain ⟨k', hzeros, -, hall⟩ := hkeys k q hk
  obtain ⟨vs, r, hvs⟩ := hall.mpr (by decide)
  exact ⟨hvalid, k, q, k', vs, r, hk, hzeros, hvs⟩

/-- Three configurations are accepted although no network can be keyed with them: a field without
bits cannot be added, and one bit is too few for object and stream. -/
theorem accepted_without_keys :
    (∀ c ∈ [ofKeyBits 32 0 6, ofKeyBits 32 8 0, ofKeyBits 15 8 6], c.config.validate = .ok ())
    ∧ Fails (ofKeyBits 32 0 6).defaultKeyspace Pool.empty (.conflict (.zeroLength subvertexField))
    ∧ Fails (ofKeyBits 32 8 0).defaultKeyspace Pool.empty (.conflict (.zeroLength dimensionField))
    ∧ ∃ k q k', Yields (ofKeyBits 15 8 6).defaultKeyspace Pool.empty k q
      ∧ Yields (k.bindZeros [objectField, connectionField, subvertexField, dimensionField]) q k' q
      ∧ ∀ x ∈ routedOutputs, Fails (k'.renders x.1 x.2) q (.conflict (.noRoom objectField 1 15)) := by
  refine ⟨?_, rfl, rfl, ⟨0, []⟩, ⟨[openStreams 15 8 6 fun _ => 1]⟩, filledValue 0 0 0 0 0, rfl, ?_, ?_⟩
  · have hproblems : ∀ c ∈ [ofKeyBits 32 0 6, ofKeyBits 32 8 0, ofKeyBits 15 8 6],
        c.config.problems.isEmpty = true := by decide +kernel
    intro c hc
    exact Config.validate_eq_ok_iff_problems.mpr (List.isEmpty_iff.mp (hproblems c hc))
  · exact yields_bindZeros rfl
  · intro x hx
    simp only [routedOutputs, List.mem_cons, List.not_mem_nil, or_false] at hx
    rcases hx with rfl | rfl | rfl | rfl <;> rfl

end Compiler

end Manycore
