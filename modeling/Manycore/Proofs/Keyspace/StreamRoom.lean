import Manycore.Proofs.Keyspace.StreamRoutes

/-! # Room for streams

When no place beyond the last ones of a network is bound any more, it is known from the start how
much room the two fields will take that are sized by what is bound to them. Whether the key of a
value can be rendered then depends on nothing that was rendered before.
-/

namespace Manycore

open Keyspace Keying

/-- The request succeeds, adds no field, and binds no place beyond these to a stream or an object. -/
def Pool.within (connection object : Nat) : Pool.Rule := fun p k request =>
  Pool.granted p k request ∧ ∀ pairs, request = .bind pairs → ∀ x ∈ pairs,
    (x.1 = connectionField → x.2 ≤ connection) ∧ (x.1 = objectField → x.2 ≤ object)

namespace Keyspace

variable {w sb db connection object : Nat} {l : Layout} {b : Bindings}

theorem bitLength_max_one (n : Nat) : bitLength (max n 1) = bitLength n := by
  rw [bitLength, bitLength, Nat.max_assoc, Nat.max_self]

theorem le_ones {length v : Nat} (hlength : length ≤ 64) (hv : v < twoTo length) :
    v ≤ ones length := by
  rw [ones_eq hlength]
  omega

theorem Layout.exists_after_bind (l : Layout) (b : Bindings) (pairs : List (String × Nat)) :
    ∃ values : Bindings, (∀ x ∈ values, x ∈ pairs) ∧ l.after b (.bind pairs) = l.noteValues values := by
  simp only [Layout.after]
  split
  · rename_i all l' hbind
    obtain ⟨values, hgather, -, -, -, rfl⟩ := Layout.bind_eq_ok_iff.mp hbind
    obtain ⟨-, -, rfl⟩ := Layout.gather_eq_ok_iff.mp hgather
    exact ⟨_, fun x hx => (Bindings.mem_merge hx).resolve_left List.not_mem_nil, rfl⟩
  · exact ⟨[], List.forall_mem_nil _, l.noteValues_nil.symm⟩

/-- While fields are open, binding changes their largest values only, and no more than it must. -/
theorem exists_after_bind_openStreams (w sb db : Nat) (most : String → Nat) (b : Bindings)
    (pairs : List (String × Nat)) :
    ∃ more, (openStreams w sb db most).after b (.bind pairs) = openStreams w sb db more
      ∧ ∀ name n, (∀ x ∈ pairs, x.1 = name → x.2 ≤ n) →
        most name ≤ more name ∧ more name ≤ max (most name) n := by
  obtain ⟨values, hvalues, hafter⟩ := (openStreams w sb db most).exists_after_bind b pairs
  refine ⟨_, hafter.trans (noteValues_streams _ _ _ _ _), fun name n hnamed => ?_⟩
  have hle : (values.get? name).getD 0 ≤ n := by
    cases hget : values.get? name with
    | none => exact Nat.zero_le n
    | some v => exact hnamed _ (hvalues _ (Bindings.mem_of_get? hget)) rfl
  exact ⟨Nat.le_max_left _ _, by omega⟩

/-- All fields are open, and no place beyond these is noted. -/
def OpenedUpTo (w sb db connection object : Nat) (l : Layout) : Prop :=
  ∃ most, l = openStreams w sb db most
    ∧ (1 ≤ most connectionField ∧ most connectionField ≤ max connection 1)
    ∧ 1 ≤ most objectField ∧ most objectField ≤ max object 1

theorem OpenedUpTo.bind (h : OpenedUpTo w sb db connection object l) {pairs : List (String × Nat)}
    (hpairs : ∀ x ∈ pairs,
      (x.1 = connectionField → x.2 ≤ connection) ∧ (x.1 = objectField → x.2 ≤ object)) :
    OpenedUpTo w sb db connection object (l.after b (.bind pairs)) := by
  obtain ⟨most, rfl, hconnection, hobject⟩ := h
  obtain ⟨more, hafter, hmore⟩ := exists_after_bind_openStreams w sb db most b pairs
  have hconnections := hmore connectionField connection fun x hx => (hpairs x hx).1
  have hobjects := hmore objectField object fun x hx => (hpairs x hx).2
  exact ⟨more, hafter, by omega, by omega⟩

/-- The layout of streams, placed or not, whose open fields are those for places up to the last. -/
inductive Allotted (w sb db connection object : Nat) (l : Layout) : Prop where
  | opened {most} : StreamBounds w sb db → l = openStreams w sb db most →
    most connectionField = max connection 1 → most objectField = max object 1 →
    Allotted w sb db connection object l
  | placed : StreamsPlaced w sb db (bitLength connection) (bitLength object) l →
    Allotted w sb db connection object l

theorem bindsStream_filledValue (layout object connection dimension index : Nat) :
    BindsStream (filledValue layout object connection dimension index).bindings := by
  simp only [BindsStream, streamNames, List.forall_mem_cons]
  exact ⟨rfl, rfl, rfl, rfl, List.forall_mem_nil _⟩

theorem conditions_streamFields {most : String → Nat} {connection object : Option Span} :
    ∀ x ∈ streamFields sb db most connection object, x.2.conditions = [] := by
  simp [streamFields]

namespace Allotted

theorem conditions (h : Allotted w sb db connection object l) :
    ∀ x ∈ l.fields, x.2.conditions = [] := by
  cases h with
  | opened _ hl _ _ =>
      subst hl
      exact conditions_streamFields
  | placed hplaced =>
      obtain ⟨most, hpairs⟩ := hplaced.forall₂
      intro y hy
      obtain ⟨x, hx, -, hgrows⟩ := exists_left_of_forall₂ hpairs hy
      exact hgrows.conditions.trans (conditions_streamFields x hx)

theorem exists_subvertex (h : Allotted w sb db connection object l) :
    ∃ f, l.find? subvertexField = some f ∧ f.length = some sb := by
  cases h with
  | opened _ hl _ _ =>
      subst hl
      exact ⟨_, rfl, rfl⟩
  | placed hplaced =>
      obtain ⟨-, ⟨f, hf, hlength, -⟩, -⟩ := hplaced.hasSpan
      exact ⟨f, hf, hlength⟩

theorem subvertexBits_le (h : Allotted w sb db connection object l) : sb ≤ 64 := by
  cases h with
  | opened hbounds _ _ _ =>
      have hwidth := hbounds.width
      have hinside := hbounds.inside
      omega
  | placed hplaced =>
      have hwidth := hplaced.width
      have hinside := hplaced.inside
      omega

theorem bind (h : Allotted w sb db connection object l) {pairs : List (String × Nat)}
    (hpairs : ∀ x ∈ pairs,
      (x.1 = connectionField → x.2 ≤ connection) ∧ (x.1 = objectField → x.2 ≤ object)) :
    Allotted w sb db connection object (l.after b (.bind pairs)) := by
  cases h with
  | placed hplaced => exact .placed (hplaced.of_growsTo (Layout.after_step l b _).growsTo)
  | opened hbounds hl hconnection hobject =>
      subst hl
      obtain ⟨more, hafter, hmore⟩ := exists_after_bind_openStreams w sb db _ b pairs
      have hconnections := hmore connectionField connection fun x hx => (hpairs x hx).1
      have hobjects := hmore objectField object fun x hx => (hpairs x hx).2
      exact .opened hbounds hafter (by omega) (by omega)

/-- Whatever is rendered first, the open fields are then as they were meant to be. -/
theorem placed_of_render (h : Allotted w sb db connection object l) {output : Output}
    {selector : Selector} {v : Nat} (hok : (l.render b output selector).1 = .ok v) :
    StreamsPlaced w sb db (bitLength connection) (bitLength object)
      (l.render b output selector).2 := by
  cases h with
  | placed hplaced => exact hplaced.of_growsTo (Layout.render_rendering _ _ _ _).growsTo
  | opened hbounds hl hconnection hobject =>
      subst hl
      have hplaced := placed_of_render_openStreams hbounds hok
      rwa [hconnection, hobject, bitLength_max_one, bitLength_max_one] at hplaced

theorem exists_render_iff (h : Allotted w sb db connection object l) (hbound : BindsStream b) :
    (∃ v, (l.render b .key .all).1 = .ok v)
      ↔ db + sb + bitLength connection + bitLength object ≤ w := by
  constructor
  · rintro ⟨v, hok⟩
    exact (h.placed_of_render hok).inside
  · intro hroom
    have hmissing : Output.key.missing b streamNames = [] := hbound.missing (fun _ => id) .key
    cases h with
    | placed hplaced =>
        exact ⟨_, congrArg Prod.fst (hplaced.render_eq (hplaced.select_all b) hmissing)⟩
    | @opened most hbounds hl hconnection hobject =>
        subst hl
        have hassigns : (openStreams w sb db most).Assigns b .key .all streamNames := ⟨rfl, hmissing⟩
        rcases render_openStreams hbounds hassigns with ⟨-, v, hrender⟩ | ⟨hfull, -⟩
        · exact ⟨v, congrArg Prod.fst hrender⟩
        · rw [hconnection, hobject, bitLength_max_one, bitLength_max_one] at hfull
          omega

end Allotted

/-- The dimension, the sub-vertex, the stream and the object of a value side by side. -/
def streamKey (sb db connectionBits : Nat) (sender place dimension index : Nat) : Nat :=
  dimension + twoTo db * (index + twoTo sb * (place + twoTo connectionBits * sender))

theorem or_shiftLeft {m n : Nat} (h : m < twoTo n) (v : Nat) : m ||| v <<< n = m + twoTo n * v := by
  have hadd : v <<< n + m = v <<< n ||| m := Nat.shiftLeft_add_eq_or_of_lt h v
  rw [Nat.or_comm, ← hadd, shiftLeft_eq_mul_twoTo, Nat.add_comm, Nat.mul_comm]

theorem add_mul_lt_twoTo {m n v k : Nat} (hm : m < twoTo n) (hv : v < twoTo k) :
    m + twoTo n * v < twoTo (n + k) := by
  calc m + twoTo n * v < twoTo n + twoTo n * v := Nat.add_lt_add_right hm _
    _ = twoTo n * (v + 1) := by rw [Nat.mul_add, Nat.mul_one, Nat.add_comm]
    _ ≤ twoTo n * twoTo k := Nat.mul_le_mul_left _ hv
    _ = twoTo (n + k) := (Nat.pow_add 2 n k).symm

theorem StreamsPlaced.keyBits_filledValue {layout ib ob sender place dimension index : Nat}
    (h : StreamsPlaced w sb db ib ob l) (hplace : place < twoTo ib) (hdimension : dimension < twoTo db)
    (hindex : index < twoTo sb) :
    l.keyBits (filledValue layout sender place dimension index).bindings streamNames
      = streamKey sb db ib sender place dimension index := by
  obtain ⟨⟨fd, hd, -, hdstart⟩, ⟨fs, hs, -, hsstart⟩, ⟨fi, hi, -, histart⟩, fo, ho, -, hostart⟩ :=
    h.hasSpan
  have hbits : l.keyBits (filledValue layout sender place dimension index).bindings streamNames
      = ((dimension ||| index <<< db) ||| place <<< (db + sb)) ||| sender <<< (db + sb + ib) := by
    simp only [Layout.keyBits, streamNames, List.foldl_cons, List.foldl_nil, hd, hs, hi, ho,
      Option.bind_some, hdstart, hsstart, histart, hostart, Option.getD_some, Nat.zero_or]
    rfl
  have hlow := add_mul_lt_twoTo hdimension hindex
  rw [hbits, or_shiftLeft hdimension, or_shiftLeft hlow, or_shiftLeft (add_mul_lt_twoTo hlow hplace),
    streamKey]
  have hpow : ∀ m n, twoTo (m + n) = twoTo m * twoTo n := Nat.pow_add 2
  simp only [hpow, Nat.mul_add, Nat.mul_assoc, Nat.add_assoc]

variable {p q : Pool} {k k' : Keyspace} {layout sender place dimension index v : Nat}

theorem within_of_binding {name : String} (hconnection : name ≠ connectionField)
    (hobject : name ≠ objectField) (h : Pool.binding p k (.bind [(name, v)])) :
    Pool.within connection object p k (.bind [(name, v)]) := by
  refine ⟨h.1, ?_⟩
  rintro _ ⟨⟩ x hx
  cases List.mem_singleton.mp hx
  exact ⟨fun hname => absurd hname hconnection, fun hname => absurd hname hobject⟩

theorem run_within_of_bind {name : String} (hconnection : name ≠ connectionField)
    (hobject : name ≠ objectField) (h : Yields (k.bind [(name, v)]) p k' q) :
    Pool.Run (Pool.within connection object) p q :=
  run_of_yields_bind (within_of_binding hconnection hobject) h

theorem run_within_of_renders {output : Output} {selector : Selector}
    (h : Yields (k.renders output selector) p v q) :
    Pool.Run (Pool.within connection object) p q :=
  run_of_yields_renders (fun hgranted => ⟨hgranted, fun _ => Request.noConfusion⟩) h

/-- The layout is in the pool, and is allotted. -/
structure AllottedPool (w sb db connection object layout : Nat) (p : Pool) : Prop where
  inPool : (⟨layout, []⟩ : Keyspace).In p
  allotted : Allotted w sb db connection object (p.layoutOf ⟨layout, []⟩)

theorem yields_bind_one {name : String} {f : Field}
    (hconditions : ∀ x ∈ (p.layoutOf k).fields, x.2.conditions = [])
    (hfind : (p.layoutOf k).find? name = some f)
    (hroom : ∀ length, f.length = some length → v ≤ ones length)
    (hunbound : k.bindings.get? name = none) :
    Yields (k.bind [(name, v)]) p { k with bindings := k.bindings.insert name v }
      (p.setLayout k ((p.layoutOf k).noteValues [(name, v)])) := by
  have hbinds : (p.layoutOf k).Binds k.bindings [(name, v)] (k.bindings.insert name v) := {
    sorted := List.pairwise_singleton _ _
    fresh := by
      intro other u hget
      cases List.mem_singleton.mp (Bindings.mem_of_get? hget)
      exact ⟨Layout.contains_eq_true_iff.mpr ⟨f, hfind⟩, hunbound⟩
    merged := rfl
    enabled := by
      intro pair _ g hg
      exact Field.isEnabled_of_conditions (hconditions _ (Layout.mem_of_find? hg)) _
    room := by
      intro pair hpair g hg
      cases List.mem_singleton.mp hpair
      cases hfind.symm.trans hg
      exact hroom }
  exact yields_bindAll_iff.mpr ⟨_, _, Layout.bind_eq_ok hbinds, rfl, rfl⟩

namespace AllottedPool

theorem run (h : AllottedPool w sb db connection object layout p)
    (hrun : Pool.Run (Pool.within connection object) p q) :
    AllottedPool w sb db connection object layout q := by
  refine ⟨h.inPool.run hrun, ?_⟩
  refine hrun.layoutOf (Allotted w sb db connection object) h.inPool h.allotted
    fun q k' request hrule hsame ih => ?_
  have hlayout : q.layoutOf k' = q.layoutOf ⟨layout, []⟩ := by simp only [Pool.layoutOf, hsame]
  cases request with
  | add spec => exact absurd rfl (hrule.1.1 spec)
  | bind pairs => exact ih.bind (hrule.2 pairs rfl)
  | get name => exact ih
  | render output selector =>
      obtain ⟨v, hok⟩ := exists_of_granted_render hrule.1
      rw [hlayout] at hok
      exact .placed (ih.placed_of_render hok)

theorem exists_streamPool (h : AllottedPool w sb db connection object layout p) :
    ∃ most, StreamPool w sb db most layout p := by
  cases h.allotted with
  | @opened most hbounds hl _ _ =>
      exact ⟨most, h.inPool, .opened hbounds hl fun _ => Nat.le_refl _⟩
  | placed hplaced =>
      exact ⟨fun _ => 0, h.inPool, .placed hplaced (twoTo_pos _) (twoTo_pos _)⟩

theorem exists_yields_bind (h : AllottedPool w sb db connection object layout p)
    (hindex : index < twoTo sb) :
    ∃ q, Yields ((forValue layout sender place dimension).bind [(subvertexField, index)]) p
      (filledValue layout sender place dimension index) q := by
  obtain ⟨f, hf, hlength⟩ := h.allotted.exists_subvertex
  refine ⟨_, yields_bind_one h.allotted.conditions hf (fun length hfixed => ?_) rfl⟩
  cases hlength.symm.trans hfixed
  exact le_ones h.allotted.subvertexBits_le hindex

theorem of_filled (h : AllottedPool w sb db connection object layout p) {mid : Pool}
    {filled : Keyspace} (hplace : place ≤ connection) (hdimension : dimension < twoTo db)
    (hbind : Yields ((forValue layout sender place dimension).bind [(subvertexField, index)]) p
      filled mid)
    (hrender : Yields (filled.renderKey .all) mid v q) :
    index < twoTo sb ∧ db + sb + bitLength connection + bitLength object ≤ w
      ∧ v = streamKey sb db (bitLength connection) sender place dimension index := by
  have hin : (forValue layout sender place dimension).In p := h.inPool
  have hindex : index < twoTo sb := by
    refine lt_of_yields_bind hin (fun f hf => ?_) hbind
    obtain ⟨g, hg, hlength⟩ := h.allotted.exists_subvertex
    cases hg.symm.trans hf
    exact hlength
  obtain rfl := bind_forValue hin hbind
  have hmid := h.run (run_within_of_bind (by decide) (by decide) hbind)
  have hallotted : Allotted w sb db connection object
      (mid.layoutOf (filledValue layout sender place dimension index)) := hmid.allotted
  rw [renderKey_eq] at hrender
  obtain ⟨l, hrender, -⟩ := yields_renders_iff.mp hrender
  have hplaced := hallotted.placed_of_render (congrArg Prod.fst hrender)
  -- What is rendered again from the placed layout is the same, and is read off its ranges there.
  have hagain := Layout.render_again (congrArg Prod.fst hrender) (.refl _)
  rw [hrender] at hplaced hagain
  have hmissing : Output.key.missing (filledValue layout sender place dimension index).bindings
      streamNames = [] := (bindsStream_filledValue _ _ _ _ _).missing (fun _ => id) .key
  rw [hplaced.render_eq (hplaced.select_all _) hmissing] at hagain
  refine ⟨hindex, hplaced.inside, ?_⟩
  rw [← hplaced.keyBits_filledValue (lt_twoTo_bitLength hplace) hdimension hindex]
  exact (Except.ok.inj (congrArg Prod.fst hagain)).symm

end AllottedPool

/-- What the key of a value needs: the sub-vertex has room in its field, the fields have room side
by side, and the key is a word. -/
structure KeyFits (w sb db connection object sender place dimension index : Nat) : Prop where
  index_lt : index < twoTo sb
  inside : db + sb + bitLength connection + bitLength object ≤ w
  word : streamKey sb db (bitLength connection) sender place dimension index < wordRange

instance : Decidable (KeyFits w sb db connection object sender place dimension index) :=
  decidable_of_iff (index < twoTo sb ∧ db + sb + bitLength connection + bitLength object ≤ w
    ∧ streamKey sb db (bitLength connection) sender place dimension index < wordRange)
    ⟨fun ⟨hindex, hinside, hword⟩ => ⟨hindex, hinside, hword⟩,
      fun h => ⟨h.index_lt, h.inside, h.word⟩⟩

/-- With the sub-vertex filled in, the key of a value is a word when it has what it needs, and only
then. -/
theorem AllottedPool.exists_word_iff (h : AllottedPool w sb db connection object layout p)
    (hplace : place ≤ connection) (hdimension : dimension < twoTo db) :
    (∃ filled mid, ∃ word : UInt32, ∃ q,
      Yields ((forValue layout sender place dimension).bind [(subvertexField, index)]) p filled mid
        ∧ Yields (filled.renderKey .all) mid word.toNat q)
      ↔ KeyFits w sb db connection object sender place dimension index := by
  constructor
  · rintro ⟨filled, mid, word, q, hbind, hrender⟩
    obtain ⟨hindex, hinside, hkey⟩ := h.of_filled hplace hdimension hbind hrender
    exact ⟨hindex, hinside, hkey ▸ UInt32.toNat_lt word⟩
  · intro hfits
    obtain ⟨mid, hbind⟩ : ∃ mid,
        Yields ((forValue layout sender place dimension).bind [(subvertexField, index)]) p
          (filledValue layout sender place dimension index) mid :=
      h.exists_yields_bind hfits.index_lt
    have hmid := h.run (run_within_of_bind (by decide) (by decide) hbind)
    have hallotted : Allotted w sb db connection object
        (mid.layoutOf (filledValue layout sender place dimension index)) := hmid.allotted
    have hbound := bindsStream_filledValue layout sender place dimension index
    obtain ⟨v, hok⟩ := (hallotted.exists_render_iff hbound).mpr hfits.inside
    obtain ⟨q, hrender⟩ : ∃ q,
        Yields ((filledValue layout sender place dimension index).renders .key .all) mid v q :=
      ⟨_, yields_renders_iff.mpr ⟨_, Prod.ext hok rfl, rfl⟩⟩
    obtain ⟨-, -, rfl⟩ := h.of_filled hplace hdimension hbind hrender
    have hword := UInt32.toNat_ofNat_of_lt' hfits.word
    exact ⟨_, mid, _, q, hbind, hword.symm ▸ hrender⟩

end Keyspace

end Manycore
