import Manycore.Proofs.Keyspace.Finality

/-! # What a key is made of

A key is the union of the values bound to the selected fields, each at the position of its field.
Values are bound long before their fields get a length, on any keyspace, and still none of them is
cut short or left out: a length that is fixed has room for everything bound to the field so far, and
nothing larger can be bound to it afterwards.
-/

namespace Manycore.Keyspace

open List (Forall₂)

/-- What one field adds to a key. -/
structure KeyPart where
  length : Nat
  start : Nat
  value : Nat

namespace KeyPart

def bits (part : KeyPart) : Nat := part.value <<< part.start

def union (parts : List KeyPart) : Nat := parts.foldl (fun key part => key ||| part.bits) 0

end KeyPart

namespace Covers

theorem lt_twoTo {a b width : Nat} (h : Covers a b) (hb : b < twoTo width) : a < twoTo width := by
  apply lt_twoTo_iff.mpr
  intro bit hbit
  apply Bool.eq_false_iff.mpr
  intro hset
  have hcovered := h bit hset
  rw [lt_twoTo_iff.mp hb bit hbit] at hcovered
  cases hcovered

theorem and_not_eq_zero {key mask width : Nat} (h : Covers key mask) (hwidth : width ≤ 64)
    (hkey : key < twoTo width) : key &&& (ones 64 ^^^ mask) = 0 := by
  apply and_eq_zero_iff.mpr
  intro bit hbit
  have hlow : bit < 64 := by
    by_contra hhigh
    rw [lt_twoTo_iff.mp hkey bit (by omega)] at hbit
    cases hbit
  simp [Nat.testBit_xor, testBit_ones (Nat.le_refl 64), hlow, h bit hbit]

end Covers

namespace Layout

/-- The part of a key that the field of this name is. -/
def IsPart (l : Layout) (b : Bindings) (name : String) (part : KeyPart) : Prop :=
  ∃ f, l.Holds b name f part.length part.start part.value

variable {l : Layout} {b : Bindings} {names : List String}

theorem exists_parts
    (h : ∀ name ∈ names, ∃ f length start v, l.Holds b name f length start v) :
    ∃ parts, Forall₂ (l.IsPart b) names parts := by
  induction names with
  | nil => exact ⟨[], .nil⟩
  | cons name rest ih =>
      obtain ⟨hname, hrest⟩ := List.forall_mem_cons.mp h
      obtain ⟨f, length, start, v, hholds⟩ := hname
      obtain ⟨parts, hparts⟩ := ih hrest
      exact ⟨⟨length, start, v⟩ :: parts, .cons ⟨f, hholds⟩ hparts⟩

theorem keyBits_eq_union {parts : List KeyPart} (h : Forall₂ (l.IsPart b) names parts) :
    l.keyBits b names = KeyPart.union parts := by
  suffices hfold : ∀ key, names.foldl (fun key name =>
      key ||| ((b.get? name).getD 0 <<< (((l.find? name).bind (·.start)).getD 0))) key
        = parts.foldl (fun key part => key ||| part.bits) key from hfold 0
  induction h with
  | nil => exact fun _ => rfl
  | cons hpart _ ih =>
      intro key
      obtain ⟨f, hholds⟩ := hpart
      simp only [List.foldl_cons, hholds.getD_eq, KeyPart.bits]
      exact ih _

section

variable (hwidth : l.width ≤ 64)
  (hholds : ∀ name ∈ names, ∃ f length start v, l.Holds b name f length start v)

include hwidth hholds

theorem covers_keyBits_maskBits : Covers (l.keyBits b names) (l.maskBits names) := by
  intro bit hkey
  obtain ⟨name, hname, hbit⟩ := testBit_keyBits.mp hkey
  obtain ⟨f, length, start, v, hf⟩ := hholds name hname
  rw [hf.getD_eq] at hbit
  apply (testBit_maskBits_iff hwidth hholds).mpr
  exact ⟨name, hname, f, hf.find, occupies_of_testBit hf.length_eq hf.start_eq hf.room hbit⟩

theorem maskBits_lt_twoTo : l.maskBits names < twoTo l.width := by
  apply lt_twoTo_iff.mpr
  intro bit hbit
  apply Bool.eq_false_iff.mpr
  intro hset
  obtain ⟨name, hname, f, hfind, length, start, hlength, hstart, hlow, hhigh⟩ :=
    (testBit_maskBits_iff hwidth hholds).mp hset
  obtain ⟨f', length', start', v, hf⟩ := hholds name hname
  cases hf.find.symm.trans hfind
  cases hf.length_eq.symm.trans hlength
  cases hf.start_eq.symm.trans hstart
  have hinside := hf.inside
  omega

theorem keyBits_lt_twoTo : l.keyBits b names < twoTo l.width :=
  (covers_keyBits_maskBits hwidth hholds).lt_twoTo (maskBits_lt_twoTo hwidth hholds)

end

end Layout

namespace Family

variable {fam : Family} {b : Bindings} {selector : Selector} {selected : List String}

theorem WellFormed.mem_selected_iff (h : fam.WellFormed) (hb : b ∈ fam.members)
    (hsettled : fam.layout.Settled b .key .all selected) (name : String) :
    name ∈ selected ↔ (b.get? name).isSome = true := by
  constructor
  · exact hsettled.isSome_get?
  · intro hbound
    obtain ⟨v, hget⟩ := Option.isSome_iff_exists.mp hbound
    obtain ⟨f, hfind, henabled⟩ := h.bound b hb name v hget
    cases hsettled.assigns.select
    apply List.mem_map.mpr
    exact ⟨(name, f), List.mem_filter.mpr ⟨Layout.mem_of_find? hfind, henabled⟩, rfl⟩

theorem WellFormed.and_not_mask (h : fam.WellFormed) (hb : b ∈ fam.members)
    (hsettled : fam.layout.Settled b .key selector selected) {mask : Nat} {masked : Layout}
    (hmask : fam.layout.render b .mask selector = (.ok mask, masked)) :
    fam.layout.keyBits b selected &&& (ones 64 ^^^ mask) = 0
      ∧ mask < twoTo fam.layout.width := by
  have hwell := h.ask hb (.render .mask selector)
  have hmember : b ∈ (fam.ask b (.render .mask selector)).members := List.mem_append_left _ hb
  have hlayout : (fam.ask b (.render .mask selector)).layout = masked := congrArg Prod.snd hmask
  have hrendering := Layout.rendering_of_render hmask
  have hgrow := hrendering.growsTo
  obtain ⟨names, hmasked, hbits⟩ := Layout.settled_of_rendering hrendering
  generalize fam.ask b (.render .mask selector) = asked at hwell hmember hlayout
  subst hlayout
  -- both renderings select the same fields, and the key is still the same
  have hkeyed := hsettled.of_growsTo hgrow
  cases hkeyed.assigns.select.symm.trans hmasked.assigns.select
  have hkey : asked.layout.keyBits b selected = fam.layout.keyBits b selected :=
    hsettled.bits_eq hgrow
  have hholds := hkeyed.holds hwell.sized (hwell.notes hmember)
  rw [hbits, ← hgrow.width, ← hkey]
  exact ⟨(Layout.covers_keyBits_maskBits hwell.width hholds).and_not_eq_zero hwell.width
    (Layout.keyBits_lt_twoTo hwell.width hholds), Layout.maskBits_lt_twoTo hwell.width hholds⟩

/-- A key is the union of the bound values of the selected fields, and its mask covers it. The
values fit the fields and the fields fit the width, so that every shift stays below 64. -/
theorem key_eq_union {width key : Nat} {l keyed : Layout} (hnew : Layout.ofWidth width = .ok l)
    (hreach : Reaches anything (root l) fam) (hb : b ∈ fam.members)
    (hkey : fam.layout.render b .key selector = (.ok key, keyed)) :
    ∃ names parts, keyed.select b selector = .ok names
      ∧ Forall₂ (fun name part => ∃ f, keyed.find? name = some f ∧ f.length = some part.length
        ∧ f.start = some part.start ∧ b.get? name = some part.value) names parts
      ∧ (∀ part ∈ parts, part.value < twoTo part.length ∧ part.start + part.length ≤ width
        ∧ part.start < 64)
      ∧ key = KeyPart.union parts ∧ key < twoTo width
      ∧ (selector = .all → ∀ name, name ∈ names ↔ (b.get? name).isSome = true)
      ∧ ∀ mask masked, keyed.render b .mask selector = (.ok mask, masked) →
        key &&& (ones 64 ^^^ mask) = 0 ∧ mask < twoTo width := by
  have hasked : Reaches anything (root l) (fam.ask b (.render .key selector)) :=
    .ask hreach hb trivial
  have hmember : b ∈ (fam.ask b (.render .key selector)).members := List.mem_append_left _ hb
  have hlayout : (fam.ask b (.render .key selector)).layout = keyed := congrArg Prod.snd hkey
  have hwell := hasked.wellFormed (wellFormed_root hnew)
  have hwidth : keyed.width = width := by
    obtain ⟨-, rfl⟩ := Layout.ofWidth_eq_ok_iff.mp hnew
    exact hlayout ▸ hasked.growsTo.width
  obtain ⟨names, hsettled, hbits⟩ :=
    Layout.settled_of_rendering (Layout.rendering_of_render hkey)
  generalize fam.ask b (.render .key selector) = asked at hasked hmember hlayout hwell
  subst hlayout hwidth hbits
  have hholds := hsettled.holds hwell.sized (hwell.notes hmember)
  obtain ⟨parts, hparts⟩ := Layout.exists_parts hholds
  refine ⟨names, parts, hsettled.assigns.select, hparts.imp ?_, ?_,
    Layout.keyBits_eq_union hparts, Layout.keyBits_lt_twoTo hwell.width hholds, ?_, ?_⟩
  · rintro name part ⟨f, hf⟩
    exact ⟨f, hf.find, hf.length_eq, hf.start_eq, hf.value⟩
  · intro part hpart
    obtain ⟨name, -, f, hf⟩ := exists_left_of_forall₂ hparts hpart
    have hpos := hwell.length_pos (Layout.mem_of_find? hf.find) hf.length_eq
    have hwidth := hwell.width
    have hinside := hf.inside
    exact ⟨hf.room, hinside, by omega⟩
  · rintro rfl
    exact hwell.mem_selected_iff hmember hsettled
  · intro mask masked hmask
    exact hwell.and_not_mask hmember hsettled hmask

/-- A value is bound to `f` before `f` has a length, which is fixed by a rendering that finds no
room for `h`. -/
def earlyRequests : List (Nat × Request) :=
  [(0, .add (FieldSpec.named "f")),
   (0, .add ((FieldSpec.named "g").placed 5 3)),
   (0, .bind [("f", 9), ("g", 5)]),
   (0, .bind [("g", 2)]),
   (2, .add { FieldSpec.named "h" with length := some 8 }),
   (2, .render .mask .all)]

def early : Family := (root ⟨8, [], false⟩).play earlyRequests

theorem key_eq_union_early :
    ∃ keyed parts, early.layout.render [("f", 9), ("g", 5)] .key .all = (.ok 169, keyed)
      ∧ 169 = KeyPart.union parts ∧ ∀ part ∈ parts, part.value < twoTo part.length := by
  have hreach : Reaches anything (root ⟨8, [], false⟩) early :=
    reaches_play _ (by decide) fun _ _ _ _ _ => trivial
  have hkey : early.layout.render [("f", 9), ("g", 5)] .key .all
      = (.ok 169, (early.layout.render [("f", 9), ("g", 5)] .key .all).2) := by
    decide
  obtain ⟨_, parts, -, -, hfit, hunion, -⟩ :=
    key_eq_union (show Layout.ofWidth 8 = _ from rfl) hreach (by decide) hkey
  exact ⟨_, parts, hkey, hunion, fun part hpart => (hfit part hpart).1⟩

end Family

end Manycore.Keyspace
