import Manycore.Proofs.Connection.Filling

/-! # Renamed objects

Renaming inserts every connection of a tree again, under other objects. It drops none and makes none,
it merges the streams of senders that become one, and it keeps everything in its place as long as no
two senders become one.
-/

namespace Manycore

/-- The object at an end of a connection, which is renamed or left as it is. -/
def renamedAt (rename : ObjectId → ObjectId) (replace : Bool) (id : ObjectId) : ObjectId :=
  if replace then rename id else id

def Receiver.renamed (rename : ObjectId → ObjectId) (replace : Bool) (r : Receiver) : Receiver :=
  { r with object := renamedAt rename replace r.object }

/-- A sender, what it transmits, and a receiver, with both ends renamed. -/
def relabel {β : Type} (rename : ObjectId → ObjectId) (originating terminating : Bool) :
    ObjectId × β × Receiver → ObjectId × β × Receiver :=
  fun (origin, s, r) => (renamedAt rename originating origin, s, r.renamed rename terminating)

theorem renamedAt_comp (rename rename' : ObjectId → ObjectId) (replace : Bool) (id : ObjectId) :
    renamedAt rename' replace (renamedAt rename replace id)
      = renamedAt (rename' ∘ rename) replace id := by
  cases replace <;> rfl

theorem renamedAt_of_fixed {rename : ObjectId → ObjectId} {replace : Bool} {id : ObjectId}
    (h : replace = true → rename id = id) : renamedAt rename replace id = id := by
  cases replace with
  | false => rfl
  | true => exact h rfl

theorem relabel_comp {β : Type} (rename rename' : ObjectId → ObjectId) (originating terminating : Bool)
    (x : ObjectId × β × Receiver) :
    relabel rename' originating terminating (relabel rename originating terminating x)
      = relabel (rename' ∘ rename) originating terminating x := by
  simp only [relabel, Receiver.renamed, renamedAt_comp]

namespace StreamTree

variable {t : StreamTree} {rename : ObjectId → ObjectId} {originating terminating : Bool}

/-- Every sender, what decides whether its stream is the same as another, and the receiver. -/
def triples (t : StreamTree) := t.leaves.map fun (origin, s, r) => (origin, s.content, r)

theorem triples_eq (t : StreamTree) :
    t.triples = t.placedLeaves.map fun x => (x.origin, x.stream.content, x.receiver) := by
  rw [triples, ← map_placedLeaves, List.map_map]
  rfl

theorem triples_insert (t : StreamTree) (origin : ObjectId) (s : Stream) (r : Receiver) :
    (t.insert origin s r).triples.Perm (t.triples ++ [(origin, s.content, r)]) := by
  obtain ⟨before, x, after, hold, hnew, rfl, rfl, hsame⟩ := gains_insert t origin s r
  rw [triples_eq, triples_eq, hnew, hold, List.map_append, List.map_cons, List.map_append,
    Stream.same_iff.mp hsame, List.append_assoc]
  exact (List.perm_append_singleton _ _).symm.append_left _

/-- The tree of senders with their streams and receivers. -/
def ofLeaves (xs : List (ObjectId × Stream × Receiver)) : StreamTree :=
  xs.foldl (fun t (origin, s, r) => t.insert origin s r) empty

theorem triples_ofLeaves (xs : List (ObjectId × Stream × Receiver)) :
    (ofLeaves xs).triples.Perm (xs.map fun (origin, s, r) => (origin, s.content, r)) := by
  induction xs using List.reverseRecOn with
  | nil => exact List.Perm.nil
  | append_singleton xs x ih =>
      obtain ⟨origin, s, r⟩ := x
      simp only [ofLeaves, List.foldl_append, List.foldl_cons, List.foldl_nil, List.map_append]
      exact (triples_insert _ origin s r).trans (ih.append_right _)

theorem grouped_ofLeaves (xs : List (ObjectId × Stream × Receiver)) : (ofLeaves xs).Grouped := by
  refine List.foldlRecOn xs _ grouped_empty ?_
  intro t ht x _
  exact ht.insert _ _ _

theorem Grouped.ofLeaves_leaves (h : t.Grouped) : ofLeaves t.leaves = t := by
  have hrebuild := h.rebuild
  simp only [insertOutgoing, insertAll] at hrebuild
  simpa only [ofLeaves, leaves, branches, List.foldl_flatMap, List.foldl_map] using hrebuild

theorem replaceObjects_eq (t : StreamTree) (rename : ObjectId → ObjectId)
    (originating terminating : Bool) : t.replaceObjects rename originating terminating
      = ofLeaves (t.leaves.map (relabel rename originating terminating)) := by
  rw [ofLeaves, List.foldl_map]
  rfl

theorem triples_replaceObjects (t : StreamTree) (rename : ObjectId → ObjectId)
    (originating terminating : Bool) : (t.replaceObjects rename originating terminating).triples.Perm
      (t.triples.map (relabel rename originating terminating)) := by
  rw [replaceObjects_eq]
  refine (triples_ofLeaves _).trans (List.Perm.of_eq ?_)
  rw [triples, List.map_map, List.map_map]
  rfl

theorem triples_replaceObjects_twice (t : StreamTree) (rename rename' : ObjectId → ObjectId)
    (originating terminating : Bool) :
    ((t.replaceObjects rename originating terminating).replaceObjects rename' originating
      terminating).triples.Perm
      (t.replaceObjects (rename' ∘ rename) originating terminating).triples := by
  have htwice := (triples_replaceObjects _ rename' originating terminating).trans
    ((triples_replaceObjects t rename originating terminating).map _)
  have honce := triples_replaceObjects t (rename' ∘ rename) originating terminating
  refine htwice.trans (List.Perm.trans (List.Perm.of_eq ?_) honce.symm)
  rw [List.map_map]
  exact List.map_congr_left fun x _ => relabel_comp rename rename' originating terminating x

/-- The tree with other objects at the same places. -/
def renamed (rename : ObjectId → ObjectId) (originating terminating : Bool) (t : StreamTree) :
    StreamTree :=
  ⟨t.origins.map fun (origin, out) => (renamedAt rename originating origin,
    out.map fun (s, rs) => (s, rs.map (Receiver.renamed rename terminating)))⟩

theorem leaves_renamed (t : StreamTree) (rename : ObjectId → ObjectId)
    (originating terminating : Bool) : (t.renamed rename originating terminating).leaves
      = t.leaves.map (relabel rename originating terminating) := by
  simp only [leaves, branches, renamed, List.map_flatMap, List.flatMap_map, List.flatMap_assoc,
    List.map_map, Function.comp_def]
  rfl

/-- No two senders become one. -/
def KeepsSenders (rename : ObjectId → ObjectId) (originating : Bool) (t : StreamTree) : Prop :=
  originating = true → ∀ a ∈ t.originating, ∀ b ∈ t.originating, rename a = rename b → a = b

theorem nodup_senders_renamed (hkeeps : t.KeepsSenders rename originating)
    (h : t.originating.Nodup) :
    (t.originating.map (renamedAt rename originating)).Nodup := by
  refine List.Nodup.map_on ?_ h
  intro a ha b hb heq
  cases originating with
  | false => exact heq
  | true => exact hkeeps rfl a ha b hb heq

theorem Grouped.renamed (h : t.Grouped) (hkeeps : t.KeepsSenders rename originating) :
    (t.renamed rename originating terminating).Grouped := by
  constructor
  · constructor
    · have hsenders := nodup_senders_renamed hkeeps h.senders
      simpa [StreamTree.renamed, StreamTree.originating, Function.comp_def] using hsenders
    · intro x hx
      obtain ⟨y, hy, rfl⟩ := List.mem_map.mp hx
      simpa [Function.comp_def] using h.streams y hy
  · intro x hx
    obtain ⟨y, hy, rfl⟩ := List.mem_map.mp hx
    simpa using h.sending y hy
  · intro x hx z hz
    obtain ⟨y, hy, rfl⟩ := List.mem_map.mp hx
    obtain ⟨y', hy', rfl⟩ := List.mem_map.mp hz
    simpa using h.received y hy y' hy'

theorem Grouped.replaceObjects_eq_renamed (h : t.Grouped)
    (hkeeps : t.KeepsSenders rename originating) :
    t.replaceObjects rename originating terminating = t.renamed rename originating terminating := by
  rw [replaceObjects_eq, ← leaves_renamed]
  exact (h.renamed hkeeps).ofLeaves_leaves

/-- The renaming leaves the objects as they are at both ends where it applies. -/
structure Fixes (rename : ObjectId → ObjectId) (originating terminating : Bool) (t : StreamTree) :
    Prop where
  senders : originating = true → ∀ id ∈ t.originating, rename id = id
  receivers : terminating = true → ∀ x ∈ t.leaves, rename x.2.2.object = x.2.2.object

theorem Fixes.keepsSenders (h : t.Fixes rename originating terminating) :
    t.KeepsSenders rename originating := by
  intro hreplace a ha b hb heq
  rwa [h.senders hreplace a ha, h.senders hreplace b hb] at heq

theorem Fixes.renamed_eq (h : t.Fixes rename originating terminating) :
    t.renamed rename originating terminating = t := by
  have horigins : (t.renamed rename originating terminating).origins = t.origins := by
    refine (List.map_congr_left fun x hx => ?_).trans (List.map_id _)
    have hsender : renamedAt rename originating x.1 = x.1 := by
      apply renamedAt_of_fixed
      intro hreplace
      exact h.senders hreplace x.1 (List.mem_map_of_mem hx)
    refine Prod.ext hsender ((List.map_congr_left fun y hy => ?_).trans (List.map_id _))
    refine Prod.ext rfl ((List.map_congr_left fun r hr => ?_).trans (List.map_id _))
    have hobject : renamedAt rename terminating r.object = r.object := by
      apply renamedAt_of_fixed
      intro hreplace
      exact h.receivers hreplace (x.1, y.1, r) (mem_leaves_iff.mpr ⟨x, hx, y, hy, rfl, rfl, hr⟩)
    simp only [Receiver.renamed, hobject, id_eq]
  cases t
  exact congrArg StreamTree.mk horigins

/-- Renaming keeps the triples of sender, stream and receiver with their multiplicities, the sender
renamed if the sending end is, the receiver's object if the receiving end is, and nothing else. What
comes out is grouped, also when senders become one. As long as none do, everything else stays in its
place; if all objects keep their names, the whole tree does. Two renamings at the same ends have the
triples of one. -/
theorem replaceObjects_relabels (t : StreamTree) (rename : ObjectId → ObjectId)
    (originating terminating : Bool) :
    (t.replaceObjects rename originating terminating).triples.Perm
      (t.triples.map (relabel rename originating terminating))
    ∧ (t.replaceObjects rename originating terminating).Grouped
    ∧ (t.Grouped → t.KeepsSenders rename originating →
      t.replaceObjects rename originating terminating = t.renamed rename originating terminating)
    ∧ (t.Grouped → t.Fixes rename originating terminating →
      t.replaceObjects rename originating terminating = t)
    ∧ ∀ rename' : ObjectId → ObjectId,
      ((t.replaceObjects rename originating terminating).replaceObjects rename' originating
        terminating).triples.Perm
        (t.replaceObjects (rename' ∘ rename) originating terminating).triples := by
  refine ⟨triples_replaceObjects t rename originating terminating, ?_, ?_, ?_, ?_⟩
  · rw [replaceObjects_eq]
    exact grouped_ofLeaves _
  · intro ht hkeeps
    exact ht.replaceObjects_eq_renamed hkeeps
  · intro ht hfixes
    rw [ht.replaceObjects_eq_renamed hfixes.keepsSenders, hfixes.renamed_eq]
  · intro rename'
    exact triples_replaceObjects_twice t rename rename' originating terminating

/-- Two senders of streams that are the same, the first of which has another stream. -/
def twoSenders : StreamTree :=
  ofLeaves ([(0, 2, .one), (0, 1, .zero false), (1, 2, .zero true)].map fun (pre, post, gain) =>
    ((oneValueReduced pre post gain).origin, (oneValueReduced pre post gain).stream,
      (oneValueReduced pre post gain).receiver))

def exchange (id : ObjectId) : ObjectId := if id = ⟨0⟩ then ⟨1⟩ else if id = ⟨1⟩ then ⟨0⟩ else id

theorem replaceObjects_relabels_merged :
    (twoSenders.Grouped ∧ twoSenders.KeepsSenders exchange true ∧ twoSenders.Fixes id true true
      ∧ twoSenders.replaceObjects exchange true true = twoSenders.renamed exchange true true
      ∧ twoSenders.replaceObjects id true true = twoSenders)
    ∧ (twoSenders.replaceObjects (fun _ => ⟨0⟩) true false).originating = [⟨0⟩]
    ∧ (twoSenders.replaceObjects (fun _ => ⟨0⟩) true false).branches.length = 2
    ∧ (twoSenders.replaceObjects (fun _ => ⟨0⟩) true false).triples.length = 3 := by
  have hgrouped : twoSenders.Grouped := grouped_ofLeaves _
  have hexchange : twoSenders.KeepsSenders exchange true := by
    intro _
    decide
  have hid : twoSenders.Fixes id true true := ⟨fun _ _ _ => rfl, fun _ _ _ => rfl⟩
  obtain ⟨-, -, hplaced, -, -⟩ := replaceObjects_relabels twoSenders exchange true true
  obtain ⟨-, -, -, hsame, -⟩ := replaceObjects_relabels twoSenders id true true
  obtain ⟨hmerged, -, -, -, -⟩ := replaceObjects_relabels twoSenders (fun _ => ⟨0⟩) true false
  refine ⟨⟨hgrouped, hexchange, hid, hplaced hgrouped hexchange, hsame hgrouped hid⟩, ?_, ?_, ?_⟩
  · decide +kernel
  · decide +kernel
  · rw [hmerged.length_eq]
    decide +kernel

end StreamTree

end Manycore
