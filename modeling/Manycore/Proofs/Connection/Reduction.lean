import Manycore.Proofs.Connection.Edges
import Mathlib.Data.List.Perm.Basic

/-! # Trees as groupings

A tree of connections groups what they reduce to: by sender, and under a sender by streams that are
the same, everything in order of first occurrence. In another order the connections make the same
groups.
-/

namespace Manycore

open List (Forall₂)

/-- A sender, what it transmits, and where that goes. -/
structure Reduction where
  origin : ObjectId
  stream : Stream
  receiver : Receiver

def Reduction.edge (x : Reduction) : Edge := ⟨x.origin, x.receiver.object, x.stream.keyspace⟩

/-- The connection reduces, and to this. -/
structure Expansion.ReducesTo (e : Expansion) (x : Reduction) : Prop where
  pre : e.pre = x.origin
  stream : e.stream = .ok x.stream
  receiver : e.receiver = .ok x.receiver

theorem Stream.equivalence_same : Equivalence fun s s' : Stream => s.same s' = true :=
  equivalence_of_content content same_iff

namespace StreamTree

variable {t : StreamTree} {es : List Expansion} {xs ys : List Reduction}

theorem equivalence_sameId : Equivalence fun a b => sameId a b = true := by
  simp only [sameId, decide_eq_true_eq]
  exact eq_equivalence

/-- The tree of what connections reduce to. -/
def ofReductions (xs : List Reduction) : StreamTree :=
  xs.foldl (fun t x => t.insert x.origin x.stream x.receiver) empty

theorem ofExpansions_eq (h : Forall₂ Expansion.ReducesTo es xs) :
    ofExpansions es = .ok (ofReductions xs) := by
  unfold ofExpansions ofReductions
  generalize empty = t
  induction h generalizing t with
  | nil => rfl
  | @cons e x _ _ hx _ ih =>
      rw [List.foldlM_cons, List.foldl_cons, hx.stream, hx.receiver, hx.pre]
      exact ih _

/-- What one sender transmits, and to whom. -/
def outgoingOf (xs : List Reduction) : Outgoing :=
  ((xs.map (·.stream)).eraseDupsBy Stream.same).map fun s =>
    (s, (xs.filter fun x => s.same x.stream).map (·.receiver))

/-- What the connections of one sender reduce to. -/
def sentBy (origin : ObjectId) (xs : List Reduction) : List Reduction :=
  xs.filter fun x => x.origin = origin

theorem origins_ofReductions (xs : List Reduction) : (ofReductions xs).origins
    = (xs.map (·.origin)).eraseDups.map fun origin => (origin, outgoingOf (sentBy origin xs)) := by
  have hgathered := Groups.foldl_update_eq equivalence_sameId Reduction.origin
    (fun out x => Groups.push Stream.same x.stream x.receiver out) [] xs
  have horigins : (ofReductions xs).origins = xs.foldl (fun g x => Groups.update sameId x.origin
      (fun out => Groups.push Stream.same x.stream x.receiver (out.getD [])) g) [] :=
    (List.foldl_hom origins fun _ _ => rfl).symm
  refine horigins.trans (hgathered.trans (List.map_congr_left fun origin _ => ?_))
  have hsent : xs.filter (fun x => sameId origin x.origin) = sentBy origin xs := by
    simp only [sameId, sentBy, eq_comm]
  rw [hsent, Groups.foldl_push_eq Stream.equivalence_same Reduction.stream]
  rfl

theorem originating_ofReductions (xs : List Reduction) :
    (ofReductions xs).originating = (xs.map (·.origin)).eraseDups := by
  simp [originating, origins_ofReductions, Function.comp_def]

theorem separate_ofReductions (xs : List Reduction) : (ofReductions xs).Separate := by
  refine List.foldlRecOn xs _ separate_empty ?_
  intro t ht x _
  exact ht.insert _ _ _

theorem edges_ofReductions (xs : List Reduction) :
    (ofReductions xs).edges.Perm (xs.map Reduction.edge) := by
  induction xs using List.reverseRecOn with
  | nil => exact List.Perm.nil
  | append_singleton xs x ih =>
      simp only [ofReductions, List.foldl_append, List.foldl_cons, List.foldl_nil, List.map_append]
      refine (edges_insert _ x.origin x.stream x.receiver).trans ?_
      exact ih.append_right _

/-- The same receivers under the same streams, each in some order. -/
def Outgoing.Rearranges (out out' : Outgoing) : Prop :=
  ∃ mid : Outgoing, mid.Perm out'
    ∧ Forall₂ (fun x y => x.1.same y.1 = true ∧ x.2.Perm y.2) out mid

/-- The same receivers under the same streams of the same senders, each in some order. -/
def Rearranges (t t' : StreamTree) : Prop :=
  ∃ mid : Groups ObjectId Outgoing, mid.Perm t'.origins
    ∧ Forall₂ (fun x y => x.1 = y.1 ∧ Outgoing.Rearranges x.2 y.2) t.origins mid

theorem rearranges_outgoingOf (h : xs.Perm ys) :
    Outgoing.Rearranges (outgoingOf xs) (outgoingOf ys) := by
  obtain ⟨ss, hss, hsame⟩ :=
    exists_perm_eraseDupsBy Stream.equivalence_same (h.map (·.stream))
  refine ⟨_, hss.map _, ?_⟩
  rw [outgoingOf, List.forall₂_map_left_iff, List.forall₂_map_right_iff]
  refine hsame.imp fun s s' hs => ⟨hs, List.Perm.map _ ?_⟩
  have hfilters : (fun x : Reduction => s.same x.stream) = fun x => s'.same x.stream := by
    funext x
    rw [same_comm Stream.equivalence_same, same_congr Stream.equivalence_same hs,
      same_comm Stream.equivalence_same]
  rw [hfilters]
  exact h.filter _

theorem nodup_eraseDups_origins (xs : List Reduction) : (xs.map (·.origin)).eraseDups.Nodup := by
  rw [← originating_ofReductions]
  exact (separate_ofReductions xs).senders

theorem rearranges_ofReductions (h : xs.Perm ys) :
    (ofReductions xs).Rearranges (ofReductions ys) := by
  have horigins : ((xs.map (·.origin)).eraseDups).Perm (ys.map (·.origin)).eraseDups := by
    apply (List.perm_ext_iff_of_nodup (nodup_eraseDups_origins xs) (nodup_eraseDups_origins ys)).mpr
    intro origin
    rw [List.mem_eraseDups, List.mem_eraseDups]
    exact (h.map _).mem_iff
  unfold Rearranges
  rw [origins_ofReductions, origins_ofReductions]
  refine ⟨_, horigins.map _, ?_⟩
  rw [List.forall₂_map_left_iff, List.forall₂_map_right_iff, List.forall₂_same]
  intro origin _
  exact ⟨rfl, rearranges_outgoingOf (h.filter _)⟩

/-- Connections that all reduce make a tree: the senders in order of first occurrence, under each the
streams that are not the same in order of first occurrence, and under each of those the receivers of
all connections from the sender with a stream that is the same, in order. There is an edge for each
connection, and connections in another order make a tree that differs in its orders only. -/
theorem ofExpansions_groups (h : Forall₂ Expansion.ReducesTo es xs) :
    ∃ t, ofExpansions es = .ok t
      ∧ t.originating = (es.map (·.pre)).eraseDups
      ∧ (∀ origin out, (origin, out) ∈ t.origins →
        out.map (·.1) = ((sentBy origin xs).map (·.stream)).eraseDupsBy Stream.same
        ∧ ∀ s rs, (s, rs) ∈ out → rs ≠ []
          ∧ rs = ((sentBy origin xs).filter fun x => s.same x.stream).map (·.receiver))
      ∧ t.Separate
      ∧ t.edges.Perm (xs.map Reduction.edge)
      ∧ ∀ es' : List Expansion, es'.Perm es → ∃ t', ofExpansions es' = .ok t' ∧ t.Rearranges t' := by
  have hpres : es.map (·.pre) = xs.map (·.origin) :=
    (map_eq_map_of_forall₂ h fun e x hx => hx.pre.symm).symm
  refine ⟨ofReductions xs, ofExpansions_eq h, ?_, ?_, separate_ofReductions xs,
    edges_ofReductions xs, ?_⟩
  · rw [hpres, originating_ofReductions]
  · intro origin out hout
    rw [origins_ofReductions] at hout
    obtain ⟨_, -, hpair⟩ := List.mem_map.mp hout
    cases hpair
    refine ⟨by simp [outgoingOf, Function.comp_def], fun s rs hrs => ?_⟩
    obtain ⟨_, hs, hpair⟩ := List.mem_map.mp hrs
    cases hpair
    refine ⟨?_, rfl⟩
    obtain ⟨x, hx, rfl⟩ := List.mem_map.mp (mem_of_mem_eraseDupsBy hs)
    exact List.ne_nil_of_mem (List.mem_map_of_mem (List.mem_filter.mpr ⟨hx, x.stream.same_refl⟩))
  · intro es' hperm
    obtain ⟨xs', hxs', hperm'⟩ := List.perm_comp_forall₂ hperm h
    exact ⟨ofReductions xs', ofExpansions_eq hxs', rearranges_ofReductions hperm'.symm⟩

/-- A connection of one value. -/
def oneValue (pre post : UInt32) (gain : Binary64) : Expansion where
  pre := ⟨pre⟩
  preKind := .node
  post := ⟨post⟩
  postKind := .node
  preSlice := ⟨0, 1, Nat.one_pos⟩
  postSlice := ⟨0, 1, Nat.one_pos⟩
  transform := .fill 1 1 gain
  synapse := none
  function := none
  solver := Connection.defaultSolver
  evalPoints := none
  keyspace := none
  accumulatory := true
  learningRule := none
  inlet := .standardInput
  width := 1

def oneValueReduced (pre post : UInt32) (gain : Binary64) : Reduction where
  origin := ⟨pre⟩
  stream := ⟨1, .fill 1 1 gain, ⟨0, 1, Nat.one_pos⟩, ⟨0, 1, Nat.one_pos⟩, none, .plain none⟩
  receiver := ⟨⟨post⟩, ⟨0, 1, Nat.one_pos⟩, .standardInput, ⟨.zero false, true⟩⟩

/-- The first sender's first and third connection share a stream, as zeros have no sign. -/
def interleaved : List (UInt32 × UInt32 × Binary64) :=
  [(0, 2, .zero false), (1, 2, .zero false), (0, 1, .zero true), (0, 1, .one)]

theorem ofExpansions_groups_interleaved :
    Forall₂ Expansion.ReducesTo (interleaved.map fun (pre, post, gain) => oneValue pre post gain)
      (interleaved.map fun (pre, post, gain) => oneValueReduced pre post gain)
    ∧ ∃ t, ofExpansions (interleaved.map fun (pre, post, gain) => oneValue pre post gain) = .ok t
      ∧ t.originating = [⟨0⟩, ⟨1⟩] ∧ t.edges.length = 4
      ∧ ∀ out, (⟨0⟩, out) ∈ t.origins → out.length = 2 := by
  have hreduce : Forall₂ Expansion.ReducesTo
      (interleaved.map fun (pre, post, gain) => oneValue pre post gain)
      (interleaved.map fun (pre, post, gain) => oneValueReduced pre post gain) := by
    rw [List.forall₂_map_left_iff, List.forall₂_map_right_iff, List.forall₂_same]
    intro _ _
    exact ⟨rfl, rfl, rfl⟩
  obtain ⟨t, ht, horigins, hgroups, -, hedges, -⟩ := ofExpansions_groups hreduce
  refine ⟨hreduce, t, ht, ?_, ?_, ?_⟩
  · rw [horigins]
    decide
  · rw [hedges.length_eq]
    rfl
  · intro out hout
    rw [← List.length_map (fun x => x.1), (hgroups _ out hout).1]
    decide +kernel

end StreamTree

end Manycore
