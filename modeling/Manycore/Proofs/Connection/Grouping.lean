import Manycore.Proofs.Connection.Arrivals
import Manycore.Proofs.Connection.Keyed
import Mathlib.Data.List.Nodup

/-! # Connections in a tree

A tree of connections has one receiver for each of them, under a sender and a stream that is the
same as the connection's own. Which streams of a sender are merged depends on the streams alone.
-/

namespace Manycore

open List (Forall₂)

namespace Source

/-- What decides whether two sources are the same. -/
def content : Source → Option Nat ⊕ (Shape × List UInt64) × (String × UInt64)
    × (Shape × List UInt64) × Option RuleId
  | plain function => .inl (function.map (·.handle))
  | decoded points solver samples rule _ =>
    .inr (points.content, solver.content, samples.content, rule)

theorem same_iff {a b : Source} : a.same b = true ↔ a.content = b.content := by
  cases a <;> cases b <;> simp [same, content, Matrix.same_iff, Solver.same, and_assoc]

end Source

namespace Stream

/-- What decides whether two streams are the same. -/
def content (s : Stream) :=
  (s.width, s.transform.content, s.preSlice, s.postSlice, s.keyspace, s.source.content)

theorem same_iff {a b : Stream} : a.same b = true ↔ a.content = b.content := by
  simp [same, content, Matrix.same_iff, Source.same_iff, and_assoc]

theorem keyspace_eq_of_same {a b : Stream} (h : a.same b = true) : a.keyspace = b.keyspace := by
  simp only [same_iff, content, Prod.mk.injEq] at h
  exact h.2.2.2.2.1

end Stream

namespace StreamTree

variable {t : StreamTree} {origin : ObjectId} {s : Stream} {r : Receiver} {out : Outgoing}

/-- The receivers of one sender, the first stream at a place. -/
def leavesFrom (origin : ObjectId) (place : Nat) (out : Outgoing) : List Leaf :=
  (out.zipIdx place).flatMap fun ((s, rs), i) => rs.map fun r => ⟨origin, i, s, r⟩

theorem leavesFrom_append (origin : ObjectId) (place : Nat) (out out' : Outgoing) :
    leavesFrom origin place (out ++ out')
      = leavesFrom origin place out ++ leavesFrom origin (place + out.length) out' := by
  simp [leavesFrom, List.zipIdx_append]

theorem leavesFrom_cons (origin : ObjectId) (place : Nat) (s : Stream) (rs : List Receiver)
    (out : Outgoing) : leavesFrom origin place ((s, rs) :: out)
      = (rs.map fun r => ⟨origin, place, s, r⟩) ++ leavesFrom origin (place + 1) out := rfl

theorem placedLeaves_eq (t : StreamTree) :
    t.placedLeaves = t.origins.flatMap fun x => leavesFrom x.1 0 x.2 := rfl

/-- The second list has one more receiver than the first, of a stream that is the same. -/
def Gains (origin : ObjectId) (s : Stream) (r : Receiver) (xs ys : List Leaf) : Prop :=
  ∃ before x after, xs = before ++ after ∧ ys = before ++ x :: after ∧ x.origin = origin
    ∧ x.receiver = r ∧ x.stream.same s = true

theorem Gains.append {xs ys : List Leaf} (h : Gains origin s r xs ys) (front rest : List Leaf) :
    Gains origin s r (front ++ xs ++ rest) (front ++ ys ++ rest) := by
  obtain ⟨before, x, after, rfl, rfl, hx⟩ := h
  exact ⟨front ++ before, x, after ++ rest, by simp, by simp, hx⟩

theorem gains_push (origin : ObjectId) (s : Stream) (r : Receiver) (out : Outgoing) :
    Gains origin s r (leavesFrom origin 0 out)
      (leavesFrom origin 0 (Groups.push Stream.same s r out)) := by
  unfold Groups.push
  rcases Groups.update_cases Stream.same s (fun values => values.getD [] ++ [r]) out with
    ⟨before, k, rs, after, rfl, hk, heq⟩ | ⟨-, heq⟩
  · rw [heq]
    refine ⟨leavesFrom origin 0 before ++ rs.map fun r => ⟨origin, 0 + before.length, k, r⟩,
      ⟨origin, 0 + before.length, k, r⟩, leavesFrom origin (0 + before.length + 1) after, ?_, ?_,
      rfl, rfl, hk⟩
    · simp [leavesFrom_append, leavesFrom_cons]
    · simp [leavesFrom_append, leavesFrom_cons]
  · rw [heq, leavesFrom_append]
    exact ⟨leavesFrom origin 0 out, ⟨origin, _, s, r⟩, [], by simp, rfl, rfl, rfl, s.same_refl⟩

theorem gains_insert (t : StreamTree) (origin : ObjectId) (s : Stream) (r : Receiver) :
    Gains origin s r t.placedLeaves (t.insert origin s r).placedLeaves := by
  rw [placedLeaves_eq, placedLeaves_eq, insert]
  rcases Groups.update_cases sameId origin
    (fun out => Groups.push Stream.same s r (out.getD [])) t.origins with
    ⟨before, k, out, after, hold, hk, heq⟩ | ⟨-, heq⟩
  · obtain rfl := of_decide_eq_true hk
    rw [heq, hold]
    have hgains := (gains_push k s r out).append (before.flatMap fun x => leavesFrom x.1 0 x.2)
      (after.flatMap fun x => leavesFrom x.1 0 x.2)
    simpa using hgains
  · rw [heq]
    have hgains := (gains_push origin s r []).append
      (t.origins.flatMap fun x => leavesFrom x.1 0 x.2) []
    simpa [leavesFrom] using hgains

/-- A receiver that stands for a connection. -/
structure Makes (e : Expansion) (x : Leaf) : Prop where
  origin : x.origin = e.pre
  receiver : e.receiver = .ok x.receiver
  stream : ∃ s, e.stream = .ok s ∧ x.stream.same s = true

theorem exists_order_of_foldlM {done es : List Expansion} {t t' : StreamTree}
    (hdone : Forall₂ Makes done t.placedLeaves)
    (h : es.foldlM (fun t e => do
      let s ← e.stream
      let r ← e.receiver
      pure (t.insert e.pre s r)) t = .ok t') :
    ∃ es', es'.Perm (done ++ es) ∧ Forall₂ Makes es' t'.placedLeaves := by
  induction es generalizing done t with
  | nil =>
      cases h
      exact ⟨done, by simp, hdone⟩
  | cons e rest ih =>
      simp only [List.foldlM_cons, bind_eq_ok_iff] at h
      obtain ⟨_, ⟨s, hs, r, hr, hinsert⟩, hrest⟩ := h
      cases hinsert
      obtain ⟨before, x, after, hold, hnew, horigin, hreceiver, hsame⟩ := gains_insert t e.pre s r
      rw [hold] at hdone
      obtain ⟨ds, ds', rfl, hds, hds'⟩ := exists_append_of_forall₂ hdone.flip
      have hmakes : Makes e x := ⟨horigin, hreceiver ▸ hr, s, hs, hsame⟩
      have hnext : Forall₂ Makes (ds ++ e :: ds') (t.insert e.pre s r).placedLeaves := by
        rw [hnew]
        exact List.rel_append hds.flip (.cons hmakes hds'.flip)
      obtain ⟨es', hperm, hes'⟩ := ih hnext hrest
      refine ⟨es', hperm.trans ?_, hes'⟩
      simp only [List.append_assoc, List.cons_append]
      exact List.perm_middle.symm.append_left ds

/-- Every connection has its receiver, and there are no others. -/
theorem exists_order_of_ofExpansions {es : List Expansion} (h : ofExpansions es = .ok t) :
    ∃ es', es'.Perm es ∧ Forall₂ Makes es' t.placedLeaves := by
  have hnone : Forall₂ Makes [] empty.placedLeaves := .nil
  simpa using exists_order_of_foldlM hnone h

theorem separate_of_ofExpansions {es : List Expansion} (h : ofExpansions es = .ok t) :
    t.Separate := by
  refine foldlM_ok_induct h separate_empty fun e _ t t' ht hstep => ?_
  simp only [bind_eq_ok_iff] at hstep
  obtain ⟨s, -, r, -, hinsert⟩ := hstep
  cases hinsert
  exact ht.insert _ _ _

/-- Receivers of one sender are at one place when their streams are the same, and only then. -/
theorem Separate.place_eq_iff (h : t.Separate) {x y : Leaf} (hx : x ∈ t.placedLeaves)
    (hy : y ∈ t.placedLeaves) (horigin : x.origin = y.origin) :
    x.place = y.place ↔ x.stream.same y.stream = true := by
  obtain ⟨out, rs, hout, hstream, -⟩ := mem_placedLeaves.mp hx
  obtain ⟨out', rs', hout', hstream', -⟩ := mem_placedLeaves.mp hy
  have hpair := List.inj_on_of_nodup_map h.senders hout hout' horigin
  obtain rfl := (Prod.mk.inj hpair).2
  have hget : (out.map (·.1))[x.place]? = some x.stream := by simp [hstream]
  have hget' : (out.map (·.1))[y.place]? = some y.stream := by simp [hstream']
  have happart := h.streams _ hout
  constructor
  · intro hplace
    rw [hplace, hget'] at hget
    rw [Option.some.inj hget]
    exact x.stream.same_refl
  · intro hsame
    rcases Nat.lt_trichotomy x.place y.place with hbefore | heq | hafter
    · have hother := pairwise_getElem? happart hget hget' hbefore
      rw [hsame] at hother
      cases hother
    · exact heq
    · have hother := pairwise_getElem? happart hget' hget hafter
      rw [Stream.same_iff.mpr (Stream.same_iff.mp hsame).symm] at hother
      cases hother

end StreamTree

end Manycore
