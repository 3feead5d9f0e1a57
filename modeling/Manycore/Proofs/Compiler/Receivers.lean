import Manycore.Proofs.Compiler.Assembly
import Manycore.Proofs.Compiler.FilterTables

/-! # Receivers and their records

The records of a filter's routing table stand for the receivers at its object, one for each.
-/

namespace Manycore

open List (Forall₂)
open ValueFilter (Route Recorded)

variable {q : Pool} {layout : Nat} {arriving : Groups Filter (List (Option Keyspace))}

/-- The route shows the stream that the receiver listens to, and leads to a filter that is the same
as that of the receiver. -/
structure Answers (layout : Nat) (q : Pool) (arriving : Groups Filter (List (Option Keyspace)))
    (x : Leaf) (r : Route) : Prop where
  routed : Routed layout q x.stream.keyspace r
  filter : ∃ y, arriving[r.filter]? = some y ∧ y.1.same x.receiver.filter = true

/-- The receivers under one filter have the routes of its streams. -/
theorem answers_of_routedBy {part : List Leaf} {y : Filter × List (Option Keyspace)} {place : Nat}
    {rs : List Route} (hy : arriving[place]? = some y)
    (hpart : Groups.Holds Filter.same (fun x : Leaf => x.receiver.filter)
      (fun x => x.stream.keyspace) part y)
    (hroutes : RoutedBy layout q (y, place) rs) : Forall₂ (Answers layout q arriving) part rs := by
  obtain ⟨hvalues, hsame⟩ := hpart
  rw [RoutedBy, hvalues, List.forall₂_map_left_iff] at hroutes
  refine (forall₂_and_mem hroutes).imp fun x r h => ?_
  obtain ⟨⟨hrouted, hplace⟩, hx, -⟩ := h
  exact ⟨hrouted, y, hplace ▸ hy, hsame x hx⟩

theorem exists_receivers {t : StreamTree} {object : ObjectId} {rss : List (List Route)}
    (harriving : arriving = StreamTree.byFilter (t.arrivals object))
    (hroutes : Forall₂ (RoutedBy layout q) arriving.zipIdx rss) :
    ∃ receivers, receivers.Perm (t.arrivalsAt object)
      ∧ Forall₂ (Answers layout q arriving) receivers rss.flatten := by
  obtain ⟨parts, hperm, hparts⟩ := Groups.exists_parts (fun x : Leaf => x.receiver.filter)
    (fun x => x.stream.keyspace) Filter.same_refl (t.arrivalsAt object)
  rw [StreamTree.byFilter, StreamTree.arrivals_eq, List.foldl_map] at harriving
  rw [← harriving] at hparts
  refine ⟨parts.flatten, hperm, List.rel_flatten ?_⟩
  refine (forall₂_comp (forall₂_zipIdx hparts) hroutes).imp fun part rs h => ?_
  obtain ⟨⟨y, place⟩, ⟨hpart, hy⟩, hrs⟩ := h
  exact answers_of_routedBy hy hpart hrs

end Manycore
