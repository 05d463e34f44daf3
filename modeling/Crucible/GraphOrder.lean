import Crucible.CountingSort
import Crucible.KahnOrder
import Crucible.TensorGraph

/-! # The topological order of a graph

`topological_sort` counts the edges between live nodes, sorts them by their source with a
counting sort, and runs Kahn's loop over the sorted array.  The result here is the list of
nodes in the order in which the loop numbers them: `schedule_order` of a node is its place.

On a graph whose live part is acyclic the list holds every live node once, and each node
comes after its live inputs.
-/
namespace Crucible
open List CountingSort
namespace Graph
variable {E : Type} (g : Graph E)

/-- The edges between live nodes, as source and consumer, in the order in which the loops
come to them. -/
def liveEdges : List (Nat × Nat) :=
  (range g.numNodes).flatMap fun i =>
    if (g.node i).dead then [] else ((g.node i).inputs.filter g.live).map fun d => (d, i)

def liveNodes : List Nat := (range g.numNodes).filter g.live

def topologicalSort : List Nat :=
  let inDeg := CountingSort.counts (fun e => some e.2) g.liveEdges
  let offset := CountingSort.offsets (CountingSort.counts (fun e => some e.1) g.liveEdges)
  let succs := (CountingSort.scatter (fun e => some e.1) offset (fun _ => (0, 0)) g.liveEdges).out
  Kahn.order (fun v => (CountingSort.slice offset succs v).map Prod.snd) inDeg
    g.liveNodes g.numNodes

variable {g}

theorem mem_liveNodes {i : Nat} : i ∈ g.liveNodes ↔ i < g.numNodes ∧ g.live i := by
  rw [liveNodes, mem_filter, mem_range]

theorem mem_liveEdges {d i : Nat} :
    (d, i) ∈ g.liveEdges ↔ i < g.numNodes ∧ g.live i ∧ g.live d ∧ d ∈ (g.node i).inputs := by
  rw [liveEdges, mem_flatMap]
  constructor
  · rintro ⟨j, hj, hin⟩
    cases hdead : (g.node j).dead with
    | true =>
      rw [hdead] at hin
      cases hin
    | false =>
      rw [hdead, if_neg Bool.false_ne_true, mem_map] at hin
      obtain ⟨d', hd', heq⟩ := hin
      obtain ⟨rfl, rfl⟩ := Prod.mk.inj heq
      obtain ⟨hinp, hlive⟩ := mem_filter.mp hd'
      exact ⟨mem_range.mp hj, by rw [live, hdead]; rfl, hlive, hinp⟩
  · rintro ⟨hi, hlive, hliv, hin⟩
    refine ⟨i, mem_range.mpr hi, ?_⟩
    have hdead : (g.node i).dead = false := by simpa [live] using hlive
    rw [hdead, if_neg Bool.false_ne_true, mem_map]
    exact ⟨d, mem_filter.mpr ⟨hin, hliv⟩, rfl⟩

theorem topologicalSort_eq : g.topologicalSort =
    Kahn.order (Kahn.succsOf g.liveEdges) (Kahn.inDegree g.liveEdges) g.liveNodes g.numNodes := by
  have hdeg : counts (fun e => some e.2) g.liveEdges = Kahn.inDegree g.liveEdges := by
    funext u
    rw [counts_eq, bucket, ← countP_eq_length_filter]
    refine countP_congr fun e _ => ?_
    simp
  have hsuc : (fun v => (slice
      (offsets (counts (fun e => some e.1) g.liveEdges))
      (scatter (fun e => some e.1)
        (offsets (counts (fun e => some e.1) g.liveEdges))
        (fun _ => (0, 0)) g.liveEdges).out v).map Prod.snd) = Kahn.succsOf g.liveEdges := by
    funext v
    rw [slice_scatter, bucket, Kahn.succsOf]
    simp
  simp only [topologicalSort, hdeg, hsuc]

/-- **The order holds every live node once, after its live inputs**, when the live part of the
graph is acyclic. -/
theorem topologicalSort_perm {rank : Nat → Nat} (hrank : ∀ e ∈ g.liveEdges, rank e.1 < rank e.2)
    (hinp : ∀ e ∈ g.liveEdges, e.1 < g.numNodes) :
    g.topologicalSort.Perm g.liveNodes ∧ Kahn.Sorted g.liveEdges g.topologicalSort := by
  have hnod : g.liveNodes.Nodup := nodup_range.filter _
  have hedg : ∀ e ∈ g.liveEdges, e.1 ∈ g.liveNodes ∧ e.2 ∈ g.liveNodes := by
    rintro ⟨d, i⟩ he
    obtain ⟨hi, hlive, hliv, -⟩ := mem_liveEdges.mp he
    exact ⟨mem_liveNodes.mpr ⟨hinp _ he, hliv⟩, mem_liveNodes.mpr ⟨hi, hlive⟩⟩
  have hlen : g.liveNodes.length ≤ g.numNodes := by
    refine le_trans (length_filter_le _ _) ?_
    rw [length_range]
  rw [topologicalSort_eq]
  exact Kahn.order_perm hnod hedg hrank hlen

end Graph
end Crucible
