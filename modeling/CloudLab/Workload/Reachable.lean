import CloudLab.Library.Traversal
import CloudLab.Workload.DeepCopy

/-!
# What can be reached from a queue

The nodes of a graph are those that can be reached from its queue. `deep_copy` preserves them: the
copy has one new node for each, with the same commands, the pointers to the same nodes in the same
order, and so the same number of predecessors. The graph is what it was.
-/
namespace CloudLab.Workload

open Library

namespace World

variable (w : World) (g a : Nat)

/-- The pointers of a node. -/
def next : List Nat := ((w.heap.cells a).map fun cell => cell.value.next).getD []

/-- The pointers of the queue. -/
def roots : List Nat := (w.graphs g).readyNodes.flatMap Node.next

/-- The node can be reached from the queue of the graph. -/
def Reaches : Prop := Library.Reaches w.next (w.roots g) a

/-- The pointers to a node, from the queue and from the nodes of the graph. -/
noncomputable def predecessors : Nat := inDegree w.next (w.roots g) a

/-- No pointer of the graph dangles, and what it points to is owned. -/
def Live : Prop := ∀ a, w.Reaches g a → ∃ cell, w.heap.cells a = some cell ∧ 0 < cell.useCount

open Classical in
/-- All nodes of the graph. -/
noncomputable def reachable : Finset Nat := (Finset.range w.heap.fresh).filter (w.Reaches g)

end World

section

variable {w w' : World} {g g' a : Nat}

theorem World.next_of_cells {cell : Cell GraphNode} (there : w.heap.cells a = some cell) :
    w.next a = cell.value.next := by
  rw [World.next, there, Option.map_some, Option.getD_some]

theorem World.reaches_of_ready {n : Node} (listed : n ∈ (w.graphs g).readyNodes) (member : a ∈ n.next) :
    w.Reaches g a := .root (List.mem_flatMap.mpr ⟨n, listed, member⟩)

theorem World.mem_reachable (there : ∀ a, w.Reaches g a → (w.heap.cells a).isSome) :
    a ∈ w.reachable g ↔ w.Reaches g a := by
  classical
  rw [World.reachable, Finset.mem_filter, Finset.mem_range, and_iff_right_iff_imp]
  intro reaches
  obtain ⟨cell, own⟩ := Option.isSome_iff_exists.mp (there a reaches)
  exact Heap.lt_fresh own

theorem World.Live.isSome (live : w.Live g) (reaches : w.Reaches g a) : (w.heap.cells a).isSome := by
  obtain ⟨cell, there, _⟩ := live a reaches
  rw [there]
  rfl

/-- The graph `g'` of `w'` is a copy of `g` in `w`, and was made without a change to what there was. -/
structure Preserved (w w' : World) (g g' : Nat) (place : Nat → Nat) : Prop where
  ready : (w'.graphs g').readyNodes = (w.graphs g).readyNodes.map (Node.mapNext place)
  bijective : Set.BijOn place {a | w.Reaches g a} {b | w'.Reaches g' b}
  new : ∀ b, w'.Reaches g' b →
    w.heap.cells b = none ∧ ∃ cell, w'.heap.cells b = some cell ∧ cell.value.graph = g'
  nodes : ∀ a cell, w.Reaches g a → w.heap.cells a = some cell → w'.heap.cells (place a) = some
    ⟨{ cell.value with graph := g', next := cell.value.next.map place }, w.predecessors g a⟩
  predecessors : ∀ a, w.Reaches g a → w'.predecessors g' (place a) = w.predecessors g a
  old : ∀ a cell, w.heap.cells a = some cell → w'.heap.cells a = some cell
  graphs : ∀ h < w.graphCount, w'.graphs h = w.graphs h

/-! ## The copy -/

section Copy

variable {node : Nat → GraphNode} {reach : List Nat} {place : Nat → Nat}
  (copy : GraphCopy w w' g node reach place)
  (there : ∀ a, w.Reaches g a → ∃ n, w.heap.cells a = some ⟨node a, n⟩)
  (within : ∀ a ∈ reach, w.Reaches g a)

include copy there within

/-- What is reached from the queue has been copied, and nothing else. -/
theorem GraphCopy.mem_iff : a ∈ reach ↔ w.Reaches g a := by
  refine ⟨within a, Reaches.least (fun b member => ?_) fun b before c member => ?_⟩
  · obtain ⟨n, listed, inside⟩ := List.mem_flatMap.mp member
    exact copy.ready n listed b inside
  · obtain ⟨n, own⟩ := there b (within b before)
    rw [World.next_of_cells own] at member
    exact copy.closed b before c member

/-- A new node is owned by the pointers that lead to it. -/
theorem GraphCopy.cells (reaches : w.Reaches g a) :
    w.heap.fresh ≤ place a ∧ w'.heap.cells (place a) = some
      ⟨{ node a with graph := w.graphCount, next := (node a).next.map place },
        w.predecessors g a⟩ := by
  have same : reach.flatMap w.next = reach.flatMap fun a => (node a).next := by
    refine List.flatMap_congr fun b member => ?_
    obtain ⟨n, own⟩ := there b (within b member)
    exact World.next_of_cells own
  rw [World.predecessors, inDegree_eq_count copy.distinct (fun b => copy.mem_iff there within), same]
  exact copy.new a ((copy.mem_iff there within).mpr reaches)

theorem GraphCopy.next (reaches : w.Reaches g a) : w'.next (place a) = (w.next a).map place := by
  obtain ⟨n, own⟩ := there a reaches
  rw [World.next_of_cells (copy.cells there within reaches).2, World.next_of_cells own]

omit there within in
theorem GraphCopy.readyNodes : (w'.graphs w.graphCount).readyNodes =
    (w.graphs g).readyNodes.map (Node.mapNext place) := by
  rw [copy.graphs, Function.update_self]

omit there within in
theorem GraphCopy.roots : w'.roots w.graphCount = (w.roots g).map place := by
  rw [World.roots, copy.readyNodes, List.flatMap_map, World.roots, List.map_flatMap]
  rfl

theorem GraphCopy.reaches_iff {b : Nat} :
    w'.Reaches w.graphCount b ↔ ∃ a, w.Reaches g a ∧ place a = b := by
  rw [World.Reaches, copy.roots]
  exact reaches_map fun a => copy.next there within

theorem GraphCopy.injOn : Set.InjOn place {a | w.Reaches g a} := by
  intro a one b two same
  exact copy.apart a ((copy.mem_iff there within).mpr one) b ((copy.mem_iff there within).mpr two)
    same

theorem GraphCopy.preserved : Preserved w w' g w.graphCount place where
  ready := copy.readyNodes
  bijective := by
    refine ⟨fun a reaches => ?_, copy.injOn there within, fun b reaches => ?_⟩
    · exact (copy.reaches_iff there within).mpr ⟨a, reaches, rfl⟩
    · exact (copy.reaches_iff there within).mp reaches
  new b reaches := by
    obtain ⟨a, before, rfl⟩ := (copy.reaches_iff there within).mp reaches
    obtain ⟨beyond, own⟩ := copy.cells there within before
    exact ⟨w.heap.unused _ beyond, _, own, rfl⟩
  nodes a cell reaches own := by
    obtain ⟨n, same⟩ := there a reaches
    obtain rfl := Option.some.inj (own.symm.trans same)
    exact (copy.cells there within reaches).2
  predecessors a reaches := by
    rw [World.predecessors, copy.roots]
    exact inDegree_map (fun b => copy.next there within) (copy.injOn there within) reaches
  old a cell own := (copy.old a (Heap.lt_fresh own)).trans own
  graphs h known := by
    rw [copy.graphs, Function.update_of_ne known.ne]

end Copy

/-- `deep_copy` ends, whatever the graph looks like, and has preserved it. -/
theorem deepCopy_preserves (live : w.Live g) (destruction : Iteration (Nat × Nat)) :
    ∃ w' place enough, (∀ fuel, enough ≤ fuel →
        w.deepCopy destruction fuel g = some (w', w.graphCount)) ∧
      Preserved w w' g w.graphCount place := by
  have held : ∀ a, w.Reaches g a → w.heap.cells a = some ⟨w.nodeAt a, w.countAt a⟩ ∧
      1 ≤ w.countAt a := by
    intro a reaches
    obtain ⟨cell, there, positive⟩ := live a reaches
    obtain rfl := World.cells_at there
    exact ⟨there, positive⟩
  have listed : ∀ a, a ∈ (w.reachable g).toList ↔ w.Reaches g a := fun a => by
    rw [Finset.mem_toList, World.mem_reachable fun a => live.isSome]
  have closed : ∀ a ∈ (w.reachable g).toList, ∀ b ∈ (w.nodeAt a).next,
      b ∈ (w.reachable g).toList := by
    intro a member b inside
    have reaches := (listed a).mp member
    rw [← World.next_of_cells (held a reaches).1] at inside
    exact (listed b).mpr (.step reaches inside)
  obtain ⟨w', reach, place, enough, runs, copy, within⟩ := World.deepCopy_copies destruction
    (fun a member => (held a ((listed a).mp member)).1)
    (fun a member => (held a ((listed a).mp member)).2) closed
    fun n member a inside => (listed a).mpr (World.reaches_of_ready member inside)
  refine ⟨w', place, enough, runs, copy.preserved (fun a reaches => ⟨_, (held a reaches).1⟩) ?_⟩
  exact fun a member => (listed a).mp (within a member)

end

/-- The queue points to two nodes, which both point to a third one, one of them twice. -/
def diamond : World where
  heap := ⟨fun a => [⟨⟨{ next := [2], txn := 1 }, 0⟩, 1⟩, ⟨⟨{ next := [2, 2], txn := 2 }, 0⟩, 1⟩,
    ⟨⟨{ txn := 3 }, 0⟩, 3⟩][a]?, 3, fun _ beyond => List.getElem?_eq_none beyond⟩
  graphs _ := { numNodes := 4, remainingNodes := 4, readyNodes := [{ next := [0, 1], txn := 0 }] }
  graphCount := 1

theorem diamond_live : diamond.Live 0 := by
  intro a reaches
  have below : a < 3 := Reaches.least (p := (· < 3)) (by decide) (by decide) reaches
  interval_cases a <;> exact ⟨_, rfl, by decide⟩

theorem deepCopy_preserves_diamond : diamond.Live 0 ∧ ∃ w' place enough,
    (∀ fuel, enough ≤ fuel → diamond.deepCopy .asListed fuel 0 = some (w', 1)) ∧
      Preserved diamond w' 0 1 place :=
  ⟨diamond_live, deepCopy_preserves diamond_live .asListed⟩

end CloudLab.Workload
