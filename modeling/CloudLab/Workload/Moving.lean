import CloudLab.Workload.Reachable

/-!
# Moving a graph (`load_txn.h`, `load_txn.cpp`)

The move constructor takes the queue over and writes its own address into the nodes. The address
is also the mark at which the traversal stops, so that it ends where nodes wait for each other.
-/
namespace CloudLab.Workload

open Library

/-! ## The code -/

/-- The function on a node. -/
def changeGraphNodesGraphAddress (graph : Nat) : Nat → Heap GraphNode → Nat → Option (Heap GraphNode)
  | 0, _, _ => none
  | fuel + 1, heap, node =>
    (heap.cells node).bind fun cell =>
      if cell.value.graph = graph then some heap
      else cell.value.next.foldlM (changeGraphNodesGraphAddress graph fuel)
        (heap.setValue node { cell.value with graph := graph })

/-- The method of a graph. -/
def World.changeGraphNodesGraphAddress (fuel : Nat) (w : World) (this : Nat) : Option World :=
  ((w.graphs this).readyNodes.foldlM (fun heap (node : Node) =>
    node.next.foldlM (Workload.changeGraphNodesGraphAddress this fuel) heap) w.heap).map
      fun heap => { w with heap := heap }

/-- The members of the new graph, and what is left of the other one; a deque that has been moved
from is empty. -/
def World.takeOver (w : World) (other : Nat) : World :=
  (w.makeGraph { w.graphs other with valid := true }).1.setGraph other
    { valid := false, numNodes := 0, remainingNodes := 0, readyNodes := [] }

/-- `TxnGraph(TxnGraph &&)` -/
def World.moveGraph (fuel : Nat) (w : World) (other : Nat) : Option (World × Nat) :=
  ((w.takeOver other).changeGraphNodesGraphAddress fuel w.graphCount).map fun w' =>
    (w', w.graphCount)

/-! ## What it does to the heap -/

/-- The node with another address of its graph. -/
def rehomed (graph : Nat) (cell : Cell GraphNode) : Cell GraphNode :=
  ⟨{ cell.value with graph := graph }, cell.useCount⟩

/-- The marked nodes have the address. -/
def rehome (heap : Heap GraphNode) (graph : Nat) (marked : Finset Nat) : Heap GraphNode where
  cells a := if a ∈ marked then (heap.cells a).map (rehomed graph) else heap.cells a
  fresh := heap.fresh
  unused a beyond := by
    rw [heap.unused a beyond, Option.map_none, ite_self]

section Traversal

variable {heap : Heap GraphNode} {graph a : Nat} {cell : Cell GraphNode} {marked nodes : Finset Nat}
  {next : Nat → List Nat}

theorem rehome_empty : rehome heap graph ∅ = heap := rfl

theorem cells_rehome : (rehome heap graph marked).cells a =
    if a ∈ marked then (heap.cells a).map (rehomed graph) else heap.cells a := rfl

theorem setValue_rehome (absent : a ∉ marked) (there : heap.cells a = some cell) :
    (rehome heap graph marked).setValue a { cell.value with graph := graph } =
      rehome heap graph (insert a marked) := by
  rw [Heap.mk.injEq]
  refine ⟨funext fun b => ?_, rfl⟩
  rw [Heap.setValue, Heap.cells_alter]
  by_cases same : b = a
  · subst same
    rw [if_pos rfl, cells_rehome, cells_rehome, if_neg absent,
      if_pos (Finset.mem_insert_self b marked), there]
    rfl
  · rw [if_neg same, cells_rehome, cells_rehome]
    simp only [Finset.mem_insert, same, false_or]

theorem changeGraphNodesGraphAddress_eq
    (there : ∀ a ∈ nodes, ∃ cell, heap.cells a = some cell ∧ cell.value.graph ≠ graph ∧
      cell.value.next = next a)
    (closed : ∀ a ∈ nodes, ∀ b ∈ next a, b ∈ nodes) (fuel : Nat) (member : a ∈ nodes)
    (marked : Finset Nat) :
    changeGraphNodesGraphAddress graph fuel (rehome heap graph marked) a =
      (depthFirst next fuel marked a).map (rehome heap graph) := by
  induction fuel generalizing a marked with
  | zero => rfl
  | succ fuel ih =>
    obtain ⟨cell, own, other, pointers⟩ := there a member
    rw [changeGraphNodesGraphAddress, depthFirst]
    by_cases before : a ∈ marked
    · rw [cells_rehome, if_pos before, own, if_pos before]
      exact if_pos rfl
    · rw [cells_rehome, if_neg before, own, Option.bind_some, if_neg other, if_neg before,
        setValue_rehome before own, pointers]
      exact foldlM_simulates _ (fun b listed => ih (closed a member b listed)) (insert a marked)

end Traversal

/-! ## The move -/

/-- All nodes of the graph have its address. -/
def World.Homed (w : World) (g : Nat) : Prop :=
  ∀ a, w.Reaches g a → ∃ cell, w.heap.cells a = some cell ∧ cell.value.graph = g

/-- The graph `g'` of `w'` is the graph `g` of `w` with its own address in its nodes. -/
structure Rehomed (w w' : World) (g g' : Nat) : Prop where
  ready : (w'.graphs g').readyNodes = (w.graphs g).readyNodes
  reaches : ∀ a, w'.Reaches g' a ↔ w.Reaches g a
  homed : w'.Homed g'
  nodes : ∀ a cell, w.Reaches g a → w.heap.cells a = some cell →
    w'.heap.cells a = some ⟨{ cell.value with graph := g' }, cell.useCount⟩
  others : ∀ a, ¬w.Reaches g a → w'.heap.cells a = w.heap.cells a

/-- The queue first, and then the nodes. -/
theorem World.changeGraphNodesGraphAddress_eq (fuel : Nat) (w : World) (this : Nat) :
    w.changeGraphNodesGraphAddress fuel this = ((w.roots this).foldlM
      (Workload.changeGraphNodesGraphAddress this fuel) w.heap).map fun heap =>
        { w with heap := heap } := by
  rw [World.changeGraphNodesGraphAddress, World.roots, foldlM_flatMap]

namespace World

variable {w : World} {g a : Nat}

/-- The nodes have the address of the new graph. -/
noncomputable def moved (w : World) (g : Nat) : World :=
  { w.takeOver g with heap := rehome w.heap w.graphCount (w.reachable g) }

theorem graphs_takeOver (known : g < w.graphCount) :
    (w.takeOver g).graphs w.graphCount = { w.graphs g with valid := true } := by
  rw [takeOver, setGraph, makeGraph]
  simp only [Function.update_of_ne known.ne', Function.update_self]

theorem roots_takeOver (known : g < w.graphCount) :
    (w.takeOver g).roots w.graphCount = w.roots g := by
  rw [roots, graphs_takeOver known, roots]

theorem next_moved : (w.moved g).next = w.next := by
  funext a
  rw [next, moved, next, cells_rehome]
  split
  · rw [Option.map_map]
    rfl
  · rfl

theorem reaches_moved (known : g < w.graphCount) :
    (w.moved g).Reaches w.graphCount a ↔ w.Reaches g a := by
  rw [Reaches, next_moved, Reaches, ← roots_takeOver known]
  rfl

theorem Homed.mem_reachable (homed : w.Homed g) : a ∈ w.reachable g ↔ w.Reaches g a := by
  refine World.mem_reachable fun b reaches => ?_
  obtain ⟨cell, there, _⟩ := homed b reaches
  rw [there]
  rfl

/-- The traversal marks what can be reached. -/
theorem Homed.change (homed : w.Homed g) (known : g < w.graphCount) {fuel : Nat}
    (enough : (w.reachable g).card < fuel) :
    (w.roots g).foldlM (Workload.changeGraphNodesGraphAddress w.graphCount fuel) w.heap =
      some (rehome w.heap w.graphCount (w.reachable g)) := by
  have closed : ∀ a ∈ w.reachable g, ∀ b ∈ w.next a, b ∈ w.reachable g := fun a member b pointer =>
    homed.mem_reachable.mpr (.step (homed.mem_reachable.mp member) pointer)
  have roots : ∀ a ∈ w.roots g, a ∈ w.reachable g := fun a member =>
    homed.mem_reachable.mpr (.root member)
  have there : ∀ a ∈ w.reachable g, ∃ cell, w.heap.cells a = some cell ∧
      cell.value.graph ≠ w.graphCount ∧ cell.value.next = w.next a := by
    intro a member
    obtain ⟨cell, own, same⟩ := homed a (homed.mem_reachable.mp member)
    exact ⟨cell, own, same ▸ known.ne, (next_of_cells own).symm⟩
  obtain ⟨marked, ran, visited⟩ := depthFirst_ends closed roots
    (show (w.reachable g \ ∅).card < fuel by simpa using enough)
  have all : marked = w.reachable g :=
    Finset.ext fun a => visited.mem_iff.trans homed.mem_reachable.symm
  have traversed := foldlM_simulates (w.roots g) (fun a member =>
    Workload.changeGraphNodesGraphAddress_eq there closed fuel (roots a member)) ∅
  rw [rehome_empty, ran, all] at traversed
  exact traversed

theorem Homed.moveGraph (homed : w.Homed g) (known : g < w.graphCount) {fuel : Nat}
    (enough : (w.reachable g).card < fuel) :
    w.moveGraph fuel g = some (w.moved g, w.graphCount) := by
  have ended : (w.takeOver g).changeGraphNodesGraphAddress fuel w.graphCount = some (w.moved g) := by
    rw [changeGraphNodesGraphAddress_eq, roots_takeOver known]
    exact Option.map_eq_some_iff.mpr ⟨_, homed.change known enough, rfl⟩
  exact Option.map_eq_some_iff.mpr ⟨w.moved g, ended, rfl⟩

theorem Homed.moved (homed : w.Homed g) (known : g < w.graphCount) :
    Rehomed w (w.moved g) g w.graphCount := by
  have changed : ∀ a cell, w.Reaches g a → w.heap.cells a = some cell → (w.moved g).heap.cells a =
      some ⟨{ cell.value with graph := w.graphCount }, cell.useCount⟩ := by
    intro a cell reaches there
    rw [World.moved, cells_rehome, if_pos (homed.mem_reachable.mpr reaches), there]
    rfl
  exact {
    ready := (congrArg TxnGraph.readyNodes (graphs_takeOver known) :)
    reaches a := reaches_moved known
    homed a reaches := by
      obtain ⟨cell, there, _⟩ := homed a ((reaches_moved known).mp reaches)
      exact ⟨_, changed a cell ((reaches_moved known).mp reaches) there, rfl⟩
    nodes := changed
    others a apart := by
      rw [World.moved, cells_rehome, if_neg fun member => apart (homed.mem_reachable.mp member)] }

end World

/-- The move constructor ends, also where nodes wait for each other, and nothing but the addresses
in the nodes has changed. -/
theorem moveGraph_rehomes {w : World} {g : Nat} (known : g < w.graphCount) (homed : w.Homed g) :
    ∃ w' enough, (∀ fuel, enough ≤ fuel → w.moveGraph fuel g = some (w', w.graphCount)) ∧
      Rehomed w w' g w.graphCount :=
  ⟨w.moved g, (w.reachable g).card + 1, fun _ enough => homed.moveGraph known enough,
    homed.moved known⟩

/-- The queue points to a node that waits for one that waits for it. -/
def cycle : World where
  heap := ⟨fun a => [⟨⟨{ next := [1], txn := 1 }, 0⟩, 2⟩, ⟨⟨{ next := [0], txn := 2 }, 0⟩, 1⟩][a]?, 2,
    fun _ beyond => List.getElem?_eq_none beyond⟩
  graphs _ := { numNodes := 3, remainingNodes := 3, readyNodes := [{ next := [0], txn := 0 }] }
  graphCount := 1

theorem cycle_homed : cycle.Homed 0 := by
  intro a reaches
  have below : a < 2 := Reaches.least (p := (· < 2)) (by decide) (by decide) reaches
  interval_cases a <;> exact ⟨_, rfl, rfl⟩

theorem moveGraph_rehomes_cycle : cycle.Homed 0 ∧ ∃ w' enough,
    (∀ fuel, enough ≤ fuel → cycle.moveGraph fuel 0 = some (w', 1)) ∧ Rehomed cycle w' 0 1 :=
  ⟨cycle_homed, moveGraph_rehomes (by decide) cycle_homed⟩

end CloudLab.Workload
