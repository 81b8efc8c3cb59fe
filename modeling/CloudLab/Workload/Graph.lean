import CloudLab.Library.SharedPtr
import CloudLab.Library.UnorderedMap
import CloudLab.Workload.Operations

/-!
# The graph of transactions (`load_txn.h`, `load_txn.cpp`)

A transaction waits as a `GraphNode` that is owned by those it depends on, in their `next`
lists. When the last of them lets go, the destructor moves the node into the queue of its graph.
`parse_txn_trace` owns all the nodes itself until the lists are complete, so that those which
depend on nothing come into the queue when its map dies.

The recursions take fuel; they are none where a pointer dangles or the fuel is used up.
-/
namespace CloudLab.Workload

open Library

/-! ## Nodes and graphs -/

structure Node where
  id : UInt64 := 0
  isTxn : Bool := true
  cmds : List TxnCmd := []
  next : List Nat := []
  /-- The transaction that the node was made from; the source does not keep it. -/
  txn : UInt64
  deriving DecidableEq

structure GraphNode extends Node where
  graph : Nat
  deriving DecidableEq

structure TxnGraph where
  valid : Bool := true
  numNodes : Nat := 0
  remainingNodes : Nat := 0
  readyNodes : List Node := []

/-- All the nodes and graphs of the process; a graph's address is its number. -/
structure World where
  heap : Heap GraphNode := .empty
  graphs : Nat → TxnGraph := fun _ => {}
  graphCount : Nat := 0

namespace World

def setGraph (w : World) (g : Nat) (graph : TxnGraph) : World :=
  { w with graphs := Function.update w.graphs g graph }

/-- `make_unique<TxnGraph>` -/
def makeGraph (w : World) (graph : TxnGraph) : World × Nat :=
  (⟨w.heap, Function.update w.graphs w.graphCount graph, w.graphCount + 1⟩, w.graphCount)

def setReady (w : World) (g : Nat) (readyNodes : List Node) : World :=
  w.setGraph g { w.graphs g with readyNodes := readyNodes }

def addToReady (w : World) (g : Nat) (node : Node) : World :=
  w.setReady g ((w.graphs g).readyNodes ++ [node])

def retain (w : World) (a : Nat) : Option World :=
  (w.heap.retain a).map fun heap => { w with heap := heap }

/-- A copy of a vector of shared pointers. -/
def retainAll (w : World) (next : List Nat) : Option World := next.foldlM retain w

/-- Shared pointers die one after another. The destructor of a node that has lost its last owner
moves it into the queue of its graph; the pointers of one that is not moved die with it. -/
def dropAll : Nat → World → List Nat → Option World
  | _, w, [] => some w
  | 0, _, _ :: _ => none
  | fuel + 1, w, a :: rest =>
    (w.heap.release a).bind fun
      | (heap, none) => dropAll fuel { w with heap := heap } rest
      | (heap, some node) =>
        if (w.graphs node.graph).valid then
          dropAll fuel (addToReady { w with heap := heap } node.graph node.toNode) rest
        else dropAll fuel { w with heap := heap } (node.next ++ rest)

/-- `~TxnGraph`, and its members. -/
def destroyGraph (fuel : Nat) (w : World) (g : Nat) : Option World :=
  (w.setGraph g { w.graphs g with valid := false, readyNodes := [] }).dropAll fuel
    ((w.graphs g).readyNodes.flatMap Node.next)

end World

/-! ## Parsing -/

structure Txn where
  isTxn : Bool
  txnId : UInt64
  dependsOn : List UInt64
  cmds : List KVPair

/-- The node that is made for a transaction. -/
def Txn.node (txn : Txn) (g : Nat) : GraphNode where
  graph := g
  isTxn := txn.isTxn
  cmds := txn.cmds.map KVPair.toCmd
  txn := txn.txnId

abbrev NodeMap := UnorderedMap UInt64 (Nat × List UInt64)

/-- The body of the loop over `test.txns()`. -/
def addTxn (fuel g : Nat) (s : World × NodeMap) (txn : Txn) : Option (World × NodeMap) :=
  let made := s.1.heap.makeShared (txn.node g)
  let nodes := s.2.insertOrAssign txn.txnId (made.2, txn.dependsOn)
  match s.2.find? txn.txnId with
  | none => some ({ s.1 with heap := made.1 }, nodes)
  | some old => (World.dropAll fuel { s.1 with heap := made.1 } [old.1]).map fun w => (w, nodes)

/-- The body of the loop over the dependencies of a node. -/
def link (nodes : NodeMap) (node : Nat) (w : World) (dep : UInt64) : Option World :=
  (nodes.find? dep).bind fun depNode =>
    (w.heap.cells depNode.1).bind fun cell =>
      (w.retain node).map fun w =>
        { w with heap := w.heap.setValue depNode.1 { cell.value with next := cell.value.next ++ [node] } }

def linkAll (nodes : NodeMap) (w : World) (entry : UInt64 × Nat × List UInt64) : Option World :=
  entry.2.2.foldlM (link nodes entry.2.1) w

/-- `parse_txn_trace` behind `ParseFromIstream`. The map is visited by the second loop, and when
it dies. -/
def parseTxnTrace (loop destruction : Iteration (UInt64 × Nat × List UInt64)) (fuel : Nat)
    (txns : List Txn) : Option (World × Nat) :=
  let result := World.makeGraph {} {}
  (txns.foldlM (addTxn fuel result.2) (result.1, ∅)).bind fun (w, nodes) =>
    ((loop.order nodes.entries).foldlM (linkAll nodes) w).bind fun w =>
      let numNodes := nodes.entries.length
      let w := w.setGraph result.2
        { w.graphs result.2 with numNodes := numNodes, remainingNodes := numNodes }
      (w.dropAll fuel ((destruction.order nodes.entries).map fun entry => entry.2.1)).map fun w =>
        (w, result.2)

/-! ## Copies -/

abbrev KnownNodes := UnorderedMap Nat Nat

/-- The pointers that die with the map of known nodes. -/
def KnownNodes.dying (destruction : Iteration (Nat × Nat)) (known : KnownNodes) : List Nat :=
  (destruction.order known.entries).map Prod.snd

/-- `next = new_next`; the old node loses an owner. -/
def redirect (fuel : Nat) (w : World) (old : Nat) : Option World := w.dropAll fuel [old]

/-- `deep_copy_network` on a vector of successors, and what the vector is afterwards. -/
def deepCopyNetwork (graph : Nat) :
    Nat → World × KnownNodes → List Nat → Option ((World × KnownNodes) × List Nat)
  | _, s, [] => some (s, [])
  | 0, _, _ :: _ => none
  | fuel + 1, (w, known), next :: rest =>
    match known.find? next with
    | some node =>
      (w.retain node).bind fun w => (redirect fuel w next).bind fun w =>
        (deepCopyNetwork graph fuel (w, known) rest).map fun (s, rest) => (s, node :: rest)
    | none =>
      (w.heap.cells next).bind fun cell => (w.retainAll cell.value.next).bind fun w =>
        let made := w.heap.makeShared { cell.value with graph := graph }
        let newNext := made.2
        -- One owner is `known_nodes`, the other one the vector.
        (World.retain { w with heap := made.1 } newNext).bind fun w =>
          (redirect fuel w next).bind fun w =>
            (deepCopyNetwork graph fuel (w, known.insertOrAssign next newNext) cell.value.next).bind
              fun ((w, known), next) =>
                let w := { w with
                  heap := w.heap.setValue newNext { cell.value with graph := graph, next := next } }
                (deepCopyNetwork graph fuel (w, known) rest).map fun (s, rest) => (s, newNext :: rest)

/-- The loop over the queue of the copy. -/
def deepCopyReady (graph fuel : Nat) :
    World × KnownNodes → List Node → Option ((World × KnownNodes) × List Node)
  | s, [] => some (s, [])
  | s, node :: rest =>
    (deepCopyNetwork graph fuel s node.next).bind fun (s, next) =>
      (deepCopyReady graph fuel s rest).map fun (s, rest) => (s, { node with next := next } :: rest)

/-- `TxnGraph::deep_copy`; the copy constructor leaves `valid` alone. -/
def World.deepCopy (destruction : Iteration (Nat × Nat)) (fuel : Nat) (w : World) (g : Nat) :
    Option (World × Nat) :=
  (w.retainAll ((w.graphs g).readyNodes.flatMap Node.next)).bind fun w =>
    let result := w.makeGraph { w.graphs g with valid := true }
    (deepCopyReady result.2 fuel (result.1, ∅) (w.graphs g).readyNodes).bind
      fun ((w, known), readyNodes) =>
        ((w.setReady result.2 readyNodes).dropAll fuel (known.dying destruction)).map fun w =>
          (w, result.2)

/-! ## Results -/

/-- `node.id` is zero for all nodes. -/
def runNode (effect : OpFunc → KVStoreState → TxnCmd → KVStoreState) (state : KVStoreState)
    (node : Node) : KVStoreState :=
  if node.isTxn ∨ node.id = 0 then node.cmds.foldl (runCmd effect) state else state

variable (effect : OpFunc → KVStoreState → TxnCmd → KVStoreState)
  (destruction : Iteration (Nat × Nat))

/-- The body of the loop over the queue, in which a copy of the graph is taken apart by `recurse`. -/
def tryNode (recurse : World → Nat → KVStoreState → Option (World × List KVStoreState)) (fuel g : Nat)
    (state : KVStoreState) (s : World × List KVStoreState) (i : Nat) :
    Option (World × List KVStoreState) :=
  (s.1.deepCopy destruction fuel g).bind fun (w, newGraph) =>
    ((w.graphs newGraph).readyNodes[i]?).bind fun node =>
      ((w.setReady newGraph ((w.graphs newGraph).readyNodes.eraseIdx i)).dropAll fuel node.next).bind
        fun w => (recurse w newGraph (runNode effect state node)).bind fun (w, tmp) =>
          (w.destroyGraph fuel newGraph).map fun w => (w, s.2 ++ tmp)

/-- The recursion, on a graph that it may take apart. -/
def possibleResults : Nat → World → Nat → KVStoreState → Option (World × List KVStoreState)
  | 0, _, _, _ => none
  | fuel + 1, w, g, state =>
    match (w.graphs g).readyNodes with
    | [] => some (w, [state])
    | [node] =>
      ((w.setReady g []).dropAll fuel node.next).bind fun w =>
        possibleResults fuel w g (runNode effect state node)
    | readyNodes =>
      (List.range readyNodes.length).foldlM
        (tryNode effect destruction (possibleResults fuel) fuel g state) (w, [])

/-- `get_possible_results` -/
def getPossibleResults (fuel : Nat) (w : World) (g : Nat) : Option (List KVStoreState) :=
  (w.deepCopy destruction fuel g).bind fun (w, tmp) =>
    (possibleResults effect destruction fuel w tmp Store.empty).bind fun (w, results) =>
      (w.destroyGraph fuel tmp).map fun _ => results

end CloudLab.Workload
