import CloudLab.Workload.Dropping

/-!
# Parsing a trace

While `parse_txn_trace` builds the graph its map owns every node, and each dependency adds one
owner. So the death of the map leaves a node with one owner for each thing that it depends on, and
moves those that depend on nothing into the queue.
-/
namespace CloudLab.Workload

open Library

/-! ## The nodes -/

/-- The map behind some transactions: each has a node of its own. -/
structure Made (g : Nat) (txns : List Txn) (w : World) (nodes : NodeMap) : Prop where
  found : ∀ txn ∈ txns, ∃ a, nodes.find? txn.txnId = some (a, txn.dependsOn) ∧
    w.heap.cells a = some ⟨txn.node g, 1⟩
  only : ∀ id entry, nodes.find? id = some entry → ∃ txn ∈ txns, txn.txnId = id
  apart : ∀ i j first second, nodes.find? i = some first → nodes.find? j = some second →
    first.1 = second.1 → i = j

theorem Made.addTxn {g : Nat} {txns : List Txn} {w : World} {nodes : NodeMap}
    (made : Made g txns w nodes) {txn : Txn} (new : txn.txnId ∉ txns.map Txn.txnId) :
    ∃ w' nodes', (∀ fuel, addTxn fuel g (w, nodes) txn = some (w', nodes')) ∧
      Made g (txns ++ [txn]) w' nodes' ∧ w'.graphs = w.graphs ∧ w'.graphCount = w.graphCount := by
  have absent : nodes.find? txn.txnId = none := by
    rw [Option.eq_none_iff_forall_ne_some]
    intro entry found
    obtain ⟨other, member, same⟩ := made.only _ _ found
    exact new (List.mem_map.mpr ⟨other, member, same⟩)
  -- The new node is behind all the others.
  have before : ∀ id entry, nodes.find? id = some entry → entry.1 ≠ w.heap.fresh := by
    intro id entry found same
    obtain ⟨other, member, own⟩ := made.only _ _ found
    obtain ⟨a, listed, there⟩ := made.found other member
    rw [own, found] at listed
    have less := Heap.lt_fresh there
    have address : entry.1 = a := by rw [Option.some.inj listed]
    omega
  refine ⟨⟨(w.heap.makeShared (txn.node g)).1, w.graphs, w.graphCount⟩,
    nodes.insertOrAssign txn.txnId (w.heap.fresh, txn.dependsOn),
    fun fuel => by simp [Workload.addTxn, absent, Heap.makeShared], ⟨?_, ?_, ?_⟩, rfl, rfl⟩
  · intro other member
    rw [UnorderedMap.find?_insertOrAssign]
    rcases List.mem_append.mp member with member | member
    · obtain ⟨a, found, there⟩ := made.found other member
      have different : other.txnId ≠ txn.txnId := fun same =>
        new (same ▸ List.mem_map.mpr ⟨other, member, rfl⟩)
      refine ⟨a, by rw [if_neg different, found], ?_⟩
      simp only [Heap.cells_makeShared]
      rw [if_neg (before _ _ found), there]
    · obtain rfl := List.mem_singleton.mp member
      refine ⟨w.heap.fresh, by rw [if_pos rfl], ?_⟩
      simp only [Heap.cells_makeShared, if_true]
  · intro id entry found
    rw [UnorderedMap.find?_insertOrAssign] at found
    split at found
    next same => exact ⟨txn, by simp, same.symm⟩
    next =>
      obtain ⟨other, member, same⟩ := made.only _ _ found
      exact ⟨other, by simp [member], same⟩
  · intro i j first second found other same
    rw [UnorderedMap.find?_insertOrAssign] at found other
    split at found
    next own =>
      split at other
      next too => rw [own, too]
      next =>
        cases found
        exact absurd same.symm (before _ _ other)
    next =>
      split at other
      next =>
        cases other
        exact absurd same (before _ _ found)
      next => exact made.apart i j first second found other same

theorem Made.addTxns {g : Nat} {txns rest : List Txn} {w : World} {nodes : NodeMap}
    (made : Made g txns w nodes) (distinct : ((txns ++ rest).map Txn.txnId).Nodup) :
    ∃ w' nodes', (∀ fuel, rest.foldlM (Workload.addTxn fuel g) (w, nodes) = some (w', nodes')) ∧
      Made g (txns ++ rest) w' nodes' ∧ w'.graphs = w.graphs ∧ w'.graphCount = w.graphCount := by
  induction rest generalizing txns w nodes with
  | nil => exact ⟨w, nodes, fun _ => rfl, by rwa [List.append_nil], rfl, rfl⟩
  | cons txn rest ih =>
    have new : txn.txnId ∉ txns.map Txn.txnId := by
      rw [List.map_append, List.map_cons] at distinct
      intro member
      exact (List.nodup_append.mp distinct).2.2 _ member _ List.mem_cons_self rfl
    obtain ⟨w', nodes', added, made', graphs, count⟩ := made.addTxn new
    rw [List.append_cons] at distinct
    obtain ⟨w'', nodes'', ran, all, graphs', count'⟩ := ih made' distinct
    refine ⟨w'', nodes'', fun fuel => ?_, by rwa [List.append_cons], graphs'.trans graphs,
      count'.trans count⟩
    rw [List.foldlM_cons, added fuel]
    exact ran fuel

/-! ## The pointers -/

/-- Where the node of a transaction is. -/
def NodeMap.loc (nodes : NodeMap) (id : UInt64) : Nat := ((nodes.find? id).map Prod.fst).getD 0

/-- The nodes behind some pairs of a transaction and one that it depends on. -/
def Linked (T : Trace) (g : Nat) (loc : UInt64 → Nat) (edges : List (UInt64 × UInt64)) (w : World) :
    Prop :=
  ∀ u ∈ T.ids, ∃ node : Node,
    w.heap.cells (loc u) = some ⟨⟨node, g⟩, 1 + edges.countP fun e => e.1 = u⟩ ∧
      node.id = 0 ∧ node.txn = u ∧ node.cmds = T.cmds u ∧
        node.next = (edges.filter fun e => e.2 = u).map fun e => loc e.1

section Link

variable {T : Trace} {g : Nat} {nodes : NodeMap} {w : World} {edges : List (UInt64 × UInt64)}
  (known : ∀ u ∈ T.ids, nodes.find? u = some (nodes.loc u, T.dependsOn u))
  (apart : ∀ u ∈ T.ids, ∀ v ∈ T.ids, nodes.loc u = nodes.loc v → u = v)

include known apart

theorem Linked.link (linked : Linked T g nodes.loc edges w) {u dep : UInt64}
    (member : u ∈ T.ids) (depends : dep ∈ T.ids) :
    ∃ w', link nodes (nodes.loc u) w dep = some w' ∧
      Linked T g nodes.loc (edges ++ [(u, dep)]) w' ∧
        w'.graphs = w.graphs ∧ w'.graphCount = w.graphCount := by
  have found := known dep depends
  obtain ⟨depNode, there, facts⟩ := linked dep depends
  obtain ⟨node, here, _⟩ := linked u member
  let owned := w.heap.alter (nodes.loc u) fun cell => some ⟨cell.value, cell.useCount + 1⟩
  have retained : w.retain (nodes.loc u) = some { w with heap := owned } := by
    simp [World.retain, Heap.retain, here, owned]
  let longer : Node := { depNode with next := depNode.next ++ [nodes.loc u] }
  refine ⟨⟨owned.setValue (nodes.loc dep) ⟨longer, g⟩, w.graphs, w.graphCount⟩, ?_, ?_, rfl, rfl⟩
  · simp [Workload.link, found, there, retained, longer]
  · intro v inside
    obtain ⟨other, own, id, txn, cmds, next⟩ := linked v inside
    -- The owners change at `u`, the pointers at `dep`.
    have counted : owned.cells (nodes.loc v) =
        some ⟨⟨other, g⟩, 1 + (edges ++ [(u, dep)]).countP fun e => e.1 = v⟩ := by
      rw [List.countP_append]
      by_cases same : v = u
      · subst same
        simp only [owned, Heap.cells_alter, own, if_true]
        simp
        omega
      · have different : nodes.loc v ≠ nodes.loc u := fun equal => same (apart v inside u member equal)
        simp only [owned, Heap.cells_alter_of_ne _ different, own]
        simp [Ne.symm same]
    simp only [Heap.setValue]
    by_cases same : v = dep
    · subst same
      obtain ⟨rfl⟩ : other = depNode := by
        rw [own] at there
        cases there
        rfl
      refine ⟨longer, ?_, id, txn, cmds, ?_⟩
      · simp only [Heap.cells_alter, if_true, counted, Option.bind_some]
      · simp [longer, next]
    · have different : nodes.loc v ≠ nodes.loc dep := fun equal =>
        same (apart v inside dep depends equal)
      refine ⟨other, ?_, id, txn, cmds, ?_⟩
      · rw [Heap.cells_alter_of_ne _ different, counted]
      · simp [next, Ne.symm same]

theorem Linked.linkAll (linked : Linked T g nodes.loc edges w) {u : UInt64}
    {deps : List UInt64} (member : u ∈ T.ids) (depends : ∀ dep ∈ deps, dep ∈ T.ids) :
    ∃ w', linkAll nodes w (u, nodes.loc u, deps) = some w' ∧
      Linked T g nodes.loc (edges ++ deps.map fun dep => (u, dep)) w' ∧
        w'.graphs = w.graphs ∧ w'.graphCount = w.graphCount := by
  simp only [Workload.linkAll]
  induction deps generalizing w edges with
  | nil => exact ⟨w, rfl, by rwa [List.map_nil, List.append_nil], rfl, rfl⟩
  | cons dep deps ih =>
    obtain ⟨w', ran, linked', graphs, count⟩ := linked.link known apart member (depends dep (by simp))
    obtain ⟨w'', rest, all, graphs', count'⟩ := ih linked' fun dep inside => depends dep (by simp [inside])
    refine ⟨w'', ?_, ?_, graphs'.trans graphs, count'.trans count⟩
    · rw [List.foldlM_cons, ran]
      exact rest
    · rwa [List.map_cons, List.append_cons]

theorem Linked.foldlM (linked : Linked T g nodes.loc edges w) (us : List UInt64)
    (members : ∀ u ∈ us, u ∈ T.ids) :
    ∃ w', (us.map fun u => (u, nodes.loc u, T.dependsOn u)).foldlM (Workload.linkAll nodes) w = some w' ∧
      Linked T g nodes.loc (edges ++ us.flatMap fun u => (T.dependsOn u).map fun dep => (u, dep)) w' ∧
        w'.graphs = w.graphs ∧ w'.graphCount = w.graphCount := by
  induction us generalizing w edges with
  | nil => exact ⟨w, rfl, by rwa [List.flatMap_nil, List.append_nil], rfl, rfl⟩
  | cons u us ih =>
    have member := members u List.mem_cons_self
    have closed : ∀ dep ∈ T.dependsOn u, dep ∈ T.ids := T.dependencies.closed u member
    obtain ⟨w', ran, linked', graphs, count⟩ := linked.linkAll known apart member closed
    obtain ⟨w'', rest, all, graphs', count'⟩ := ih linked' fun u inside => members u (by simp [inside])
    refine ⟨w'', ?_, ?_, graphs'.trans graphs, count'.trans count⟩
    · rw [List.map_cons, List.foldlM_cons, ran]
      exact rest
    · rwa [List.flatMap_cons, ← List.append_assoc]

end Link

/-! ## The graph -/

section Edges

variable {f : UInt64 → List UInt64} {keys : List UInt64} {u v : UInt64}

/-- The pairs of one transaction among those of all. -/
theorem countP_edges (p : UInt64 × UInt64 → Bool) (own : ∀ e, p e = true → e.1 = u)
    (distinct : keys.Nodup) (member : u ∈ keys) :
    (keys.flatMap fun v => (f v).map fun dep => (v, dep)).countP p =
      (f u).countP fun dep => p (u, dep) := by
  have none : ∀ v, v ≠ u → ((f v).map fun dep => (v, dep)).countP p = 0 := by
    intro v different
    rw [List.countP_eq_zero]
    intro e listed found
    obtain ⟨dep, _, same⟩ := List.mem_map.mp listed
    exact different (by rw [← own e found, ← same])
  induction keys with
  | nil => cases member
  | cons v keys ih =>
    obtain ⟨fresh, distinct⟩ := List.nodup_cons.mp distinct
    rw [List.flatMap_cons, List.countP_append]
    by_cases same : v = u
    · subst same
      have rest : (keys.flatMap fun v => (f v).map fun dep => (v, dep)).countP p = 0 := by
        rw [List.countP_eq_zero]
        intro e listed found
        obtain ⟨w, inside, pair⟩ := List.mem_flatMap.mp listed
        obtain ⟨dep, _, same⟩ := List.mem_map.mp pair
        have own := own e found
        rw [← same] at own
        exact fresh (own ▸ inside)
      rw [rest, List.countP_map, Nat.add_zero]
      rfl
    · have inside : u ∈ keys := (List.mem_cons.mp member).resolve_left (Ne.symm same)
      rw [none v same, ih distinct inside, Nat.zero_add]

end Edges

section Parse

variable {T : Trace} {g : Nat} {nodes : NodeMap} {w : World}

theorem Made.known (made : Made g T.txns w nodes) :
    ∀ u ∈ T.ids, nodes.find? u = some (nodes.loc u, T.dependsOn u) := by
  intro u member
  obtain ⟨txn, listed, same⟩ := List.mem_map.mp member
  subst same
  obtain ⟨a, found, _⟩ := made.found txn listed
  simp [NodeMap.loc, found, Trace.dependsOn, Trace.find?_of_mem listed]

theorem Made.loc_apart (made : Made g T.txns w nodes) :
    ∀ u ∈ T.ids, ∀ v ∈ T.ids, nodes.loc u = nodes.loc v → u = v := fun u first v second same =>
  made.apart u v _ _ (made.known u first) (made.known v second) same

theorem Made.linked (made : Made g T.txns w nodes) : Linked T g nodes.loc [] w := by
  intro u member
  obtain ⟨txn, listed, same⟩ := List.mem_map.mp member
  subst same
  obtain ⟨a, found, there⟩ := made.found txn listed
  refine ⟨(txn.node g).toNode, ?_, rfl, rfl, ?_, rfl⟩
  · simp only [NodeMap.loc, found, Option.map_some, Option.getD_some, there]
    rfl
  · simp [Txn.node, Trace.cmds, Trace.find?_of_mem listed]

/-- The entries in any order are the transactions in some order. -/
theorem Made.order (made : Made g T.txns w nodes) (iteration : Iteration (UInt64 × Nat × List UInt64)) :
    ∃ keys : List UInt64, keys.Perm T.ids ∧
      iteration.order nodes.entries = keys.map fun u => (u, nodes.loc u, T.dependsOn u) := by
  have ids : ∀ u, u ∈ nodes.entries.map Prod.fst ↔ u ∈ T.ids := by
    intro u
    constructor
    · intro listed
      obtain ⟨⟨id, entry⟩, member, same⟩ := List.mem_map.mp listed
      subst same
      obtain ⟨txn, inside, same⟩ := made.only id entry ((nodes.mem_entries_iff id entry).mp member)
      exact List.mem_map.mpr ⟨txn, inside, same⟩
    · intro member
      exact List.mem_map.mpr ⟨_, (nodes.mem_entries_iff _ _).mpr (made.known u member), rfl⟩
  refine ⟨(iteration.order nodes.entries).map Prod.fst, ?_, ?_⟩
  · refine ((iteration.perm _).map Prod.fst).trans ?_
    exact (List.perm_ext_iff_of_nodup nodes.distinct T.distinct).mpr ids
  · rw [List.map_map]
    refine (List.map_id _).symm.trans (List.map_congr_left fun entry member => ?_)
    obtain ⟨id, rest⟩ := entry
    have listed : (id, rest) ∈ nodes.entries := iteration.mem_order.mp member
    have inside : id ∈ T.ids := (ids id).mp (List.mem_map.mpr ⟨_, listed, rfl⟩)
    have found := (nodes.mem_entries_iff id rest).mp listed
    rw [made.known id inside] at found
    simpa using (Option.some.inj found).symm

/-- When the lists are complete, each node is owned by what it depends on and by the map. -/
theorem Linked.owned {loc : UInt64 → Nat} {keys map : List UInt64} (perm : keys.Perm T.ids)
    (owners : map.Perm T.ids) (apart : ∀ u ∈ T.ids, ∀ v ∈ T.ids, loc u = loc v → u = v)
    (linked : Linked T g loc (keys.flatMap fun u => (T.dependsOn u).map fun dep => (u, dep)) w) :
    Owned T w.heap g loc T.ids [] [] (map.map loc) := by
  have distinct : keys.Nodup := perm.nodup_iff.mpr T.distinct
  have once : ∀ u ∈ T.ids, (map.map loc).count (loc u) = 1 := by
    intro u member
    refine List.count_eq_one_of_mem ?_ (List.mem_map_of_mem (owners.mem_iff.mpr member))
    refine (owners.nodup_iff.mpr T.distinct).map_on fun v first w second same => ?_
    exact apart v (owners.mem_iff.mp first) w (owners.mem_iff.mp second) same
  have counted : ∀ u ∈ T.ids, Workload.owners T loc [] (map.map loc) u =
      1 + (keys.flatMap fun u => (T.dependsOn u).map fun dep => (u, dep)).countP fun e => e.1 = u := by
    intro u member
    rw [countP_edges _ (by simp) distinct (perm.mem_iff.mpr member), Workload.owners, once u member]
    simp
    omega
  refine ⟨by simp, apart, fun u member => ?_, fun u member => ?_, by simp, by simp, by simp,
    fun a member => ?_⟩
  · obtain ⟨node, there, id, txn, cmds, next⟩ := linked u member
    refine ⟨node, by rw [counted u member, there], txn, id, by rw [txn, cmds], ?_, ?_⟩
    · intro a pointer
      rw [next] at pointer
      obtain ⟨e, listed, same⟩ := List.mem_map.mp pointer
      obtain ⟨v, inside, pair⟩ := List.mem_flatMap.mp (List.mem_of_mem_filter listed)
      obtain ⟨dep, _, same'⟩ := List.mem_map.mp pair
      refine ⟨v, perm.mem_iff.mp inside, ?_⟩
      rw [← same, ← same']
    · intro v inside
      rw [next, List.count, List.countP_map, List.countP_filter, txn]
      have same : ∀ e ∈ keys.flatMap fun u => (T.dependsOn u).map fun dep => (u, dep),
          (((loc e.1 == loc v) && decide (e.2 = u)) = true ↔
            (decide (e.1 = v) && decide (e.2 = u)) = true) := by
        intro e listed
        obtain ⟨w, there, pair⟩ := List.mem_flatMap.mp listed
        obtain ⟨dep, _, same⟩ := List.mem_map.mp pair
        subst same
        simp only [Bool.and_eq_true, beq_iff_eq, decide_eq_true_iff]
        refine and_congr_left fun _ => ⟨fun equal => ?_, fun equal => by rw [equal]⟩
        exact apart w (perm.mem_iff.mp there) v inside equal
      refine (List.countP_congr same).trans ?_
      rw [countP_edges _ (by simp) distinct (perm.mem_iff.mpr inside), List.count]
      refine List.countP_congr fun dep _ => ?_
      simp
  · rw [counted u member]
    omega
  · obtain ⟨u, listed, same⟩ := List.mem_map.mp member
    exact ⟨u, owners.mem_iff.mp listed, same.symm⟩

end Parse

/-- Whatever the orders of the map, parsing ends with a graph in which every node has as many
owners as dependencies, or is ready. -/
theorem parseTxnTrace_owned (T : Trace) (loop destruction : Iteration (UInt64 × Nat × List UInt64)) :
    ∃ w loc waiting, (∀ fuel, T.ids.length ≤ fuel →
        parseTxnTrace loop destruction fuel T.txns = some (w, 0)) ∧
      Owned T w.heap 0 loc waiting (w.graphs 0).readyNodes [] [] ∧ (w.graphs 0).valid = true ∧
        (w.graphs 0).numNodes = T.ids.length ∧ (w.graphs 0).remainingNodes = T.ids.length ∧
          w.graphCount = 1 := by
  have none : Made 0 [] (World.makeGraph {} {}).1 ∅ := ⟨nofun, nofun, nofun⟩
  have distinct : (([] ++ T.txns).map Txn.txnId).Nodup := T.distinct
  obtain ⟨w, nodes, added, made, graphs, count⟩ := none.addTxns distinct
  obtain ⟨keys, perm, order⟩ := made.order loop
  obtain ⟨map, owners, dying⟩ := made.order destruction
  obtain ⟨w', ran, linked, graphs', count'⟩ :=
    made.linked.foldlM made.known made.loc_apart keys fun u member => perm.mem_iff.mp member
  have size : nodes.entries.length = T.ids.length := by
    have lengths := congrArg List.length order
    rw [(loop.perm _).length_eq, List.length_map, perm.length_eq] at lengths
    exact lengths
  have empty : w'.graphs 0 = {} := by simp [graphs', graphs, World.makeGraph]
  let complete : TxnGraph := { numNodes := T.ids.length, remainingNodes := T.ids.length }
  have here : (w'.setGraph 0 complete).graphs 0 = complete := by simp [World.setGraph]
  have own : Owned T (w'.setGraph 0 complete).heap 0 nodes.loc T.ids
      ((w'.setGraph 0 complete).graphs 0).readyNodes [] (map.map nodes.loc) := by
    rw [here]
    exact linked.owned perm owners made.loc_apart
  obtain ⟨w'', waiting, dropped, own', ⟨readyNodes, graph⟩, count'', _⟩ :=
    own.dropAll (by rw [here])
  refine ⟨w'', nodes.loc, waiting, fun fuel enough => ?_, own', ?_, ?_, ?_, ?_⟩
  · have ends := dropped fuel (by rw [List.length_map, owners.length_eq]; exact enough)
    have start : World.makeGraph {} {} = ((World.makeGraph {} {}).1, 0) := rfl
    rw [parseTxnTrace, start, added fuel, Option.bind_some]
    simp only [order, ran, dying, List.map_map, Option.bind_some, size, empty]
    exact Option.map_eq_some_iff.mpr ⟨w'', ends, rfl⟩
  · rw [graph, here]
  · rw [graph, here]
  · rw [graph, here]
  · rw [count'']
    exact count'.trans count

end CloudLab.Workload
