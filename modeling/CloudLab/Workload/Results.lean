import CloudLab.Workload.DeepCopy
import CloudLab.Workload.Parsing

/-!
# Possible results

`get_possible_results` takes copies of the graph apart, one for each node that could be next, and
runs the commands of each node as it lets go of it. What it returns are the states that the linear
extensions of the dependencies lead to, each of them once.
-/
namespace CloudLab.Workload

open Library

/-! ## Who owns a node of a copy -/

section Copy

variable {T : Trace} {w : World} {g : Nat} {loc : UInt64 → Nat} {waiting dropped : List UInt64}
  {loose : List Node} {heap : Heap GraphNode}

theorem countP_not_mem_append (deps members : List UInt64) (distinct : (members ++ dropped).Nodup) :
    deps.countP (fun dep => dep ∉ dropped) =
      deps.countP (fun dep => dep ∉ members ++ dropped) + (members.map deps.count).sum := by
  induction members with
  | nil => simp
  | cons id members ih =>
    rw [List.cons_append] at distinct
    obtain ⟨absent, distinct⟩ := List.nodup_cons.mp distinct
    rw [ih distinct, Owned.countP_not_mem_cons deps id absent, List.map_cons, List.sum_cons,
      List.cons_append]
    omega

/-- The owners of a node, as the pointers to it from all that is left. -/
theorem Owned.sum_count (own : Owned T heap g loc waiting loose dropped []) (u : UInt64)
    (member : u ∈ T.ids) :
    owners T loc dropped [] u = (loose.map fun node => (T.dependsOn u).count node.txn).sum +
      (waiting.map (T.dependsOn u).count).sum := by
  have none : (T.dependsOn u).countP (fun dep => dep ∉ waiting ++ loose.map Node.txn ++ dropped) = 0 := by
    rw [List.countP_eq_zero]
    intro dep depends left
    rw [decide_eq_true_iff, own.places.mem_iff] at left
    exact left (T.dependencies.closed u member dep depends)
  rw [owners, countP_not_mem_append _ _ own.nodup, none, List.map_append, List.sum_append,
    List.map_map, List.count_nil]
  simp only [Function.comp_def]
  omega

/-- All that waits can be reached from the queue. -/
theorem Owned.reached (own : Owned T heap g loc waiting loose dropped []) {reach : List Nat}
    (ready : ∀ n ∈ loose, ∀ a ∈ n.next, a ∈ reach)
    (closed : ∀ v ∈ waiting, loc v ∈ reach → ∀ node n, heap.cells (loc v) = some ⟨node, n⟩ →
      ∀ a ∈ node.next, a ∈ reach) {u : UInt64} (waits : u ∈ waiting) : loc u ∈ reach := by
  refine Dependencies.inductionOn (D := T.dependencies) (p := fun u => u ∈ waiting → loc u ∈ reach)
    (fun u listed ih waits => ?_) (own.waiting_ids waits) waits
  obtain ⟨dep, depends, left⟩ := own.dep_of_waiting waits
  rcases own.mem_ids.mp (T.dependencies.closed u listed dep depends) with before | outside | gone
  · obtain ⟨node, there, txn, isNode⟩ := own.cells dep before
    have pointer := (isNode.mem_next listed).mpr (txn ▸ depends)
    exact closed dep before (ih dep depends before) _ _ there _ pointer
  · obtain ⟨node, inside, same⟩ := List.mem_map.mp outside
    exact ready node inside _ (((own.nodes node inside).mem_next listed).mpr (same ▸ depends))
  · exact absurd gone left

theorem NodeOf.mapNext (own : Owned T heap g loc waiting loose dropped []) {node : Node}
    (isNode : NodeOf T loc node) (left : node.txn ∉ dropped) {place : Nat → Nat} {loc' : UInt64 → Nat}
    (apart : ∀ u ∈ waiting, ∀ v ∈ waiting, place (loc u) = place (loc v) → u = v)
    (moved : ∀ u ∈ waiting, loc' u = place (loc u))
    (beyond : ∀ u, u ∉ waiting → ∀ v ∈ waiting, loc' u ≠ place (loc v)) :
    NodeOf T loc' (node.mapNext place) := by
  refine ⟨isNode.id, isNode.cmds, fun a pointer => ?_, fun u member => ?_⟩
  · obtain ⟨b, inside, same⟩ := List.mem_map.mp pointer
    obtain ⟨v, waits, at_v⟩ := own.waiting_of_mem_next isNode left inside
    exact ⟨v, own.waiting_ids waits, by rw [← same, at_v, moved v waits]⟩
  · by_cases waits : u ∈ waiting
    · rw [moved u waits]
      refine Eq.trans ?_ (isNode.next u member)
      simp only [Node.mapNext, List.count, List.countP_map]
      refine List.countP_congr fun b inside => ?_
      obtain ⟨v, before, same⟩ := own.waiting_of_mem_next isNode left inside
      subst same
      simp only [Function.comp_apply, beq_iff_eq]
      constructor
      · exact fun equal => by rw [apart v before u waits equal]
      · exact fun equal => by rw [equal]
    · have absent : node.txn ∉ T.dependsOn u := fun depends =>
        waits (own.waiting_of_dep member depends left)
      refine Eq.trans ?_ (List.count_eq_zero.mpr absent).symm
      rw [List.count_eq_zero]
      intro pointer
      obtain ⟨b, inside, same⟩ := List.mem_map.mp pointer
      obtain ⟨v, before, at_v⟩ := own.waiting_of_mem_next isNode left inside
      exact beyond u waits v before (by rw [← same, at_v])

/-- Copying ends, and has copied all that waits. -/
theorem Owned.exists_copy (own : Owned T w.heap g loc waiting (w.graphs g).readyNodes dropped [])
    (destruction : Iteration (Nat × Nat)) :
    ∃ w' reach place enough, (∀ fuel, enough ≤ fuel →
        w.deepCopy destruction fuel g = some (w', w.graphCount)) ∧
      GraphCopy w w' g w.nodeAt reach place ∧ reach.Perm (waiting.map loc) ∧
      ∀ u ∈ waiting, ∃ n, w.nodeAt (loc u) = ⟨n, g⟩ ∧ n.txn = u ∧ NodeOf T loc n := by
  have held : ∀ u ∈ waiting, ∃ n, w.heap.cells (loc u) = some ⟨⟨n, g⟩, owners T loc dropped [] u⟩ ∧
      Cell.mk ⟨n, g⟩ (owners T loc dropped [] u) = ⟨w.nodeAt (loc u), w.countAt (loc u)⟩ ∧
        n.txn = u ∧ NodeOf T loc n := by
    intro u waits
    obtain ⟨n, there, isNode⟩ := own.cells u waits
    exact ⟨n, there, World.cells_at there, isNode⟩
  have nodeOf : ∀ u ∈ waiting, ∃ n, w.nodeAt (loc u) = ⟨n, g⟩ ∧ n.txn = u ∧ NodeOf T loc n := by
    intro u waits
    obtain ⟨n, _, same, isNode⟩ := held u waits
    exact ⟨n, (Cell.mk.inj same).1.symm, isNode⟩
  have there : ∀ a ∈ waiting.map loc, w.heap.cells a = some ⟨w.nodeAt a, w.countAt a⟩ := by
    intro a member
    obtain ⟨u, waits, rfl⟩ := List.mem_map.mp member
    obtain ⟨n, there, same, _⟩ := held u waits
    rw [there, same]
  have positive : ∀ a ∈ waiting.map loc, 1 ≤ w.countAt a := by
    intro a member
    obtain ⟨u, waits, rfl⟩ := List.mem_map.mp member
    obtain ⟨n, _, same, _⟩ := held u waits
    exact (Cell.mk.inj same).2 ▸ own.owned u waits
  have pointers : ∀ n, NodeOf T loc n → n.txn ∉ dropped → ∀ a ∈ n.next, a ∈ waiting.map loc := by
    intro n isNode left a pointer
    obtain ⟨v, waits, rfl⟩ := own.waiting_of_mem_next isNode left pointer
    exact List.mem_map_of_mem waits
  have closed : ∀ a ∈ waiting.map loc, ∀ b ∈ (w.nodeAt a).next, b ∈ waiting.map loc := by
    intro a member
    obtain ⟨u, waits, rfl⟩ := List.mem_map.mp member
    obtain ⟨n, same, txn, isNode⟩ := nodeOf u waits
    rw [same]
    exact pointers n isNode (txn ▸ own.waiting_left waits)
  obtain ⟨w', reach, place, enough, runs, copy, within⟩ := World.deepCopy_copies destruction there
    positive closed fun n member => pointers n (own.nodes n member) (own.loose_left member)
  refine ⟨w', reach, place, enough, runs, copy, ?_, nodeOf⟩
  have distinct : (waiting.map loc).Nodup := List.Nodup.map_on (fun u one v two same =>
    own.apart u (own.waiting_ids one) v (own.waiting_ids two) same) own.waiting_nodup
  refine (List.perm_ext_iff_of_nodup copy.distinct distinct).mpr fun a => ⟨within a, fun member => ?_⟩
  obtain ⟨u, waits, rfl⟩ := List.mem_map.mp member
  refine own.reached copy.ready (fun v before inside n c cell => ?_) waits
  have same : w.nodeAt (loc v) = n := (Cell.mk.inj (World.cells_at cell)).1.symm
  exact same ▸ copy.closed (loc v) inside

/-- Where the copies are; whoever does not wait gets a place that nobody has. -/
def copiedLoc (loc : UInt64 → Nat) (waiting : List UInt64) (place : Nat → Nat) (fresh : Nat)
    (u : UInt64) : Nat :=
  if u ∈ waiting then place (loc u) else fresh + u.toNat

theorem copiedLoc_injective {place : Nat → Nat} {fresh : Nat}
    (apart : ∀ u ∈ waiting, ∀ v ∈ waiting, place (loc u) = place (loc v) → u = v)
    (below : ∀ v ∈ waiting, place (loc v) < fresh) {u v : UInt64}
    (same : copiedLoc loc waiting place fresh u = copiedLoc loc waiting place fresh v) : u = v := by
  rw [copiedLoc, copiedLoc] at same
  split at same
  next waits =>
    have bound := below u waits
    split at same
    next waits' => exact apart u waits v waits' same
    next => omega
  next =>
    split at same
    next waits' =>
      have bound := below v waits'
      omega
    next => exact UInt64.toNat_inj.mp (by omega)

/-- A node of the copy has the owners that it has in the graph. -/
theorem Owned.copied {w' : World} {node : Nat → GraphNode} {reach : List Nat} {place : Nat → Nat}
    (own : Owned T w.heap g loc waiting (w.graphs g).readyNodes dropped [])
    (copy : GraphCopy w w' g node reach place) (perm : reach.Perm (waiting.map loc))
    (nodeOf : ∀ u ∈ waiting, ∃ n, node (loc u) = ⟨n, g⟩ ∧ n.txn = u ∧ NodeOf T loc n) :
    Owned T w'.heap w.graphCount (copiedLoc loc waiting place w'.heap.fresh) waiting
      ((w.graphs g).readyNodes.map (Node.mapNext place)) dropped [] := by
  have reached : ∀ u ∈ waiting, loc u ∈ reach := fun u waits =>
    perm.mem_iff.mpr (List.mem_map_of_mem waits)
  have counted : ∀ u ∈ waiting, ((w.graphs g).readyNodes.flatMap Node.next ++
      reach.flatMap fun a => (node a).next).count (loc u) = owners T loc dropped [] u := by
    intro u waits
    have listed := own.waiting_ids waits
    rw [List.count_append, List.count_flatMap, (perm.flatMap_right _).count_eq, List.flatMap_map,
      List.count_flatMap, own.sum_count u listed]
    congr 2
    · exact List.map_congr_left fun n member => (own.nodes n member).next u listed
    · refine List.map_congr_left fun v before => ?_
      obtain ⟨n, same, txn, isNode⟩ := nodeOf v before
      simp only [Function.comp_apply, same]
      rw [isNode.next u listed, txn]
  have moved : ∀ u ∈ waiting, copiedLoc loc waiting place w'.heap.fresh u = place (loc u) :=
    fun u waits => if_pos waits
  have apart : ∀ u ∈ waiting, ∀ v ∈ waiting, place (loc u) = place (loc v) → u = v :=
    fun u one v two same => own.apart u (own.waiting_ids one) v (own.waiting_ids two)
      (copy.apart _ (reached u one) _ (reached v two) same)
  have below : ∀ v ∈ waiting, place (loc v) < w'.heap.fresh := fun v waits =>
    Heap.lt_fresh (copy.new _ (reached v waits)).2
  have beyond : ∀ u, u ∉ waiting → ∀ v ∈ waiting,
      copiedLoc loc waiting place w'.heap.fresh u ≠ place (loc v) := by
    intro u absent v waits
    have bound := below v waits
    rw [copiedLoc, if_neg absent]
    omega
  exact {
    places := by
      rw [List.map_map]
      exact own.places
    apart u _ v _ := copiedLoc_injective apart below
    cells u waits := by
      obtain ⟨n, same, txn, isNode⟩ := nodeOf u waits
      have left : n.txn ∉ dropped := txn ▸ own.waiting_left waits
      refine ⟨n.mapNext place, ?_, txn, .mapNext own isNode left apart moved beyond⟩
      rw [moved u waits, (copy.new _ (reached u waits)).2, same, counted u waits]
      rfl
    owned := own.owned
    nodes n member := by
      obtain ⟨m, inside, rfl⟩ := List.mem_map.mp member
      exact .mapNext own (own.nodes m inside) (own.loose_left inside) apart moved beyond
    looseDeps n member := by
      obtain ⟨m, inside, rfl⟩ := List.mem_map.mp member
      exact own.looseDeps m inside
    droppedDeps := own.droppedDeps
    owed := nofun }

theorem GraphCopy.graph {w' : World} {node : Nat → GraphNode} {reach : List Nat} {place : Nat → Nat}
    (copy : GraphCopy w w' g node reach place) : w'.graphs w.graphCount = { w.graphs g with
      valid := true, readyNodes := (w.graphs g).readyNodes.map (Node.mapNext place) } := by
  rw [copy.graphs, Function.update_self]

theorem GraphCopy.kept {w' : World} {node : Nat → GraphNode} {reach : List Nat} {place : Nat → Nat}
    (copy : GraphCopy w w' g node reach place) : Kept (· ≠ w.graphCount) w w' := by
  refine ⟨fun h other => ?_, fun a cell held other => ?_⟩
  · rw [copy.graphs, Function.update_of_ne other]
  · rw [copy.old a (Heap.lt_fresh held), held]

/-- The copy is owned as the graph is, and the graph is left alone. -/
theorem Owned.deepCopy (own : Owned T w.heap g loc waiting (w.graphs g).readyNodes dropped [])
    (destruction : Iteration (Nat × Nat)) :
    ∃ w' loc' enough, (∀ fuel, enough ≤ fuel →
        w.deepCopy destruction fuel g = some (w', w.graphCount)) ∧
      Owned T w'.heap w.graphCount loc' waiting (w'.graphs w.graphCount).readyNodes dropped [] ∧
      (w'.graphs w.graphCount).valid = true ∧
      (w'.graphs w.graphCount).readyNodes.map Node.txn = (w.graphs g).readyNodes.map Node.txn ∧
      w'.graphCount = w.graphCount + 1 ∧ Kept (· ≠ w.graphCount) w w' := by
  obtain ⟨w', reach, place, enough, runs, copy, perm, nodeOf⟩ := own.exists_copy destruction
  refine ⟨w', copiedLoc loc waiting place w'.heap.fresh, enough, runs, ?_, by rw [copy.graph], ?_,
    copy.graphCount, copy.kept⟩
  · rw [copy.graph]
    exact own.copied copy perm nodeOf
  · rw [copy.graph, List.map_map]
    rfl

end Copy

/-! ## The states of the orders -/

variable (effect : OpFunc → KVStoreState → TxnCmd → KVStoreState) (destruction : Iteration (Nat × Nat))
  (T : Trace)

def runTxn (state : KVStoreState) (id : UInt64) : KVStoreState :=
  (T.cmds id).foldl (runCmd effect) state

/-- What `n` more transactions can make of a state. -/
def statesFrom (n : Nat) (dropped : List UInt64) (state : KVStoreState) : List KVStoreState :=
  (T.dependencies.orders n dropped).map fun order => order.foldl (runTxn effect T) state

theorem statesFrom_succ (n : Nat) (dropped : List UInt64) (state : KVStoreState) :
    statesFrom effect T (n + 1) dropped state = (T.dependencies.ready dropped).flatMap fun id =>
      statesFrom effect T n (id :: dropped) (runTxn effect T state id) := by
  simp only [statesFrom, Dependencies.orders, List.map_flatMap, List.map_map]
  rfl

variable {T} in
theorem runNode_eq {loc : UInt64 → Nat} {node : Node} (isNode : NodeOf T loc node)
    (state : KVStoreState) : runNode effect state node = runTxn effect T state node.txn := by
  rw [runNode, if_pos (.inr isNode.id), isNode.cmds, runTxn]

/-! ## The recursion -/

/-- With enough fuel, the recursion ends with the states of all orders, and touches no other graph
that was there. -/
def ResultsEnd (n : Nat) (dropped : List UInt64) (w : World) (g : Nat) (state : KVStoreState) : Prop :=
  ∃ w' results enough, (∀ fuel, enough ≤ fuel →
      possibleResults effect destruction fuel w g state = some (w', results)) ∧
    results.Perm (statesFrom effect T n dropped state) ∧
    (∃ loc waiting dropped', Owned T w'.heap g loc waiting (w'.graphs g).readyNodes dropped' []) ∧
    w.graphCount ≤ w'.graphCount ∧ Kept (fun k => k < w.graphCount ∧ k ≠ g) w w'

/-- So it does on any graph of which `m` transactions have been dropped. -/
def AllEnd (n m : Nat) : Prop :=
  ∀ w g loc waiting dropped state, Owned T w.heap g loc waiting (w.graphs g).readyNodes dropped [] →
    (w.graphs g).valid = true → g < w.graphCount → dropped.length = m →
    ResultsEnd effect destruction T n dropped w g state

section Recursion

variable {effect destruction T} {w : World} {g n : Nat} {loc : UInt64 → Nat}
  {waiting dropped : List UInt64} {state : KVStoreState}

/-- A node leaves the queue and is let go of. -/
theorem Owned.take {node : Node} {rest : List Node}
    (own : Owned T w.heap g loc waiting (node :: rest) dropped [])
    (valid : (w.graphs g).valid = true) :
    ∃ w' waiting', (∀ fuel, node.next.length ≤ fuel →
        (w.setReady g rest).dropAll fuel node.next = some w') ∧
      Owned T w'.heap g loc waiting' (w'.graphs g).readyNodes (node.txn :: dropped) [] ∧
      (w'.graphs g).valid = true ∧ w'.graphCount = w.graphCount ∧ Kept (· ≠ g) w w' := by
  have less : Owned T (w.setReady g rest).heap g loc waiting ((w.setReady g rest).graphs g).readyNodes
      (node.txn :: dropped) node.next := by
    simpa [World.setReady, World.setGraph] using own.letGo
  have still : ((w.setReady g rest).graphs g).valid = true := by
    simpa [World.setReady, World.setGraph] using valid
  obtain ⟨w', waiting', runs, own', ⟨readyNodes, graph⟩, count, kept⟩ := less.dropAll still
  exact ⟨w', waiting', runs, own', by rw [graph]; exact still, count, (Kept.setGraph _).trans kept⟩

/-- One round of the loop. -/
theorem Owned.tryNode (own : Owned T w.heap g loc waiting (w.graphs g).readyNodes dropped [])
    (ih : AllEnd effect destruction T n (dropped.length + 1))
    (state : KVStoreState) (results : List KVStoreState) {i : Nat} {id : UInt64}
    (here : ((w.graphs g).readyNodes.map Node.txn)[i]? = some id) :
    ∃ w' more enough, (∀ fuel, enough ≤ fuel →
        Workload.tryNode effect destruction (possibleResults effect destruction fuel) fuel g state
          (w, results) i = some (w', results ++ more)) ∧
      more.Perm (statesFrom effect T n (id :: dropped) (runTxn effect T state id)) ∧
      w.graphCount ≤ w'.graphCount ∧ Kept (· < w.graphCount) w w' := by
  obtain ⟨w₁, loc₁, enough₁, copied, own₁, valid, txns, count₁, kept₁⟩ := own.deepCopy destruction
  rw [← txns, List.getElem?_map, Option.map_eq_some_iff] at here
  obtain ⟨node, found, same⟩ := here
  subst same
  obtain ⟨within, at_i⟩ := List.getElem?_eq_some_iff.mp found
  have perm : (w₁.graphs w.graphCount).readyNodes.Perm
      (node :: (w₁.graphs w.graphCount).readyNodes.eraseIdx i) := by
    rw [← at_i]
    exact (List.getElem_cons_eraseIdx_perm within).symm
  have isNode := own₁.nodes node (perm.mem_iff.mpr List.mem_cons_self)
  obtain ⟨w₂, waiting₂, ran, own₂, valid₂, count₂, kept₂⟩ := (own₁.perm_loose perm).take valid
  obtain ⟨w₃, more, enough₃, runs, states, ⟨loc₃, waiting₃, dropped₃, own₃⟩, count₃, kept₃⟩ :=
    ih w₂ w.graphCount loc₁ waiting₂ _ (runNode effect state node) own₂ valid₂ (by omega) rfl
  obtain ⟨w₄, enough₄, destroyed, count₄, kept₄⟩ := own₃.destroyGraph
  refine ⟨w₄, more, enough₁ + node.next.length + enough₃ + enough₄, fun fuel enough => ?_, ?_, by omega,
    ?_⟩
  · simp only [Workload.tryNode, copied fuel (by omega), Option.bind_some, found, ran fuel (by omega),
      runs fuel (by omega), destroyed fuel (by omega), Option.map_some]
  · rwa [runNode_eq effect isNode] at states
  · refine (((kept₁.trans kept₂).mono fun k below => ?_).trans (kept₃.mono fun k below => ?_)).trans
      (kept₄.mono fun k below => ?_)
    · exact Nat.ne_of_lt below
    · exact ⟨by omega, Nat.ne_of_lt below⟩
    · exact Nat.ne_of_lt below

/-- What happens to other graphs, and to new ones. -/
theorem Owned.kept {w' : World} (own : Owned T w.heap g loc waiting (w.graphs g).readyNodes dropped [])
    (below : g < w.graphCount) (kept : Kept (· < w.graphCount) w w') :
    Owned T w'.heap g loc waiting (w'.graphs g).readyNodes dropped [] := by
  rw [kept.graphs g below]
  exact own.frame fun a cell there same => kept.cells a cell there (same ▸ below)

/-- The loop, from some node of the queue on. -/
theorem Owned.tryNodes (own : Owned T w.heap g loc waiting (w.graphs g).readyNodes dropped [])
    (below : g < w.graphCount)
    (ih : AllEnd effect destruction T n (dropped.length + 1))
    (state : KVStoreState) (front rest : List UInt64) (split : (w.graphs g).readyNodes.map Node.txn = front ++ rest)
    (results : List KVStoreState) :
    ∃ w' more enough, (∀ fuel, enough ≤ fuel →
        (List.range' front.length rest.length).foldlM (Workload.tryNode effect destruction
          (possibleResults effect destruction fuel) fuel g state) (w, results) =
            some (w', results ++ more)) ∧
      more.Perm (rest.flatMap fun id =>
        statesFrom effect T n (id :: dropped) (runTxn effect T state id)) ∧
      w.graphCount ≤ w'.graphCount ∧ Kept (· < w.graphCount) w w' := by
  induction rest generalizing front w results with
  | nil => exact ⟨w, [], 0, fun _ _ => by simp, .nil, le_rfl, .refl⟩
  | cons id rest tail =>
    obtain ⟨w₁, more₁, enough₁, runs₁, states₁, count₁, kept₁⟩ :=
      own.tryNode ih state results (i := front.length) (by rw [split, List.getElem?_append_right le_rfl,
        Nat.sub_self, List.getElem?_cons_zero])
    have split₁ : (w₁.graphs g).readyNodes.map Node.txn = (front ++ [id]) ++ rest := by
      rw [kept₁.graphs g below, split, List.append_assoc, List.singleton_append]
    obtain ⟨w₂, more₂, enough₂, runs₂, states₂, count₂, kept₂⟩ :=
      tail (own.kept below kept₁) (by omega) (front ++ [id]) split₁ (results ++ more₁)
    refine ⟨w₂, more₁ ++ more₂, enough₁ + enough₂, fun fuel more => ?_, ?_, by omega,
      kept₁.trans (kept₂.mono fun k early => by omega)⟩
    · rw [List.length_cons, List.range'_succ, List.foldlM_cons, runs₁ fuel (by omega),
        ← List.append_assoc]
      have next := runs₂ fuel (by omega)
      rw [List.length_append, List.length_singleton] at next
      exact next
    · rw [List.flatMap_cons]
      exact states₁.append states₂

variable (effect destruction) in
theorem possibleResults_ends (state : KVStoreState)
    (own : Owned T w.heap g loc waiting (w.graphs g).readyNodes dropped [])
    (valid : (w.graphs g).valid = true) (below : g < w.graphCount)
    (size : dropped.length + n = T.ids.length) :
    ResultsEnd effect destruction T n dropped w g state := by
  induction n generalizing w g loc waiting dropped state with
  | zero =>
    have none : (w.graphs g).readyNodes = [] := List.length_eq_zero_iff.mp (by have := own.size; omega)
    refine ⟨w, [state], 1, fun fuel enough => ?_, ?_, ⟨loc, waiting, dropped, own⟩, le_rfl, .refl⟩
    · obtain ⟨fuel, rfl⟩ := Nat.exists_eq_add_one_of_ne_zero (n := fuel) (by omega)
      rw [possibleResults, none]
    · exact .refl _
  | succ n ih =>
    have ready := own.ready_perm
    rcases queue : (w.graphs g).readyNodes with _ | ⟨node, _ | ⟨second, rest⟩⟩
    · rw [queue] at own
      have stuck := own.size
      rw [own.waiting_nil, List.length_nil, List.length_nil] at stuck
      omega
    -- The only node that is ready.
    · rw [queue] at own ready
      have isNode := own.nodes node List.mem_cons_self
      obtain ⟨w₁, waiting₁, ran, own₁, valid₁, count₁, kept₁⟩ := own.take valid
      obtain ⟨w₂, results, enough, runs, states, owned, count₂, kept₂⟩ :=
        ih (runNode effect state node) own₁ valid₁ (by omega) (by rw [List.length_cons]; omega)
      refine ⟨w₂, results, node.next.length + enough + 1, fun fuel more => ?_, ?_, owned, by omega,
        (kept₁.mono fun k other => other.2).trans (kept₂.mono fun k other => by rwa [count₁])⟩
      · obtain ⟨fuel, rfl⟩ := Nat.exists_eq_add_one_of_ne_zero (n := fuel) (by omega)
        rw [possibleResults, queue]
        simp only [ran fuel (by omega), Option.bind_some, runs fuel (by omega)]
      · rw [runNode_eq effect isNode] at states
        rw [statesFrom_succ]
        refine states.trans (List.Perm.trans ?_ (ready.flatMap_right _))
        simp
    -- A copy for each node.
    · obtain ⟨w', results, enough, runs, states, count, kept⟩ := own.tryNodes below
        (fun w g loc waiting dropped' state own valid below one => ih state own valid below (by omega))
        state [] _ rfl []
      refine ⟨w', results, enough + 1, fun fuel more => ?_, ?_,
        ⟨loc, waiting, dropped, own.kept below kept⟩, count, kept.mono fun k other => other.1⟩
      · obtain ⟨fuel, rfl⟩ := Nat.exists_eq_add_one_of_ne_zero (n := fuel) (by omega)
        have loop := runs fuel (by omega)
        rw [possibleResults, queue]
        rw [queue] at loop
        simpa [List.range_eq_range'] using loop
      · rw [statesFrom_succ]
        exact states.trans (ready.flatMap_right _)

end Recursion

/-- Parsing and the enumeration end, and each linear extension yields one result. -/
theorem getPossibleResults_perm (loop death : Iteration (UInt64 × Nat × List UInt64)) :
    ∃ results enough, results.Perm (T.dependencies.extensions.map fun order =>
        order.foldl (runTxn effect T) Store.empty) ∧
      ∀ fuel, enough ≤ fuel → (parseTxnTrace loop death fuel T.txns).bind (fun (w, g) =>
        getPossibleResults effect destruction fuel w g) = some results := by
  obtain ⟨w, loc, waiting, parsed, own, _, _, _, count⟩ := parseTxnTrace_owned T loop death
  obtain ⟨w₁, loc₁, enough₁, copied, own₁, valid₁, _, count₁, _⟩ := own.deepCopy destruction
  obtain ⟨w₂, results, enough₂, runs, states, ⟨_, _, _, own₂⟩, _, _⟩ :=
    possibleResults_ends effect destruction Store.empty own₁ valid₁ (by omega) (Nat.zero_add _)
  obtain ⟨w₃, enough₃, destroyed, _, _⟩ := own₂.destroyGraph
  refine ⟨results, T.ids.length + enough₁ + enough₂ + enough₃, ?_, fun fuel more => ?_⟩
  · exact states.trans ((T.dependencies.orders_perm).map _)
  · simp only [parsed fuel (by omega), Option.bind_some, getPossibleResults, copied fuel (by omega),
      runs fuel (by omega), destroyed fuel (by omega), Option.map_some]

end CloudLab.Workload
