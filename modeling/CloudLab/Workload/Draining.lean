import CloudLab.Library.Extensions
import CloudLab.Workload.Results

/-!
# Draining a graph (`txn_trace_dump.cpp`)

`test_graph` takes a graph apart from the front of its queue and prints the plain commands, first of
the graph that was parsed and then of a copy of it. A node is freed by the last of the pointers to
it, so that the order depends on how the lists are ordered: but the copy keeps their orders, and both
texts are the same.
-/
namespace CloudLab.Workload

open Library

/-! ## The program -/

inductive Line where
  | size (n : Nat)
  | cmd (op : Op) (key : UInt32) (first : UInt8)
  deriving DecidableEq

/-- `*cmd.value.data()` is the zero byte behind an empty value. -/
def TxnCmd.line (cmd : TxnCmd) : Option Line :=
  match cmd.op with
  | .op op => some (.cmd op cmd.key (cmd.value.headD 0))
  | .func _ => none

/-- `test_graph` on a graph. -/
def testGraph : Nat → World → Nat → Option (World × List Line)
  | 0, _, _ => none
  | fuel + 1, w, g =>
    match (w.graphs g).readyNodes with
    | [] => some (w, [])
    | node :: rest =>
      ((w.setReady g rest).dropAll fuel node.next).bind fun w =>
        (testGraph fuel w g).map fun (w, lines) =>
          (w, .size (rest.length + 1) :: node.cmds.filterMap TxnCmd.line ++ lines)

/-- `test_graph` on a path, and what it prints of the graph and of the copy. -/
def testGraphs (loop death : Iteration (UInt64 × Nat × List UInt64))
    (destruction : Iteration (Nat × Nat)) (fuel : Nat) (txns : List Txn) :
    Option (World × List Line × List Line) :=
  (parseTxnTrace loop death fuel txns).bind fun (w, graph) =>
    (w.deepCopy destruction fuel graph).bind fun (w, copy) =>
      (testGraph fuel w graph).bind fun (w, first) =>
        (testGraph fuel w copy).bind fun (w, second) =>
          (w.destroyGraph fuel copy).bind fun w =>
            (w.destroyGraph fuel graph).map fun w => (w, first, second)

/-! ## The order of the pointers -/

/-- The nodes of a graph point to what `succ` says, in that order. -/
structure Shaped (succ : UInt64 → List UInt64) (heap : Heap GraphNode) (loc : UInt64 → Nat)
    (waiting : List UInt64) (loose : List Node) : Prop where
  cells : ∀ u ∈ waiting, ∀ cell, heap.cells (loc u) = some cell →
    cell.value.next = (succ u).map loc
  loose : ∀ node ∈ loose, node.next = (succ node.txn).map loc

section Shape

variable {T : Trace} {w : World} {g : Nat} {loc : UInt64 → Nat} {waiting dropped : List UInt64}
  {succ : UInt64 → List UInt64}

theorem exists_map_loc {next : List Nat} (inside : ∀ a ∈ next, ∃ u ∈ T.ids, a = loc u) :
    ∃ us : List UInt64, (∀ u ∈ us, u ∈ T.ids) ∧ next = us.map loc := by
  induction next with
  | nil => exact ⟨[], nofun, rfl⟩
  | cons a next ih =>
    obtain ⟨u, listed, rfl⟩ := inside a List.mem_cons_self
    obtain ⟨us, all, rfl⟩ := ih fun b member => inside b (List.mem_cons_of_mem _ member)
    refine ⟨u :: us, fun v member => ?_, rfl⟩
    rcases List.mem_cons.mp member with same | member
    · exact same ▸ listed
    · exact all v member

/-- The pointers of a node are to what depends on it. -/
theorem Owned.exists_succ {heap : Heap GraphNode} {loose : List Node} {owed : List Nat}
    (own : Owned T heap g loc waiting loose dropped owed) {node : Node} (isNode : NodeOf T loc node) :
    ∃ us : List UInt64, node.next = us.map loc ∧ ∀ u, u ∈ us ↔ u ∈ T.ids ∧ node.txn ∈ T.dependsOn u := by
  obtain ⟨us, listed, next⟩ := exists_map_loc isNode.inside
  refine ⟨us, next, fun u => ⟨fun member => ?_, fun ⟨member, depends⟩ => ?_⟩⟩
  · refine ⟨listed u member, (isNode.mem_next (listed u member)).mp ?_⟩
    exact next ▸ List.mem_map_of_mem member
  · have pointer := (isNode.mem_next member).mpr depends
    rw [next] at pointer
    obtain ⟨v, inside, same⟩ := List.mem_map.mp pointer
    exact own.apart v (listed v inside) u member same ▸ inside

/-- There is an order of the pointers, as long as nothing has been dropped. -/
theorem Owned.exists_shape {heap : Heap GraphNode} {loose : List Node}
    (own : Owned T heap g loc waiting loose [] []) :
    ∃ succ, Shaped succ heap loc waiting loose ∧
      ∀ id ∈ T.ids, ∀ u, u ∈ succ id ↔ u ∈ T.ids ∧ id ∈ T.dependsOn u := by
  have each : ∀ id, ∃ us : List UInt64, id ∈ T.ids →
      (id ∈ waiting → ∀ cell, heap.cells (loc id) = some cell → cell.value.next = us.map loc) ∧
      (∀ node ∈ loose, node.txn = id → node.next = us.map loc) ∧
      ∀ u, u ∈ us ↔ u ∈ T.ids ∧ id ∈ T.dependsOn u := by
    intro id
    by_cases listed : id ∈ T.ids
    · have nodup := own.nodup
      rw [List.append_nil] at nodup
      obtain ⟨_, once, apart⟩ := List.nodup_append.mp nodup
      rcases own.mem_ids.mp listed with waits | outside | gone
      · obtain ⟨node, there, rfl, isNode⟩ := own.cells id waits
        obtain ⟨us, next, mem_iff⟩ := own.exists_succ isNode
        refine ⟨us, fun _ => ⟨fun _ cell inside => ?_, fun other member same => ?_, mem_iff⟩⟩
        · obtain rfl := Option.some.inj (there.symm.trans inside)
          exact next
        · exact absurd same (apart _ waits _ (List.mem_map_of_mem member)).symm
      · obtain ⟨node, member, rfl⟩ := List.mem_map.mp outside
        obtain ⟨us, next, mem_iff⟩ := own.exists_succ (own.nodes node member)
        refine ⟨us, fun _ => ⟨fun waits => ?_, fun other inside same => ?_, mem_iff⟩⟩
        · exact absurd rfl (apart _ waits _ outside)
        · rw [List.inj_on_of_nodup_map once inside member same]
          exact next
      · cases gone
    · exact ⟨[], fun member => absurd member listed⟩
  choose succ shape using each
  refine ⟨succ, ⟨fun u waits => (shape u (own.waiting_ids waits)).1 waits, fun node member => ?_⟩,
    fun id listed => (shape id listed).2.2⟩
  have listed : node.txn ∈ T.ids := own.mem_ids.mpr (.inr (.inl (List.mem_map_of_mem member)))
  exact (shape _ listed).2.1 node member rfl

/-- What becomes ready when pointers die: each by the last pointer to it. -/
def freedBy (T : Trace) (dropped us : List UInt64) : List UInt64 :=
  us.dedup.filter fun u => (T.dependsOn u).all (· ∈ dropped)

theorem freedBy_cons_last {u : UInt64} {us : List UInt64} (last : u ∉ us)
    (free : ∀ d ∈ T.dependsOn u, d ∈ dropped) :
    freedBy T dropped (u :: us) = u :: freedBy T dropped us := by
  rw [freedBy, List.dedup_cons_of_notMem last, List.filter_cons_of_pos (by simpa using free), freedBy]

theorem freedBy_cons_shared {u : UInt64} {us : List UInt64}
    (shared : u ∈ us ∨ ∃ d ∈ T.dependsOn u, d ∉ dropped) :
    freedBy T dropped (u :: us) = freedBy T dropped us := by
  by_cases again : u ∈ us
  · rw [freedBy, List.dedup_cons_of_mem again, freedBy]
  · obtain ⟨d, depends, left⟩ := shared.resolve_left again
    rw [freedBy, List.dedup_cons_of_notMem again, List.filter_cons_of_neg, freedBy]
    simpa using ⟨d, depends, left⟩

theorem Shaped.release {a : Nat} {heap heap' : Heap GraphNode} {last : Option GraphNode}
    {waiting' : List UInt64} {loose : List Node} (shaped : Shaped succ heap loc waiting loose)
    (released : heap.release a = some (heap', last)) (fewer : ∀ u ∈ waiting', u ∈ waiting) :
    Shaped succ heap' loc waiting' loose := by
  refine ⟨fun u waits cell there => ?_, shaped.loose⟩
  obtain ⟨n, before⟩ := (Heap.release_value released).1 _ _ there
  exact shaped.cells u (fewer u waits) ⟨cell.value, n⟩ before

/-- Pointers die in a valid graph, in this order. -/
theorem Owned.dropAll_freed {us : List UInt64} (listed : ∀ u ∈ us, u ∈ T.ids)
    (own : Owned T w.heap g loc waiting (w.graphs g).readyNodes dropped (us.map loc))
    (shaped : Shaped succ w.heap loc waiting (w.graphs g).readyNodes)
    (valid : (w.graphs g).valid = true) :
    ∃ w' waiting', (∀ fuel, us.length ≤ fuel → w.dropAll fuel (us.map loc) = some w') ∧
      Owned T w'.heap g loc waiting' (w'.graphs g).readyNodes dropped [] ∧
      Shaped succ w'.heap loc waiting' (w'.graphs g).readyNodes ∧
      (w'.graphs g).readyNodes.map Node.txn =
        (w.graphs g).readyNodes.map Node.txn ++ freedBy T dropped us ∧
      (w'.graphs g).valid = true ∧ w'.graphCount = w.graphCount ∧ Kept (· ≠ g) w w' := by
  induction us generalizing w waiting with
  | nil =>
    refine ⟨w, waiting, fun fuel _ => by cases fuel <;> rfl, own, shaped, ?_, valid, rfl, .refl⟩
    simp [freedBy]
  | cons u us ih =>
    have member : u ∈ waiting := by
      obtain ⟨v, waits, same⟩ := own.owed _ List.mem_cons_self
      exact own.apart u (listed u List.mem_cons_self) v (own.waiting_ids waits) same ▸ waits
    have rest : ∀ v ∈ us, v ∈ T.ids := fun v inside => listed v (List.mem_cons_of_mem _ inside)
    have pointed : loc u ∈ us.map loc ↔ u ∈ us := by
      refine ⟨fun inside => ?_, List.mem_map_of_mem⟩
      obtain ⟨v, there, same⟩ := List.mem_map.mp inside
      exact own.apart v (rest v there) u (own.waiting_ids member) same ▸ there
    rw [List.map_cons] at own
    by_cases last : owners T loc dropped (us.map loc) u = 0
    -- The node comes into the queue.
    · obtain ⟨heap, node, released, txn, less⟩ := own.release_last member last
      let moved := World.addToReady { w with heap := heap } g node
      have there : (moved.graphs g).readyNodes = (w.graphs g).readyNodes ++ [node] := by
        simp [moved, World.addToReady, World.setReady, World.setGraph]
      have still : (moved.graphs g).valid = true := by
        simpa [moved, World.addToReady, World.setReady, World.setGraph] using valid
      have own' : Owned T moved.heap g loc (waiting.erase u) (moved.graphs g).readyNodes dropped
          (us.map loc) := by
        rw [there]
        exact less.perm_loose (List.perm_append_singleton _ _).symm
      have value := (Heap.release_value released).2 _ rfl
      have shaped' : Shaped succ moved.heap loc (waiting.erase u) (moved.graphs g).readyNodes := by
        rw [there]
        refine ⟨(shaped.release released fun v => List.mem_of_mem_erase).cells, fun other inside => ?_⟩
        rcases List.mem_append.mp inside with before | new
        · exact shaped.loose other before
        · obtain rfl := List.mem_singleton.mp new
          rw [txn]
          exact shaped.cells u member _ value
      obtain ⟨w', waiting', runs, own₁, shaped₁, txns, valid₁, count, kept⟩ :=
        ih rest own' shaped' still
      refine ⟨w', waiting', fun fuel enough => ?_, own₁, shaped₁, ?_, valid₁, count,
        ((own.kept_release released).trans (Kept.setGraph _)).trans kept⟩
      · obtain ⟨fuel, rfl⟩ := Nat.exists_eq_add_one_of_ne_zero (n := fuel) (by
          rw [List.length_cons] at enough
          omega)
        rw [List.map_cons, World.dropAll, released, Option.bind_some]
        simp only [valid, if_true]
        exact runs fuel (by simpa using enough)
      · obtain ⟨deps, pointers⟩ : (T.dependsOn u).countP (fun dep => dep ∉ dropped) = 0 ∧
            (us.map loc).count (loc u) = 0 := Nat.add_eq_zero_iff.mp last
        rw [txns, there, List.map_append, List.append_assoc, freedBy_cons_last, List.map_singleton, txn,
          List.singleton_append]
        · exact fun again => List.count_eq_zero.mp pointers (pointed.mpr again)
        · intro d depends
          simpa using List.countP_eq_zero.mp deps d depends
    -- It has other owners.
    · obtain ⟨heap, released, less⟩ := own.release_shared member (Nat.pos_of_ne_zero last)
      obtain ⟨w', waiting', runs, own₁, shaped₁, txns, valid₁, count, kept⟩ :=
        ih (w := { w with heap := heap }) rest less (shaped.release released fun _ => id) valid
      refine ⟨w', waiting', fun fuel enough => ?_, own₁, shaped₁, ?_, valid₁, count,
        (own.kept_release released).trans kept⟩
      · obtain ⟨fuel, rfl⟩ := Nat.exists_eq_add_one_of_ne_zero (n := fuel) (by
          rw [List.length_cons] at enough
          omega)
        rw [List.map_cons, World.dropAll, released, Option.bind_some]
        exact runs fuel (by simpa using enough)
      · rw [txns, freedBy_cons_shared]
        by_contra alone
        rw [not_or, not_exists] at alone
        refine last (Nat.add_eq_zero_iff.mpr ⟨List.countP_eq_zero.mpr fun d depends => ?_,
          List.count_eq_zero.mpr fun pointer => alone.1 (pointed.mp pointer)⟩)
        simpa using fun left => alone.2 d ⟨depends, left⟩

/-! ## A whole graph -/

variable (T) in
/-- The text of an order: before each transaction the number of those that are ready, then its plain
commands. -/
def report : List UInt64 → List UInt64 → List Line
  | _, [] => []
  | dropped, id :: order => .size (T.dependencies.ready dropped).length ::
      (T.cmds id).filterMap TxnCmd.line ++ report (id :: dropped) order

/-- `test_graph` ends, and has let the transactions go in the order of its queue. -/
theorem Owned.testGraph (n : Nat)
    (own : Owned T w.heap g loc waiting (w.graphs g).readyNodes dropped [])
    (shaped : Shaped succ w.heap loc waiting (w.graphs g).readyNodes)
    (listed : ∀ id ∈ T.ids, ∀ u ∈ succ id, u ∈ T.ids) (valid : (w.graphs g).valid = true)
    (size : dropped.length + n = T.ids.length) :
    ∃ w' waiting' dropped' enough, (∀ fuel, enough ≤ fuel → Workload.testGraph fuel w g = some (w',
        report T dropped (T.dependencies.drain succ n dropped ((w.graphs g).readyNodes.map Node.txn)))) ∧
      Owned T w'.heap g loc waiting' (w'.graphs g).readyNodes dropped' [] ∧
      w'.graphCount = w.graphCount ∧ Kept (· ≠ g) w w' := by
  induction n generalizing w waiting dropped with
  | zero =>
    have none : (w.graphs g).readyNodes = [] := List.length_eq_zero_iff.mp (by have := own.size; omega)
    refine ⟨w, waiting, dropped, 1, fun fuel enough => ?_, own, rfl, .refl⟩
    obtain ⟨fuel, rfl⟩ := Nat.exists_eq_add_one_of_ne_zero (n := fuel) (by omega)
    rw [Workload.testGraph, none]
    rfl
  | succ n ih =>
    have ready := own.ready_perm.length_eq
    rcases queue : (w.graphs g).readyNodes with _ | ⟨node, rest⟩
    · rw [queue] at own
      have stuck := own.size
      rw [own.waiting_nil, List.length_nil, List.length_nil] at stuck
      omega
    · rw [queue] at own shaped ready
      have isNode := own.nodes node List.mem_cons_self
      have there : ((w.setReady g rest).graphs g).readyNodes = rest := by
        simp [World.setReady, World.setGraph]
      have still : ((w.setReady g rest).graphs g).valid = true := by
        simpa [World.setReady, World.setGraph] using valid
      have pointers : node.next = (succ node.txn).map loc := shaped.loose node List.mem_cons_self
      have member : node.txn ∈ T.ids := own.mem_ids.mpr (.inr (.inl List.mem_cons_self))
      have less : Owned T (w.setReady g rest).heap g loc waiting
          ((w.setReady g rest).graphs g).readyNodes (node.txn :: dropped) ((succ node.txn).map loc) := by
        have gone := own.letGo
        rwa [List.append_nil, pointers, ← there] at gone
      have shaped' : Shaped succ (w.setReady g rest).heap loc waiting
          ((w.setReady g rest).graphs g).readyNodes := by
        rw [there]
        exact ⟨shaped.cells, fun other inside => shaped.loose other (List.mem_cons_of_mem _ inside)⟩
      obtain ⟨w₁, waiting₁, ran, own₁, shaped₁, txns, valid₁, count₁, kept₁⟩ :=
        less.dropAll_freed (listed _ member) shaped' still
      obtain ⟨w₂, waiting₂, dropped₂, enough, runs, own₂, count₂, kept₂⟩ :=
        ih own₁ shaped₁ valid₁ (by rw [List.length_cons]; omega)
      refine ⟨w₂, waiting₂, dropped₂, (succ node.txn).length + enough + 1, fun fuel more => ?_, own₂,
        count₂.trans count₁, ((Kept.setGraph _).trans kept₁).trans kept₂⟩
      obtain ⟨fuel, rfl⟩ := Nat.exists_eq_add_one_of_ne_zero (n := fuel) (by omega)
      rw [Workload.testGraph, queue]
      simp only [pointers, ran fuel (by omega), Option.bind_some, runs fuel (by omega), Option.map_some]
      rw [txns, there, List.map_cons, Dependencies.drain, report, ← ready, isNode.cmds, List.length_map]
      rfl

/-- What other graphs do. -/
theorem Shaped.kept {w' : World} (own : Owned T w.heap g loc waiting (w.graphs g).readyNodes dropped [])
    (shaped : Shaped succ w.heap loc waiting (w.graphs g).readyNodes) {kind : Nat → Prop}
    (here : kind g) (kept : Kept kind w w') :
    Owned T w'.heap g loc waiting (w'.graphs g).readyNodes dropped [] ∧
      Shaped succ w'.heap loc waiting (w'.graphs g).readyNodes := by
  rw [kept.graphs g here]
  refine ⟨own.frame fun a cell there same => kept.cells a cell there (same ▸ here),
    fun u waits cell there => ?_, shaped.loose⟩
  obtain ⟨node, before, _⟩ := own.cells u waits
  obtain rfl := Option.some.inj ((kept.cells _ _ before here).symm.trans there)
  exact shaped.cells u waits _ before

/-- The copy of a graph has the same orders. -/
theorem Shaped.deepCopy (own : Owned T w.heap g loc waiting (w.graphs g).readyNodes [] [])
    (shaped : Shaped succ w.heap loc waiting (w.graphs g).readyNodes)
    (waits : ∀ id ∈ T.ids, ∀ u, u ∈ succ id ↔ u ∈ T.ids ∧ id ∈ T.dependsOn u)
    (destruction : Iteration (Nat × Nat)) :
    ∃ w' loc' enough, (∀ fuel, enough ≤ fuel →
        w.deepCopy destruction fuel g = some (w', w.graphCount)) ∧
      Owned T w'.heap w.graphCount loc' waiting (w'.graphs w.graphCount).readyNodes [] [] ∧
      Shaped succ w'.heap loc' waiting (w'.graphs w.graphCount).readyNodes ∧
      (w'.graphs w.graphCount).valid = true ∧
      (w'.graphs w.graphCount).readyNodes.map Node.txn = (w.graphs g).readyNodes.map Node.txn ∧
      w'.graphCount = w.graphCount + 1 ∧ Kept (· ≠ w.graphCount) w w' := by
  obtain ⟨w', reach, place, enough, runs, copy, perm, nodeOf⟩ := own.exists_copy destruction
  -- Nothing has been dropped, so that whatever a node points to waits.
  have placed : ∀ id ∈ T.ids, ((succ id).map loc).map place =
      (succ id).map (copiedLoc loc waiting place w'.heap.fresh) := by
    intro id member
    rw [List.map_map]
    refine List.map_congr_left fun u inside => ?_
    obtain ⟨listed, depends⟩ := (waits id member u).mp inside
    rw [copiedLoc, if_pos (own.waiting_of_dep listed depends List.not_mem_nil), Function.comp_apply]
  refine ⟨w', copiedLoc loc waiting place w'.heap.fresh, enough, runs, ?_, ⟨fun u inside cell there => ?_,
    fun node member => ?_⟩, by rw [copy.graph], ?_, copy.graphCount, copy.kept⟩
  · rw [copy.graph]
    exact own.copied copy perm nodeOf
  · rw [copiedLoc, if_pos inside,
      (copy.new _ (perm.mem_iff.mpr (List.mem_map_of_mem inside))).2] at there
    obtain ⟨n, before, _⟩ := own.cells u inside
    have same : w.nodeAt (loc u) = ⟨n, g⟩ := (Cell.mk.inj (World.cells_at before)).1.symm
    obtain rfl := Option.some.inj there
    rw [← placed u (own.waiting_ids inside), ← shaped.cells u inside _ before, same]
  · rw [copy.graph] at member
    obtain ⟨n, inside, rfl⟩ := List.mem_map.mp member
    have listed : n.txn ∈ T.ids := own.mem_ids.mpr (.inr (.inl (List.mem_map_of_mem inside)))
    exact (congrArg (List.map place) (shaped.loose n inside)).trans (placed n.txn listed)
  · rw [copy.graph, List.map_map]
    rfl

end Shape

/-- `test_graph` prints the same of a graph and of its copy: the text of a linear extension. -/
theorem testGraphs_same (T : Trace) (loop death : Iteration (UInt64 × Nat × List UInt64))
    (destruction : Iteration (Nat × Nat)) :
    ∃ w order enough, T.dependencies.LinearExtension order ∧ ∀ fuel, enough ≤ fuel →
      testGraphs loop death destruction fuel T.txns = some (w, report T [] order, report T [] order) := by
  obtain ⟨w, loc, waiting, parsed, own, valid, _, _, count⟩ := parseTxnTrace_owned T loop death
  obtain ⟨succ, shaped, waits⟩ := own.exists_shape
  have listed : ∀ id ∈ T.ids, ∀ u ∈ succ id, u ∈ T.ids := fun id member u inside =>
    ((waits id member u).mp inside).1
  obtain ⟨w₁, loc₁, enough₁, copied, own₁, shaped₁, valid₁, txns, count₁, kept₁⟩ :=
    shaped.deepCopy own waits destruction
  rw [count] at copied own₁ shaped₁ valid₁ txns kept₁
  obtain ⟨own', shaped'⟩ := shaped.kept own (by decide) kept₁
  have valid' : (w₁.graphs 0).valid = true := by rw [kept₁.graphs 0 (by decide), valid]
  obtain ⟨w₂, waiting₂, dropped₂, enough₂, first, own₂, count₂, kept₂⟩ :=
    own'.testGraph T.ids.length shaped' listed valid' (Nat.zero_add _)
  obtain ⟨own₁', shaped₁'⟩ := shaped₁.kept own₁ (by decide) kept₂
  have valid₁' : (w₂.graphs 1).valid = true := by rw [kept₂.graphs 1 (by decide), valid₁]
  obtain ⟨w₃, waiting₃, dropped₃, enough₃, second, own₃, count₃, kept₃⟩ :=
    own₁'.testGraph T.ids.length shaped₁' listed valid₁' (Nat.zero_add _)
  obtain ⟨w₄, enough₄, destroyed, _, kept₄⟩ := own₃.destroyGraph
  have own₀ : Owned T w₄.heap 0 loc waiting₂ (w₄.graphs 0).readyNodes dropped₂ [] := by
    have kept := kept₃.trans kept₄
    rw [kept.graphs 0 (by decide)]
    exact own₂.frame fun a cell there same => kept.cells a cell there (by rw [same]; decide)
  obtain ⟨w₅, enough₅, destroyed', _, _⟩ := own₀.destroyGraph
  refine ⟨w₅, _, T.ids.length + enough₁ + enough₂ + enough₃ + enough₄ + enough₅,
    Dependencies.drain_linear waits own.ready_perm, fun fuel more => ?_⟩
  rw [kept₂.graphs 1 (by decide), txns] at second
  rw [kept₁.graphs 0 (by decide)] at first
  simp only [testGraphs, parsed fuel (by omega), Option.bind_some, copied fuel (by omega),
    first fuel (by omega), second fuel (by omega), destroyed fuel (by omega), destroyed' fuel (by omega),
    Option.map_some]
  rfl

end CloudLab.Workload
