import CloudLab.Library.Dependencies
import CloudLab.Workload.Graph

/-!
# Who owns a node

The transactions of a trace that have not been dropped are in the heap, or have left it for the
queue. `Owned` relates the two: a node in the heap has one owner for each dependency that has
not been dropped, and one for each pointer that is about to die. Letting go of a node and the
death of a pointer keep that so, whoever does it; a node leaves the heap exactly when all its
dependencies have been dropped.
-/
namespace CloudLab.Workload

open Library

/-! ## Traces -/

/-- A list of transactions whose dependencies exist and form no cycle. -/
structure Trace where
  txns : List Txn
  distinct : (txns.map Txn.txnId).Nodup
  closed : ∀ txn ∈ txns, ∀ dep ∈ txn.dependsOn, dep ∈ txns.map Txn.txnId
  acyclic : ∀ id, ¬Relation.TransGen
    (fun dep id => ∃ txn ∈ txns, txn.txnId = id ∧ dep ∈ txn.dependsOn) id id

namespace Trace

/-- No cycle, as what depends on a transaction ranks higher. -/
theorem acyclic_of_rank {txns : List Txn} (rank : UInt64 → Nat)
    (falls : ∀ txn ∈ txns, ∀ dep ∈ txn.dependsOn, rank dep < rank txn.txnId) (id : UInt64) :
    ¬Relation.TransGen (fun dep id => ∃ txn ∈ txns, txn.txnId = id ∧ dep ∈ txn.dependsOn) id id := by
  have lower : ∀ {i j}, Relation.TransGen
      (fun dep id => ∃ txn ∈ txns, txn.txnId = id ∧ dep ∈ txn.dependsOn) i j → rank i < rank j := by
    intro i j path
    induction path with
    | single edge =>
      obtain ⟨txn, member, rfl, dep⟩ := edge
      exact falls txn member _ dep
    | tail _ edge ih =>
      obtain ⟨txn, member, rfl, dep⟩ := edge
      exact ih.trans (falls txn member _ dep)
  exact fun cycle => Nat.lt_irrefl _ (lower cycle)

variable (T : Trace)

def ids : List UInt64 := T.txns.map Txn.txnId

def find? (id : UInt64) : Option Txn := T.txns.find? fun txn => txn.txnId = id

def dependsOn (id : UInt64) : List UInt64 := ((T.find? id).map Txn.dependsOn).getD []

def cmds (id : UInt64) : List TxnCmd :=
  ((T.find? id).map fun txn => txn.cmds.map KVPair.toCmd).getD []

variable {T}

theorem find?_eq_some {id : UInt64} {txn : Txn} (found : T.find? id = some txn) :
    txn ∈ T.txns ∧ txn.txnId = id := by
  rw [find?] at found
  exact ⟨List.mem_of_find?_eq_some found, by simpa using List.find?_some found⟩

theorem find?_of_mem {txn : Txn} (member : txn ∈ T.txns) : T.find? txn.txnId = some txn := by
  cases found : T.find? txn.txnId with
  | none =>
    rw [find?, List.find?_eq_none] at found
    simpa using found txn member
  | some other =>
    obtain ⟨listed, same⟩ := find?_eq_some found
    rw [List.inj_on_of_nodup_map T.distinct listed member same]

theorem exists_of_mem_dependsOn {id dep : UInt64} (member : dep ∈ T.dependsOn id) :
    ∃ txn ∈ T.txns, txn.txnId = id ∧ dep ∈ txn.dependsOn := by
  cases found : T.find? id with
  | none => simp [dependsOn, found] at member
  | some txn =>
    refine ⟨txn, (find?_eq_some found).1, (find?_eq_some found).2, ?_⟩
    simpa [dependsOn, found] using member

variable (T)

def dependencies : Dependencies UInt64 where
  items := T.ids
  deps := T.dependsOn
  distinct := T.distinct
  closed id _ dep member := by
    obtain ⟨txn, listed, _, inside⟩ := exists_of_mem_dependsOn member
    exact T.closed txn listed dep inside
  acyclic id cycle := T.acyclic id
    (Relation.TransGen.mono (fun _ _ member => exists_of_mem_dependsOn member.2) _ _ cycle)

end Trace

/-! ## Owners -/

variable (T : Trace)

/-- A node is what the trace says, with a pointer for each time that it is depended on. -/
structure NodeOf (loc : UInt64 → Nat) (node : Node) : Prop where
  id : node.id = 0
  cmds : node.cmds = T.cmds node.txn
  inside : ∀ a ∈ node.next, ∃ u ∈ T.ids, a = loc u
  next : ∀ u ∈ T.ids, node.next.count (loc u) = (T.dependsOn u).count node.txn

variable {T} in
theorem NodeOf.mem_next {loc : UInt64 → Nat} {node : Node} (isNode : NodeOf T loc node) {u : UInt64}
    (member : u ∈ T.ids) : loc u ∈ node.next ↔ node.txn ∈ T.dependsOn u := by
  rw [← List.count_pos_iff, isNode.next u member, List.count_pos_iff]

def owners (loc : UInt64 → Nat) (dropped : List UInt64) (owed : List Nat) (u : UInt64) : Nat :=
  (T.dependsOn u).countP (fun dep => dep ∉ dropped) + owed.count (loc u)

/-- The nodes of a graph: `waiting` are in the heap, `loose` have left it, `dropped` are gone, and
the pointers of `owed` are about to die. -/
structure Owned (heap : Heap GraphNode) (graph : Nat) (loc : UInt64 → Nat) (waiting : List UInt64)
    (loose : List Node) (dropped : List UInt64) (owed : List Nat) : Prop where
  places : (waiting ++ loose.map Node.txn ++ dropped).Perm T.ids
  apart : ∀ u ∈ T.ids, ∀ v ∈ T.ids, loc u = loc v → u = v
  cells : ∀ u ∈ waiting, ∃ node, heap.cells (loc u) = some ⟨⟨node, graph⟩, owners T loc dropped owed u⟩ ∧
    node.txn = u ∧ NodeOf T loc node
  owned : ∀ u ∈ waiting, 0 < owners T loc dropped owed u
  nodes : ∀ node ∈ loose, NodeOf T loc node
  looseDeps : ∀ node ∈ loose, ∀ dep ∈ T.dependsOn node.txn, dep ∈ dropped
  droppedDeps : ∀ id ∈ dropped, ∀ dep ∈ T.dependsOn id, dep ∈ dropped
  owed : ∀ a ∈ owed, ∃ u ∈ waiting, a = loc u

namespace Owned

variable {T} {heap : Heap GraphNode} {graph : Nat} {loc : UInt64 → Nat} {waiting : List UInt64}
  {loose : List Node} {dropped : List UInt64} {owed : List Nat}

theorem nodup (own : Owned T heap graph loc waiting loose dropped owed) :
    (waiting ++ loose.map Node.txn ++ dropped).Nodup := own.places.nodup_iff.mpr T.distinct

theorem size (own : Owned T heap graph loc waiting loose dropped owed) :
    waiting.length + loose.length + dropped.length = T.ids.length := by
  simpa [Nat.add_assoc] using own.places.length_eq

theorem mem_ids (own : Owned T heap graph loc waiting loose dropped owed) {u : UInt64} :
    u ∈ T.ids ↔ u ∈ waiting ∨ u ∈ loose.map Node.txn ∨ u ∈ dropped := by
  rw [← own.places.mem_iff, List.mem_append, List.mem_append, or_assoc]

theorem waiting_ids (own : Owned T heap graph loc waiting loose dropped owed) {u : UInt64}
    (member : u ∈ waiting) : u ∈ T.ids := own.mem_ids.mpr (.inl member)

theorem waiting_nodup (own : Owned T heap graph loc waiting loose dropped owed) : waiting.Nodup := by
  have all := own.nodup
  rw [List.append_assoc] at all
  exact (List.nodup_append.mp all).1

theorem waiting_left (own : Owned T heap graph loc waiting loose dropped owed) {u : UInt64}
    (member : u ∈ waiting) : u ∉ dropped := fun gone =>
  (List.nodup_append.mp own.nodup).2.2 u (by simp [member]) u gone rfl

theorem loose_left (own : Owned T heap graph loc waiting loose dropped owed) {node : Node}
    (member : node ∈ loose) : node.txn ∉ dropped := fun gone =>
  (List.nodup_append.mp own.nodup).2.2 node.txn
    (List.mem_append_right _ (List.mem_map_of_mem member)) node.txn gone rfl

/-- One that depends on something that has not been dropped is in the heap. -/
theorem waiting_of_dep (own : Owned T heap graph loc waiting loose dropped owed) {u dep : UInt64}
    (member : u ∈ T.ids) (depends : dep ∈ T.dependsOn u) (left : dep ∉ dropped) : u ∈ waiting := by
  rcases own.mem_ids.mp member with waits | outside | gone
  · exact waits
  · obtain ⟨node, listed, same⟩ := List.mem_map.mp outside
    exact absurd (own.looseDeps node listed dep (same ▸ depends)) left
  · exact absurd (own.droppedDeps u gone dep depends) left

/-- Whoever a node points to depends on it, and is waiting while the node is there. -/
theorem waiting_of_mem_next (own : Owned T heap graph loc waiting loose dropped owed) {node : Node}
    {a : Nat} (isNode : NodeOf T loc node) (left : node.txn ∉ dropped) (pointer : a ∈ node.next) :
    ∃ u ∈ waiting, a = loc u := by
  obtain ⟨u, listed, same⟩ := isNode.inside a pointer
  have depends := (isNode.mem_next listed).mp (same ▸ pointer)
  exact ⟨u, own.waiting_of_dep listed depends left, same⟩

theorem perm_loose {loose' : List Node} (own : Owned T heap graph loc waiting loose dropped owed)
    (perm : loose.Perm loose') : Owned T heap graph loc waiting loose' dropped owed where
  places := ((((perm.map Node.txn).append_left waiting).append_right dropped).symm).trans own.places
  apart := own.apart
  cells := own.cells
  owned := own.owned
  nodes node member := own.nodes node (perm.mem_iff.mpr member)
  looseDeps node member := own.looseDeps node (perm.mem_iff.mpr member)
  droppedDeps := own.droppedDeps
  owed := own.owed

theorem perm_owed {owed' : List Nat} (own : Owned T heap graph loc waiting loose dropped owed)
    (perm : owed.Perm owed') : Owned T heap graph loc waiting loose dropped owed' where
  places := own.places
  apart := own.apart
  cells := by simpa only [owners, perm.count_eq] using own.cells
  owned := by simpa only [owners, perm.count_eq] using own.owned
  nodes := own.nodes
  looseDeps := own.looseDeps
  droppedDeps := own.droppedDeps
  owed a member := own.owed a (perm.mem_iff.mpr member)

/-- What happens elsewhere in the heap. -/
theorem frame {heap' : Heap GraphNode} (own : Owned T heap graph loc waiting loose dropped owed)
    (kept : ∀ a cell, heap.cells a = some cell → cell.value.graph = graph →
      heap'.cells a = some cell) : Owned T heap' graph loc waiting loose dropped owed :=
  { own with
    cells := fun u member => by
      obtain ⟨node, there, same⟩ := own.cells u member
      exact ⟨node, kept _ _ there rfl, same⟩ }

/-! ## Letting go -/

theorem countP_not_mem_cons (deps : List UInt64) (id : UInt64) (absent : id ∉ dropped) :
    deps.countP (fun dep => dep ∉ dropped) =
      deps.countP (fun dep => dep ∉ id :: dropped) + deps.count id := by
  induction deps with
  | nil => simp
  | cons dep deps ih =>
    rw [List.countP_cons, List.countP_cons, List.count_cons, ih]
    by_cases same : dep = id
    · subst same
      simp [absent]
      omega
    · by_cases gone : dep ∈ dropped <;> simp [same, gone]
      omega

/-- A node outside the heap is let go of: its pointers are about to die. -/
theorem letGo {node : Node} (own : Owned T heap graph loc waiting (node :: loose) dropped owed) :
    Owned T heap graph loc waiting loose (node.txn :: dropped) (node.next ++ owed) := by
  have absent := own.loose_left List.mem_cons_self
  have isNode := own.nodes node List.mem_cons_self
  have same : ∀ u ∈ T.ids,
      owners T loc (node.txn :: dropped) (node.next ++ owed) u = owners T loc dropped owed u := by
    intro u member
    rw [owners, owners, List.count_append, isNode.next u member, countP_not_mem_cons _ _ absent]
    omega
  exact {
    places := by
      refine List.Perm.trans ?_ own.places
      rw [List.map_cons, List.append_assoc, List.append_assoc]
      exact List.perm_middle.append_left waiting
    apart := own.apart
    cells u member := by
      rw [same u (own.waiting_ids member)]
      exact own.cells u member
    owned u member := by
      rw [same u (own.waiting_ids member)]
      exact own.owned u member
    nodes other member := own.nodes other (List.mem_cons_of_mem _ member)
    looseDeps other member dep depends :=
      List.mem_cons_of_mem _ (own.looseDeps other (List.mem_cons_of_mem _ member) dep depends)
    droppedDeps id member dep depends := by
      rcases List.mem_cons.mp member with same | member
      · exact List.mem_cons_of_mem _ (own.looseDeps node List.mem_cons_self dep (same ▸ depends))
      · exact List.mem_cons_of_mem _ (own.droppedDeps id member dep depends)
    owed a member := by
      rcases List.mem_append.mp member with pointer | member
      · exact own.waiting_of_mem_next isNode absent pointer
      · exact own.owed a member }

/-! ## The death of a pointer -/

section Release

variable {a : Nat} {rest : List Nat} {u v : UInt64}

theorem owners_cons_self : owners T loc dropped (loc u :: rest) u = owners T loc dropped rest u + 1 := by
  rw [owners, owners, List.count_cons_self]
  omega

theorem owners_cons_of_ne (other : loc v ≠ loc u) :
    owners T loc dropped (loc u :: rest) v = owners T loc dropped rest v := by
  rw [owners, owners, List.count_cons_of_ne (Ne.symm other)]

theorem loc_ne (own : Owned T heap graph loc waiting loose dropped owed) (first : u ∈ waiting)
    (second : v ∈ waiting) (different : v ≠ u) : loc v ≠ loc u := fun same =>
  different (own.apart v (own.waiting_ids second) u (own.waiting_ids first) same)

/-- The node has other owners. -/
theorem release_shared (own : Owned T heap graph loc waiting loose dropped (loc u :: rest))
    (member : u ∈ waiting) (shared : 0 < owners T loc dropped rest u) :
    ∃ heap', heap.release (loc u) = some (heap', none) ∧
      Owned T heap' graph loc waiting loose dropped rest := by
  obtain ⟨node, there, isNode⟩ := own.cells u member
  obtain ⟨n, count⟩ := Nat.exists_eq_add_one_of_ne_zero (Nat.ne_of_gt shared)
  rw [owners_cons_self, count] at there
  refine ⟨_, Heap.release_shared there, own.places, own.apart, fun v inside => ?_, fun v inside => ?_,
    own.nodes, own.looseDeps, own.droppedDeps, fun b pending => own.owed b (by simp [pending])⟩
  · by_cases same : v = u
    · subst same
      refine ⟨node, ?_, isNode⟩
      rw [Heap.cells_alter, if_pos rfl, there, count]
      simp
    · have different := own.loc_ne member inside same
      rw [Heap.cells_alter_of_ne _ different, ← owners_cons_of_ne different]
      exact own.cells v inside
  · by_cases same : v = u
    · exact same ▸ shared
    · rw [← owners_cons_of_ne (own.loc_ne member inside same)]
      exact own.owned v inside

/-- The node has lost its last owner: everything it depends on has been dropped. -/
theorem release_last (own : Owned T heap graph loc waiting loose dropped (loc u :: rest))
    (member : u ∈ waiting) (last : owners T loc dropped rest u = 0) :
    ∃ heap' node, heap.release (loc u) = some (heap', some ⟨node, graph⟩) ∧ node.txn = u ∧
      Owned T heap' graph loc (waiting.erase u) (node :: loose) dropped rest := by
  obtain ⟨node, there, txn, isNode⟩ := own.cells u member
  rw [owners_cons_self, last] at there
  obtain ⟨deps, pointers⟩ : (T.dependsOn u).countP (fun dep => dep ∉ dropped) = 0 ∧
      rest.count (loc u) = 0 := Nat.add_eq_zero_iff.mp last
  have nodup := own.waiting_nodup
  have others : ∀ v ∈ waiting.erase u, v ∈ waiting ∧ v ≠ u := fun v inside =>
    ⟨List.mem_of_mem_erase inside, (nodup.mem_erase_iff.mp inside).1⟩
  refine ⟨_, node, Heap.release_last there, txn, ?_, own.apart, fun v inside => ?_, fun v inside => ?_,
    ?_, ?_, own.droppedDeps, fun b pending => ?_⟩
  · refine List.Perm.trans ?_ own.places
    rw [List.map_cons, txn]
    refine List.Perm.append_right dropped (List.perm_middle.trans ?_)
    exact ((List.perm_cons_erase member).symm).append_right _
  · obtain ⟨inside, same⟩ := others v inside
    have different := own.loc_ne member inside same
    rw [Heap.cells_alter_of_ne _ different, ← owners_cons_of_ne different]
    exact own.cells v inside
  · obtain ⟨inside, same⟩ := others v inside
    rw [← owners_cons_of_ne (own.loc_ne member inside same)]
    exact own.owned v inside
  · intro other listed
    rcases List.mem_cons.mp listed with same | listed
    · exact same ▸ isNode
    · exact own.nodes other listed
  · intro other listed dep depends
    rcases List.mem_cons.mp listed with same | listed
    · rw [same, txn] at depends
      simpa using List.countP_eq_zero.mp deps dep depends
    · exact own.looseDeps other listed dep depends
  · obtain ⟨v, inside, same⟩ := own.owed b (by simp [pending])
    refine ⟨v, nodup.mem_erase_iff.mpr ⟨?_, inside⟩, same⟩
    intro own
    subst own
    exact List.count_eq_zero.mp pointers (same ▸ pending)

/-- Either way, the pointer does not dangle. -/
theorem release (own : Owned T heap graph loc waiting loose dropped (a :: rest)) :
    (∃ heap', heap.release a = some (heap', none) ∧
      Owned T heap' graph loc waiting loose dropped rest) ∨
    ∃ heap' node waiting', heap.release a = some (heap', some ⟨node, graph⟩) ∧
      waiting.length = waiting'.length + 1 ∧
        Owned T heap' graph loc waiting' (node :: loose) dropped rest := by
  obtain ⟨u, member, rfl⟩ := own.owed a List.mem_cons_self
  by_cases last : owners T loc dropped rest u = 0
  · obtain ⟨heap', node, released, _, less⟩ := own.release_last member last
    refine .inr ⟨heap', node, waiting.erase u, released, ?_, less⟩
    rw [List.length_erase_of_mem member]
    have positive := List.length_pos_of_mem member
    omega
  · exact .inl (own.release_shared member (Nat.pos_of_ne_zero last))

end Release

/-! ## When nothing is left to be done -/

/-- A node stays in the heap for a dependency that has not been dropped. -/
theorem dep_of_waiting (own : Owned T heap graph loc waiting loose dropped []) {u : UInt64}
    (member : u ∈ waiting) : ∃ dep ∈ T.dependsOn u, dep ∉ dropped := by
  have positive := own.owned u member
  rw [owners, List.count_nil, Nat.add_zero, List.countP_pos_iff] at positive
  simpa using positive

/-- With no pointer about to die, the nodes outside the heap are those that are ready. -/
theorem ready_perm (own : Owned T heap graph loc waiting loose dropped []) :
    (loose.map Node.txn).Perm (T.dependencies.ready dropped) := by
  have outside : (loose.map Node.txn).Nodup := by
    have nodup := own.nodup
    rw [List.append_assoc] at nodup
    exact (List.nodup_append.mp (List.nodup_append.mp nodup).2.1).1
  rw [List.perm_ext_iff_of_nodup outside Dependencies.nodup_ready]
  intro u
  rw [Dependencies.mem_ready]
  constructor
  · intro member
    obtain ⟨node, listed, same⟩ := List.mem_map.mp member
    subst same
    exact ⟨own.mem_ids.mpr (.inr (.inl member)), own.loose_left listed, own.looseDeps node listed⟩
  · rintro ⟨listed, absent, deps⟩
    rcases own.mem_ids.mp listed with waits | outside | gone
    · obtain ⟨dep, depends, left⟩ := own.dep_of_waiting waits
      exact absurd (deps dep depends) left
    · exact outside
    · exact absurd gone absent

/-- As long as a transaction is left, one is outside the heap or a pointer is about to die. -/
theorem waiting_nil (own : Owned T heap graph loc waiting [] dropped []) : waiting = [] := by
  by_contra nonempty
  obtain ⟨u, member⟩ := List.exists_mem_of_ne_nil _ nonempty
  have absent := own.waiting_left member
  have left := T.dependencies.exists_ready (own.waiting_ids member) absent
  exact left (List.nil_perm.mp own.ready_perm)

end Owned

end CloudLab.Workload
