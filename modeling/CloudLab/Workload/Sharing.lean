import CloudLab.Library.RefCounts
import CloudLab.Workload.Graph

/-!
# Use counts

Whatever the transactions are, every statement of the loader keeps the use counts exact: that of a
node is the number of the pointers to it, in the nodes, in the queues and in the variables of the
functions that run. While a node or a queue is being copied, its pointers count as those of a
variable.
-/
namespace CloudLab.Workload

open Library

namespace World

/-- The pointers to an address from the queues, but for those of the graphs that are aside. -/
def queued (w : World) (aside : List Nat) (a : Nat) : Nat :=
  ∑ k ∈ Finset.range w.graphCount,
    if k ∈ aside then 0 else ((w.graphs k).readyNodes.flatMap Node.next).count a

/-- `roots` are the pointers in variables, `hidden` the nodes and `aside` the graphs that are being
copied. -/
structure Balanced (w : World) (hidden aside roots : List Nat) : Prop where
  heap : w.heap.Balanced (fun node => node.next) hidden fun a => w.queued aside a + roots.count a
  placed : ∀ a cell, w.heap.cells a = some cell → cell.value.graph < w.graphCount

/-- What is being copied is kept. -/
structure Shielded (w : World) (hidden aside kept : List Nat) : Prop where
  hidden : ∀ a ∈ hidden, a ∈ kept
  aside : ∀ a cell, w.heap.cells a = some cell → cell.value.graph ∈ aside → a ∈ kept

/-- Only queues of valid graphs have changed. -/
structure Calm (w w' : World) : Prop where
  graphCount : w'.graphCount = w.graphCount
  valid : ∀ k, (w'.graphs k).valid = (w.graphs k).valid
  quiet : ∀ k, (w.graphs k).valid = false → (w'.graphs k).readyNodes = (w.graphs k).readyNodes

/-- And no node is new or another one. -/
structure Fewer (w w' : World) : Prop extends Calm w w' where
  cells : ∀ a cell, w'.heap.cells a = some cell → ∃ n, w.heap.cells a = some ⟨cell.value, n⟩
  fresh : w'.heap.fresh = w.heap.fresh

variable {w w' w'' : World} {hidden aside roots roots' kept owed : List Nat} {a k : Nat}

theorem Calm.refl : Calm w w := ⟨rfl, fun _ => rfl, fun _ _ => rfl⟩

theorem Calm.trans (first : Calm w w') (second : Calm w' w'') : Calm w w'' where
  graphCount := second.graphCount.trans first.graphCount
  valid k := (second.valid k).trans (first.valid k)
  quiet k invalid := (second.quiet k ((first.valid k).trans invalid)).trans (first.quiet k invalid)

theorem Calm.heap (heap : Heap GraphNode) : Calm w { w with heap := heap } :=
  ⟨rfl, fun _ => rfl, fun _ _ => rfl⟩

theorem Fewer.refl : Fewer w w := ⟨.refl, fun _ cell there => ⟨cell.useCount, there⟩, rfl⟩

theorem Fewer.trans (first : Fewer w w') (second : Fewer w' w'') : Fewer w w'' where
  toCalm := first.toCalm.trans second.toCalm
  cells a cell there := by
    obtain ⟨n, before⟩ := second.cells a cell there
    exact first.cells a ⟨cell.value, n⟩ before
  fresh := second.fresh.trans first.fresh

theorem Shielded.fewer (shielded : Shielded w hidden aside kept) (fewer : Fewer w w') :
    Shielded w' hidden aside kept where
  hidden := shielded.hidden
  aside a cell there member := by
    obtain ⟨n, before⟩ := fewer.cells a cell there
    exact shielded.aside a ⟨cell.value, n⟩ before member

theorem Shielded.setValue (shielded : Shielded w (a :: hidden) aside kept) (value : GraphNode)
    (member : a ∈ kept) :
    Shielded { w with heap := w.heap.setValue a value } hidden aside kept where
  hidden b inside := shielded.hidden b (List.mem_cons_of_mem _ inside)
  aside b cell there inside := by
    by_cases same : b = a
    · exact same ▸ member
    · simp only [Heap.setValue, Heap.cells_alter_of_ne _ same] at there
      exact shielded.aside b cell there inside

/-! ## Queues -/

/-- A graph is put aside. -/
theorem queued_cons (below : k < w.graphCount) (visible : k ∉ aside) (a : Nat) :
    w.queued aside a =
      w.queued (k :: aside) a + ((w.graphs k).readyNodes.flatMap Node.next).count a := by
  have member : k ∈ Finset.range w.graphCount := Finset.mem_range.mpr below
  rw [queued, queued, ← Finset.add_sum_erase _ _ member, ← Finset.add_sum_erase _ _ member,
    if_neg visible, if_pos List.mem_cons_self, Nat.zero_add, Nat.add_comm]
  refine congrArg (· + _) (Finset.sum_congr rfl fun j elsewhere => ?_)
  simp only [List.mem_cons, Finset.ne_of_mem_erase elsewhere, false_or]

theorem queued_setGraph (member : k ∈ aside) (graph : TxnGraph) (a : Nat) :
    (w.setGraph k graph).queued aside a = w.queued aside a := by
  refine Finset.sum_congr rfl fun j _ => ?_
  by_cases same : j = k
  · rw [same, if_pos member, if_pos member]
  · simp only [setGraph, Function.update_of_ne same]

/-- The queue of a graph becomes another one. -/
theorem queued_change (below : k < w.graphCount) (visible : k ∉ aside) (graph : TxnGraph) (a : Nat) :
    (w.setGraph k graph).queued aside a + ((w.graphs k).readyNodes.flatMap Node.next).count a =
      w.queued aside a + (graph.readyNodes.flatMap Node.next).count a := by
  rw [queued_cons (w := w.setGraph k graph) below visible, queued_cons below visible,
    queued_setGraph List.mem_cons_self]
  simp only [setGraph, Function.update_self]
  omega

theorem queued_addToReady (below : k < w.graphCount) (visible : k ∉ aside) (node : Node) (a : Nat) :
    (w.addToReady k node).queued aside a = w.queued aside a + node.next.count a := by
  have change := queued_change below visible
    { w.graphs k with readyNodes := (w.graphs k).readyNodes ++ [node] } a
  rw [List.flatMap_append, List.count_append, List.flatMap_singleton] at change
  rw [addToReady, setReady]
  omega

/-! ## Pointers that come and go -/

theorem Balanced.congr (balanced : w.Balanced hidden aside roots)
    (same : ∀ a, roots'.count a = roots.count a) : w.Balanced hidden aside roots' :=
  ⟨balanced.heap.congr fun a => by rw [same], balanced.placed⟩

theorem Calm.setReady {g : Nat} {readyNodes : List Node} (valid : (w.graphs g).valid = true) :
    Calm w (w.setReady g readyNodes) := by
  refine ⟨rfl, fun k => ?_, fun k invalid => ?_⟩
  · by_cases same : k = g
    · subst same
      simp [World.setReady, World.setGraph]
    · simp [World.setReady, World.setGraph, same]
  · have other : k ≠ g := by
      rintro rfl
      rw [valid] at invalid
      cases invalid
    simp [World.setReady, World.setGraph, other]

theorem fewer_retain (ran : w.retain a = some w') : Fewer w w' := by
  obtain ⟨heap, retained, rfl⟩ := Option.map_eq_some_iff.mp ran
  obtain ⟨other, inside, rfl⟩ := Option.map_eq_some_iff.mp retained
  refine ⟨.heap _, fun b cell there => ?_, rfl⟩
  by_cases same : b = a
  · subst same
    simp only [Heap.cells_alter, if_true, inside, Option.bind_some] at there
    obtain rfl := Option.some.inj there
    exact ⟨_, inside⟩
  · simp only [Heap.cells_alter_of_ne _ same] at there
    exact ⟨_, there⟩

theorem fewer_retainAll {next : List Nat} (ran : w.retainAll next = some w') : Fewer w w' := by
  induction next generalizing w with
  | nil =>
    obtain rfl := Option.some.inj ran
    exact .refl
  | cons a next ih =>
    obtain ⟨w₁, retained, ran⟩ := Option.bind_eq_some_iff.mp ran
    exact (fewer_retain retained).trans (ih ran)

theorem fewer_release {heap : Heap GraphNode} {last : Option GraphNode}
    (released : w.heap.release a = some (heap, last)) : Fewer w { w with heap := heap } := by
  refine ⟨.heap heap, (Heap.release_value released).1, ?_⟩
  obtain ⟨cell, _, same⟩ := Option.map_eq_some_iff.mp released
  split at same <;> cases same <;> rfl

/-- No pointer that dies makes a node. -/
theorem fewer_dropAll {fuel : Nat} (ran : w.dropAll fuel owed = some w') : Fewer w w' := by
  induction fuel generalizing w owed with
  | zero =>
    cases owed with
    | nil =>
      obtain rfl := Option.some.inj ran
      exact .refl
    | cons a owed => cases ran
  | succ fuel ih =>
    cases owed with
    | nil =>
      obtain rfl := Option.some.inj ran
      exact .refl
    | cons a owed =>
      obtain ⟨⟨heap, last⟩, released, ran⟩ := Option.bind_eq_some_iff.mp ran
      have fewer := fewer_release released
      cases last with
      | none => exact fewer.trans (ih ran)
      | some node =>
        simp only at ran
        split at ran
        next valid =>
          have queued : Fewer { w with heap := heap }
              (World.addToReady { w with heap := heap } node.graph node.toNode) :=
            ⟨.setReady valid, fun _ cell there => ⟨cell.useCount, there⟩, rfl⟩
          exact (fewer.trans queued).trans (ih ran)
        next => exact fewer.trans (ih ran)

theorem Balanced.retain (balanced : w.Balanced hidden aside roots) (ran : w.retain a = some w') :
    w'.Balanced hidden aside (a :: roots) := by
  have fewer := fewer_retain ran
  obtain ⟨heap, retained, rfl⟩ := Option.map_eq_some_iff.mp ran
  refine ⟨(balanced.heap.retain retained).congr fun b => ?_, fun b cell there => ?_⟩
  · rw [List.count_cons, List.count_singleton, ← Nat.add_assoc]
    rfl
  · obtain ⟨n, before⟩ := fewer.cells b cell there
    exact balanced.placed b ⟨cell.value, n⟩ before

theorem Balanced.retainAll {next : List Nat} (balanced : w.Balanced hidden aside roots)
    (ran : w.retainAll next = some w') : w'.Balanced hidden aside (next ++ roots) := by
  induction next generalizing w roots with
  | nil =>
    obtain rfl := Option.some.inj ran
    exact balanced
  | cons a next ih =>
    obtain ⟨w₁, retained, ran⟩ := Option.bind_eq_some_iff.mp ran
    refine (ih (balanced.retain retained) ran).congr fun b => ?_
    simp only [List.count_append, List.count_cons]
    omega

theorem graphs_retainAll {next : List Nat} (ran : w.retainAll next = some w') :
    w'.graphs = w.graphs := by
  induction next generalizing w with
  | nil =>
    obtain rfl := Option.some.inj ran
    rfl
  | cons a next ih =>
    obtain ⟨w₁, retained, ran⟩ := Option.bind_eq_some_iff.mp ran
    obtain ⟨heap, _, rfl⟩ := Option.map_eq_some_iff.mp retained
    exact ih (w := { w with heap := heap }) ran

/-- Pointers die, and nodes with them. -/
theorem Balanced.dropAll {fuel : Nat} (balanced : w.Balanced hidden aside (owed ++ roots))
    (shielded : Shielded w hidden aside kept) (inside : ∀ a ∈ kept, a ∈ roots)
    (ran : w.dropAll fuel owed = some w') : w'.Balanced hidden aside roots := by
  induction fuel generalizing w owed with
  | zero =>
    cases owed with
    | nil =>
      obtain rfl := Option.some.inj ran
      exact balanced
    | cons a owed => cases ran
  | succ fuel ih =>
    cases owed with
    | nil =>
      obtain rfl := Option.some.inj ran
      exact balanced
    | cons a owed =>
      obtain ⟨⟨heap, last⟩, released, ran⟩ := Option.bind_eq_some_iff.mp ran
      have one : w.heap.Balanced (fun node => node.next) hidden fun b =>
          w.queued aside b + (owed ++ roots).count b + [a].count b := balanced.heap.congr fun b => by
        simp only [List.cons_append, List.count_cons, List.count_nil]
        omega
      have fewer := fewer_release released
      have placed : ∀ b cell, heap.cells b = some cell → cell.value.graph < w.graphCount := by
        intro b cell there
        obtain ⟨n, before⟩ := fewer.cells b cell there
        exact balanced.placed b ⟨cell.value, n⟩ before
      cases last with
      | none =>
        have counts : World.Balanced { w with heap := heap } hidden aside (owed ++ roots) :=
          ⟨one.release_shared released, placed⟩
        exact ih counts (shielded.fewer fewer) ran
      | some node =>
        have there := (Heap.release_value released).2 node rfl
        -- It was held by this pointer only, so it is not one that is kept.
        have alone : a ∉ kept := by
          intro member
          have count := one.counts a
          have held := List.count_pos_iff.mpr (inside a member)
          rw [Heap.useCount_of_cells there, List.count_append, List.count_singleton_self] at count
          simp only at count
          omega
        have gone : heap.Balanced (fun node => node.next) hidden fun b =>
            w.queued aside b + (owed ++ roots).count b + node.next.count b := by
          refine one.release_last released fun b member => ?_
          have held := List.count_pos_iff.mpr (inside b (shielded.hidden b member))
          rw [List.count_append]
          omega
        have visible : node.graph ∉ aside := fun member => alone (shielded.aside a _ there member)
        have below : node.graph < w.graphCount := balanced.placed a _ there
        simp only at ran
        split at ran
        next valid =>
          let moved := World.addToReady { w with heap := heap } node.graph node.toNode
          have counts : moved.Balanced hidden aside (owed ++ roots) := by
            refine ⟨gone.congr fun b => ?_, placed⟩
            have queue := queued_addToReady (w := { w with heap := heap }) below visible node.toNode b
            show moved.queued aside b + _ = _
            rw [queue]
            show w.queued aside b + _ + _ = _
            omega
          have calm : Shielded moved hidden aside kept :=
            ⟨shielded.hidden, (shielded.fewer fewer).aside⟩
          exact ih counts calm ran
        next =>
          have counts : World.Balanced { w with heap := heap } hidden aside
              ((node.next ++ owed) ++ roots) := by
            refine ⟨gone.congr fun b => ?_, placed⟩
            show w.queued aside b + _ = _
            rw [List.append_assoc, List.count_append]
            omega
          exact ih counts (shielded.fewer fewer) ran

/-- When nothing is being copied. -/
theorem Balanced.dropped {fuel : Nat} (balanced : w.Balanced [] [] (owed ++ roots))
    (ran : w.dropAll fuel owed = some w') : w'.Balanced [] [] roots ∧ Fewer w w' := by
  have none : ∀ a : Nat, a ∉ [] := fun a => List.not_mem_nil
  have shielded : Shielded w [] [] [] :=
    ⟨fun a member => absurd member (none a), fun a cell _ member => absurd member (none _)⟩
  exact ⟨balanced.dropAll shielded (fun a member => absurd member (none a)) ran, fewer_dropAll ran⟩

/-! ## Copies -/

/-- A node that is copied has no pointers of its own yet. -/
theorem Balanced.make (balanced : w.Balanced hidden aside roots) (value : GraphNode)
    (below : value.graph < w.graphCount) :
    World.Balanced { w with heap := (w.heap.makeShared value).1 } (w.heap.fresh :: hidden) aside
      (w.heap.fresh :: roots) := by
  refine ⟨(balanced.heap.make value).congr fun b => ?_, fun b cell there => ?_⟩
  · rw [List.count_cons, List.count_singleton, ← Nat.add_assoc]
    rfl
  · simp only [Heap.cells_makeShared] at there
    split at there
    · obtain rfl := Option.some.inj there
      exact below
    · exact balanced.placed b cell there

/-- While a node is open its pointers count as those of a variable. -/
theorem balanced_cons {cell : Cell GraphNode} (there : w.heap.cells a = some cell)
    (visible : a ∉ hidden) :
    w.Balanced (a :: hidden) aside (cell.value.next ++ roots) ↔ w.Balanced hidden aside roots := by
  have same : ∀ b, w.queued aside b + (cell.value.next ++ roots).count b =
      w.queued aside b + roots.count b + cell.value.next.count b := by
    intro b
    rw [List.count_append]
    omega
  constructor
  · exact fun balanced =>
      ⟨(Heap.balanced_cons there visible).mp (balanced.heap.congr fun b => (same b).symm), balanced.placed⟩
  · exact fun balanced =>
      ⟨((Heap.balanced_cons there visible).mpr balanced.heap).congr same, balanced.placed⟩

/-- An open node is assigned to, and closed. -/
theorem Balanced.complete (value : GraphNode) {cell : Cell GraphNode}
    (balanced : w.Balanced (a :: hidden) aside (value.next ++ roots))
    (there : w.heap.cells a = some cell) (visible : a ∉ hidden) (below : value.graph < w.graphCount) :
    World.Balanced { w with heap := w.heap.setValue a value } hidden aside roots := by
  have here := Heap.cells_setValue there value
  refine (balanced_cons (w := { w with heap := w.heap.setValue a value }) here visible).mp
    ⟨balanced.heap.assign there List.mem_cons_self value, fun b other inside => ?_⟩
  by_cases same : b = a
  · subst same
    obtain rfl := Option.some.inj (here.symm.trans inside)
    exact below
  · simp only [Heap.setValue, Heap.cells_alter_of_ne _ same] at inside
    exact balanced.placed b other inside

theorem Balanced.exists_cell (balanced : w.Balanced hidden aside roots) (rooted : a ∈ roots) :
    ∃ cell, w.heap.cells a = some cell :=
  balanced.heap.exists_cell (Nat.add_pos_right _ (List.count_pos_iff.mpr rooted))

theorem Balanced.lt_fresh (balanced : w.Balanced hidden aside roots) (rooted : a ∈ roots) :
    a < w.heap.fresh := by
  obtain ⟨cell, there⟩ := balanced.exists_cell rooted
  exact Heap.lt_fresh there

/-- The queue of a graph and the variables hand pointers to each other. -/
theorem Balanced.setGraph {graph : TxnGraph} (balanced : w.Balanced hidden aside roots)
    (below : k < w.graphCount) (visible : k ∉ aside)
    (moved : ∀ a, roots'.count a + (graph.readyNodes.flatMap Node.next).count a =
      roots.count a + ((w.graphs k).readyNodes.flatMap Node.next).count a) :
    (w.setGraph k graph).Balanced hidden aside roots' := by
  refine ⟨balanced.heap.congr fun a => ?_, balanced.placed⟩
  have change := queued_change below visible graph a
  have more := moved a
  omega

end World

/-- The pointers of the map. -/
def KnownNodes.pointers (known : KnownNodes) : List Nat := known.entries.map Prod.snd

theorem KnownNodes.pointers_insert {known : KnownNodes} {a : Nat} (unknown : known.find? a = none)
    (b : Nat) : KnownNodes.pointers (known.insertOrAssign a b) = b :: known.pointers := by
  show Prod.snd (a, b) :: (UnorderedMap.erase known a).entries.map Prod.snd = _
  rw [UnorderedMap.entries_erase_of_none unknown]
  rfl

theorem KnownNodes.count_dying (destruction : Iteration (Nat × Nat)) (known : KnownNodes) (a : Nat) :
    (known.dying destruction).count a = known.pointers.count a :=
  ((destruction.perm known.entries).map Prod.snd).count_eq a

namespace World

variable {w w' : World} {hidden aside roots : List Nat} {graph : Nat}

/-- The pointers of a node are copied for a new one that replaces it. -/
theorem Balanced.replace {w₁ w₂ w₃ : World} {kept next : List Nat} {a fuel : Nat} {value : GraphNode}
    (balanced : w.Balanced hidden aside (a :: roots)) (shielded : Shielded w hidden aside kept)
    (inside : ∀ c ∈ kept, c ∈ roots) (below : value.graph < w.graphCount)
    (retained : w.retainAll next = some w₁)
    (owned : World.retain { w₁ with heap := (w₁.heap.makeShared value).1 } w₁.heap.fresh = some w₂)
    (redirected : redirect fuel w₂ a = some w₃) :
    w₃.Balanced (w₁.heap.fresh :: hidden) aside
        (next ++ (w₁.heap.fresh :: w₁.heap.fresh :: roots)) ∧
      Shielded w₃ (w₁.heap.fresh :: hidden) aside (w₁.heap.fresh :: kept) ∧ Calm w w₃ ∧
        w₁.heap.fresh ∉ roots := by
  have one := balanced.retainAll retained
  have first := fewer_retainAll retained
  have two := (one.make value (first.graphCount ▸ below)).retain owned
  have second := fewer_retain owned
  have made : Calm w { w₁ with heap := (w₁.heap.makeShared value).1 } :=
    first.toCalm.trans (.heap _)
  have shielded₁ : Shielded { w₁ with heap := (w₁.heap.makeShared value).1 }
      (w₁.heap.fresh :: hidden) aside (w₁.heap.fresh :: kept) := by
    refine ⟨fun c member => ?_, fun c cell there member => ?_⟩
    · exact List.mem_cons.mpr ((List.mem_cons.mp member).imp id (shielded.hidden c))
    · simp only [Heap.cells_makeShared] at there
      split at there
      next new => exact new ▸ List.mem_cons_self
      next => exact List.mem_cons_of_mem _ ((shielded.fewer first).aside c cell there member)
  have kept' : ∀ c ∈ w₁.heap.fresh :: kept, c ∈ next ++ (w₁.heap.fresh :: w₁.heap.fresh :: roots) := by
    intro c member
    rcases List.mem_cons.mp member with rfl | member
    · simp
    · simp [inside c member]
  have last : w₂.Balanced (w₁.heap.fresh :: hidden) aside
      ([a] ++ (next ++ (w₁.heap.fresh :: w₁.heap.fresh :: roots))) := two.congr fun c => by
    simp only [List.count_append, List.count_cons, List.count_nil]
    omega
  have three := last.dropAll (shielded₁.fewer second) kept' redirected
  have third := fewer_dropAll redirected
  refine ⟨three, shielded₁.fewer (second.trans third), made.trans (second.trans third).toCalm,
    fun member => Nat.lt_irrefl _ (one.lt_fresh (a := w₁.heap.fresh) ?_)⟩
  exact List.mem_append_right _ (List.mem_cons_of_mem _ member)

theorem Balanced.deepCopyNetwork {fuel : Nat} {known known' : KnownNodes} {next next' : List Nat}
    (balanced : w.Balanced hidden aside (next ++ (known.pointers ++ roots)))
    (shielded : Shielded w hidden aside known.pointers) (below : graph < w.graphCount)
    (ran : Workload.deepCopyNetwork graph fuel (w, known) next = some ((w', known'), next')) :
    w'.Balanced hidden aside (next' ++ (known'.pointers ++ roots)) ∧
      Shielded w' hidden aside known'.pointers ∧ Calm w w' ∧
        ∀ a ∈ known.pointers, a ∈ known'.pointers := by
  induction fuel generalizing w w' known known' next next' hidden roots with
  | zero =>
    cases next with
    | nil =>
      cases ran
      exact ⟨balanced, shielded, .refl, fun _ member => member⟩
    | cons a rest => cases ran
  | succ fuel ih =>
    cases next with
    | nil =>
      cases ran
      exact ⟨balanced, shielded, .refl, fun _ member => member⟩
    | cons a rest =>
      simp only [Workload.deepCopyNetwork] at ran
      split at ran
      -- The copy is there.
      next b found =>
        obtain ⟨w₁, retained, ran⟩ := Option.bind_eq_some_iff.mp ran
        obtain ⟨w₂, redirected, ran⟩ := Option.bind_eq_some_iff.mp ran
        obtain ⟨⟨s, rest'⟩, copied, same⟩ := Option.map_eq_some_iff.mp ran
        obtain ⟨rfl, rfl⟩ := Prod.mk.inj same
        have one := balanced.retain retained
        have first := fewer_retain retained
        have last : w₁.Balanced hidden aside ([a] ++ (rest ++ (known.pointers ++ (b :: roots)))) :=
          one.congr fun c => by
            simp only [List.count_append, List.count_cons, List.count_nil]
            omega
        have two := last.dropAll (shielded.fewer first) (fun c member => by simp [member]) redirected
        have steps := first.trans (fewer_dropAll redirected)
        obtain ⟨three, shielded', third, grows⟩ :=
          ih two (shielded.fewer steps) (steps.graphCount ▸ below) copied
        refine ⟨three.congr fun c => ?_, shielded', steps.toCalm.trans third, grows⟩
        simp only [List.cons_append, List.count_append, List.count_cons]
        omega
      -- A node is made, and its vector is copied.
      next unknown =>
        obtain ⟨cell, there, ran⟩ := Option.bind_eq_some_iff.mp ran
        obtain ⟨w₁, retained, ran⟩ := Option.bind_eq_some_iff.mp ran
        obtain ⟨w₂, owned, ran⟩ := Option.bind_eq_some_iff.mp ran
        obtain ⟨w₃, redirected, ran⟩ := Option.bind_eq_some_iff.mp ran
        obtain ⟨⟨⟨w₄, known₄⟩, copied⟩, nested, ran⟩ := Option.bind_eq_some_iff.mp ran
        obtain ⟨⟨s, rest'⟩, others, same⟩ := Option.map_eq_some_iff.mp ran
        obtain ⟨rfl, rfl⟩ := Prod.mk.inj same
        have start : w.Balanced hidden aside (a :: (rest ++ (known.pointers ++ roots))) := balanced
        obtain ⟨one, shielded₃, first, new⟩ := start.replace shielded (fun c member => by simp [member])
          below retained owned redirected
        have pointers := KnownNodes.pointers_insert unknown w₁.heap.fresh
        have ready : w₃.Balanced (w₁.heap.fresh :: hidden) aside (cell.value.next ++
            (KnownNodes.pointers (known.insertOrAssign a w₁.heap.fresh) ++ (w₁.heap.fresh :: rest ++ roots))) :=
          one.congr fun c => by
            rw [pointers]
            simp only [List.cons_append, List.count_append, List.count_cons]
            omega
        obtain ⟨two, shielded₄, second, grows₄⟩ :=
          ih ready (by rw [pointers]; exact shielded₃) (first.graphCount ▸ below) nested
        have calm := first.trans second
        have visible : w₁.heap.fresh ∉ hidden := fun member =>
          new (by simp [shielded.hidden _ member])
        have inside : w₁.heap.fresh ∈ known₄.pointers := grows₄ _ (pointers ▸ List.mem_cons_self)
        let value : GraphNode := { cell.value with graph := graph, next := copied }
        obtain ⟨open', here⟩ := two.exists_cell (a := w₁.heap.fresh) (by simp)
        have three := Balanced.complete value two here visible (calm.graphCount ▸ below)
        have complete : World.Balanced { w₄ with heap := w₄.heap.setValue w₁.heap.fresh value } hidden
            aside (rest ++ (known₄.pointers ++ (w₁.heap.fresh :: roots))) := three.congr fun c => by
          simp only [List.cons_append, List.count_append, List.count_cons]
          omega
        obtain ⟨four, shielded', third, grows⟩ := ih complete (shielded₄.setValue value inside)
          (show graph < w₄.graphCount from calm.graphCount ▸ below) others
        refine ⟨four.congr fun c => ?_, shielded', calm.trans ((Calm.heap _).trans third),
          fun c member => grows c (grows₄ c ?_)⟩
        · show ((w₁.heap.fresh :: rest') ++ _).count c = _
          simp only [List.cons_append, List.count_append, List.count_cons]
          omega
        · exact pointers ▸ List.mem_cons_of_mem _ member

theorem Balanced.deepCopyReady {fuel : Nat} {known known' : KnownNodes} {ready ready' : List Node}
    (balanced : w.Balanced hidden aside (ready.flatMap Node.next ++ (known.pointers ++ roots)))
    (shielded : Shielded w hidden aside known.pointers) (below : graph < w.graphCount)
    (ran : Workload.deepCopyReady graph fuel (w, known) ready = some ((w', known'), ready')) :
    w'.Balanced hidden aside (ready'.flatMap Node.next ++ (known'.pointers ++ roots)) ∧ Calm w w' := by
  induction ready generalizing w known ready' roots with
  | nil =>
    cases ran
    exact ⟨balanced, .refl⟩
  | cons node rest ih =>
    obtain ⟨⟨⟨w₁, known₁⟩, next⟩, copied, ran⟩ := Option.bind_eq_some_iff.mp ran
    obtain ⟨⟨s, rest'⟩, others, same⟩ := Option.map_eq_some_iff.mp ran
    obtain ⟨rfl, rfl⟩ := Prod.mk.inj same
    have front : w.Balanced hidden aside
        (node.next ++ (known.pointers ++ (rest.flatMap Node.next ++ roots))) := balanced.congr fun c => by
      simp only [List.flatMap_cons, List.count_append]
      omega
    obtain ⟨one, shielded₁, first, _⟩ := front.deepCopyNetwork shielded below copied
    have back : w₁.Balanced hidden aside
        (rest.flatMap Node.next ++ (known₁.pointers ++ (next ++ roots))) := one.congr fun c => by
      simp only [List.count_append]
      omega
    obtain ⟨two, second⟩ := ih back shielded₁ (first.graphCount ▸ below) others
    refine ⟨two.congr fun c => ?_, first.trans second⟩
    simp only [List.flatMap_cons, List.count_append]
    omega

/-- The other graphs keep their validity, and those that are invalid their queues. -/
structure Later (w w' : World) : Prop where
  graphCount : w.graphCount ≤ w'.graphCount
  valid : ∀ k < w.graphCount, (w'.graphs k).valid = (w.graphs k).valid
  quiet : ∀ k < w.graphCount, (w.graphs k).valid = false →
    (w'.graphs k).readyNodes = (w.graphs k).readyNodes

theorem Calm.later (calm : Calm w w') : Later w w' where
  graphCount := calm.graphCount.ge
  valid k _ := calm.valid k
  quiet k _ := calm.quiet k

theorem Later.trans {w'' : World} (first : Later w w') (second : Later w' w'') : Later w w'' where
  graphCount := first.graphCount.trans second.graphCount
  valid k below := (second.valid k (below.trans_le first.graphCount)).trans (first.valid k below)
  quiet k below invalid := (second.quiet k (below.trans_le first.graphCount)
    ((first.valid k below).trans invalid)).trans (first.quiet k below invalid)

theorem Later.makeGraph (graph : TxnGraph) : Later w (w.makeGraph graph).1 where
  graphCount := Nat.le_succ _
  valid k below := by simp [World.makeGraph, Nat.ne_of_lt below]
  quiet k below _ := by simp [World.makeGraph, Nat.ne_of_lt below]

/-- A new graph is put aside. -/
theorem Balanced.makeGraph (balanced : w.Balanced hidden [] roots) (graph : TxnGraph) :
    (w.makeGraph graph).1.Balanced hidden [w.graphCount] roots := by
  refine ⟨balanced.heap.congr fun a => ?_, fun a cell there => ?_⟩
  · have same : (w.makeGraph graph).1.queued [w.graphCount] a = w.queued [] a := by
      rw [queued, show (w.makeGraph graph).1.graphCount = w.graphCount + 1 from rfl,
        Finset.sum_range_succ, if_pos (List.mem_singleton.mpr rfl), Nat.add_zero]
      refine Finset.sum_congr rfl fun k inside => ?_
      have old : k ≠ w.graphCount := Nat.ne_of_lt (Finset.mem_range.mp inside)
      simp [World.makeGraph, old]
    rw [same]
  · exact Nat.lt_succ_of_lt (balanced.placed a cell there)

/-- A graph comes back with its queue. -/
theorem Balanced.setReady {n : Nat} {readyNodes : List Node} (below : n < w.graphCount)
    (balanced : w.Balanced hidden [n] (readyNodes.flatMap Node.next ++ roots)) :
    (w.setReady n readyNodes).Balanced hidden [] roots := by
  refine ⟨balanced.heap.congr fun a => ?_, balanced.placed⟩
  have back : (w.setReady n readyNodes).queued [] a = (w.setReady n readyNodes).queued [n] a +
      (((w.setReady n readyNodes).graphs n).readyNodes.flatMap Node.next).count a :=
    queued_cons (w := w.setReady n readyNodes) below List.not_mem_nil a
  have same := queued_setGraph (w := w) (List.mem_singleton.mpr (rfl : n = n))
    { w.graphs n with readyNodes := readyNodes } a
  have queue : ((w.setReady n readyNodes).graphs n).readyNodes = readyNodes := by
    simp [World.setReady, World.setGraph]
  rw [queue] at back
  rw [back, List.count_append]
  show (w.setGraph n _).queued [n] a + _ + _ = _
  rw [same]
  omega

theorem Balanced.deepCopy {destruction : Iteration (Nat × Nat)} {fuel g n : Nat}
    (balanced : w.Balanced [] [] roots) (ran : w.deepCopy destruction fuel g = some (w', n)) :
    w'.Balanced [] [] roots ∧ Later w w' ∧ n = w.graphCount ∧ w'.graphCount = w.graphCount + 1 ∧
      (w'.graphs n).valid = true := by
  obtain ⟨w₁, retained, ran⟩ := Option.bind_eq_some_iff.mp ran
  obtain ⟨⟨⟨w₂, known⟩, ready⟩, copied, ran⟩ := Option.bind_eq_some_iff.mp ran
  obtain ⟨w₃, dropped, same⟩ := Option.map_eq_some_iff.mp ran
  obtain ⟨rfl, rfl⟩ := Prod.mk.inj same
  have one := balanced.retainAll retained
  have first := fewer_retainAll retained
  rw [← graphs_retainAll retained] at one
  have shielded : Shielded (w₁.makeGraph { w₁.graphs g with valid := true }).1 [] [w₁.graphCount]
      (KnownNodes.pointers ∅) := by
    refine ⟨fun a member => absurd member List.not_mem_nil, fun a cell there member => ?_⟩
    have old := one.placed a cell there
    rw [List.mem_singleton.mp member] at old
    exact absurd old (Nat.lt_irrefl _)
  have inside : w₁.graphCount < (w₁.makeGraph { w₁.graphs g with valid := true }).1.graphCount :=
    Nat.lt_succ_self _
  obtain ⟨two, second⟩ := Balanced.deepCopyReady (one.makeGraph _) shielded inside copied
  have three := Balanced.setReady (second.graphCount ▸ inside) two
  have last : (w₂.setReady w₁.graphCount ready).Balanced [] [] (known.dying destruction ++ roots) :=
    three.congr fun a => by
      rw [List.count_append, List.count_append, KnownNodes.count_dying destruction]
  obtain ⟨four, third⟩ := last.dropped dropped
  have valid : (w₂.graphs w₁.graphCount).valid = true := by
    rw [second.valid]
    simp [World.makeGraph]
  have calm : Calm w₂ w₃ := (Calm.setReady valid).trans third.toCalm
  refine ⟨four, ?_, first.graphCount, ?_, (calm.valid _).trans valid⟩
  · exact ((first.toCalm.later.trans (Later.makeGraph _)).trans second.later).trans calm.later
  · rw [calm.graphCount, second.graphCount, ← first.graphCount]
    rfl

/-- A node leaves the queue, and its pointers die. -/
theorem Balanced.take {fuel g : Nat} {node : Node} {rest : List Node} (balanced : w.Balanced [] [] roots)
    (below : g < w.graphCount) (valid : (w.graphs g).valid = true)
    (perm : (w.graphs g).readyNodes.Perm (node :: rest))
    (ran : (w.setReady g rest).dropAll fuel node.next = some w') :
    w'.Balanced [] [] roots ∧ Calm w w' := by
  have out : (w.setReady g rest).Balanced [] [] (node.next ++ roots) :=
    balanced.setGraph below List.not_mem_nil fun a => by
      rw [(perm.flatMap_right Node.next).count_eq]
      simp only [List.flatMap_cons, List.count_append]
      omega
  obtain ⟨balanced', calm⟩ := out.dropped ran
  exact ⟨balanced', (Calm.setReady valid).trans calm.toCalm⟩

/-- A graph is gone, and its queue with it. -/
def Spent (w : World) (k : Nat) : Prop := (w.graphs k).valid = false ∧ (w.graphs k).readyNodes = []

theorem Later.spent (later : Later w w') {k : Nat} (below : k < w.graphCount) (spent : w.Spent k) :
    w'.Spent k :=
  ⟨(later.valid k below).trans spent.1, (later.quiet k below spent.1).trans spent.2⟩

/-- One graph is gone, and the others are calm. -/
structure Destroyed (g : Nat) (w w' : World) : Prop where
  graphCount : w'.graphCount = w.graphCount
  spent : w'.Spent g
  valid : ∀ k, k ≠ g → (w'.graphs k).valid = (w.graphs k).valid
  quiet : ∀ k, k ≠ g → (w.graphs k).valid = false → (w'.graphs k).readyNodes = (w.graphs k).readyNodes

theorem Balanced.destroyGraph {fuel g : Nat} (balanced : w.Balanced [] [] roots)
    (below : g < w.graphCount) (ran : w.destroyGraph fuel g = some w') :
    w'.Balanced [] [] roots ∧ Destroyed g w w' := by
  let cleared : TxnGraph := { w.graphs g with valid := false, readyNodes := [] }
  have out : (w.setGraph g cleared).Balanced [] []
      ((w.graphs g).readyNodes.flatMap Node.next ++ roots) :=
    balanced.setGraph below List.not_mem_nil fun a => by
      simp only [cleared, List.flatMap_nil, List.count_nil, List.count_append]
      omega
  obtain ⟨balanced', fewer⟩ := out.dropped ran
  have here : (w.setGraph g cleared).graphs g = cleared := by simp [World.setGraph]
  have others : ∀ k, k ≠ g → (w.setGraph g cleared).graphs k = w.graphs k := fun k other => by
    simp [World.setGraph, other]
  have invalid : ((w.setGraph g cleared).graphs g).valid = false := by rw [here]
  refine ⟨balanced', fewer.graphCount, ⟨(fewer.valid g).trans invalid, ?_⟩, fun k other => ?_,
    fun k other none => ?_⟩
  · rw [fewer.quiet g invalid, here]
  · rw [fewer.valid k, others k other]
  · rw [← others k other] at none ⊢
    exact fewer.quiet k none

/-! ## The enumeration -/

/-- The graphs that have come are gone again. -/
structure Ran (w w' : World) : Prop extends Later w w' where
  spent : ∀ k, w.graphCount ≤ k → k < w'.graphCount → w'.Spent k

theorem Calm.ran (calm : Calm w w') : Ran w w' where
  toLater := calm.later
  spent _ above below := absurd (calm.graphCount ▸ below) (Nat.not_lt.mpr above)

theorem Ran.trans {w'' : World} (first : Ran w w') (second : Ran w' w'') : Ran w w'' where
  toLater := first.toLater.trans second.toLater
  spent k above below := by
    by_cases old : k < w'.graphCount
    · exact second.toLater.spent old (first.spent k above old)
    · exact second.spent k (Nat.not_lt.mp old) below

/-- A graph is made, something happens, and the graph is destroyed. -/
theorem Later.scope {w₁ w₂ : World} (made : Later w w₁) (count : w₁.graphCount = w.graphCount + 1)
    (ran : Ran w₁ w₂) (destroyed : Destroyed w.graphCount w₂ w') : Ran w w' := by
  have later : Later w w₂ := made.trans ran.toLater
  refine ⟨⟨destroyed.graphCount ▸ later.graphCount, fun k below => ?_, fun k below invalid => ?_⟩,
    fun k above below => ?_⟩
  · rw [destroyed.valid k (Nat.ne_of_lt below), later.valid k below]
  · rw [destroyed.quiet k (Nat.ne_of_lt below) ((later.valid k below).trans invalid),
      later.quiet k below invalid]
  · rcases Nat.eq_or_lt_of_le above with rfl | above
    · exact destroyed.spent
    · have spent := ran.spent k (by omega) (destroyed.graphCount ▸ below)
      have other : k ≠ w.graphCount := Nat.ne_of_gt above
      exact ⟨(destroyed.valid k other).trans spent.1, (destroyed.quiet k other spent.1).trans spent.2⟩

/-- What every step of a loop keeps. -/
theorem foldlM_keeps {σ ι : Type} {step : σ → ι → Option σ} {P : σ → Prop} {items : List ι}
    (keeps : ∀ i ∈ items, ∀ s s', P s → step s i = some s' → P s') {s s' : σ} (start : P s)
    (ran : items.foldlM step s = some s') : P s' := by
  induction items generalizing s with
  | nil =>
    obtain rfl := Option.some.inj ran
    exact start
  | cons i items ih =>
    obtain ⟨s₁, first, ran⟩ := Option.bind_eq_some_iff.mp ran
    exact ih (fun j member => keeps j (List.mem_cons_of_mem _ member))
      (keeps i List.mem_cons_self s s₁ start first) ran

section Enumeration

variable {effect : OpFunc → KVStoreState → TxnCmd → KVStoreState} {destruction : Iteration (Nat × Nat)}
  {fuel g : Nat} {state : KVStoreState} {results results' : List KVStoreState}

/-- The statements of one round of the loop. -/
theorem tryNode_cases {i : Nat}
    {recurse : World → Nat → KVStoreState → Option (World × List KVStoreState)}
    (ran : Workload.tryNode effect destruction recurse fuel g state (w, results) i =
      some (w', results')) :
    ∃ w₁ n node w₂ w₃ more, w.deepCopy destruction fuel g = some (w₁, n) ∧
      (w₁.graphs n).readyNodes[i]? = some node ∧
      (w₁.setReady n ((w₁.graphs n).readyNodes.eraseIdx i)).dropAll fuel node.next = some w₂ ∧
      recurse w₂ n (runNode effect state node) = some (w₃, more) ∧
      w₃.destroyGraph fuel n = some w' ∧ results' = results ++ more := by
  obtain ⟨⟨w₁, n⟩, copied, ran⟩ := Option.bind_eq_some_iff.mp ran
  obtain ⟨node, found, ran⟩ := Option.bind_eq_some_iff.mp ran
  obtain ⟨w₂, taken, ran⟩ := Option.bind_eq_some_iff.mp ran
  obtain ⟨⟨w₃, more⟩, recursed, ran⟩ := Option.bind_eq_some_iff.mp ran
  obtain ⟨w₄, destroyed, same⟩ := Option.map_eq_some_iff.mp ran
  obtain ⟨rfl, rfl⟩ := Prod.mk.inj same
  exact ⟨w₁, n, node, w₂, w₃, more, copied, found, taken, recursed, destroyed, rfl⟩

/-- One round of the loop, if the recursion keeps the counts. -/
theorem Balanced.tryNode {i : Nat}
    {recurse : World → Nat → KVStoreState → Option (World × List KVStoreState)}
    (balanced : w.Balanced [] [] roots)
    (ih : ∀ {w w' g state results}, w.Balanced [] [] roots → g < w.graphCount →
      (w.graphs g).valid = true → recurse w g state = some (w', results) →
        w'.Balanced [] [] roots ∧ Ran w w')
    (ran : Workload.tryNode effect destruction recurse fuel g state (w, results) i =
      some (w', results')) : w'.Balanced [] [] roots ∧ Ran w w' := by
  obtain ⟨w₁, n, node, w₂, w₃, _, copied, found, taken, recursed, destroyed, _⟩ := tryNode_cases ran
  obtain ⟨one, later, rfl, count, valid⟩ := balanced.deepCopy copied
  obtain ⟨within, at_i⟩ := List.getElem?_eq_some_iff.mp found
  have perm : (w₁.graphs w.graphCount).readyNodes.Perm
      (node :: (w₁.graphs w.graphCount).readyNodes.eraseIdx i) := by
    rw [← at_i]
    exact (List.getElem_cons_eraseIdx_perm within).symm
  have inside : w.graphCount < w₁.graphCount := by omega
  obtain ⟨two, calm⟩ := one.take inside valid perm taken
  have inside₂ : w.graphCount < w₂.graphCount := calm.graphCount ▸ inside
  obtain ⟨three, rest⟩ := ih two inside₂ ((calm.valid _).trans valid) recursed
  obtain ⟨four, gone⟩ := three.destroyGraph (inside₂.trans_le rest.graphCount) destroyed
  exact ⟨four, later.scope count (calm.ran.trans rest) gone⟩

/-- Whatever the graph is, the recursion keeps the counts. -/
theorem Balanced.possibleResults (balanced : w.Balanced [] [] roots) (below : g < w.graphCount)
    (valid : (w.graphs g).valid = true)
    (ran : Workload.possibleResults effect destruction fuel w g state = some (w', results)) :
    w'.Balanced [] [] roots ∧ Ran w w' := by
  induction fuel generalizing w w' g state results with
  | zero => cases ran
  | succ fuel ih =>
    rw [Workload.possibleResults] at ran
    split at ran
    · obtain ⟨rfl, _⟩ := Prod.mk.inj (Option.some.inj ran)
      exact ⟨balanced, Calm.refl.ran⟩
    next node queue =>
      obtain ⟨w₁, taken, ran⟩ := Option.bind_eq_some_iff.mp ran
      obtain ⟨one, calm⟩ := balanced.take below valid (queue ▸ .refl _) taken
      obtain ⟨two, rest⟩ := ih one (calm.graphCount ▸ below) ((calm.valid g).trans valid) ran
      exact ⟨two, calm.ran.trans rest⟩
    next =>
      refine foldlM_keeps (P := fun s => s.1.Balanced [] [] roots ∧ Ran w s.1) ?_
        ⟨balanced, Calm.refl.ran⟩ ran
      rintro i - ⟨w₁, _⟩ ⟨w₂, _⟩ ⟨one, first⟩ step
      obtain ⟨two, second⟩ := one.tryNode ih step
      exact ⟨two, first.trans second⟩

end Enumeration

end World

/-! ## Parsing -/

/-- The nodes that the map owns. -/
def NodeMap.pointers (nodes : NodeMap) : List Nat := nodes.entries.map fun entry => entry.2.1

namespace World

variable {w w' : World} {roots : List Nat} {fuel g : Nat} {nodes nodes' : NodeMap}

theorem Balanced.addTxn {txn : Txn} (balanced : w.Balanced [] [] nodes.pointers)
    (below : g < w.graphCount) (ran : Workload.addTxn fuel g (w, nodes) txn = some (w', nodes')) :
    w'.Balanced [] [] nodes'.pointers ∧ Calm w w' := by
  have made := balanced.make (txn.node g) below
  have there : (w.heap.makeShared (txn.node g)).1.cells w.heap.fresh = some ⟨txn.node g, 1⟩ := by
    rw [Heap.cells_makeShared, if_pos rfl]
  -- It points to nothing yet.
  have closed : World.Balanced { w with heap := (w.heap.makeShared (txn.node g)).1 } [] []
      (w.heap.fresh :: nodes.pointers) :=
    (balanced_cons (w := { w with heap := (w.heap.makeShared (txn.node g)).1 }) there
      List.not_mem_nil).mp made
  simp only [Workload.addTxn] at ran
  split at ran
  next absent =>
    obtain ⟨rfl, rfl⟩ := Prod.mk.inj (Option.some.inj ran)
    refine ⟨closed.congr fun a => ?_, .heap _⟩
    show ((w.heap.fresh :: (UnorderedMap.erase nodes txn.txnId).entries.map fun entry => entry.2.1) :
      List Nat).count a = _
    rw [UnorderedMap.entries_erase_of_none absent]
    rfl
  next old found =>
    obtain ⟨w₁, dropped, same⟩ := Option.map_eq_some_iff.mp ran
    obtain ⟨rfl, rfl⟩ := Prod.mk.inj same
    have perm := (UnorderedMap.entries_perm_erase found).map fun entry => entry.2.1
    have last : World.Balanced { w with heap := (w.heap.makeShared (txn.node g)).1 } [] []
        ([old.1] ++ NodeMap.pointers (nodes.insertOrAssign txn.txnId (w.heap.fresh, txn.dependsOn))) :=
      closed.congr fun a => by
        have before : nodes.pointers.count a = _ := perm.count_eq a
        rw [List.count_cons, before]
        simp only [NodeMap.pointers, UnorderedMap.insertOrAssign, List.map_cons, List.count_append,
          List.count_cons, List.count_nil]
        omega
    obtain ⟨done, fewer⟩ := last.dropped dropped
    exact ⟨done, (Calm.heap _).trans fewer.toCalm⟩

theorem Balanced.link {node : Nat} {dep : UInt64} (balanced : w.Balanced [] [] roots)
    (ran : Workload.link nodes node w dep = some w') : w'.Balanced [] [] roots ∧ Calm w w' := by
  obtain ⟨depNode, _, ran⟩ := Option.bind_eq_some_iff.mp ran
  obtain ⟨cell, there, ran⟩ := Option.bind_eq_some_iff.mp ran
  obtain ⟨w₁, retained, rfl⟩ := Option.map_eq_some_iff.mp ran
  have one := balanced.retain retained
  have fewer := fewer_retain retained
  obtain ⟨heap, owned, rfl⟩ := Option.map_eq_some_iff.mp retained
  obtain ⟨n, still⟩ := Heap.retain_value owned there
  have opened := (balanced_cons (w := { w with heap := heap }) still List.not_mem_nil).mpr one
  have below : cell.value.graph < w.graphCount := balanced.placed _ cell there
  let longer : GraphNode := { cell.value with next := cell.value.next ++ [node] }
  have pointed : World.Balanced { w with heap := heap } [depNode.1] [] (longer.next ++ roots) :=
    opened.congr fun a => by
      simp only [longer, List.count_append, List.count_cons, List.count_nil]
      omega
  exact ⟨pointed.complete longer still List.not_mem_nil below, fewer.toCalm.trans (.heap _)⟩

theorem Balanced.linkAll {entry : UInt64 × Nat × List UInt64} (balanced : w.Balanced [] [] roots)
    (ran : Workload.linkAll nodes w entry = some w') : w'.Balanced [] [] roots ∧ Calm w w' := by
  refine foldlM_keeps (P := fun s => s.Balanced [] [] roots ∧ Calm w s) ?_ ⟨balanced, .refl⟩ ran
  rintro dep - w₁ w₂ ⟨one, first⟩ step
  obtain ⟨two, second⟩ := one.link step
  exact ⟨two, first.trans second⟩

theorem balanced_start : (World.makeGraph {} {}).1.Balanced [] [] [] := by
  refine ⟨⟨fun a => ?_, fun a cell there => ?_⟩, fun a cell there => ?_⟩
  · simp [Heap.useCount, Heap.incoming, Heap.empty, World.makeGraph, queued]
  · cases there
  · cases there

/-- Whatever the transactions are, parsing leaves a graph whose counts are exact. -/
theorem Balanced.parseTxnTrace {loop death : Iteration (UInt64 × Nat × List UInt64)} {txns : List Txn}
    (ran : Workload.parseTxnTrace loop death fuel txns = some (w, g)) :
    w.Balanced [] [] [] ∧ g = 0 ∧ w.graphCount = 1 ∧ (w.graphs 0).valid = true := by
  obtain ⟨⟨w₁, nodes⟩, added, ran⟩ := Option.bind_eq_some_iff.mp ran
  obtain ⟨w₂, linked, ran⟩ := Option.bind_eq_some_iff.mp ran
  obtain ⟨w₃, dropped, same⟩ := Option.map_eq_some_iff.mp ran
  obtain ⟨rfl, rfl⟩ := Prod.mk.inj same
  let start : World := (World.makeGraph {} {}).1
  obtain ⟨one, first⟩ := foldlM_keeps (P := fun s => s.1.Balanced [] [] (NodeMap.pointers s.2) ∧
      Calm start s.1) (by
    rintro txn - ⟨w, nodes⟩ ⟨w', nodes'⟩ ⟨one, first⟩ step
    have below : 0 < w.graphCount := first.graphCount ▸ Nat.one_pos
    obtain ⟨two, second⟩ := one.addTxn below step
    exact ⟨two, first.trans second⟩) ⟨balanced_start, .refl⟩ added
  obtain ⟨two, second⟩ := foldlM_keeps (P := fun s => s.Balanced [] [] (NodeMap.pointers nodes) ∧
      Calm start s) (by
    rintro entry - w w' ⟨one, first⟩ step
    obtain ⟨two, second⟩ := one.linkAll step
    exact ⟨two, first.trans second⟩) ⟨one, first⟩ linked
  have count : w₂.graphCount = 1 := second.graphCount
  have valid : (w₂.graphs 0).valid = true := by
    rw [second.valid 0]
    rfl
  let complete : TxnGraph := { w₂.graphs 0 with
    numNodes := nodes.entries.length, remainingNodes := nodes.entries.length }
  have last : (w₂.setGraph 0 complete).Balanced [] []
      (((death.order nodes.entries).map fun entry => entry.2.1) ++ []) :=
    two.setGraph (count ▸ Nat.one_pos) List.not_mem_nil fun a => by
      rw [List.append_nil, ((death.perm nodes.entries).map _).count_eq]
      rfl
  obtain ⟨three, fewer⟩ := last.dropped dropped
  refine ⟨three, rfl, fewer.graphCount.trans count, (fewer.valid 0).trans ?_⟩
  simpa [World.setGraph, complete] using valid

end World

end CloudLab.Workload
