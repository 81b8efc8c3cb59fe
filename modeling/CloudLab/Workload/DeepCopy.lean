import CloudLab.Workload.Dropping

/-!
# Copies of a graph

`deep_copy` copies the queue, and then every node that can be reached from it, once. While it runs,
the pointers that have not been redirected yet own the old nodes, and those that have been own the
new ones; the map of known nodes owns each new node once. In the end the old nodes are as they were,
and a new one has the owners that it has in the copy.

`nodes` are old nodes that are closed under successors, and `node` what they are; `base` is the first
new address.
-/
namespace CloudLab.Workload

open Library

/-- Where the copy of a node is. -/
def KnownNodes.at (known : KnownNodes) (a : Nat) : Nat := (known.find? a).getD 0

/-- The copy of a node when its successors are known. -/
def copyOf (node : Nat → GraphNode) (graph : Nat) (known : KnownNodes) (a : Nat) : GraphNode :=
  { node a with graph := graph, next := (node a).next.map known.at }

/-- A step while the copy is made: `count` are the owners of the old nodes, and `done` the pointers
that lead to new ones, by the old ones. -/
structure Copying (nodes : List Nat) (node : Nat → GraphNode) (start : World) (count : Nat → Nat)
    (done : List Nat) (w : World) (known : KnownNodes) : Prop where
  old : ∀ a ∈ nodes, w.heap.cells a = some ⟨node a, count a⟩
  below : ∀ a ∈ nodes, a < start.heap.fresh
  others : ∀ a, a < start.heap.fresh → a ∉ nodes → w.heap.cells a = start.heap.cells a
  fresh : start.heap.fresh ≤ w.heap.fresh
  graphs : w.graphs = start.graphs
  graphCount : w.graphCount = start.graphCount
  new : ∀ a b, known.find? a = some b → a ∈ nodes ∧ start.heap.fresh ≤ b ∧
    ∃ value, w.heap.cells b = some ⟨value, 1 + done.count a⟩
  apart : ∀ a a' b, known.find? a = some b → known.find? a' = some b → a = a'
  done : ∀ a, a ∈ done ↔ (known.find? a).isSome

/-- The new nodes keep their values, though not their owners. -/
def SameValues (start w w' : World) : Prop :=
  ∀ b cell, start.heap.fresh ≤ b → w.heap.cells b = some cell →
    ∃ n, w'.heap.cells b = some ⟨cell.value, n⟩

section Steps

variable {nodes : List Nat} {node : Nat → GraphNode} {start w w' w'' : World} {count : Nat → Nat}
  {done : List Nat} {known : KnownNodes} {a b : Nat}

theorem SameValues.refl : SameValues start w w := fun _ cell _ there => ⟨cell.useCount, there⟩

theorem SameValues.trans (first : SameValues start w w') (second : SameValues start w' w'') :
    SameValues start w w'' := by
  intro b cell beyond there
  obtain ⟨n, kept⟩ := first b cell beyond there
  exact second b ⟨cell.value, n⟩ beyond kept

theorem Copying.congr {count' : Nat → Nat} {done' : List Nat}
    (copying : Copying nodes node start count done w known) (counts : ∀ a ∈ nodes, count' a = count a)
    (perm : done.Perm done') : Copying nodes node start count' done' w known :=
  { copying with
    old := fun a member => by rw [counts a member, copying.old a member]
    new := by simpa only [perm.count_eq] using copying.new
    done := by simpa only [perm.mem_iff] using copying.done }

theorem Copying.ne_new (copying : Copying nodes node start count done w known) {a' : Nat}
    (member : a ∈ nodes) (found : known.find? a' = some b) : a ≠ b := by
  have below := copying.below a member
  have beyond := (copying.new a' b found).2.1
  omega

/-- One owner more or less of an old node. -/
theorem Copying.alterOld (copying : Copying nodes node start count done w known) (member : a ∈ nodes)
    (f : Nat → Nat) :
    Copying nodes node start (Function.update count a (f (count a))) done
        { w with heap := w.heap.alter a fun cell => some ⟨cell.value, f cell.useCount⟩ } known ∧
      SameValues start w
        { w with heap := w.heap.alter a fun cell => some ⟨cell.value, f cell.useCount⟩ } := by
  refine ⟨⟨fun b inside => ?_, copying.below, fun b below absent => ?_, copying.fresh, copying.graphs,
    copying.graphCount, fun a' b found => ?_, copying.apart, copying.done⟩, fun b cell beyond there => ?_⟩
  · by_cases same : b = a
    · subst same
      simp only [Heap.cells_alter, if_true, copying.old b inside, Option.bind_some,
        Function.update_self]
    · simp only [Heap.cells_alter_of_ne _ same, Function.update_of_ne same, copying.old b inside]
  · have other : b ≠ a := fun same => absent (same ▸ member)
    simp only [Heap.cells_alter_of_ne _ other, copying.others b below absent]
  · simp only [Heap.cells_alter_of_ne _ (copying.ne_new member found).symm]
    exact copying.new a' b found
  · have below := copying.below a member
    have other : b ≠ a := by omega
    exact ⟨cell.useCount, by simp only [Heap.cells_alter_of_ne _ other, there]⟩

theorem Copying.retain (copying : Copying nodes node start count done w known) (member : a ∈ nodes) :
    ∃ w', w.retain a = some w' ∧
      Copying nodes node start (Function.update count a (count a + 1)) done w' known ∧
        SameValues start w w' := by
  refine ⟨_, ?_, copying.alterOld member (· + 1)⟩
  simp [World.retain, Heap.retain, copying.old a member]

/-- The vector of successors of an old node, or of the queue. -/
theorem Copying.retainAll (copying : Copying nodes node start count done w known) (next : List Nat)
    (members : ∀ a ∈ next, a ∈ nodes) :
    ∃ w', w.retainAll next = some w' ∧
      Copying nodes node start (fun a => count a + next.count a) done w' known ∧
        SameValues start w w' := by
  simp only [World.retainAll]
  induction next generalizing w count with
  | nil => exact ⟨w, rfl, copying.congr (fun a _ => by simp) .rfl, .refl⟩
  | cons a next ih =>
    obtain ⟨w', retained, copying', same⟩ := copying.retain (members a List.mem_cons_self)
    obtain ⟨w'', rest, copying'', same'⟩ := ih copying' fun b inside => members b (by simp [inside])
    refine ⟨w'', ?_, copying''.congr (fun b _ => ?_) .rfl, same.trans same'⟩
    · rw [List.foldlM_cons, retained]
      exact rest
    · by_cases here : b = a
      · subst here
        simp
        omega
      · simp [here, Ne.symm here]

/-- An old node that the copy has pointed to has its old owners still. -/
theorem Copying.redirect (copying : Copying nodes node start count done w known) (member : a ∈ nodes)
    (owned : 2 ≤ count a) :
    ∃ w', (∀ fuel, 1 ≤ fuel → redirect fuel w a = some w') ∧
      Copying nodes node start (Function.update count a (count a - 1)) done w' known ∧
        SameValues start w w' := by
  obtain ⟨n, same⟩ := Nat.exists_eq_add_of_le owned
  have there := copying.old a member
  rw [same, Nat.add_comm] at there
  refine ⟨_, fun fuel enough => ?_, copying.alterOld member (· - 1)⟩
  obtain ⟨fuel, rfl⟩ := Nat.exists_eq_add_one_of_ne_zero (n := fuel) (by omega)
  rw [Workload.redirect, World.dropAll, Heap.release_shared there]
  cases fuel <;> rfl

/-- A change of a node that has been copied. -/
theorem Copying.alterNew (copying : Copying nodes node start count done w known)
    (found : known.find? a = some b) (f : Cell GraphNode → Cell GraphNode) {done' : List Nat}
    (counts : ∀ value, (f ⟨value, 1 + done.count a⟩).useCount = 1 + done'.count a)
    (others : ∀ a', a' ≠ a → done'.count a' = done.count a') (members : ∀ a', a' ∈ done' ↔ a' ∈ done) :
    Copying nodes node start count done'
      { w with heap := w.heap.alter b fun cell => some (f cell) } known := by
  obtain ⟨_, beyond, value, there⟩ := copying.new a b found
  refine ⟨fun a' inside => ?_, copying.below, fun a' below absent => ?_, copying.fresh, copying.graphs,
    copying.graphCount, fun a' b' found' => ?_, copying.apart, fun a' => ?_⟩
  · rw [Heap.cells_alter_of_ne _ (copying.ne_new inside found), copying.old a' inside]
  · have other : a' ≠ b := by omega
    rw [Heap.cells_alter_of_ne _ other, copying.others a' below absent]
  · obtain ⟨inside, beyond', value', own⟩ := copying.new a' b' found'
    refine ⟨inside, beyond', ?_⟩
    by_cases same : b' = b
    · subst same
      obtain rfl := copying.apart a a' b' found found'
      refine ⟨(f ⟨value', 1 + done.count a⟩).value, ?_⟩
      rw [Heap.cells_alter, if_pos rfl, own, Option.bind_some, ← counts value']
    · have other : a' ≠ a := by
        intro equal
        rw [equal, found] at found'
        exact same (Option.some.inj found').symm
      exact ⟨value', by rw [Heap.cells_alter_of_ne _ same, own, others a' other]⟩
  · rw [members, copying.done]

/-- A pointer to a node that has been copied already. -/
theorem Copying.retainNew (copying : Copying nodes node start count done w known)
    (found : known.find? a = some b) :
    ∃ w', w.retain b = some w' ∧ Copying nodes node start count (a :: done) w' known ∧
      SameValues start w w' := by
  obtain ⟨_, _, value, there⟩ := copying.new a b found
  have inside : a ∈ done := (copying.done a).mpr (by rw [found]; rfl)
  refine ⟨_, by simp [World.retain, Heap.retain, there],
    copying.alterNew found (fun cell => ⟨cell.value, cell.useCount + 1⟩)
      (fun _ => by rw [List.count_cons_self, Nat.add_assoc])
      (fun a' other => List.count_cons_of_ne (Ne.symm other)) (fun a' => ?_), fun b' cell _ own => ?_⟩
  · rw [List.mem_cons]
    exact ⟨fun either => either.elim (fun same => same ▸ inside) id, .inr⟩
  · by_cases same : b' = b
    · subst same
      exact ⟨cell.useCount + 1, by rw [Heap.cells_alter, if_pos rfl, own, Option.bind_some]⟩
    · exact ⟨cell.useCount, by rw [Heap.cells_alter_of_ne _ same, own]⟩

/-- The vector of a new node, when its pointers have been redirected. -/
theorem Copying.setValue (copying : Copying nodes node start count done w known)
    (found : known.find? a = some b) (value : GraphNode) :
    Copying nodes node start count done { w with heap := w.heap.setValue b value } known :=
  copying.alterNew found (fun cell => ⟨value, cell.useCount⟩) (fun _ => rfl) (fun _ _ => rfl)
    fun _ => .rfl

/-- A new node has two owners, the map and the pointer that is redirected to it. -/
theorem Copying.make (copying : Copying nodes node start count done w known) (member : a ∈ nodes)
    (unknown : known.find? a = none) (value : GraphNode) :
    ∃ w', World.retain { w with heap := (w.heap.makeShared value).1 } w.heap.fresh = some w' ∧
      Copying nodes node start count (a :: done) w' (known.insertOrAssign a w.heap.fresh) ∧
        SameValues start w w' ∧ w'.heap.cells w.heap.fresh = some ⟨value, 2⟩ := by
  have bound := copying.fresh
  have before : ∀ {a' b}, known.find? a' = some b → b < w.heap.fresh := by
    intro a' b found
    obtain ⟨_, _, _, there⟩ := copying.new a' b found
    exact Heap.lt_fresh there
  have absent : done.count a = 0 := by
    rw [List.count_eq_zero, copying.done, unknown]
    simp
  let heap := (w.heap.makeShared value).1.alter w.heap.fresh fun cell =>
    some ⟨cell.value, cell.useCount + 1⟩
  have here : heap.cells w.heap.fresh = some ⟨value, 2⟩ := by
    simp [heap, Heap.cells_alter, Heap.cells_makeShared]
  have elsewhere : ∀ {b}, b ≠ w.heap.fresh → heap.cells b = w.heap.cells b := by
    intro b other
    rw [Heap.cells_alter_of_ne _ other, Heap.cells_makeShared, if_neg other]
  refine ⟨{ w with heap := heap }, by simp [World.retain, Heap.retain, Heap.cells_makeShared, heap],
    ⟨fun a' inside => ?_, copying.below, fun a' below absent => ?_, ?_, copying.graphs,
      copying.graphCount, fun a' b found => ?_, fun a₁ a₂ b first second => ?_, fun a' => ?_⟩,
    fun b cell _ there => ?_, here⟩
  · have below := copying.below a' inside
    exact (elsewhere (by omega)).trans (copying.old a' inside)
  · exact (elsewhere (by omega)).trans (copying.others a' below absent)
  · exact bound.trans (Nat.le_succ _)
  · rw [UnorderedMap.find?_insertOrAssign] at found
    split at found
    next same =>
      obtain rfl := Option.some.inj found
      subst same
      exact ⟨member, bound, value, by rw [List.count_cons_self, absent]; exact here⟩
    next other =>
      obtain ⟨inside, beyond, value', there⟩ := copying.new a' b found
      refine ⟨inside, beyond, value', ?_⟩
      rw [List.count_cons_of_ne (Ne.symm other), ← there]
      exact elsewhere (Nat.ne_of_lt (before found))
  · rw [UnorderedMap.find?_insertOrAssign] at first second
    split at first
    next own =>
      split at second
      next too => rw [own, too]
      next =>
        obtain rfl := Option.some.inj first
        exact absurd (before second) (Nat.lt_irrefl _)
    next =>
      split at second
      next =>
        obtain rfl := Option.some.inj second
        exact absurd (before first) (Nat.lt_irrefl _)
      next => exact copying.apart a₁ a₂ b first second
  · rw [UnorderedMap.find?_insertOrAssign, List.mem_cons, copying.done]
    by_cases same : a' = a <;> simp [same]
  · exact ⟨cell.useCount, (elsewhere (Nat.ne_of_lt (Heap.lt_fresh there))).trans there⟩

end Steps

/-! ## The recursion -/

/-- What copying the successors in `next` comes to: `fresh` are the nodes copied on the way. -/
structure Copied (nodes : List Nat) (node : Nat → GraphNode) (start : World) (graph : Nat)
    (count : Nat → Nat) (done next : List Nat) (w : World) (known : KnownNodes) (w' : World)
    (known' : KnownNodes) (fresh : List Nat) : Prop where
  copying : Copying nodes node start count
    (next ++ fresh.flatMap (fun a => (node a).next) ++ done) w' known'
  grows : ∀ a b, known.find? a = some b → known'.find? a = some b
  values : ∀ a b cell, known.find? a = some b → w.heap.cells b = some cell →
    ∃ n, w'.heap.cells b = some ⟨cell.value, n⟩
  distinct : fresh.Nodup
  new : ∀ a ∈ fresh, known.find? a = none
  copies : ∀ a ∈ fresh, ∃ n, w'.heap.cells (known'.at a) = some ⟨copyOf node graph known' a, n⟩
  known : ∀ a, (known'.find? a).isSome ↔ (known.find? a).isSome ∨ a ∈ fresh

/-- With enough fuel, `deep_copy_network` ends, and has copied what it had to. -/
def CopyEnds (nodes : List Nat) (node : Nat → GraphNode) (start : World) (graph : Nat)
    (count : Nat → Nat) (done next : List Nat) (w : World) (known : KnownNodes) : Prop :=
  ∃ w' known' fresh enough, (∀ fuel, enough ≤ fuel →
      deepCopyNetwork graph fuel (w, known) next = some ((w', known'), next.map known'.at)) ∧
    Copied nodes node start graph count done next w known w' known' fresh

/-- So does the work on the first successor, after which the others are left. -/
def FirstEnds (nodes : List Nat) (node : Nat → GraphNode) (start : World) (graph : Nat)
    (count : Nat → Nat) (done : List Nat) (a : Nat) (w : World) (known : KnownNodes) : Prop :=
  ∃ w' known' fresh enough, (∀ fuel rest, enough ≤ fuel →
      deepCopyNetwork graph (fuel + 1) (w, known) (a :: rest) =
        (deepCopyNetwork graph fuel (w', known') rest).map fun s => (s.1, known'.at a :: s.2)) ∧
    Copied nodes node start graph count done [a] w known w' known' fresh

theorem KnownNodes.at_of_find? {known : KnownNodes} {a b : Nat} (found : known.find? a = some b) :
    known.at a = b := by
  rw [KnownNodes.at, found, Option.getD_some]

/-- The old nodes that have no copy yet. -/
def unknownNodes (nodes : List Nat) (known : KnownNodes) : Nat :=
  nodes.countP fun a => (known.find? a).isNone

section Recursion

variable {nodes : List Nat} {node : Nat → GraphNode} {start w w' w'' : World} {graph : Nat}
  {count count' : Nat → Nat} {done next rest : List Nat} {known known' known'' : KnownNodes} {a b : Nat}

theorem unknownNodes_le (grows : ∀ a b, known.find? a = some b → known'.find? a = some b) :
    unknownNodes nodes known' ≤ unknownNodes nodes known := by
  refine List.countP_mono_left fun a _ none => ?_
  rw [Option.isNone_iff_eq_none] at none ⊢
  rw [Option.eq_none_iff_forall_ne_some]
  intro b found
  rw [grows a b found] at none
  cases none

theorem unknownNodes_insert (member : a ∈ nodes) (unknown : known.find? a = none) :
    unknownNodes nodes (known.insertOrAssign a b) < unknownNodes nodes known := by
  have split := List.perm_cons_erase member
  rw [unknownNodes, unknownNodes, split.countP_eq, split.countP_eq, List.countP_cons, List.countP_cons,
    UnorderedMap.find?_insertOrAssign, if_pos rfl, unknown]
  have rest : (nodes.erase a).countP (fun c => ((known.insertOrAssign a b).find? c).isNone) ≤
      (nodes.erase a).countP fun c => (known.find? c).isNone := by
    refine List.countP_mono_left fun c _ none => ?_
    rw [UnorderedMap.find?_insertOrAssign] at none
    split at none
    · cases none
    · exact none
  simp only [Option.isNone_some, Option.isNone_none, Bool.false_eq_true, if_false, if_true]
  omega

/-- Copies keep their values while more nodes become known. -/
theorem Copied.copyOf_eq (first : Copying nodes node start count done w known)
    (grows : ∀ a b, known.find? a = some b → known'.find? a = some b)
    (inside : ∀ b ∈ (node a).next, b ∈ done) :
    copyOf node graph known' a = copyOf node graph known a := by
  simp only [copyOf, GraphNode.mk.injEq, Node.mk.injEq, true_and, and_true]
  refine List.map_congr_left fun b member => ?_
  obtain ⟨c, found⟩ := Option.isSome_iff_exists.mp ((first.done b).mp (inside b member))
  rw [KnownNodes.at_of_find? found, KnownNodes.at_of_find? (grows b c found)]

theorem deepCopyNetwork_nil (fuel : Nat) :
    deepCopyNetwork graph fuel (w, known) [] = some ((w, known), []) := by
  cases fuel <;> rfl

/-- A node that is complete keeps its value while others are copied. -/
theorem Copied.append {next fresh₁ fresh₂ : List Nat}
    (first : Copied nodes node start graph (fun c => count c + rest.count c) done next w known w'
      known' fresh₁)
    (second : Copied nodes node start graph count
      (next ++ fresh₁.flatMap (fun a => (node a).next) ++ done) rest w' known' w'' known'' fresh₂) :
    Copied nodes node start graph count done (next ++ rest) w known w'' known'' (fresh₁ ++ fresh₂) ∧
      next.map known''.at = next.map known'.at := by
  have inside : ∀ a ∈ fresh₁, (known'.find? a).isSome := fun a member =>
    (first.known a).mpr (.inr member)
  have both : Copied nodes node start graph count done (next ++ rest) w known w'' known''
      (fresh₁ ++ fresh₂) := {
    copying := by
      apply second.copying.congr (fun _ _ => rfl)
      rw [List.perm_iff_count]
      intro c
      simp only [List.count_append, List.flatMap_append]
      omega
    grows a b found := second.grows a b (first.grows a b found)
    values a b cell found there := by
      obtain ⟨n, kept⟩ := first.values a b cell found there
      exact second.values a b ⟨cell.value, n⟩ (first.grows a b found) kept
    distinct := by
      refine List.nodup_append.mpr ⟨first.distinct, second.distinct, fun a one b two same => ?_⟩
      have some := inside a one
      rw [same, second.new b two] at some
      cases some
    new a member := by
      rcases List.mem_append.mp member with member | member
      · exact first.new a member
      · rw [Option.eq_none_iff_forall_ne_some]
        intro b found
        have none := second.new a member
        rw [first.grows a b found] at none
        cases none
    copies a member := by
      rcases List.mem_append.mp member with member | member
      · obtain ⟨b, found⟩ := Option.isSome_iff_exists.mp (inside a member)
        obtain ⟨n, there⟩ := first.copies a member
        rw [KnownNodes.at_of_find? found] at there
        obtain ⟨n', kept⟩ := second.values a b _ found there
        refine ⟨n', ?_⟩
        rw [KnownNodes.at_of_find? (second.grows a b found), kept,
          Copied.copyOf_eq first.copying second.grows fun c listed => ?_]
        simp only [List.mem_append, List.mem_flatMap]
        exact .inl (.inr ⟨a, member, listed⟩)
      · exact second.copies a member
    known a := by rw [second.known, first.known, List.mem_append, or_assoc] }
  refine ⟨both, List.map_congr_left fun a member => ?_⟩
  obtain ⟨b, found⟩ := Option.isSome_iff_exists.mp ((first.copying.done a).mp (by simp [member]))
  rw [KnownNodes.at_of_find? found, KnownNodes.at_of_find? (second.grows a b found)]

/-- The successor has been copied already. -/
theorem FirstEnds.of_known (copying : Copying nodes node start (fun c => count c + [a].count c) done w known)
    (member : a ∈ nodes) (positive : 1 ≤ count a) (found : known.find? a = some b) :
    FirstEnds nodes node start graph count done a w known := by
  obtain ⟨w₁, retained, first, same₁⟩ := copying.retainNew found
  obtain ⟨w₂, redirected, second, same₂⟩ := first.redirect member (by simp; omega)
  refine ⟨w₂, known, [], 1, fun fuel rest enough => ?_, ?_, fun _ _ found => found, ?_, .nil, nofun,
    nofun, fun c => by simp⟩
  · simp only [deepCopyNetwork, found, retained, Option.bind_some, redirected fuel enough,
      KnownNodes.at_of_find? found]
  · refine second.congr (fun c _ => ?_) (by simp)
    by_cases same : c = a
    · subst same
      simp
    · simp [same, Ne.symm same]
  · intro c d cell found' there
    exact (same₁.trans same₂) d cell (copying.new c d found').2.1 there

/-- The successors of a new node are copied, and its vector gets complete. -/
theorem Copied.complete (copying : Copying nodes node start count done w known)
    (unknown : known.find? a = none) (same : SameValues start w w') {fresh : List Nat}
    (copied : Copied nodes node start graph count' (a :: done) (node a).next w'
      (known.insertOrAssign a b) w'' known'' fresh) :
    Copied nodes node start graph count' done [a] w known
      { w'' with heap := w''.heap.setValue b (copyOf node graph known'' a) } known'' (a :: fresh) := by
  have own : known''.find? a = some b := copied.grows a b (by simp)
  have inserted : ∀ c d, known.find? c = some d →
      c ≠ a ∧ (known.insertOrAssign a b).find? c = some d := by
    intro c d found
    have other : c ≠ a := by
      intro equal
      rw [equal, unknown] at found
      cases found
    exact ⟨other, by rw [UnorderedMap.find?_insertOrAssign, if_neg other, found]⟩
  have other : ∀ c ∈ fresh, c ≠ a := by
    intro c inside equal
    have none := copied.new c inside
    rw [equal, UnorderedMap.find?_insertOrAssign, if_pos rfl] at none
    cases none
  -- Only the new node is changed.
  have elsewhere : ∀ c d value, c ≠ a → known''.find? c = some d →
      (w''.heap.setValue b value).cells d = w''.heap.cells d := by
    intro c d value other found
    refine Heap.cells_alter_of_ne _ fun equal => other ?_
    rw [equal] at found
    exact copied.copying.apart c a b found own
  exact {
    copying := by
      apply (copied.copying.setValue own _).congr (fun _ _ => rfl)
      rw [List.perm_iff_count]
      intro c
      simp only [List.count_append, List.count_cons, List.flatMap_cons, List.count_nil]
      omega
    grows c d found := copied.grows c d (inserted c d found).2
    values c d cell found held := by
      obtain ⟨n, kept⟩ := same d cell (copying.new c d found).2.1 held
      obtain ⟨other, listed⟩ := inserted c d found
      obtain ⟨n', kept⟩ := copied.values c d ⟨cell.value, n⟩ listed kept
      exact ⟨n', (elsewhere c d _ other (copied.grows c d listed)).trans kept⟩
    distinct := List.nodup_cons.mpr ⟨fun again => other a again rfl, copied.distinct⟩
    new c inside := by
      rcases List.mem_cons.mp inside with equal | inside
      · exact equal ▸ unknown
      · rw [Option.eq_none_iff_forall_ne_some]
        intro d found
        have none := copied.new c inside
        rw [(inserted c d found).2] at none
        cases none
    copies c inside := by
      rcases List.mem_cons.mp inside with equal | inside
      · subst equal
        obtain ⟨_, _, value, held⟩ := copied.copying.new c b own
        refine ⟨1 + ((node c).next ++ fresh.flatMap (fun a => (node a).next) ++ c :: done).count c,
          ?_⟩
        rw [KnownNodes.at_of_find? own]
        simp only [Heap.setValue, Heap.cells_alter, if_true, held, Option.bind_some]
      · obtain ⟨d, found⟩ := Option.isSome_iff_exists.mp ((copied.known c).mpr (.inr inside))
        obtain ⟨n, held⟩ := copied.copies c inside
        rw [KnownNodes.at_of_find? found] at held ⊢
        exact ⟨n, (elsewhere c d _ (other c inside) found).trans held⟩
    known c := by
      rw [copied.known, UnorderedMap.find?_insertOrAssign, List.mem_cons]
      by_cases equal : c = a <;> simp [equal] }

/-- The successor is copied, with all that can be reached from it. -/
theorem FirstEnds.of_unknown (closed : ∀ b ∈ (node a).next, b ∈ nodes)
    (copying : Copying nodes node start (fun c => count c + [a].count c) done w known)
    (member : a ∈ nodes) (positive : 1 ≤ count a) (unknown : known.find? a = none)
    (nested : ∀ w' b, Copying nodes node start (fun c => count c + (node a).next.count c) (a :: done) w'
        (known.insertOrAssign a b) →
      CopyEnds nodes node start graph count (a :: done) (node a).next w' (known.insertOrAssign a b)) :
    FirstEnds nodes node start graph count done a w known := by
  have there := copying.old a member
  obtain ⟨w₁, retained, first, same₁⟩ := copying.retainAll (node a).next closed
  obtain ⟨w₂, made, second, same₂, _⟩ := first.make member unknown { node a with graph := graph }
  obtain ⟨w₃, redirected, third, same₃⟩ := second.redirect member (by simp; omega)
  generalize address : w₁.heap.fresh = b at *
  have settled : Copying nodes node start (fun c => count c + (node a).next.count c) (a :: done) w₃
      (known.insertOrAssign a b) := by
    refine third.congr (fun c _ => ?_) .rfl
    by_cases same : c = a
    · subst same
      simp
    · simp [same, Ne.symm same]
  obtain ⟨w₄, known₄, fresh, enough, runs, copied⟩ := nested w₃ b settled
  have own : known₄.find? a = some b := copied.grows a b (by simp)
  refine ⟨_, known₄, a :: fresh, enough + 2, fun fuel rest more => ?_,
    copied.complete copying unknown ((same₁.trans same₂).trans same₃)⟩
  have made_at : (w₁.heap.makeShared { node a with graph := graph }).2 = b := address
  simp only [deepCopyNetwork, unknown, there, retained, Option.bind_some, made_at, made,
    redirected fuel (by omega), runs fuel (by omega), KnownNodes.at_of_find? own]
  rfl

theorem CopyEnds.cons
    (first : FirstEnds nodes node start graph (fun c => count c + rest.count c) done a w known)
    (behind : ∀ w' known' done', (∀ c d, known.find? c = some d → known'.find? c = some d) →
      Copying nodes node start (fun c => count c + rest.count c) done' w' known' →
      CopyEnds nodes node start graph count done' rest w' known') :
    CopyEnds nodes node start graph count done (a :: rest) w known := by
  obtain ⟨w₁, known₁, fresh₁, enough₁, runs₁, copied₁⟩ := first
  obtain ⟨w₂, known₂, fresh₂, enough₂, runs₂, copied₂⟩ :=
    behind w₁ known₁ _ copied₁.grows copied₁.copying
  obtain ⟨copied, same⟩ := copied₁.append copied₂
  refine ⟨w₂, known₂, fresh₁ ++ fresh₂, enough₁ + enough₂ + 1, fun fuel more => ?_, copied⟩
  obtain ⟨fuel, rfl⟩ := Nat.exists_eq_add_one_of_ne_zero (n := fuel) (by omega)
  rw [runs₁ fuel rest (by omega), runs₂ fuel (by omega), List.map_cons, (List.cons.inj same).1,
    Option.map_some]

theorem Copied.nil (copying : Copying nodes node start (fun c => count c + [].count c) done w known) :
    Copied nodes node start graph count done [] w known w known [] :=
  ⟨copying.congr (fun a _ => by simp) .rfl, fun _ _ found => found,
    fun _ _ cell _ there => ⟨cell.useCount, there⟩, .nil, nofun, nofun, fun a => by simp⟩

theorem copyEnds (closed : ∀ a ∈ nodes, ∀ b ∈ (node a).next, b ∈ nodes)
    (positive : ∀ a ∈ nodes, 1 ≤ count a) (members : ∀ a ∈ next, a ∈ nodes)
    (copying : Copying nodes node start (fun c => count c + next.count c) done w known) :
    CopyEnds nodes node start graph count done next w known := by
  obtain ⟨n, bound⟩ : ∃ n, unknownNodes nodes known < n := ⟨_, Nat.lt_succ_self _⟩
  -- On the nodes that have no copy, and then on the successors.
  induction n generalizing count done next w known with
  | zero => omega
  | succ n fewer =>
    induction next generalizing done w known with
    | nil => exact ⟨w, known, [], 0, fun fuel _ => deepCopyNetwork_nil fuel, .nil copying⟩
    | cons a rest ih =>
      have member := members a List.mem_cons_self
      have others : ∀ b ∈ rest, b ∈ nodes := fun b inside => members b (by simp [inside])
      have more : ∀ c ∈ nodes, 1 ≤ count c + rest.count c := fun c inside =>
        (positive c inside).trans (Nat.le_add_right _ _)
      have next : Copying nodes node start (fun c => count c + rest.count c + [a].count c) done w
          known := by
        refine copying.congr (fun c _ => ?_) .rfl
        simp only [List.count_cons, List.count_nil]
        omega
      refine CopyEnds.cons ?_ fun w' known' done' grows settled =>
        ih others settled (Nat.lt_of_le_of_lt (unknownNodes_le grows) bound)
      cases found : known.find? a with
      | some b => exact .of_known next member (more a member) found
      | none =>
        refine .of_unknown (closed a member) next member (more a member) found fun w' b settled => ?_
        have less := unknownNodes_insert (b := b) member found
        exact fewer more (closed a member) settled (by omega)

end Recursion

/-! ## The queue, and the whole graph -/

section Graph

variable {nodes : List Nat} {node : Nat → GraphNode} {start w : World} {g graph : Nat}
  {count : Nat → Nat} {done : List Nat} {known : KnownNodes}

/-- The node with its pointers redirected. -/
def Node.mapNext (place : Nat → Nat) (n : Node) : Node := { n with next := n.next.map place }

variable (graph) in
theorem deepCopyReady_ends (closed : ∀ a ∈ nodes, ∀ b ∈ (node a).next, b ∈ nodes)
    (positive : ∀ a ∈ nodes, 1 ≤ count a) (ready : List Node)
    (members : ∀ n ∈ ready, ∀ a ∈ n.next, a ∈ nodes)
    (copying : Copying nodes node start (fun c => count c + (ready.flatMap Node.next).count c) done w
      known) :
    ∃ w' known' fresh enough, (∀ fuel, enough ≤ fuel → deepCopyReady graph fuel (w, known) ready =
        some ((w', known'), ready.map (Node.mapNext known'.at))) ∧
      Copied nodes node start graph count done (ready.flatMap Node.next) w known w' known' fresh := by
  induction ready generalizing done w known with
  | nil => exact ⟨w, known, [], 0, fun _ _ => rfl, .nil copying⟩
  | cons n ready ih =>
    have more : ∀ c ∈ nodes, 1 ≤ count c + (ready.flatMap Node.next).count c := fun c inside =>
      (positive c inside).trans (Nat.le_add_right _ _)
    have next : Copying nodes node start
        (fun c => count c + (ready.flatMap Node.next).count c + n.next.count c) done w known := by
      refine copying.congr (fun c _ => ?_) .rfl
      rw [List.flatMap_cons, List.count_append]
      omega
    obtain ⟨w₁, known₁, fresh₁, enough₁, runs₁, copied₁⟩ :=
      copyEnds closed more (members n List.mem_cons_self) next
    obtain ⟨w₂, known₂, fresh₂, enough₂, runs₂, copied₂⟩ :=
      ih (fun m inside => members m (by simp [inside])) copied₁.copying
    obtain ⟨copied, same⟩ := copied₁.append copied₂
    refine ⟨w₂, known₂, fresh₁ ++ fresh₂, enough₁ + enough₂, fun fuel more => ?_, copied⟩
    simp only [deepCopyReady, runs₁ fuel (by omega), runs₂ fuel (by omega), Option.bind_some,
      Option.map_some, List.map_cons, Node.mapNext, same]

/-- Pointers die that are not the last ones. -/
theorem World.dropAll_shared (owed : List Nat) (distinct : owed.Nodup)
    (shared : ∀ a ∈ owed, ∃ value n, w.heap.cells a = some ⟨value, n + 2⟩) :
    ∃ w', (∀ fuel, owed.length ≤ fuel → w.dropAll fuel owed = some w') ∧ w'.graphs = w.graphs ∧
      w'.graphCount = w.graphCount ∧ (∀ a, a ∉ owed → w'.heap.cells a = w.heap.cells a) ∧
      ∀ a ∈ owed, ∀ value n, w.heap.cells a = some ⟨value, n + 2⟩ →
        w'.heap.cells a = some ⟨value, n + 1⟩ := by
  induction owed generalizing w with
  | nil => exact ⟨w, fun fuel _ => by cases fuel <;> rfl, rfl, rfl, fun _ _ => rfl, nofun⟩
  | cons a owed ih =>
    obtain ⟨absent, distinct⟩ := List.nodup_cons.mp distinct
    obtain ⟨value, n, there⟩ := shared a List.mem_cons_self
    let heap := w.heap.alter a fun cell => some ⟨cell.value, cell.useCount - 1⟩
    have elsewhere : ∀ {b}, b ≠ a → heap.cells b = w.heap.cells b := Heap.cells_alter_of_ne _
    have apart : ∀ b ∈ owed, b ≠ a := fun b member same => absent (same ▸ member)
    obtain ⟨w', runs, graphs, graphCount, others, those⟩ := ih (w := { w with heap := heap }) distinct
      fun b member => by
        obtain ⟨value, n, own⟩ := shared b (List.mem_cons_of_mem _ member)
        exact ⟨value, n, (elsewhere (apart b member)).trans own⟩
    refine ⟨w', fun fuel enough => ?_, graphs, graphCount, fun b outside => ?_,
      fun b inside value n own => ?_⟩
    · obtain ⟨fuel, rfl⟩ := Nat.exists_eq_add_one_of_ne_zero (n := fuel) (Nat.ne_of_gt
        (Nat.lt_of_lt_of_le (Nat.succ_pos _) enough))
      rw [World.dropAll, Heap.release_shared there, Option.bind_some]
      exact runs fuel (by simpa using enough)
    · obtain ⟨other, outside⟩ := not_or.mp (List.mem_cons.not.mp outside)
      exact (others b outside).trans (elsewhere other)
    · rcases List.mem_cons.mp inside with same | inside
      · subst same
        rw [others b absent]
        simp only [heap, Heap.cells_alter, if_true, own, Option.bind_some]
        rfl
      · exact those b inside value n ((elsewhere (apart b inside)).trans own)

theorem KnownNodes.mem_dying {destruction : Iteration (Nat × Nat)} {b : Nat} :
    b ∈ known.dying destruction ↔ ∃ a, known.find? a = some b := by
  rw [dying, List.mem_map]
  constructor
  · rintro ⟨e, listed, same⟩
    rw [destruction.mem_order] at listed
    exact ⟨e.1, (known.mem_entries_iff e.1 b).mp (same ▸ listed)⟩
  · rintro ⟨a, found⟩
    exact ⟨(a, b), destruction.mem_order.mpr ((known.mem_entries_iff a b).mpr found), rfl⟩

theorem Copying.nodup_dying {destruction : Iteration (Nat × Nat)}
    (copying : Copying nodes node start count done w known) : (known.dying destruction).Nodup := by
  rw [KnownNodes.dying, ((destruction.perm known.entries).map Prod.snd).nodup_iff]
  refine List.Nodup.map_on (fun e one f two same => ?_) known.distinct.of_map
  have found := (known.mem_entries_iff e.1 e.2).mp one
  rw [same] at found
  exact Prod.ext (copying.apart e.1 f.1 f.2 found ((known.mem_entries_iff f.1 f.2).mp two)) same

/-- The graph `w.graphCount` is a copy of `g`: `reach` are the nodes that have been copied, and
`place` says where to. -/
structure GraphCopy (w w' : World) (g : Nat) (node : Nat → GraphNode) (reach : List Nat)
    (place : Nat → Nat) : Prop where
  old : ∀ a, a < w.heap.fresh → w'.heap.cells a = w.heap.cells a
  graphs : w'.graphs = Function.update w.graphs w.graphCount
    { w.graphs g with valid := true, readyNodes := (w.graphs g).readyNodes.map (Node.mapNext place) }
  graphCount : w'.graphCount = w.graphCount + 1
  distinct : reach.Nodup
  ready : ∀ n ∈ (w.graphs g).readyNodes, ∀ a ∈ n.next, a ∈ reach
  closed : ∀ a ∈ reach, ∀ b ∈ (node a).next, b ∈ reach
  new : ∀ a ∈ reach, w.heap.fresh ≤ place a ∧ w'.heap.cells (place a) = some
    ⟨{ node a with graph := w.graphCount, next := (node a).next.map place },
      ((w.graphs g).readyNodes.flatMap Node.next ++ reach.flatMap fun a => (node a).next).count a⟩
  apart : ∀ a ∈ reach, ∀ b ∈ reach, place a = place b → a = b

/-- The node at an address, if there is one. -/
def World.nodeAt (w : World) (a : Nat) : GraphNode :=
  ((w.heap.cells a).map Cell.value).getD ⟨⟨0, true, [], [], 0⟩, 0⟩

def World.countAt (w : World) (a : Nat) : Nat := ((w.heap.cells a).map Cell.useCount).getD 0

theorem World.cells_at {a : Nat} {cell : Cell GraphNode} (there : w.heap.cells a = some cell) :
    cell = ⟨w.nodeAt a, w.countAt a⟩ := by
  rw [World.nodeAt, World.countAt, there]
  rfl

/-- Nothing has been copied yet. -/
theorem Copying.init (there : ∀ a ∈ nodes, w.heap.cells a = some ⟨node a, count a⟩) :
    Copying nodes node w count [] w ∅ where
  old := there
  below a member := Heap.lt_fresh (there a member)
  others _ _ _ := rfl
  fresh := le_rfl
  graphs := rfl
  graphCount := rfl
  new _ _ found := by cases found
  apart _ _ _ found := by cases found
  done a := by simp

/-- A node that has been copied is pointed to. -/
theorem Copying.exists_count (copying : Copying nodes node start count done w known) {a b : Nat}
    (found : known.find? a = some b) : ∃ n, done.count a = n + 1 := by
  have member := (copying.done a).mpr (by rw [found]; rfl)
  exact Nat.exists_eq_add_one_of_ne_zero (Nat.ne_of_gt (List.count_pos_iff.mpr member))

/-- When the map of known nodes has died, the copy is complete. -/
theorem Copied.graphCopy {w₁ w₂ w' : World} {destruction : Iteration (Nat × Nat)} {fresh : List Nat}
    (there : ∀ a ∈ nodes, w.heap.cells a = some ⟨node a, count a⟩)
    (copied : Copied nodes node (w.makeGraph { w.graphs g with valid := true }).1 w.graphCount count []
      ((w.graphs g).readyNodes.flatMap Node.next) w₁ ∅ w₂ known fresh)
    (graphs : w'.graphs = (w₂.setReady w.graphCount
      ((w.graphs g).readyNodes.map (Node.mapNext known.at))).graphs)
    (graphCount : w'.graphCount = w₂.graphCount)
    (others : ∀ a, a ∉ known.dying destruction → w'.heap.cells a = w₂.heap.cells a)
    (those : ∀ b ∈ known.dying destruction, ∀ value n, w₂.heap.cells b = some ⟨value, n + 2⟩ →
      w'.heap.cells b = some ⟨value, n + 1⟩) :
    GraphCopy w w' g node fresh known.at := by
  have copying := copied.copying
  have reached : ∀ a, (known.find? a).isSome ↔ a ∈ fresh := fun a => by simp [copied.known]
  exact {
    old a below := by
      have outside : a ∉ known.dying destruction := by
        intro member
        obtain ⟨c, found⟩ := KnownNodes.mem_dying.mp member
        exact absurd (copying.new c a found).2.1 (Nat.not_le_of_lt below)
      rw [others a outside]
      by_cases member : a ∈ nodes
      · exact (copying.old a member).trans (there a member).symm
      · exact copying.others a below member
    graphs := by
      rw [graphs]
      simp only [World.setReady, World.setGraph, copying.graphs, World.makeGraph,
        Function.update_self, Function.update_idem]
    graphCount := graphCount.trans copying.graphCount
    distinct := copied.distinct
    ready n listed a inside := by
      rw [← reached, ← copying.done]
      simp only [List.mem_append, List.mem_flatMap]
      exact .inl (.inl ⟨n, listed, inside⟩)
    closed a member b inside := by
      rw [← reached, ← copying.done]
      simp only [List.mem_append, List.mem_flatMap]
      exact .inl (.inr ⟨a, member, inside⟩)
    new a member := by
      obtain ⟨b, found⟩ := Option.isSome_iff_exists.mp ((reached a).mpr member)
      obtain ⟨_, beyond, value, own⟩ := copying.new a b found
      obtain ⟨n, count⟩ := copying.exists_count found
      obtain ⟨_, held⟩ := copied.copies a member
      rw [KnownNodes.at_of_find? found] at held ⊢
      obtain ⟨rfl, _⟩ := Cell.mk.inj (Option.some.inj (own.symm.trans held))
      rw [count, Nat.add_comm] at own
      refine ⟨beyond, (those b (KnownNodes.mem_dying.mpr ⟨a, found⟩) _ n own).trans ?_⟩
      rw [List.append_nil] at count
      rw [count]
      rfl
    apart a one b two same := by
      obtain ⟨c, found⟩ := Option.isSome_iff_exists.mp ((reached a).mpr one)
      obtain ⟨d, found'⟩ := Option.isSome_iff_exists.mp ((reached b).mpr two)
      rw [KnownNodes.at_of_find? found, KnownNodes.at_of_find? found'] at same
      exact copying.apart a b d (same ▸ found) found' }

theorem World.deepCopy_copies (destruction : Iteration (Nat × Nat))
    (there : ∀ a ∈ nodes, w.heap.cells a = some ⟨node a, count a⟩)
    (positive : ∀ a ∈ nodes, 1 ≤ count a) (closed : ∀ a ∈ nodes, ∀ b ∈ (node a).next, b ∈ nodes)
    (members : ∀ n ∈ (w.graphs g).readyNodes, ∀ a ∈ n.next, a ∈ nodes) :
    ∃ w' reach place enough, (∀ fuel, enough ≤ fuel →
        w.deepCopy destruction fuel g = some (w', w.graphCount)) ∧
      GraphCopy w w' g node reach place ∧ ∀ a ∈ reach, a ∈ nodes := by
  let ready := (w.graphs g).readyNodes
  let copy : TxnGraph := { w.graphs g with valid := true }
  have pointers : ∀ a ∈ ready.flatMap Node.next, a ∈ nodes := by
    intro a member
    obtain ⟨n, listed, inside⟩ := List.mem_flatMap.mp member
    exact members n listed a inside
  obtain ⟨w₁, retained, first, _⟩ := (Copying.init there).retainAll _ pointers
  have made : Copying nodes node (w.makeGraph copy).1
      (fun a => count a + (ready.flatMap Node.next).count a) [] (w₁.makeGraph copy).1 ∅ :=
    { first with
      graphs := by simp only [World.makeGraph, first.graphs, first.graphCount]
      graphCount := by simp only [World.makeGraph, first.graphCount] }
  obtain ⟨w₂, known, fresh, enough, runs, copied⟩ :=
    deepCopyReady_ends w.graphCount closed positive ready members made
  have copying := copied.copying
  -- The map of known nodes dies, and each of its nodes has another owner.
  obtain ⟨w₃, died, graphs, graphCount, others, those⟩ :=
    World.dropAll_shared (w := w₂.setReady w.graphCount (ready.map (Node.mapNext known.at)))
      (known.dying destruction) copying.nodup_dying fun b member => by
        obtain ⟨a, found⟩ := KnownNodes.mem_dying.mp member
        obtain ⟨n, count⟩ := copying.exists_count found
        obtain ⟨_, _, value, own⟩ := copying.new a b found
        rw [count, Nat.add_comm] at own
        exact ⟨value, n, own⟩
  have ends : ∀ fuel, enough + (known.dying destruction).length ≤ fuel →
      w.deepCopy destruction fuel g = some (w₃, w.graphCount) := by
    intro fuel more
    refine Option.bind_eq_some_iff.mpr ⟨w₁, retained, Option.bind_eq_some_iff.mpr
      ⟨((w₂, known), ready.map (Node.mapNext known.at)), ?_, ?_⟩⟩
    · change deepCopyReady w₁.graphCount fuel _ _ = _
      rw [first.graphCount, first.graphs]
      exact runs fuel (by omega)
    · change (World.dropAll fuel (w₂.setReady w₁.graphCount _) _).map
        (fun w => (w, w₁.graphCount)) = _
      rw [first.graphCount, died fuel (by omega), Option.map_some]
  have inside : ∀ a ∈ fresh, a ∈ nodes := by
    intro a member
    obtain ⟨b, found⟩ := Option.isSome_iff_exists.mp ((copied.known a).mpr (.inr member))
    exact (copying.new a b found).1
  exact ⟨w₃, fresh, known.at, _, ends, copied.graphCopy there graphs graphCount others those, inside⟩

end Graph

end CloudLab.Workload
