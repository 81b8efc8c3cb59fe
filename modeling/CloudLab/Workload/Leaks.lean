import CloudLab.Workload.Results
import CloudLab.Workload.Sharing

/-!
# What is left (`possible_combinations` of `txn_trace_dump.cpp`)

The dump parses a trace, asks for its results and lets go of the graph. A node has pointers only to
those that depend on it, and so have its copies. With exact use counts, a node can only be left
behind a cycle of dependencies, whatever is copied and taken apart on the way.
-/
namespace CloudLab.Workload

open Library

/-! ## Pointers follow dependencies -/

/-- `txnAt` is the transaction of the node at each address, and `R` holds along pointers. -/
structure Typed (R : UInt64 → UInt64 → Prop) (txnAt : Nat → UInt64) (h : Heap GraphNode) : Prop where
  txn : ∀ a cell, h.cells a = some cell → cell.value.txn = txnAt a
  next : ∀ a cell, h.cells a = some cell → ∀ b ∈ cell.value.next, b < h.fresh ∧ R (txnAt a) (txnAt b)

/-- Later there are more addresses. -/
structure Grows (txnAt txnAt' : Nat → UInt64) (h h' : Heap GraphNode) : Prop where
  fresh : h.fresh ≤ h'.fresh
  same : ∀ a < h.fresh, txnAt' a = txnAt a

/-- A copy is of the same transaction. -/
def KnownNodes.Copies (txnAt : Nat → UInt64) (h : Heap GraphNode) (known : KnownNodes) : Prop :=
  ∀ a b, known.find? a = some b → a < h.fresh ∧ b < h.fresh ∧ txnAt b = txnAt a

section Typed

variable {R : UInt64 → UInt64 → Prop} {txnAt txnAt' txnAt'' : Nat → UInt64} {h h' h'' : Heap GraphNode}
  {w w' : World} {a : Nat}

theorem Grows.refl : Grows txnAt txnAt h h := ⟨le_rfl, fun _ _ => rfl⟩

theorem Grows.trans (first : Grows txnAt txnAt' h h') (second : Grows txnAt' txnAt'' h' h'') :
    Grows txnAt txnAt'' h h'' where
  fresh := first.fresh.trans second.fresh
  same a below := (second.same a (below.trans_le first.fresh)).trans (first.same a below)

theorem World.Fewer.grows (fewer : World.Fewer w w') : Grows txnAt txnAt w.heap w'.heap :=
  ⟨fewer.fresh.ge, fun _ _ => rfl⟩

theorem Typed.fewer (typed : Typed R txnAt w.heap) (fewer : World.Fewer w w') :
    Typed R txnAt w'.heap where
  txn a cell there := by
    obtain ⟨n, before⟩ := fewer.cells a cell there
    exact typed.txn a ⟨cell.value, n⟩ before
  next a cell there b pointer := by
    obtain ⟨n, before⟩ := fewer.cells a cell there
    rw [fewer.fresh]
    exact typed.next a ⟨cell.value, n⟩ before b pointer

theorem Typed.make (typed : Typed R txnAt h) {value : GraphNode}
    (pointers : ∀ b ∈ value.next, b < h.fresh ∧ R value.txn (txnAt b)) :
    Typed R (Function.update txnAt h.fresh value.txn) (h.makeShared value).1 ∧
      Grows txnAt (Function.update txnAt h.fresh value.txn) h (h.makeShared value).1 := by
  have old : ∀ b < h.fresh, Function.update txnAt h.fresh value.txn b = txnAt b := fun b below =>
    Function.update_of_ne (Nat.ne_of_lt below) _ _
  refine ⟨⟨fun a cell there => ?_, fun a cell there b pointer => ?_⟩, Nat.le_succ _, old⟩
  · rw [Heap.cells_makeShared] at there
    split at there
    next new =>
      obtain rfl := Option.some.inj there
      rw [new, Function.update_self]
    next => rw [old a (Heap.lt_fresh there), typed.txn a cell there]
  · rw [Heap.cells_makeShared] at there
    split at there
    next new =>
      obtain rfl := Option.some.inj there
      obtain ⟨below, follows⟩ := pointers b pointer
      rw [new, Function.update_self, old b below]
      exact ⟨Nat.lt_succ_of_lt below, follows⟩
    next =>
      obtain ⟨below, follows⟩ := typed.next a cell there b pointer
      rw [old a (Heap.lt_fresh there), old b below]
      exact ⟨Nat.lt_succ_of_lt below, follows⟩

theorem Typed.setValue (typed : Typed R txnAt h) {value : GraphNode} (txn : value.txn = txnAt a)
    (pointers : ∀ b ∈ value.next, b < h.fresh ∧ R (txnAt a) (txnAt b)) :
    Typed R txnAt (h.setValue a value) := by
  have values : ∀ b cell, (h.setValue a value).cells b = some cell →
      b = a ∧ cell.value = value ∨ h.cells b = some cell := by
    intro b cell there
    by_cases same : b = a
    · subst same
      rw [Heap.setValue, Heap.cells_alter, if_pos rfl] at there
      obtain ⟨other, _, equal⟩ := Option.bind_eq_some_iff.mp there
      exact .inl ⟨rfl, by rw [← Option.some.inj equal]⟩
    · rw [Heap.setValue, Heap.cells_alter_of_ne _ same] at there
      exact .inr there
  refine ⟨fun b cell there => ?_, fun b cell there c pointer => ?_⟩
  · rcases values b cell there with ⟨rfl, same⟩ | before
    · rw [same, txn]
    · exact typed.txn b cell before
  · rcases values b cell there with ⟨rfl, same⟩ | before
    · exact pointers c (same ▸ pointer)
    · exact typed.next b cell before c pointer

theorem KnownNodes.Copies.grows {known : KnownNodes} (copies : known.Copies txnAt h)
    (grows : Grows txnAt txnAt' h h') : known.Copies txnAt' h' := by
  intro a b found
  obtain ⟨old, new, same⟩ := copies a b found
  rw [grows.same a old, grows.same b new]
  exact ⟨old.trans_le grows.fresh, new.trans_le grows.fresh, same⟩

theorem KnownNodes.Copies.insert {known : KnownNodes} {b : Nat} (copies : known.Copies txnAt h)
    (old : a < h.fresh) (new : b < h.fresh) (same : txnAt b = txnAt a) :
    KnownNodes.Copies txnAt h (known.insertOrAssign a b) := by
  intro c d found
  rw [UnorderedMap.find?_insertOrAssign] at found
  split at found
  next own =>
    obtain rfl := Option.some.inj found
    exact own ▸ ⟨old, new, same⟩
  next => exact copies c d found

/-- What a vector points to afterwards are copies of what it pointed to. -/
theorem Typed.deepCopyNetwork {graph fuel : Nat} {known known' : KnownNodes} {next next' : List Nat}
    (typed : Typed R txnAt w.heap) (copies : known.Copies txnAt w.heap)
    (ran : Workload.deepCopyNetwork graph fuel (w, known) next = some ((w', known'), next')) :
    ∃ txnAt', Typed R txnAt' w'.heap ∧ known'.Copies txnAt' w'.heap ∧
      Grows txnAt txnAt' w.heap w'.heap ∧ next'.map txnAt' = next.map txnAt' ∧
        ∀ b ∈ next', b < w'.heap.fresh := by
  induction fuel generalizing w w' txnAt known known' next next' with
  | zero =>
    cases next with
    | nil =>
      cases ran
      exact ⟨txnAt, typed, copies, .refl, rfl, fun b member => absurd member List.not_mem_nil⟩
    | cons a rest => cases ran
  | succ fuel ih =>
    cases next with
    | nil =>
      cases ran
      exact ⟨txnAt, typed, copies, .refl, rfl, fun b member => absurd member List.not_mem_nil⟩
    | cons a rest =>
      simp only [Workload.deepCopyNetwork] at ran
      split at ran
      next b found =>
        obtain ⟨w₁, retained, ran⟩ := Option.bind_eq_some_iff.mp ran
        obtain ⟨w₂, redirected, ran⟩ := Option.bind_eq_some_iff.mp ran
        obtain ⟨⟨s, rest'⟩, copied, same⟩ := Option.map_eq_some_iff.mp ran
        obtain ⟨rfl, rfl⟩ := Prod.mk.inj same
        have fewer := (World.fewer_retain retained).trans (World.fewer_dropAll redirected)
        obtain ⟨old, new, equal⟩ := copies a b found
        obtain ⟨txnAt', typed', copies', grows, maps, below⟩ :=
          ih (typed.fewer fewer) (copies.grows fewer.grows) copied
        have all := fewer.grows.trans grows
        refine ⟨txnAt', typed', copies', all, ?_, fun c member => ?_⟩
        · rw [List.map_cons, List.map_cons, maps, all.same a old, all.same b new, equal]
        · rcases List.mem_cons.mp member with rfl | member
          · exact new.trans_le all.fresh
          · exact below c member
      next unknown =>
        obtain ⟨cell, there, ran⟩ := Option.bind_eq_some_iff.mp ran
        obtain ⟨w₁, retained, ran⟩ := Option.bind_eq_some_iff.mp ran
        obtain ⟨w₂, owned, ran⟩ := Option.bind_eq_some_iff.mp ran
        obtain ⟨w₃, redirected, ran⟩ := Option.bind_eq_some_iff.mp ran
        obtain ⟨⟨⟨w₄, known₄⟩, copied⟩, nested, ran⟩ := Option.bind_eq_some_iff.mp ran
        obtain ⟨⟨s, rest'⟩, others, same⟩ := Option.map_eq_some_iff.mp ran
        obtain ⟨rfl, rfl⟩ := Prod.mk.inj same
        have old := Heap.lt_fresh there
        have first := World.fewer_retainAll retained
        let value : GraphNode := { cell.value with graph := graph }
        have pointers : ∀ b ∈ value.next, b < w₁.heap.fresh ∧ R value.txn (txnAt b) := by
          intro b pointer
          rw [show value.txn = txnAt a from typed.txn a cell there, first.fresh]
          exact typed.next a cell there b pointer
        obtain ⟨typed₁, made⟩ := (typed.fewer first).make pointers
        have second := (World.fewer_retain owned).trans (World.fewer_dropAll redirected)
        have grows₃ := (first.grows.trans made).trans second.grows
        have new : w₁.heap.fresh < w₃.heap.fresh := second.fresh ▸ Nat.lt_succ_self _
        have same₃ : Function.update txnAt w₁.heap.fresh value.txn w₁.heap.fresh =
            Function.update txnAt w₁.heap.fresh value.txn a := by
          rw [Function.update_self, grows₃.same a old]
          exact typed.txn a cell there
        obtain ⟨txnAt₄, typed₄, copies₄, grows₄, maps₄, below₄⟩ := ih (typed₁.fewer second)
          ((copies.grows grows₃).insert (old.trans_le grows₃.fresh) new same₃) nested
        have until₄ := grows₃.trans grows₄
        have same₄ : txnAt₄ w₁.heap.fresh = txnAt a := by
          rw [grows₄.same _ new, same₃, grows₃.same a old]
        -- The new node gets its pointers.
        let copy : GraphNode := { cell.value with graph := graph, next := copied }
        let complete : World := { w₄ with heap := w₄.heap.setValue w₁.heap.fresh copy }
        have typed₅ : Typed R txnAt₄ complete.heap := by
          refine Typed.setValue typed₄ ((typed.txn a cell there).trans same₄.symm) fun b pointer => ?_
          have target : txnAt₄ b ∈ cell.value.next.map txnAt₄ := maps₄ ▸ List.mem_map_of_mem pointer
          obtain ⟨c, before, equal⟩ := List.mem_map.mp target
          obtain ⟨below, follows⟩ := typed.next a cell there c before
          refine ⟨below₄ b pointer, ?_⟩
          rw [same₄, ← equal, until₄.same c below]
          exact follows
        obtain ⟨txnAt', typed', copies', grows', maps', below'⟩ := ih (w := complete) typed₅ copies₄ others
        have completed : Grows txnAt₄ txnAt₄ w₄.heap complete.heap := ⟨le_rfl, fun _ _ => rfl⟩
        have all := until₄.trans (completed.trans grows')
        have newest : w₁.heap.fresh < w₄.heap.fresh := new.trans_le grows₄.fresh
        refine ⟨txnAt', typed', copies', all, ?_, fun c member => ?_⟩
        · show (w₁.heap.fresh :: rest').map txnAt' = _
          rw [List.map_cons, List.map_cons, maps', all.same a old, grows'.same _ newest, same₄]
        · rcases List.mem_cons.mp member with rfl | member
          · exact newest.trans_le grows'.fresh
          · exact below' c member

theorem Typed.deepCopyReady {graph fuel : Nat} {known known' : KnownNodes} {ready ready' : List Node}
    (typed : Typed R txnAt w.heap) (copies : known.Copies txnAt w.heap)
    (ran : Workload.deepCopyReady graph fuel (w, known) ready = some ((w', known'), ready')) :
    ∃ txnAt', Typed R txnAt' w'.heap := by
  induction ready generalizing w known ready' txnAt with
  | nil =>
    cases ran
    exact ⟨txnAt, typed⟩
  | cons node rest ih =>
    obtain ⟨⟨⟨w₁, known₁⟩, next⟩, copied, ran⟩ := Option.bind_eq_some_iff.mp ran
    obtain ⟨⟨s, rest'⟩, others, same⟩ := Option.map_eq_some_iff.mp ran
    obtain ⟨rfl, rfl⟩ := Prod.mk.inj same
    obtain ⟨txnAt₁, typed₁, copies₁, _⟩ := typed.deepCopyNetwork copies copied
    exact ih typed₁ copies₁ others

end Typed

/-! ## The enumeration -/

/-- Each pointer is from a transaction to one that `R` relates it to. -/
def World.Follows (R : UInt64 → UInt64 → Prop) (w : World) : Prop := ∃ txnAt, Typed R txnAt w.heap

section Enumeration

variable {R : UInt64 → UInt64 → Prop} {w w' : World} {fuel g : Nat}
  {effect : OpFunc → KVStoreState → TxnCmd → KVStoreState} {destruction : Iteration (Nat × Nat)}
  {state : KVStoreState} {results results' : List KVStoreState}

theorem World.Follows.dropAll {owed : List Nat} (follows : w.Follows R)
    (ran : w.dropAll fuel owed = some w') : w'.Follows R := by
  obtain ⟨txnAt, typed⟩ := follows
  exact ⟨txnAt, typed.fewer (World.fewer_dropAll ran)⟩

theorem World.Follows.deepCopy {n : Nat} (follows : w.Follows R)
    (ran : w.deepCopy destruction fuel g = some (w', n)) : w'.Follows R := by
  obtain ⟨txnAt, typed⟩ := follows
  obtain ⟨w₁, retained, ran⟩ := Option.bind_eq_some_iff.mp ran
  obtain ⟨⟨⟨w₂, known⟩, ready⟩, copied, ran⟩ := Option.bind_eq_some_iff.mp ran
  obtain ⟨w₃, dropped, same⟩ := Option.map_eq_some_iff.mp ran
  obtain ⟨rfl, _⟩ := Prod.mk.inj same
  have none : KnownNodes.Copies txnAt w₁.heap ∅ := fun a b found => absurd found (by simp)
  have typed₁ : Typed R txnAt w₁.heap := typed.fewer (World.fewer_retainAll retained)
  obtain ⟨txnAt₂, typed₂⟩ :=
    Typed.deepCopyReady (w := (w₁.makeGraph { w₁.graphs g with valid := true }).1) typed₁ none copied
  exact World.Follows.dropAll (w := w₂.setReady _ ready) ⟨txnAt₂, typed₂⟩ dropped

theorem World.Follows.tryNode {i : Nat}
    {recurse : World → Nat → KVStoreState → Option (World × List KVStoreState)}
    (follows : w.Follows R)
    (ih : ∀ {w w' g state results}, w.Follows R → recurse w g state = some (w', results) → w'.Follows R)
    (ran : Workload.tryNode effect destruction recurse fuel g state (w, results) i =
      some (w', results')) : w'.Follows R := by
  obtain ⟨w₁, n, _, w₂, w₃, _, copied, _, taken, recursed, destroyed, _⟩ := World.tryNode_cases ran
  have one := follows.deepCopy copied
  have two : w₂.Follows R := World.Follows.dropAll (w := w₁.setReady n _) one taken
  have three := ih two recursed
  exact World.Follows.dropAll (w := w₃.setGraph n _) three destroyed

theorem World.Follows.possibleResults (follows : w.Follows R)
    (ran : Workload.possibleResults effect destruction fuel w g state = some (w', results)) :
    w'.Follows R := by
  induction fuel generalizing w w' g state results with
  | zero => cases ran
  | succ fuel ih =>
    rw [Workload.possibleResults] at ran
    split at ran
    · obtain ⟨rfl, _⟩ := Prod.mk.inj (Option.some.inj ran)
      exact follows
    next node queue =>
      obtain ⟨w₁, taken, ran⟩ := Option.bind_eq_some_iff.mp ran
      have one : w₁.Follows R := World.Follows.dropAll (w := w.setReady g []) follows taken
      exact ih one ran
    next =>
      refine World.foldlM_keeps (P := fun s => s.1.Follows R) ?_ follows ran
      rintro i - ⟨w₁, _⟩ ⟨w₂, _⟩ one step
      exact one.tryNode ih step

end Enumeration

/-! ## Parsing -/

/-- The dependencies of a list of transactions. -/
def Depends (txns : List Txn) (dep id : UInt64) : Prop :=
  ∃ txn ∈ txns, txn.txnId = id ∧ dep ∈ txn.dependsOn

/-- The map has the node of each transaction, and what it depends on. -/
def NodeMap.Named (R : UInt64 → UInt64 → Prop) (txnAt : Nat → UInt64) (h : Heap GraphNode)
    (nodes : NodeMap) : Prop :=
  ∀ id entry, nodes.find? id = some entry →
    entry.1 < h.fresh ∧ txnAt entry.1 = id ∧ ∀ dep ∈ entry.2, R dep id

section Parse

variable {R : UInt64 → UInt64 → Prop} {txnAt txnAt' : Nat → UInt64} {h h' : Heap GraphNode}
  {w w' : World} {fuel g : Nat} {nodes nodes' : NodeMap}

theorem NodeMap.Named.grows (named : nodes.Named R txnAt h) (grows : Grows txnAt txnAt' h h') :
    nodes.Named R txnAt' h' := by
  intro id entry found
  obtain ⟨below, same, deps⟩ := named id entry found
  exact ⟨below.trans_le grows.fresh, (grows.same _ below).trans same, deps⟩

theorem Typed.addTxn {txn : Txn} (typed : Typed R txnAt w.heap) (named : nodes.Named R txnAt w.heap)
    (deps : ∀ dep ∈ txn.dependsOn, R dep txn.txnId)
    (ran : Workload.addTxn fuel g (w, nodes) txn = some (w', nodes')) :
    ∃ txnAt', Typed R txnAt' w'.heap ∧ nodes'.Named R txnAt' w'.heap := by
  have none : ∀ b ∈ (txn.node g).next, b < w.heap.fresh ∧ R (txn.node g).txn (txnAt b) :=
    fun b member => absurd member List.not_mem_nil
  obtain ⟨typed₁, grows⟩ := typed.make none
  have named₁ : NodeMap.Named R (Function.update txnAt w.heap.fresh txn.txnId)
      (w.heap.makeShared (txn.node g)).1
      (nodes.insertOrAssign txn.txnId (w.heap.fresh, txn.dependsOn)) := by
    intro id entry found
    rw [UnorderedMap.find?_insertOrAssign] at found
    split at found
    next own =>
      obtain rfl := Option.some.inj found
      exact ⟨Nat.lt_succ_self _, (Function.update_self ..).trans own.symm, own ▸ deps⟩
    next => exact named.grows grows id entry found
  simp only [Workload.addTxn] at ran
  split at ran
  next =>
    obtain ⟨rfl, rfl⟩ := Prod.mk.inj (Option.some.inj ran)
    exact ⟨_, typed₁, named₁⟩
  next old _ =>
    obtain ⟨w₁, dropped, same⟩ := Option.map_eq_some_iff.mp ran
    obtain ⟨rfl, rfl⟩ := Prod.mk.inj same
    have fewer := World.fewer_dropAll dropped
    exact ⟨_, Typed.fewer typed₁ fewer, named₁.grows fewer.grows⟩

theorem Typed.link {node : Nat} {dep id : UInt64} {deps : List UInt64} (typed : Typed R txnAt w.heap)
    (named : nodes.Named R txnAt w.heap) (own : nodes.find? id = some (node, deps))
    (member : dep ∈ deps) (ran : Workload.link nodes node w dep = some w') :
    Typed R txnAt w'.heap ∧ nodes.Named R txnAt w'.heap := by
  obtain ⟨depNode, found, ran⟩ := Option.bind_eq_some_iff.mp ran
  obtain ⟨cell, there, ran⟩ := Option.bind_eq_some_iff.mp ran
  obtain ⟨w₁, retained, rfl⟩ := Option.map_eq_some_iff.mp ran
  have fewer := World.fewer_retain retained
  obtain ⟨_, target, _⟩ := named dep depNode found
  obtain ⟨below, source, follows⟩ := named id (node, deps) own
  have still : nodes.Named R txnAt w₁.heap := named.grows fewer.grows
  refine ⟨(typed.fewer fewer).setValue (typed.txn _ cell there) fun b pointer => ?_, still⟩
  rw [fewer.fresh]
  rcases List.mem_append.mp pointer with before | new
  · exact typed.next _ cell there b before
  · obtain rfl := List.mem_singleton.mp new
    rw [target, source]
    exact ⟨below, follows dep member⟩

theorem follows_parseTxnTrace {loop death : Iteration (UInt64 × Nat × List UInt64)} {txns : List Txn}
    (ran : parseTxnTrace loop death fuel txns = some (w, g)) : w.Follows (Depends txns) := by
  obtain ⟨⟨w₁, nodes⟩, added, ran⟩ := Option.bind_eq_some_iff.mp ran
  obtain ⟨w₂, linked, ran⟩ := Option.bind_eq_some_iff.mp ran
  obtain ⟨w₃, dropped, same⟩ := Option.map_eq_some_iff.mp ran
  obtain ⟨rfl, rfl⟩ := Prod.mk.inj same
  have start : Typed (Depends txns) (fun _ => 0) (World.makeGraph {} {}).1.heap :=
    ⟨(fun a cell there => by cases there), (fun a cell there => by cases there)⟩
  have unnamed : NodeMap.Named (Depends txns) (fun _ => 0) (World.makeGraph {} {}).1.heap ∅ :=
    fun id entry found => absurd found (by simp)
  obtain ⟨txnAt, typed, named⟩ := World.foldlM_keeps (P := fun s => ∃ txnAt,
      Typed (Depends txns) txnAt s.1.heap ∧ NodeMap.Named (Depends txns) txnAt s.1.heap s.2) (by
    rintro txn listed ⟨w, nodes⟩ ⟨w', nodes'⟩ ⟨txnAt, typed, named⟩ step
    exact typed.addTxn named (fun dep member => ⟨txn, listed, rfl, member⟩) step)
    ⟨_, start, unnamed⟩ added
  obtain ⟨typed', _⟩ := World.foldlM_keeps (P := fun s => Typed (Depends txns) txnAt s.heap ∧
      nodes.Named (Depends txns) txnAt s.heap) (by
    rintro ⟨id, node, deps⟩ member w w' both step
    have own := (nodes.mem_entries_iff id (node, deps)).mp (loop.mem_order.mp member)
    refine World.foldlM_keeps (P := fun s => Typed (Depends txns) txnAt s.heap ∧
      nodes.Named (Depends txns) txnAt s.heap) ?_ both step
    rintro dep member w w' ⟨typed, named⟩ step
    exact typed.link named own member step) ⟨typed, named⟩ linked
  exact World.Follows.dropAll (w := w₂.setGraph _ _) ⟨txnAt, typed'⟩ dropped

end Parse

/-! ## The whole run -/

section Run

variable (effect : OpFunc → KVStoreState → TxnCmd → KVStoreState) (destruction : Iteration (Nat × Nat))

/-- `get_possible_results`, and what it leaves behind. -/
def World.runResults (fuel : Nat) (w : World) (g : Nat) : Option (World × List KVStoreState) :=
  (w.deepCopy destruction fuel g).bind fun (w, tmp) =>
    (possibleResults effect destruction fuel w tmp Store.empty).bind fun (w, results) =>
      (w.destroyGraph fuel tmp).map fun w => (w, results)

theorem getPossibleResults_eq (fuel : Nat) (w : World) (g : Nat) :
    getPossibleResults effect destruction fuel w g =
      (w.runResults effect destruction fuel g).map Prod.snd := by
  simp only [getPossibleResults, World.runResults, Option.map_bind, Option.map_map, Function.comp_def]

/-- `possible_combinations`; what it prints is returned. -/
def possibleCombinations (loop death : Iteration (UInt64 × Nat × List UInt64)) (fuel : Nat)
    (txns : List Txn) : Option (World × List KVStoreState) :=
  (parseTxnTrace loop death fuel txns).bind fun (w, graph) =>
    (w.runResults effect destruction fuel graph).bind fun (w, combinations) =>
      (w.destroyGraph fuel graph).map fun w => (w, combinations)

variable {effect destruction} {loop death : Iteration (UInt64 × Nat × List UInt64)} {fuel : Nat}
  {txns : List Txn} {w : World} {results : List KVStoreState}

/-- The statements of the run. -/
theorem possibleCombinations_cases
    (ran : possibleCombinations effect destruction loop death fuel txns = some (w, results)) :
    ∃ w₁ w₂ w₃ w₄ graph tmp, parseTxnTrace loop death fuel txns = some (w₁, graph) ∧
      w₁.deepCopy destruction fuel graph = some (w₂, tmp) ∧
      possibleResults effect destruction fuel w₂ tmp Store.empty = some (w₃, results) ∧
      w₃.destroyGraph fuel tmp = some w₄ ∧ w₄.destroyGraph fuel graph = some w := by
  obtain ⟨⟨w₁, graph⟩, parsed, ran⟩ := Option.bind_eq_some_iff.mp ran
  obtain ⟨⟨w₄, combinations⟩, found, ran⟩ := Option.bind_eq_some_iff.mp ran
  obtain ⟨w₅, last, same⟩ := Option.map_eq_some_iff.mp ran
  obtain ⟨rfl, rfl⟩ := Prod.mk.inj same
  obtain ⟨⟨w₂, tmp⟩, copied, ran⟩ := Option.bind_eq_some_iff.mp found
  obtain ⟨⟨w₃, more⟩, taken, ran⟩ := Option.bind_eq_some_iff.mp ran
  obtain ⟨w₆, destroyed, same⟩ := Option.map_eq_some_iff.mp ran
  obtain ⟨rfl, rfl⟩ := Prod.mk.inj same
  exact ⟨w₁, w₂, w₃, w₆, graph, tmp, parsed, copied, taken, destroyed, last⟩

/-- At the end no pointer is left but in the nodes. -/
theorem balanced_possibleCombinations
    (ran : possibleCombinations effect destruction loop death fuel txns = some (w, results)) :
    w.heap.Balanced (fun node => node.next) [] fun _ => 0 := by
  obtain ⟨w₁, w₂, w₃, w₄, graph, tmp, parsed, copied, taken, destroyed, last⟩ :=
    possibleCombinations_cases ran
  obtain ⟨one, rfl, count, _⟩ := World.Balanced.parseTxnTrace parsed
  obtain ⟨two, later, rfl, count₂, valid₂⟩ := one.deepCopy copied
  have inside : w₁.graphCount < w₂.graphCount := by omega
  obtain ⟨three, rest⟩ := two.possibleResults inside valid₂ taken
  have inside₃ := inside.trans_le rest.graphCount
  obtain ⟨four, gone⟩ := three.destroyGraph inside₃ destroyed
  have scope := later.scope count₂ rest gone
  have inside₄ : 0 < w₄.graphCount := (count ▸ Nat.one_pos).trans_le scope.graphCount
  obtain ⟨five, gone'⟩ := four.destroyGraph inside₄ last
  refine five.heap.congr fun a => ?_
  rw [List.count_nil, Nat.add_zero, World.queued]
  refine (Finset.sum_eq_zero fun k within => ?_).symm
  have below : k < w.graphCount := Finset.mem_range.mp within
  have spent : w.Spent k := by
    by_cases first : k = 0
    · exact first ▸ gone'.spent
    · have before := scope.spent k (by omega) (gone'.graphCount ▸ below)
      exact ⟨(gone'.valid k first).trans before.1, (gone'.quiet k first before.1).trans before.2⟩
  rw [if_neg List.not_mem_nil, spent.2]
  rfl

theorem follows_possibleCombinations
    (ran : possibleCombinations effect destruction loop death fuel txns = some (w, results)) :
    w.Follows (Depends txns) := by
  obtain ⟨w₁, w₂, w₃, w₄, graph, tmp, parsed, copied, taken, destroyed, last⟩ :=
    possibleCombinations_cases ran
  have three := ((follows_parseTxnTrace parsed).deepCopy copied).possibleResults taken
  have four : w₄.Follows (Depends txns) := World.Follows.dropAll (w := w₃.setGraph tmp _) three destroyed
  exact World.Follows.dropAll (w := w₄.setGraph graph _) four last

theorem Typed.follows {R : UInt64 → UInt64 → Prop} {txnAt : Nat → UInt64} {h : Heap GraphNode} {a b : Nat}
    (typed : Typed R txnAt h) (points : h.Points (fun node => node.next) a b) :
    R (txnAt a) (txnAt b) := by
  obtain ⟨cell, there, pointer⟩ := points
  exact (typed.next a cell there b pointer).2

/-- Whatever the transactions are, a node that is never destroyed is one of a transaction that
depends, maybe indirectly, on one that depends on itself. -/
theorem left_behind_cycle {a : Nat} {cell : Cell GraphNode}
    (ran : possibleCombinations effect destruction loop death fuel txns = some (w, results))
    (left : w.heap.cells a = some cell) :
    ∃ id, Relation.TransGen (Depends txns) id id ∧
      Relation.ReflTransGen (Depends txns) id cell.value.txn := by
  obtain ⟨b, cycle, path⟩ := (balanced_possibleCombinations ran).cycle left
  obtain ⟨txnAt, typed⟩ := follows_possibleCombinations ran
  refine ⟨txnAt b, cycle.lift txnAt fun c d points => typed.follows points, ?_⟩
  rw [typed.txn a cell left]
  exact path.lift txnAt fun c d points => typed.follows points

end Run

/-- Two transactions that depend on each other. -/
def eachOther : List Txn := [⟨true, 1, [2], []⟩, ⟨true, 2, [1], []⟩]

theorem left_behind_cycle_eachOther : ∃ w results cell,
    possibleCombinations (fun _ state _ => state) .asListed .asListed .asListed 5 eachOther =
      some (w, results) ∧ w.heap.cells 0 = some cell ∧
      ∃ id, Relation.TransGen (Depends eachOther) id id ∧
        Relation.ReflTransGen (Depends eachOther) id cell.value.txn := by
  have found : ((possibleCombinations (fun _ state _ => state) .asListed .asListed .asListed 5
      eachOther).bind fun end' => end'.1.heap.cells 0).isSome := by decide
  obtain ⟨cell, found⟩ := Option.isSome_iff_exists.mp found
  obtain ⟨⟨w, results⟩, ran, left⟩ := Option.bind_eq_some_iff.mp found
  exact ⟨w, results, cell, ran, left, left_behind_cycle ran left⟩

/-- Without a cycle the run ends with the results of all orders, and every node is destroyed. -/
theorem nothing_left (T : Trace) (effect : OpFunc → KVStoreState → TxnCmd → KVStoreState)
    (destruction : Iteration (Nat × Nat)) (loop death : Iteration (UInt64 × Nat × List UInt64)) :
    ∃ results enough, results.Perm (T.dependencies.extensions.map fun order =>
        order.foldl (runTxn effect T) Store.empty) ∧
      ∀ fuel, enough ≤ fuel → ∃ w,
        possibleCombinations effect destruction loop death fuel T.txns = some (w, results) ∧
          ∀ a, w.heap.cells a = none := by
  obtain ⟨w, loc, waiting, parsed, own, _, _, _, count⟩ := parseTxnTrace_owned T loop death
  obtain ⟨w₁, loc₁, enough₁, copied, own₁, valid₁, _, count₁, kept₁⟩ := own.deepCopy destruction
  obtain ⟨w₂, results, enough₂, runs, states, ⟨_, _, _, own₂⟩, count₂, kept₂⟩ :=
    possibleResults_ends effect destruction Store.empty own₁ valid₁ (by omega) (Nat.zero_add _)
  obtain ⟨w₃, enough₃, destroyed, count₃, kept₃⟩ := own₂.destroyGraph
  have kept : Kept (· < w.graphCount) w w₃ := by
    refine ((kept₁.mono fun k below => ?_).trans (kept₂.mono fun k below => ?_)).trans
      (kept₃.mono fun k below => ?_)
    · exact Nat.ne_of_lt below
    · exact ⟨by omega, Nat.ne_of_lt below⟩
    · exact Nat.ne_of_lt below
  obtain ⟨w₄, enough₄, last, _⟩ := (own.kept (by omega) kept).destroyGraph
  refine ⟨results, T.ids.length + enough₁ + enough₂ + enough₃ + enough₄, ?_, fun fuel more => ?_⟩
  · exact states.trans ((T.dependencies.orders_perm).map _)
  have ran : possibleCombinations effect destruction loop death fuel T.txns = some (w₄, results) := by
    simp only [possibleCombinations, World.runResults, parsed fuel (by omega), Option.bind_some,
      copied fuel (by omega), runs fuel (by omega), destroyed fuel (by omega), Option.map_some,
      last fuel (by omega)]
  obtain ⟨txnAt, typed⟩ := follows_possibleCombinations ran
  refine ⟨w₄, ran, (balanced_possibleCombinations ran).empty fun a cycle => T.acyclic (txnAt a) ?_⟩
  exact cycle.lift txnAt fun c d points => typed.follows points

end CloudLab.Workload
