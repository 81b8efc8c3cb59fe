import CloudLab.Workload.Results
import CloudLab.Workload.Workers

/-!
# Possible results and runs of the workers

`get_possible_results` is there to check a run of the workers of the same trace. Every serial order
that a run leaves open leads to one of the states that it returns: `serial_mem_results`. With a
worker for each transaction the runs come to all of these states: `mem_results_iff`.
-/
namespace CloudLab.Workload

open Library

/-! ## What is returned -/

/-- `get_possible_results` on the graph of a trace. -/
def Returns (effect : OpFunc → KVStoreState → TxnCmd → KVStoreState)
    (destruction : Iteration (Nat × Nat)) (loop death : Iteration (UInt64 × Nat × List UInt64))
    (T : Trace) (results : List KVStoreState) : Prop :=
  ∃ enough, ∀ fuel, enough ≤ fuel → (parseTxnTrace loop death fuel T.txns).bind (fun (w, g) =>
    getPossibleResults effect destruction fuel w g) = some results

variable (effect : OpFunc → KVStoreState → TxnCmd → KVStoreState) (destruction : Iteration (Nat × Nat))
  (loop death : Iteration (UInt64 × Nat × List UInt64)) (T : Trace)

theorem exists_returns : ∃ results, Returns effect destruction loop death T results ∧
    results.Perm (statesFrom effect T T.ids.length [] Store.empty) := by
  obtain ⟨w, loc, waiting, parsed, own, _, _, _, count⟩ := parseTxnTrace_owned T loop death
  obtain ⟨w₁, loc₁, enough₁, copied, own₁, valid₁, _, count₁, _⟩ := own.deepCopy destruction
  obtain ⟨w₂, results, enough₂, runs, states, ⟨_, _, _, own₂⟩, _, _⟩ :=
    possibleResults_ends effect destruction Store.empty own₁ valid₁ (by omega) (Nat.zero_add _)
  obtain ⟨w₃, enough₃, destroyed, _, _⟩ := own₂.destroyGraph
  refine ⟨results, ⟨T.ids.length + enough₁ + enough₂ + enough₃, fun fuel more => ?_⟩, states⟩
  simp only [parsed fuel (by omega), Option.bind_some, getPossibleResults, copied fuel (by omega),
    runs fuel (by omega), destroyed fuel (by omega), Option.map_some]

theorem mem_statesFrom {state : KVStoreState} :
    state ∈ statesFrom effect T T.ids.length [] Store.empty ↔
      ∃ order, T.dependencies.LinearExtension order ∧
        order.foldl (runTxn effect T) Store.empty = state := by
  rw [statesFrom, List.mem_map]
  refine exists_congr fun order => and_congr_left fun _ => ?_
  rw [Dependencies.mem_orders, Dependencies.linearExtension_iff]
  rfl

namespace Workers

/-! ## Serial orders of a run -/

/-- What had been dropped when a transaction was handed out comes in front of it. -/
def Precedes (order : List UInt64) : Event → Event → Prop
  | .handed id, .dropped before => order.idxOf before < order.idxOf id
  | _, _ => True

/-- The order agrees with the run. The log has the latest event first. -/
def Respects (log : List Event) (order : List UInt64) : Prop := log.Pairwise (Precedes order)

instance (order : List UInt64) : DecidableRel (Precedes order)
  | .handed _, .dropped _ => Nat.decLt _ _
  | .handed _, .handed _ | .dropped _, _ => .isTrue trivial

instance (log : List Event) : DecidablePred (Respects log) := fun _ => List.instDecidablePairwise _

section Serial

variable {W : Type} [Fintype W] [DecidableEq W] {T : Trace}
  {loop death : Iteration (UInt64 × Nat × List UInt64)} {s t : State W}

omit [DecidableEq W] in
theorem Scheduled.linear (scheduled : Scheduled T s) {order : List UInt64} (perm : order.Perm T.ids)
    (respects : Respects s.log order) (all : ∀ id ∈ T.ids, id ∈ s.handed) :
    T.dependencies.LinearExtension order := by
  refine ⟨perm, fun front id back split dep depends => ?_⟩
  have listed : id ∈ T.ids := perm.mem_iff.mp (by rw [split]; simp)
  obtain ⟨later, earlier, there⟩ := List.append_of_mem (mem_handed.mp (all id listed))
  have gone := (scheduled.order later id earlier there dep depends).2
  rw [Respects, there, List.pairwise_append, List.pairwise_cons] at respects
  have first : order.idxOf dep < order.idxOf id := respects.2.1.1 _ gone
  have fresh : id ∉ front := by
    have nodup := perm.nodup_iff.mpr T.distinct
    rw [split, List.nodup_append] at nodup
    exact fun member => nodup.2.2 id member id List.mem_cons_self rfl
  rw [split, List.idxOf_append_of_notMem fresh, List.idxOf_cons_self, Nat.add_zero] at first
  by_contra absent
  rw [List.idxOf_append_of_notMem absent] at first
  omega

omit [Fintype W] in
/-- Only a worker that holds a node drops a transaction. -/
theorem Step.dropped {a : Action W} (step : Step s a t) :
    t.dropped = s.dropped ∨
      ∃ x node, s.workers x = .holding node ∧ t.dropped = node.txn :: s.dropped := by
  cases step with
  | @getReady x before here idle =>
    left
    rw [State.getReady]
    split <;> rfl
  | @drop x node here => exact .inr ⟨x, node, here, rfl⟩
  | release | push | notifyOne | notifyNone | finish | wakeSpuriously | callAgain => exact .inl rfl

/-- Each transaction is ready when it is dropped. -/
theorem dropped_follows (reachable : (system W T loop death).Reachable System.Always s) :
    T.dependencies.Follows [] s.dropped.reverse := by
  refine (reachable.invariant (I := fun s => Scheduled T s ∧ T.dependencies.Follows [] s.dropped.reverse)
    (fun s initial => ⟨.init initial, ?_⟩) fun s a t before _ taken => ?_).2
  · obtain ⟨_, _, none⟩ := initial
    rw [State.dropped, none]
    trivial
  · have step := step_of_next taken
    obtain ⟨scheduled, follows⟩ := before
    refine ⟨scheduled.step step, ?_⟩
    rcases step.dropped with same | ⟨x, node, here, more⟩
    · rwa [same]
    · rw [more, List.reverse_cons, Dependencies.follows_append, List.reverse_reverse, List.append_nil]
      obtain ⟨loc, waiting, own⟩ := scheduled.owned
      have held : node ∈ collect s.workers Worker.held := by
        rw [collect, List.mem_flatMap]
        exact ⟨x, by simp, by rw [here]; exact List.mem_singleton_self node⟩
      have loose : node ∈ s.txnGraph.readyNodes ++ collect s.workers Worker.held ++
          collect s.workers Worker.moved := by simp [held]
      refine ⟨follows, Dependencies.mem_ready.mpr ⟨?_, own.loose_left loose, own.looseDeps node loose⟩,
        trivial⟩
      exact own.mem_ids.mpr (.inr (.inl (List.mem_map_of_mem loose)))

end Serial

/-- Whatever the workers have done, if they ran as one after another in some order that agrees with
when the transactions were handed out and dropped, the state is among those returned. -/
theorem serial_mem_results (effect : OpFunc → KVStoreState → TxnCmd → KVStoreState)
    (destruction : Iteration (Nat × Nat)) {W : Type} [Fintype W] [DecidableEq W] {T : Trace}
    {loop death : Iteration (UInt64 × Nat × List UInt64)} {s : State W} {order : List UInt64}
    (reachable : (system W T loop death).Reachable System.Always s) (all : ∀ id ∈ T.ids, id ∈ s.handed)
    (perm : order.Perm T.ids) (respects : Respects s.log order) :
    ∃ results, Returns effect destruction loop death T results ∧
      order.foldl (runTxn effect T) Store.empty ∈ results := by
  obtain ⟨results, returns, states⟩ := exists_returns effect destruction loop death T
  refine ⟨results, returns, ?_⟩
  rw [states.mem_iff, mem_statesFrom]
  exact ⟨order, (scheduled reachable).linear perm respects all, rfl⟩

theorem serial_mem_results_handover : ∃ s : State Bool, s.log = [.handed 2, .dropped 1, .handed 1] ∧
    ∃ results, Returns (fun _ state _ => state) .asListed .asListed .asListed chain results ∧
      [1, 2].foldl (runTxn (fun _ state _ => state) chain) Store.empty ∈ results := by
  have initial := init_start (W := Bool) chain .asListed .asListed
  have log : ((system Bool chain .asListed .asListed).run (start Bool chain .asListed .asListed)
      handover).map State.log = some [.handed 2, .dropped 1, .handed 1] := by decide
  obtain ⟨s, ran, same⟩ := Option.map_eq_some_iff.mp log
  have all : ∀ id ∈ chain.ids, id ∈ s.handed := by
    rw [State.handed, same]
    decide
  exact ⟨s, same, serial_mem_results (fun _ state _ => state) .asListed
    ((System.Reachable.start initial).run ran) all (by decide) (same ▸ by decide)⟩

/-! ## A worker for each transaction -/

section Complete

variable {W : Type} [Fintype W] [DecidableEq W] {T : Trace}
  {loop death : Iteration (UInt64 × Nat × List UInt64)} {s : State W} {x : W}

/-- Nobody waits, and nobody is in the middle of a drop. -/
def Settled (s : State W) : Prop :=
  ∀ x, s.workers x = .calling ∨ ∃ node, s.workers x = .holding node

def Reached (T : Trace) (loop death : Iteration (UInt64 × Nat × List UInt64)) (s : State W) : Prop :=
  (system W T loop death).Reachable System.Always s

theorem Reached.step {a : Action W} {t : State W} (reached : Reached T loop death s)
    (taken : next s a = some t) : Reached T loop death t :=
  System.Reachable.step reached trivial taken

theorem Reached.push {node : GraphNode} {rest : List Nat} (reached : Reached T loop death s)
    (here : s.workers x = .pushing node rest) : Reached T loop death
      { s.move x (.notifying rest) with world := s.world.addToReady node.graph node.toNode } :=
  reached.step (a := .push x) (by simp only [next, here])

theorem Reached.notify {rest : List Nat} (reached : Reached T loop death s)
    (here : s.workers x = .notifying rest) (nobody : ∀ y, s.workers y ≠ .waiting) :
    Reached T loop death (s.move x (.dropping rest)) := by
  refine reached.step (a := .notify x none) ?_
  simp only [next, here]
  exact if_neg (not_exists.mpr nobody)

/-- What is left of a drop comes to its end. -/
theorem Reached.finish {rest : List Nat} (reached : Reached T loop death s)
    (here : s.workers x = .dropping rest) (nobody : ∀ y, s.workers y ≠ .waiting) :
    ∃ t, Reached T loop death t ∧ t.workers = Function.update s.workers x .calling ∧ t.log = s.log := by
  induction rest generalizing s with
  | nil =>
    refine ⟨s.move x .calling, reached.step (a := .finish x) ?_, rfl, rfl⟩
    exact if_pos here
  | cons a rest ih =>
    obtain ⟨loc, waiting, own⟩ := (scheduled reached).owned
    have dying := collect_update_tail Worker.pointers here (.dropping rest) rfl
    -- The drop goes on from here, whatever has become of the node.
    have goOn : ∀ t, Reached T loop death t → t.workers = Function.update s.workers x (.dropping rest) →
        t.log = s.log → ∃ u, Reached T loop death u ∧
          u.workers = Function.update s.workers x .calling ∧ u.log = s.log := by
      intro t reached moved log
      obtain ⟨u, reached, workers, log'⟩ := ih reached (by rw [moved, Function.update_self]) fun y => by
        rw [moved]
        by_cases same : y = x
        · simp [same]
        · rw [Function.update_of_ne same]
          exact nobody y
      exact ⟨u, reached, by rw [workers, moved, Function.update_idem], log'.trans log⟩
    have released : ∀ heap last, s.world.heap.release a = some (heap, last) →
        Reached T loop death { s.move x (s.afterRelease rest last) with
          world := { s.world with heap := heap } } := by
      intro heap last released
      refine reached.step (a := .release x) ?_
      simp only [next, here, released, Option.map_some]
    rcases (own.perm_owed dying).release with ⟨heap, last, _⟩ | ⟨heap, node, waiting', last, _, _⟩
    · exact goOn _ (released heap none last) rfl rfl
    · have valid : (s.world.graphs s.graph).valid = true := (scheduled reached).valid
      have pushing : s.afterRelease rest (some ⟨node, s.graph⟩) = .pushing ⟨node, s.graph⟩ rest :=
        if_pos valid
      have reached := released heap _ last
      rw [pushing] at reached
      have here : (s.move x (.pushing ⟨node, s.graph⟩ rest)).workers x = .pushing ⟨node, s.graph⟩ rest :=
        Function.update_self ..
      have pushed := reached.push here
      refine goOn _ (pushed.notify (Function.update_self ..) fun y => ?_) (by simp [State.move]) rfl
      by_cases same : y = x
      · simp [State.move, same]
      · simpa [State.move, Function.update_of_ne same] using nobody y

omit [DecidableEq W] in
theorem length_collect {α : Type} {workers : W → Worker} {f : Worker → List α}
    (one : ∀ x, (f (workers x)).length = 1) : (collect workers f).length = Fintype.card W := by
  rw [collect, List.length_flatMap, List.map_congr_left fun x _ => one x]
  simp

omit [DecidableEq W] in
/-- There are more workers than transactions that they hold, as long as one is in the queue. -/
theorem Scheduled.exists_calling (scheduled : Scheduled T s) (settled : Settled s)
    (enough : T.ids.length ≤ Fintype.card W) (queue : s.txnGraph.readyNodes ≠ []) :
    ∃ x, s.workers x = .calling := by
  by_contra none
  rw [not_exists] at none
  have one : ∀ x, ((s.workers x).held).length = 1 := by
    intro x
    obtain ⟨node, holds⟩ := (settled x).resolve_left (none x)
    rw [holds]
    rfl
  obtain ⟨loc, waiting, own⟩ := scheduled.owned
  have size := own.size
  have held := length_collect one
  have some := List.length_pos_iff.mpr queue
  simp only [List.length_append] at size
  omega

/-- The queue is emptied into the hands of the workers. -/
theorem Reached.hire (reached : Reached T loop death s) (settled : Settled s)
    (enough : T.ids.length ≤ Fintype.card W) :
    ∃ t : State W, Reached T loop death t ∧ Settled t ∧ t.txnGraph.readyNodes = [] ∧ t.dropped = s.dropped := by
  induction queue : s.txnGraph.readyNodes generalizing s with
  | nil => exact ⟨s, reached, settled, queue, rfl⟩
  | cons node rest ih =>
    obtain ⟨x, calling⟩ := (scheduled reached).exists_calling settled enough (by simp [queue])
    have taken : s.getReady x = { s with
        world := s.world.setGraph s.graph { s.txnGraph with
          remainingNodes := s.txnGraph.remainingNodes - 1, readyNodes := rest }
        workers := Function.update s.workers x (.holding node)
        log := .handed node.txn :: s.log } := by
      rw [State.getReady, queue]
    have got : Reached T loop death (s.getReady x) :=
      reached.step (a := .getReady x) (by simp only [next, calling])
    rw [taken] at got
    obtain ⟨t, hired, settled, empty, dropped⟩ := ih got (fun y => by
      by_cases same : y = x
      · exact .inr ⟨node, by simp [same]⟩
      · simpa only [Function.update_of_ne same] using settled y) (by simp [State.txnGraph, World.setGraph])
    exact ⟨t, hired, settled, empty, dropped⟩

omit [DecidableEq W] in
/-- With the queue empty, some worker holds whatever is ready. -/
theorem Scheduled.exists_holding (scheduled : Scheduled T s) (settled : Settled s)
    (queue : s.txnGraph.readyNodes = []) {id : UInt64} (ready : id ∈ T.dependencies.ready s.dropped) :
    ∃ x node, s.workers x = .holding node ∧ node.txn = id := by
  obtain ⟨loc, waiting, own⟩ := scheduled.owned
  have none : ∀ {α : Type} (f : Worker → List α), (∀ node, f (.holding node) = []) → f .calling = [] →
      collect s.workers f = [] := by
    intro α f holding calling
    refine collect_eq_nil fun x => ?_
    rcases settled x with idle | ⟨node, holds⟩
    · rw [idle, calling]
    · rw [holds, holding]
  rw [queue, none Worker.moved (fun _ => rfl) rfl, none Worker.pointers (fun _ => rfl) rfl,
    List.nil_append, List.append_nil] at own
  obtain ⟨node, member, same⟩ := List.mem_map.mp (own.ready_perm.mem_iff.mpr ready)
  obtain ⟨x, _, inside⟩ := List.mem_flatMap.mp member
  refine ⟨x, node, ?_, same⟩
  rcases settled x with idle | ⟨other, holds⟩
  · rw [idle] at inside
    cases inside
  · rw [holds] at inside ⊢
    rw [List.mem_singleton.mp inside]

/-- The transactions are dropped in any order that the dependencies allow. -/
theorem Reached.dropAll (enough : T.ids.length ≤ Fintype.card W) {order done : List UInt64}
    (follows : T.dependencies.Follows done order) (reached : Reached T loop death s)
    (settled : Settled s) (queue : s.txnGraph.readyNodes = []) (dropped : s.dropped = done) :
    ∃ t : State W, Reached T loop death t ∧ t.dropped = order.reverse ++ done := by
  induction order generalizing s done with
  | nil => exact ⟨s, reached, dropped⟩
  | cons id order ih =>
    obtain ⟨ready, follows⟩ := follows
    obtain ⟨x, node, here, same⟩ :=
      (scheduled reached).exists_holding settled queue (dropped.symm ▸ ready)
    have drops : Reached T loop death
        { s.move x (.dropping node.next) with log := .dropped node.txn :: s.log } :=
      reached.step (a := .drop x) (by simp only [next, here])
    have nobody : ∀ y, Function.update s.workers x (.dropping node.next) y ≠ .waiting := by
      intro y waits
      by_cases own : y = x
      · simp [own] at waits
      · rw [Function.update_of_ne own] at waits
        rcases settled y with idle | ⟨other, holds⟩
        · cases idle.symm.trans waits
        · cases holds.symm.trans waits
    obtain ⟨t, finished, workers, log⟩ := drops.finish (x := x) (Function.update_self ..) nobody
    have free : Settled t := by
      intro y
      rw [workers]
      by_cases own : y = x
      · exact .inl (by simp [own])
      · simpa [State.move, Function.update_of_ne own] using settled y
    obtain ⟨u, hired, settled', queue', dropped'⟩ := finished.hire free enough
    have gone : u.dropped = id :: done := by
      rw [dropped', State.dropped, log, ← same, ← dropped]
      rfl
    obtain ⟨v, reached', all⟩ := ih follows hired settled' queue' gone
    exact ⟨v, reached', by rw [all, List.reverse_cons, List.append_assoc, List.singleton_append]⟩

end Complete

/-- With a worker for each transaction, what is returned is what the runs can come to: the states of
the orders in which they drop the transactions. -/
theorem mem_results_iff (effect : OpFunc → KVStoreState → TxnCmd → KVStoreState)
    (destruction : Iteration (Nat × Nat)) (loop death : Iteration (UInt64 × Nat × List UInt64))
    (T : Trace) (W : Type) [Fintype W] [DecidableEq W] (enough : T.ids.length ≤ Fintype.card W) :
    ∃ results, Returns effect destruction loop death T results ∧ ∀ state, state ∈ results ↔
      ∃ s : State W, (system W T loop death).Reachable System.Always s ∧ (∀ id ∈ T.ids, id ∈ s.dropped) ∧
        s.dropped.reverse.foldl (runTxn effect T) Store.empty = state := by
  obtain ⟨results, returns, states⟩ := exists_returns effect destruction loop death T
  refine ⟨results, returns, fun state => ?_⟩
  rw [states.mem_iff, mem_statesFrom]
  constructor
  · rintro ⟨order, linear, same⟩
    obtain ⟨length, follows⟩ := Dependencies.linearExtension_iff.mp linear
    have initial := init_start (W := W) T loop death
    have begun : Reached T loop death (start W T loop death) := System.Reachable.start initial
    obtain ⟨s, hired, settled, queue, dropped⟩ := begun.hire (fun x => .inl (initial.2.1 x)) enough
    have none : s.dropped = [] := by
      rw [dropped, State.dropped, initial.2.2]
      rfl
    obtain ⟨t, reached, all⟩ := Reached.dropAll enough follows hired settled queue none
    rw [List.append_nil] at all
    refine ⟨t, reached, fun id member => ?_, by rw [all, List.reverse_reverse, same]⟩
    rw [all, List.mem_reverse]
    exact linear.1.mem_iff.mpr member
  · rintro ⟨s, reachable, all, same⟩
    refine ⟨s.dropped.reverse, Dependencies.linearExtension_iff.mpr ⟨?_, dropped_follows reachable⟩, same⟩
    have follows := Dependencies.follows_iff.mp (dropped_follows reachable)
    have perm : s.dropped.reverse.Perm T.ids := by
      refine (List.perm_ext_iff_of_nodup follows.1.1 T.distinct).mpr fun id => ?_
      exact ⟨fun member => (follows.1.2 id member).1, fun member => List.mem_reverse.mpr (all id member)⟩
    exact perm.length_eq

theorem mem_results_iff_chain : ∃ results,
    Returns (fun _ state _ => state) .asListed .asListed .asListed chain results ∧
      ∀ state, state ∈ results ↔ ∃ s : State Bool,
        (system Bool chain .asListed .asListed).Reachable System.Always s ∧
          (∀ id ∈ chain.ids, id ∈ s.dropped) ∧
            s.dropped.reverse.foldl (runTxn (fun _ state _ => state) chain) Store.empty = state :=
  mem_results_iff (fun _ state _ => state) .asListed .asListed .asListed chain Bool (by decide)

end Workers

end CloudLab.Workload
