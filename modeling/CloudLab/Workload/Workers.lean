import CloudLab.Library.Transition
import CloudLab.Workload.Parsing

/-!
# Workers

Workers take nodes from the queue of one graph, run them and drop them. A drop is the death of one
pointer after another, and whoever destroys a node moves it into the queue and notifies a waiting
worker, which are two steps: `ready_lock` is held for the first one only.

A transaction counts as dropped from the moment on at which its worker lets go of it.
-/
namespace CloudLab.Workload

open Library

namespace Workers

inductive Worker where
  /-- Has not called `get_ready`, or has finished with the node. -/
  | calling
  /-- In `ready_cond.wait`. -/
  | waiting
  /-- Woken, but without the lock. -/
  | notified
  /-- `get_ready` has returned a node, which is run. -/
  | holding (node : Node)
  /-- Some pointers of the node have yet to die. -/
  | dropping (rest : List Nat)
  /-- In the destructor of a node, before `add_to_ready` has the lock. -/
  | pushing (node : GraphNode) (rest : List Nat)
  /-- In `add_to_ready`, before `notify_one`. -/
  | notifying (rest : List Nat)
  /-- `get_ready` has returned nothing. -/
  | stopped
  deriving DecidableEq

inductive Event where
  | handed (id : UInt64)
  | dropped (id : UInt64)
  deriving DecidableEq

structure State (W : Type) where
  world : World
  graph : Nat
  workers : W → Worker
  /-- What has happened, the latest first. -/
  log : List Event

inductive Action (W : Type) where
  | getReady (x : W)
  | drop (x : W)
  | release (x : W)
  | push (x : W)
  | notify (x : W) (woken : Option W)
  | finish (x : W)
  | wakeSpuriously (x : W)
  | callAgain (x : W)
  deriving DecidableEq

namespace State

variable {W : Type} [DecidableEq W] (s : State W)

def handed : List UInt64 := s.log.filterMap fun
  | .handed id => some id
  | .dropped _ => none

def dropped : List UInt64 := s.log.filterMap fun
  | .handed _ => none
  | .dropped id => some id

def txnGraph : TxnGraph := s.world.graphs s.graph

def move (x : W) (now : Worker) : State W := { s with workers := Function.update s.workers x now }

/-- `get_ready` with the lock, from the start or behind the wait. -/
def getReady (x : W) : State W :=
  match s.txnGraph.readyNodes with
  | [] => s.move x (if s.txnGraph.remainingNodes = 0 then .stopped else .waiting)
  | node :: rest =>
    { s with
      world := s.world.setGraph s.graph { s.txnGraph with
        remainingNodes := s.txnGraph.remainingNodes - 1, readyNodes := rest }
      workers := Function.update s.workers x (.holding node)
      log := .handed node.txn :: s.log }

/-- What is left to be done by a worker when a pointer has died, and maybe the node with it. -/
def afterRelease (rest : List Nat) : Option GraphNode → Worker
  | none => .dropping rest
  | some node =>
    if (s.world.graphs node.graph).valid then .pushing node rest else .dropping (node.next ++ rest)

end State

variable {W : Type} [Fintype W] [DecidableEq W]

def next (s : State W) : Action W → Option (State W)
  | .getReady x =>
    match s.workers x with
    | .calling | .notified => some (s.getReady x)
    | _ => none
  | .drop x =>
    match s.workers x with
    | .holding node => some { s.move x (.dropping node.next) with log := .dropped node.txn :: s.log }
    | _ => none
  | .release x =>
    match s.workers x with
    | .dropping (a :: rest) => (s.world.heap.release a).map fun (heap, last) =>
      { s.move x (s.afterRelease rest last) with world := { s.world with heap := heap } }
    | _ => none
  | .push x =>
    match s.workers x with
    | .pushing node rest => some { s.move x (.notifying rest) with
        world := s.world.addToReady node.graph node.toNode }
    | _ => none
  | .notify x woken =>
    match s.workers x with
    | .notifying rest =>
      match woken with
      | some y =>
        if s.workers y = .waiting then some ((s.move y .notified).move x (.dropping rest)) else none
      | none => if ∃ y, s.workers y = .waiting then none else some (s.move x (.dropping rest))
    | _ => none
  | .finish x => if s.workers x = .dropping [] then some (s.move x .calling) else none
  | .wakeSpuriously x => if s.workers x = .waiting then some (s.move x .notified) else none
  | .callAgain x => if s.workers x = .stopped then some (s.move x .calling) else none

/-- The workers of the graph of a trace; by `parseTxnTrace_owned` there is fuel enough. -/
def system (W : Type) [Fintype W] [DecidableEq W] (T : Trace)
    (loop death : Iteration (UInt64 × Nat × List UInt64)) : System (State W) (Action W) where
  init s := parseTxnTrace loop death T.ids.length T.txns = some (s.world, s.graph) ∧
    (∀ x, s.workers x = .calling) ∧ s.log = []
  next := next

/-- Nobody has called `get_ready` yet. -/
def start (W : Type) (T : Trace) (loop death : Iteration (UInt64 × Nat × List UInt64)) : State W :=
  match parseTxnTrace loop death T.ids.length T.txns with
  | some (w, g) => ⟨w, g, fun _ => .calling, []⟩
  | none => ⟨{}, 0, fun _ => .calling, []⟩

theorem init_start (T : Trace) (loop death : Iteration (UInt64 × Nat × List UInt64)) :
    (system W T loop death).init (start W T loop death) := by
  obtain ⟨w, _, _, parsed, _⟩ := parseTxnTrace_owned T loop death
  simp [system, start, parsed T.ids.length le_rfl]

/-- What each action does, and when. -/
inductive Step (s : State W) : Action W → State W → Prop
  | getReady {x : W} {before : Worker} (here : s.workers x = before)
      (idle : before = .calling ∨ before = .notified) : Step s (.getReady x) (s.getReady x)
  | drop {x : W} {node : Node} (here : s.workers x = .holding node) :
      Step s (.drop x) { s.move x (.dropping node.next) with log := .dropped node.txn :: s.log }
  | release {x : W} {a : Nat} {rest : List Nat} {heap : Heap GraphNode} {last : Option GraphNode}
      (here : s.workers x = .dropping (a :: rest))
      (released : s.world.heap.release a = some (heap, last)) :
      Step s (.release x)
        { s.move x (s.afterRelease rest last) with world := { s.world with heap := heap } }
  | push {x : W} {node : GraphNode} {rest : List Nat} (here : s.workers x = .pushing node rest) :
      Step s (.push x)
        { s.move x (.notifying rest) with world := s.world.addToReady node.graph node.toNode }
  | notifyOne {x y : W} {rest : List Nat} (here : s.workers x = .notifying rest)
      (waits : s.workers y = .waiting) :
      Step s (.notify x (some y)) ((s.move y .notified).move x (.dropping rest))
  | notifyNone {x : W} {rest : List Nat} (here : s.workers x = .notifying rest)
      (nobody : ∀ y, s.workers y ≠ .waiting) : Step s (.notify x none) (s.move x (.dropping rest))
  | finish {x : W} (here : s.workers x = .dropping []) : Step s (.finish x) (s.move x .calling)
  | wakeSpuriously {x : W} (here : s.workers x = .waiting) :
      Step s (.wakeSpuriously x) (s.move x .notified)
  | callAgain {x : W} (here : s.workers x = .stopped) : Step s (.callAgain x) (s.move x .calling)

theorem step_of_next {s t : State W} {a : Action W} (taken : next s a = some t) : Step s a t := by
  cases a with
  | getReady x =>
    simp only [next] at taken
    split at taken
    next here =>
      obtain rfl := Option.some.inj taken
      exact .getReady here (.inl rfl)
    next here =>
      obtain rfl := Option.some.inj taken
      exact .getReady here (.inr rfl)
    next => cases taken
  | drop x =>
    simp only [next] at taken
    split at taken
    next node here =>
      obtain rfl := Option.some.inj taken
      exact .drop here
    next => cases taken
  | release x =>
    simp only [next] at taken
    split at taken
    next a rest here =>
      obtain ⟨⟨heap, last⟩, released, rfl⟩ := Option.map_eq_some_iff.mp taken
      exact .release here released
    next => cases taken
  | push x =>
    simp only [next] at taken
    split at taken
    next node rest here =>
      obtain rfl := Option.some.inj taken
      exact .push here
    next => cases taken
  | notify x woken =>
    simp only [next] at taken
    split at taken
    next rest here =>
      cases woken with
      | some y =>
        obtain ⟨waits, taken⟩ := Option.ite_none_right_eq_some.mp taken
        obtain rfl := Option.some.inj taken
        exact .notifyOne here waits
      | none =>
        obtain ⟨none, taken⟩ := Option.ite_none_left_eq_some.mp taken
        obtain rfl := Option.some.inj taken
        exact .notifyNone here (not_exists.mp none)
    next => cases taken
  | finish x =>
    obtain ⟨here, taken⟩ := Option.ite_none_right_eq_some.mp taken
    obtain rfl := Option.some.inj taken
    exact .finish here
  | wakeSpuriously x =>
    obtain ⟨here, taken⟩ := Option.ite_none_right_eq_some.mp taken
    obtain rfl := Option.some.inj taken
    exact .wakeSpuriously here
  | callAgain x =>
    obtain ⟨here, taken⟩ := Option.ite_none_right_eq_some.mp taken
    obtain rfl := Option.some.inj taken
    exact .callAgain here

/-! ## What the workers have -/

namespace Worker

def held : Worker → List Node
  | .holding node => [node]
  | _ => []

def moved : Worker → List Node
  | .pushing node _ => [node.toNode]
  | _ => []

def pointers : Worker → List Nat
  | .dropping rest | .pushing _ rest | .notifying rest => rest
  | _ => []

/-- It has a node, or something that is left of one. -/
def HoldsNode (worker : Worker) : Prop :=
  worker.held ≠ [] ∨ worker.moved ≠ [] ∨ worker.pointers ≠ []

end Worker

section Collect

variable {α : Type} (workers : W → Worker) (f : Worker → List α)

noncomputable def collect : List α := Finset.univ.toList.flatMap fun x => f (workers x)

/-- What a worker gives up for what it has now. -/
theorem collect_update (x : W) (now : Worker) : (f now ++ collect workers f).Perm
    (f (workers x) ++ collect (Function.update workers x now) f) := by
  have perm : (Finset.univ : Finset W).toList.Perm (x :: (Finset.univ.erase x).toList) := by
    rw [List.perm_ext_iff_of_nodup (Finset.nodup_toList _)
      (List.nodup_cons.mpr ⟨by simp, Finset.nodup_toList _⟩)]
    intro y
    by_cases same : y = x <;> simp [same]
  have others : (Finset.univ.erase x).toList.flatMap (fun y => f (Function.update workers x now y)) =
      (Finset.univ.erase x).toList.flatMap fun y => f (workers y) := by
    refine List.flatMap_congr fun y member => ?_
    have other : y ≠ x := by simpa using member
    rw [Function.update_of_ne other]
  refine ((perm.flatMap_right _).append_left _).trans (.trans ?_
    ((perm.flatMap_right _).append_left _).symm)
  rw [List.flatMap_cons, List.flatMap_cons, Function.update_self, others]
  exact List.perm_append_comm_assoc _ _ _

variable {workers} {x : W} {before : Worker} (here : workers x = before) (now : Worker)
include here

/-- What a step leaves alone. -/
theorem collect_update_of_eq (same : f now = f before) :
    (collect (Function.update workers x now) f).Perm (collect workers f) := by
  have balance := collect_update workers f x now
  rw [here, same, List.perm_append_left_iff] at balance
  exact balance.symm

theorem collect_update_gained (none : f before = []) :
    (collect (Function.update workers x now) f).Perm (f now ++ collect workers f) := by
  have balance := collect_update workers f x now
  rw [here, none, List.nil_append] at balance
  exact balance.symm

theorem collect_update_lost (none : f now = []) :
    (collect workers f).Perm (f before ++ collect (Function.update workers x now) f) := by
  have balance := collect_update workers f x now
  rwa [here, none, List.nil_append] at balance

theorem collect_update_tail {a : α} (split : f before = a :: f now) :
    (collect workers f).Perm (a :: collect (Function.update workers x now) f) := by
  have balance := collect_update workers f x now
  rw [here, split] at balance
  exact (List.perm_append_left_iff _).mp (balance.trans List.perm_middle.symm)

omit here
variable {f}

omit [DecidableEq W] in
theorem collect_eq_nil (none : ∀ x, f (workers x) = []) : collect workers f = [] := by
  rw [collect, List.flatMap_eq_nil_iff]
  exact fun x _ => none x

end Collect

/-! ## The invariant -/

/-- A transaction is handed out behind those it depends on, and behind their drops. -/
def InOrder (T : Trace) (log : List Event) : Prop :=
  ∀ later id earlier, log = later ++ .handed id :: earlier →
    ∀ dep ∈ T.dependsOn id, .handed dep ∈ earlier ∧ .dropped dep ∈ earlier

/-- Whatever is in the queue or with a worker has left the heap, and all that it depended on has
been dropped. -/
structure Scheduled (T : Trace) (s : State W) : Prop where
  owned : ∃ loc waiting, Owned T s.world.heap s.graph loc waiting
    (s.txnGraph.readyNodes ++ collect s.workers Worker.held ++ collect s.workers Worker.moved) s.dropped
    (collect s.workers Worker.pointers)
  valid : s.txnGraph.valid = true
  home : ∀ x node rest, s.workers x = .pushing node rest → node.graph = s.graph
  handed : s.handed.Perm ((collect s.workers Worker.held).map Node.txn ++ s.dropped)
  remaining : s.txnGraph.remainingNodes + s.handed.length = T.ids.length
  order : InOrder T s.log

theorem InOrder.dropped {T : Trace} {log : List Event} (inOrder : InOrder T log) (id : UInt64) :
    InOrder T (.dropped id :: log) := by
  intro later other earlier split
  cases later with
  | nil => cases split
  | cons event later =>
    obtain ⟨_, tail⟩ := List.cons.inj split
    exact inOrder later other earlier tail

theorem InOrder.handed {T : Trace} {log : List Event} (inOrder : InOrder T log) {id : UInt64}
    (deps : ∀ dep ∈ T.dependsOn id, .handed dep ∈ log ∧ .dropped dep ∈ log) :
    InOrder T (.handed id :: log) := by
  intro later other earlier split
  cases later with
  | nil =>
    cases split
    exact deps
  | cons event later =>
    obtain ⟨_, tail⟩ := List.cons.inj split
    exact inOrder later other earlier tail

section Steps

variable {T : Trace} {s t : State W} {x : W}

omit [Fintype W] [DecidableEq W] in
@[simp] theorem mem_handed {id : UInt64} : id ∈ s.handed ↔ .handed id ∈ s.log := by
  rw [State.handed, List.mem_filterMap]
  constructor
  · rintro ⟨event, member, found⟩
    cases event <;> cases found
    exact member
  · exact fun member => ⟨_, member, rfl⟩

omit [Fintype W] [DecidableEq W] in
@[simp] theorem mem_dropped {id : UInt64} : id ∈ s.dropped ↔ .dropped id ∈ s.log := by
  rw [State.dropped, List.mem_filterMap]
  constructor
  · rintro ⟨event, member, found⟩
    cases event <;> cases found
    exact member
  · exact fun member => ⟨_, member, rfl⟩

omit [Fintype W] in
theorem home_update {workers : W → Worker} {graph : Nat} {now : Worker}
    (home : ∀ y node rest, workers y = .pushing node rest → node.graph = graph)
    (own : ∀ node rest, now = .pushing node rest → node.graph = graph) :
    ∀ y node rest, Function.update workers x now y = .pushing node rest → node.graph = graph := by
  intro y node rest there
  by_cases same : y = x
  · subst same
    rw [Function.update_self] at there
    exact own node rest there
  · rw [Function.update_of_ne same] at there
    exact home y node rest there

omit [Fintype W] in
/-- The notifier is not the worker that is woken. -/
theorem notifying_move {y : W} {rest : List Nat} (here : s.workers x = .notifying rest)
    (waits : s.workers y = .waiting) : (s.move y .notified).workers x = .notifying rest := by
  have other : x ≠ y := by
    intro same
    rw [← same, here] at waits
    cases waits
  simp only [State.move, Function.update_of_ne other, here]

/-- A worker goes on with what it has. -/
theorem Scheduled.move (scheduled : Scheduled T s) {before : Worker} (here : s.workers x = before)
    (now : Worker) (held : now.held = before.held) (moved : now.moved = before.moved)
    (pointers : now.pointers = before.pointers)
    (home : ∀ node rest, now = .pushing node rest → node.graph = s.graph) :
    Scheduled T (s.move x now) := by
  obtain ⟨loc, waiting, own⟩ := scheduled.owned
  have holders := collect_update_of_eq Worker.held here now held
  have movers := collect_update_of_eq Worker.moved here now moved
  have dying := collect_update_of_eq Worker.pointers here now pointers
  refine ⟨⟨loc, waiting, ?_⟩, scheduled.valid, home_update scheduled.home home, ?_, scheduled.remaining,
    scheduled.order⟩
  · exact (own.perm_loose ((holders.symm.append_left _).append movers.symm)).perm_owed dying.symm
  · exact scheduled.handed.trans ((holders.symm.map _).append_right _)

omit [DecidableEq W] in
theorem Scheduled.remaining_pos (scheduled : Scheduled T s) (queue : s.txnGraph.readyNodes ≠ []) :
    0 < s.txnGraph.remainingNodes := by
  obtain ⟨loc, waiting, own⟩ := scheduled.owned
  have size := own.size
  have count := scheduled.handed.length_eq
  have remaining := scheduled.remaining
  have some := List.length_pos_iff.mpr queue
  simp only [List.length_append, List.length_map] at size count
  omega

/-- A worker that has nothing calls `get_ready`, or comes back from the wait. -/
theorem Scheduled.getReady (scheduled : Scheduled T s) {before : Worker} (here : s.workers x = before)
    (held : before.held = []) (moved : before.moved = []) (pointers : before.pointers = []) :
    Scheduled T (s.getReady x) := by
  rw [State.getReady]
  split
  next =>
    apply scheduled.move here
    · rw [held]; split <;> rfl
    · rw [moved]; split <;> rfl
    · rw [pointers]; split <;> rfl
    · intro node rest impossible
      split at impossible <;> cases impossible
  next node rest queue =>
    obtain ⟨loc, waiting, own⟩ := scheduled.owned
    have holders := collect_update_gained Worker.held here (.holding node) held
    have movers := collect_update_of_eq Worker.moved here (.holding node) moved.symm
    have dying := collect_update_of_eq Worker.pointers here (.holding node) pointers.symm
    rw [queue] at own
    have deps : ∀ dep ∈ T.dependsOn node.txn, dep ∈ s.dropped := own.looseDeps node (by simp)
    have loose : (node :: rest ++ collect s.workers Worker.held ++ collect s.workers Worker.moved).Perm
        (rest ++ collect (Function.update s.workers x (.holding node)) Worker.held ++
          collect (Function.update s.workers x (.holding node)) Worker.moved) :=
      (List.perm_middle.symm.trans (holders.symm.append_left rest)).append movers.symm
    have remaining := scheduled.remaining
    have positive := scheduled.remaining_pos (queue ▸ List.cons_ne_nil node rest)
    rw [State.txnGraph] at remaining positive
    refine ⟨⟨loc, waiting, ?_⟩, ?_, home_update scheduled.home nofun, ?_, ?_,
      scheduled.order.handed fun dep depends => ?_⟩
    · simp only [State.txnGraph, World.setGraph, Function.update_self]
      exact (own.perm_loose loose).perm_owed dying.symm
    · simpa only [State.txnGraph, World.setGraph, Function.update_self] using scheduled.valid
    · exact (scheduled.handed.cons node.txn).trans ((holders.symm.map Node.txn).append_right _)
    · simp only [State.txnGraph, World.setGraph, Function.update_self]
      rw [show State.handed _ = node.txn :: s.handed from rfl, List.length_cons]
      omega
    · have gone := deps dep depends
      exact ⟨mem_handed.mp (scheduled.handed.mem_iff.mpr (List.mem_append_right _ gone)),
        mem_dropped.mp gone⟩

theorem Scheduled.drop (scheduled : Scheduled T s) {node : Node} (here : s.workers x = .holding node) :
    Scheduled T { s.move x (.dropping node.next) with log := .dropped node.txn :: s.log } := by
  obtain ⟨loc, waiting, own⟩ := scheduled.owned
  have holders := collect_update_lost Worker.held here (.dropping node.next) rfl
  have movers := collect_update_of_eq Worker.moved here (.dropping node.next) rfl
  have dying := collect_update_gained Worker.pointers here (.dropping node.next) rfl
  have loose : (s.txnGraph.readyNodes ++ collect s.workers Worker.held ++
      collect s.workers Worker.moved).Perm (node :: (s.txnGraph.readyNodes ++
        collect (Function.update s.workers x (.dropping node.next)) Worker.held ++
          collect (Function.update s.workers x (.dropping node.next)) Worker.moved)) :=
    ((holders.append_left _).trans List.perm_middle).append movers.symm
  refine ⟨⟨loc, waiting, ?_⟩, scheduled.valid, home_update scheduled.home nofun, ?_,
    scheduled.remaining, scheduled.order.dropped _⟩
  · exact (own.perm_loose loose).letGo.perm_owed dying.symm
  · refine scheduled.handed.trans (((holders.map Node.txn).append_right _).trans ?_)
    exact List.perm_middle.symm

/-- The heap has changed, and a node may have left it. -/
theorem Scheduled.left (scheduled : Scheduled T s) {before : Worker} (here : s.workers x = before)
    (now : Worker) {heap : Heap GraphNode} {loc : UInt64 → Nat} {waiting : List UInt64}
    (held : now.held = before.held) (none : before.moved = [])
    (home : ∀ node rest, now = .pushing node rest → node.graph = s.graph)
    (own : Owned T heap s.graph loc waiting (now.moved ++ (s.txnGraph.readyNodes ++
      collect s.workers Worker.held ++ collect s.workers Worker.moved)) s.dropped
      (collect (Function.update s.workers x now) Worker.pointers)) :
    Scheduled T { s.move x now with world := { s.world with heap := heap } } := by
  have holders := collect_update_of_eq Worker.held here now held
  have movers := collect_update_gained Worker.moved here now none
  refine ⟨⟨loc, waiting, ?_⟩, scheduled.valid, home_update scheduled.home home, ?_,
    scheduled.remaining, scheduled.order⟩
  · refine own.perm_loose ((List.perm_append_comm_assoc _ _ _).trans ?_)
    exact (holders.symm.append_left _).append movers.symm
  · exact scheduled.handed.trans ((holders.symm.map _).append_right _)

/-- One pointer dies, and maybe the node with it. -/
theorem Scheduled.release (scheduled : Scheduled T s) {a : Nat} {rest : List Nat}
    {heap : Heap GraphNode} {last : Option GraphNode} (here : s.workers x = .dropping (a :: rest))
    (released : s.world.heap.release a = some (heap, last)) :
    Scheduled T { s.move x (s.afterRelease rest last) with world := { s.world with heap := heap } } := by
  obtain ⟨loc, waiting, own⟩ := scheduled.owned
  have dying := collect_update_tail Worker.pointers here (.dropping rest) rfl
  have own := own.perm_owed dying
  rcases own.release with ⟨heap', released', less⟩ | ⟨heap', node, waiting', released', _, less⟩
  · obtain ⟨rfl, rfl⟩ := Prod.mk.inj (Option.some.inj (released.symm.trans released'))
    exact scheduled.left here (.dropping rest) rfl rfl nofun less
  · obtain ⟨rfl, rfl⟩ := Prod.mk.inj (Option.some.inj (released.symm.trans released'))
    have pushing : s.afterRelease rest (some ⟨node, s.graph⟩) = .pushing ⟨node, s.graph⟩ rest :=
      if_pos scheduled.valid
    have dying' := collect_update_tail Worker.pointers here (.pushing ⟨node, s.graph⟩ rest) rfl
    rw [pushing]
    refine scheduled.left here _ rfl rfl (fun node' rest' same => ?_)
      (less.perm_owed (dying.symm.trans dying').cons_inv)
    obtain ⟨rfl, _⟩ := Worker.pushing.inj same
    rfl

theorem Scheduled.push (scheduled : Scheduled T s) {node : GraphNode} {rest : List Nat}
    (here : s.workers x = .pushing node rest) :
    Scheduled T { s.move x (.notifying rest) with
      world := s.world.addToReady node.graph node.toNode } := by
  obtain ⟨loc, waiting, own⟩ := scheduled.owned
  have holders := collect_update_of_eq Worker.held here (.notifying rest) rfl
  have movers := collect_update_lost Worker.moved here (.notifying rest) rfl
  have dying := collect_update_of_eq Worker.pointers here (.notifying rest) rfl
  rw [scheduled.home x node rest here]
  have loose : (s.txnGraph.readyNodes ++ collect s.workers Worker.held ++
      collect s.workers Worker.moved).Perm (s.txnGraph.readyNodes ++ [node.toNode] ++
        collect (Function.update s.workers x (.notifying rest)) Worker.held ++
          collect (Function.update s.workers x (.notifying rest)) Worker.moved) := by
    refine ((holders.symm.append_left _).append movers).trans ?_
    simp only [List.append_assoc]
    exact (List.perm_append_comm_assoc _ _ _).append_left _
  refine ⟨⟨loc, waiting, ?_⟩, ?_, home_update scheduled.home nofun, ?_, ?_, scheduled.order⟩
  · simp only [State.txnGraph, World.addToReady, World.setReady, World.setGraph, State.move,
      Function.update_self]
    exact (own.perm_loose loose).perm_owed dying.symm
  · simpa only [State.txnGraph, World.addToReady, World.setReady, World.setGraph, State.move,
      Function.update_self] using scheduled.valid
  · exact scheduled.handed.trans ((holders.symm.map _).append_right _)
  · simp only [State.txnGraph, World.addToReady, World.setReady, World.setGraph, State.move,
      Function.update_self]
    exact scheduled.remaining

theorem Scheduled.step {a : Action W} (scheduled : Scheduled T s) (step : Step s a t) :
    Scheduled T t := by
  cases step with
  | getReady here idle => rcases idle with rfl | rfl <;> exact scheduled.getReady here rfl rfl rfl
  | drop here => exact scheduled.drop here
  | release here released => exact scheduled.release here released
  | push here => exact scheduled.push here
  | notifyOne here waits =>
    exact (scheduled.move waits .notified rfl rfl rfl nofun).move (notifying_move here waits) _ rfl rfl
      rfl nofun
  | notifyNone here | finish here | wakeSpuriously here | callAgain here =>
    exact scheduled.move here _ rfl rfl rfl nofun

end Steps

section Runs

variable {T : Trace} {loop death : Iteration (UInt64 × Nat × List UInt64)} {s : State W}
  {allowed : State W → Action W → Prop}

theorem Scheduled.init (initial : (system W T loop death).init s) : Scheduled T s := by
  obtain ⟨world, graph, workers, log⟩ := s
  obtain ⟨parsed, (calling : ∀ x, workers x = .calling), (rfl : log = [])⟩ := initial
  obtain ⟨w, loc, waiting, parses, own, valid, _, remaining, _⟩ := parseTxnTrace_owned T loop death
  obtain ⟨rfl, rfl⟩ := Prod.mk.inj (Option.some.inj (parsed.symm.trans (parses _ le_rfl)))
  have none : ∀ {α : Type} (f : Worker → List α), f .calling = [] → collect workers f = [] :=
    fun f same => collect_eq_nil fun x => by rw [calling x, same]
  have held := none Worker.held rfl
  refine ⟨⟨loc, waiting, ?_⟩, valid, fun x node rest there => ?_, ?_, remaining, fun later id earlier split => ?_⟩
  · simp only [held, none Worker.moved rfl, none Worker.pointers rfl, List.append_nil]
    exact own
  · cases (calling x).symm.trans there
  · rw [held]
    exact .nil
  · cases later <;> cases split

theorem scheduled (reachable : (system W T loop death).Reachable allowed s) : Scheduled T s :=
  reachable.invariant (fun _ => Scheduled.init) fun _ _ _ before _ taken =>
    before.step (step_of_next taken)

omit [DecidableEq W] in
theorem Scheduled.handed_nodup (scheduled : Scheduled T s) : s.handed.Nodup := by
  obtain ⟨loc, waiting, own⟩ := scheduled.owned
  refine scheduled.handed.nodup_iff.mpr (own.nodup.sublist (.append_right ?_ _))
  simp only [List.map_append, List.append_assoc]
  exact (List.sublist_append_left _ _).trans
    ((List.sublist_append_right _ _).trans (List.sublist_append_right _ _))

omit [DecidableEq W] in
theorem Scheduled.remaining_eq (scheduled : Scheduled T s) :
    s.txnGraph.remainingNodes = (T.ids.filter fun id => id ∉ s.handed).length := by
  obtain ⟨loc, waiting, own⟩ := scheduled.owned
  have listed : ∀ id ∈ s.handed, id ∈ T.ids := by
    intro id member
    refine own.mem_ids.mpr ?_
    simp only [List.map_append, List.mem_append]
    rcases List.mem_append.mp (scheduled.handed.mem_iff.mp member) with held | gone
    · exact .inr (.inl (.inl (.inr held)))
    · exact .inr (.inr gone)
  have perm : (T.ids.filter fun id => id ∈ s.handed).Perm s.handed := by
    refine (List.perm_ext_iff_of_nodup (T.distinct.filter _) scheduled.handed_nodup).mpr fun id => ?_
    rw [List.mem_filter, decide_eq_true_iff]
    exact ⟨fun both => both.2, fun member => ⟨listed id member, member⟩⟩
  have count := List.length_eq_length_filter_add (l := T.ids) fun id => decide (id ∈ s.handed)
  rw [perm.length_eq] at count
  have remaining := scheduled.remaining
  simp only [decide_not]
  omega

omit [DecidableEq W] in
/-- With an empty queue and nothing in the workers' hands, nothing is left to be handed out. -/
theorem Scheduled.all_handed (scheduled : Scheduled T s) (idle : ∀ x, ¬(s.workers x).HoldsNode)
    (queue : s.txnGraph.readyNodes = []) : ∀ id ∈ T.ids, id ∈ s.handed := by
  obtain ⟨loc, waiting, own⟩ := scheduled.owned
  simp only [Worker.HoldsNode, not_or, not_not] at idle
  rw [queue, collect_eq_nil fun x => (idle x).1, collect_eq_nil fun x => (idle x).2.1,
    collect_eq_nil fun x => (idle x).2.2] at own
  intro id member
  refine scheduled.handed.mem_iff.mpr (List.mem_append_right _ ?_)
  simpa [own.waiting_nil] using own.mem_ids.mp member

end Runs

/-! ## Schedules -/

/-- Whatever the workers do, a transaction is handed out behind the drops of those that it depends
on and only once, the graph knows how many are left, and none is forgotten. -/
theorem schedule_safe {W : Type} [Fintype W] [DecidableEq W] {T : Trace}
    {loop death : Iteration (UInt64 × Nat × List UInt64)} {s : State W}
    (reachable : (system W T loop death).Reachable System.Always s) :
    InOrder T s.log ∧ s.handed.Nodup ∧
      s.txnGraph.remainingNodes = (T.ids.filter fun id => id ∉ s.handed).length ∧
      ((∀ x, ¬(s.workers x).HoldsNode) → s.txnGraph.readyNodes = [] → ∀ id ∈ T.ids, id ∈ s.handed) :=
  have schedule := scheduled reachable
  ⟨schedule.order, schedule.handed_nodup, schedule.remaining_eq, schedule.all_handed⟩

/-- The second transaction depends on the first one. -/
def chain : Trace where
  txns := [⟨true, 1, [], []⟩, ⟨true, 2, [1], []⟩]
  distinct := by decide
  closed := by decide
  acyclic := Trace.acyclic_of_rank UInt64.toNat (by decide)

/-- One worker waits for the node that the other one's drop makes ready. -/
def handover : List (Action Bool) :=
  [.getReady false, .getReady true, .drop false, .release false, .push false, .notify false (some true),
    .getReady true]

theorem schedule_safe_handover : ∃ s : State Bool,
    s.log = [.handed 2, .dropped 1, .handed 1] ∧ InOrder chain s.log ∧ s.handed.Nodup ∧
      s.txnGraph.remainingNodes = (chain.ids.filter fun id => id ∉ s.handed).length := by
  have initial := init_start (W := Bool) chain .asListed .asListed
  have log : ((system Bool chain .asListed .asListed).run (start Bool chain .asListed .asListed)
      handover).map State.log = some [.handed 2, .dropped 1, .handed 1] := by decide
  obtain ⟨s, ran, same⟩ := Option.map_eq_some_iff.mp log
  obtain ⟨order, nodup, remaining, _⟩ := schedule_safe ((System.Reachable.start initial).run ran)
  exact ⟨s, same, order, nodup, remaining⟩

end Workers

end CloudLab.Workload
