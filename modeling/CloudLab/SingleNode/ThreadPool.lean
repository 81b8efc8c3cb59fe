import CloudLab.Library.TwoPhase
import CloudLab.SingleNode.Connections

/-!
# The threads of the server (`task1/source/server.cpp`)

`main` accepts connections and adds them to the list, the threads of the pool take them off, each
with `myMutex` around the call. Here the bodies of the calls run one statement at a time.
`handled_once`: every connection that was accepted is handled by one thread of the pool, or is still
in the list.
-/
namespace CloudLab.SingleNode.ThreadPool

open Library Connections

/-! ## Statements -/

/-- What `myMutex` protects. -/
abbrev Protected : Unit → Type := fun _ => Queue

abbrev Section := Code Protected (Option Nat)

def statement (write : Queue → Queue) (rest : Queue → Section) : Section := .access () write rest

/-- The node that `n` points to. -/
def pointee (q : Queue) (n : Option Nat) : Option MyNode := n.bind fun n => q.nodes[n]?

def setSocket (n : Nat) (s : Option Nat) (q : Queue) : Queue :=
  { q with nodes := q.nodes.modify n fun node => { node with socket := s } }

def setNext (n : Nat) (next : Option Nat) (q : Queue) : Queue :=
  { q with nodes := q.nodes.modify n fun node => { node with next := next } }

/-- `new MyNode` leaves what is in the node as it finds it. -/
def addToList (uninitialized : MyNode) (s : Option Nat) (rest : Section) : Section :=
  statement (fun q => { q with nodes := q.nodes ++ [uninitialized] }) fun q =>
    let n := q.nodes.length
    statement (setSocket n s) fun _ =>
      statement (setNext n none) fun _ =>
        let setTail := statement (fun q => { q with tail := some n }) fun _ => rest
        statement id fun q =>
          if q.tail = none then statement (fun q => { q with head := some n }) fun _ => setTail
          else statement (fun q => setNext (q.tail.getD 0) (some n) q) fun q =>
            if (pointee q q.tail).isSome then setTail else .undefined

def getFromList (rest : Option Nat → Section) : Section :=
  statement id fun q =>
    if q.head = none then rest none
    else statement id fun q =>
      match pointee q q.head with
      | none => .undefined
      | some node =>
        let ret := node.socket
        statement (fun q => { q with head := (pointee q q.head).bind MyNode.next }) fun _ =>
          statement id fun q =>
            if q.head = none then statement (fun q => { q with tail := none }) fun _ => rest ret
            else rest ret

/-! ## Calls -/

inductive Call where
  | addToList (pointer : Nat)
  | getFromList
  deriving DecidableEq

/-- The rounds of the loops of `main` and of `threadRunner`, without what they do with the sockets. -/
def method (uninitialized : MyNode) : Call → Section
  | .addToList pointer =>
    .lock () <| addToList uninitialized (some pointer) <| .unlock () <| .ret none
  | .getFromList => .lock () <| getFromList fun result => .unlock () <| .ret result

def call (q : Queue) : Call → Option (Queue × Option Nat)
  | .addToList pointer => (q.addToList (some pointer)).map fun q => (q, none)
  | .getFromList => q.getFromList

theorem twoPhase (uninitialized : MyNode) (c : Call) : (method uninitialized c).TwoPhase ∅ := by
  cases c with
  | addToList pointer =>
    refine ⟨by simp, by simp, fun _ => ⟨by simp, fun _ => ⟨by simp, fun _ => ⟨by simp, fun q => ?_⟩⟩⟩⟩
    dsimp only
    split
    · simp [statement, Code.TwoPhase, Code.Shrinking]
    · refine ⟨by simp, fun q => ?_⟩
      dsimp only
      split <;> simp [statement, Code.TwoPhase, Code.Shrinking]
  | getFromList =>
    refine ⟨by simp, by simp, fun q => ?_⟩
    dsimp only
    split
    · simp [Code.TwoPhase, Code.Shrinking]
    · refine ⟨by simp, fun q => ?_⟩
      dsimp only
      split
      · trivial
      · refine ⟨by simp, fun _ => ⟨by simp, fun q => ?_⟩⟩
        dsimp only
        split <;> simp [statement, Code.TwoPhase, Code.Shrinking]

/-! ## One call alone -/

theorem exec_statement (write : Queue → Queue) (rest : Queue → Section) (memory : Unit → Queue) :
    (statement write rest).exec memory = (rest (memory ())).exec fun _ => write (memory ()) := rfl

theorem modify_last (nodes : List MyNode) (node : MyNode) (f : MyNode → MyNode) :
    (nodes ++ [node]).modify nodes.length f = nodes ++ [f node] := by
  induction nodes with
  | nil => rfl
  | cons first nodes ih => simp [ih]

theorem modify_of_getElem? {nodes : List MyNode} {n : Nat} {node : MyNode} (there : nodes[n]? = some node)
    (f : MyNode → MyNode) : nodes.modify n f = nodes.set n (f node) := by
  apply List.ext_getElem?
  intro k
  rw [List.getElem?_modify, List.getElem?_set]
  obtain ⟨inside, read⟩ := List.getElem?_eq_some_iff.mp there
  by_cases same : n = k
  · subst same
    simp [inside, read]
  · simp [same]

/-- Alone, the statements do what the call does at once. -/
theorem exec (uninitialized : MyNode) (c : Call) (memory : Unit → Queue) :
    ((method uninitialized c).exec memory).map (fun ended => (ended.1 (), ended.2)) =
      call (memory ()) c := by
  cases c with
  | addToList pointer =>
    simp only [method, addToList, Code.exec, exec_statement, setSocket, setNext, modify_last, call,
      Queue.addToList]
    cases last : (memory ()).tail with
    | none =>
      rw [if_pos rfl]
      rfl
    | some tail =>
      rw [if_neg (by simp)]
      simp only [exec_statement, id, pointee, Option.bind_some, Option.getD_some]
      cases there : ((memory ()).nodes ++ [MyNode.mk none (some pointer)])[tail]? with
      | none => simp [Code.exec]
      | some node => simp [exec_statement, Code.exec, modify_of_getElem? there]
  | getFromList =>
    simp only [method, getFromList, Code.exec, exec_statement, call, Queue.getFromList, id]
    cases first : (memory ()).head with
    | none => simp [Code.exec]
    | some head =>
      have read : pointee (memory ()) (memory ()).head = (memory ()).nodes[head]? := by
        rw [pointee, first, Option.bind_some]
      rw [← first, if_neg (by simp [first])]
      simp only [exec_statement, id, read]
      cases there : (memory ()).nodes[head]? with
      | none => simp [Code.exec, first, there]
      | some node =>
        simp only [exec_statement, read, there, Option.bind_some]
        cases next : node.next with
        | none => simp [exec_statement, Code.exec, first, there, next]
        | some n => simp [Code.exec, first, there, next]

def object (uninitialized : MyNode) : Object Protected Queue Call (Option Nat) where
  call := call
  method := method uninitialized
  view memory := memory ()
  twoPhase := twoPhase uninitialized
  exec := exec uninitialized

/-! ## The threads -/

variable {W : Type} [DecidableEq W]

abbrev State (W : Type) := Object.State Protected (Option W) Call (Option Nat)

/-- `main` is none, and the others are the pool. -/
abbrev threads (W : Type) [DecidableEq W] (uninitialized : MyNode) :
    System (State W) (Object.Action (Option W) Call) :=
  (object uninitialized).concurrent (Option W) fun _ => {}

def Call.pointer? : Call → Option Nat
  | .addToList pointer => some pointer
  | .getFromList => none

/-- `main` adds and the pool takes. -/
def Role : Option W → Call → Prop
  | none, .addToList _ | some _, .getFromList => True
  | _, _ => False

def InRole (_ : State W) : Object.Action (Option W) Call → Prop
  | .call x c => Role x c
  | .step _ => True

/-- What `main` has added or is about to add, in order. -/
def accepted (s : State W) : List Nat :=
  (Object.entriesOf none (s.history.filterMap Object.Event.called?)).filterMap Call.pointer?

/-- What the pool has got and handles. -/
def handled (s : State W) : List Nat := (s.history.filterMap Object.Event.returned?).filterMap Prod.snd

/-! ### The calls as calls that happen at once -/

section AtOnce

variable {T : Type} {o o' : Queue} {log : List (T × Call × Option Nat)} {x : T} {c : Call} {r : Option Nat}

/-- The state that calls at once would have come to. -/
def atOnce (o : Queue) (log : List (T × Call × Option Nat)) : Connections.State T where
  queue := o
  added := log.filterMap fun entry => entry.2.1.pointer?
  results := log.filterMap fun entry =>
    if entry.2.1 = .getFromList then some (entry.1, entry.2.2) else none

def Call.by (x : T) : Call → Connections.Call T
  | .addToList pointer => .addToList pointer
  | .getFromList => .getFromList x

theorem atOnce_next (called : call o c = some (o', r)) :
    (atOnce o log).next (c.by x) = some (atOnce o' (log ++ [(x, c, r)])) := by
  cases c with
  | addToList pointer =>
    obtain ⟨q, added, same⟩ := Option.map_eq_some_iff.mp called
    obtain ⟨rfl, rfl⟩ := Prod.mk.inj same
    simp [atOnce, Call.by, Connections.State.next, added, Call.pointer?]
  | getFromList =>
    have taken : o.getFromList = some (o', r) := called
    simp [atOnce, Call.by, Connections.State.next, taken, Call.pointer?]

/-- Everything in the log has happened as `Connections` says. -/
structure Kept (o : Queue) (log : List (T × Call × Option Nat)) : Prop where
  kept : ∃ rest, Connections.Kept (atOnce o log) rest
  taken : (atOnce o log).taken = log.filterMap fun entry => entry.2.2

theorem Kept.next (kept : Kept o log) (called : call o c = some (o', r)) :
    Kept o' (log ++ [(x, c, r)]) where
  kept := by
    obtain ⟨rest, before⟩ := kept.kept
    obtain ⟨t, rest', ran, after⟩ := before.next (c.by x)
    obtain rfl := Option.some.inj (ran.symm.trans (atOnce_next called))
    exact ⟨rest', after⟩
  taken := by
    have before := kept.taken
    simp only [Connections.State.taken, atOnce] at before ⊢
    rw [List.filterMap_append, List.filterMap_append, List.filterMap_append, before]
    cases c with
    | addToList pointer =>
      obtain ⟨q, _, same⟩ := Option.map_eq_some_iff.mp called
      obtain ⟨rfl, rfl⟩ := Prod.mk.inj same
      rfl
    | getFromList => cases r <;> rfl

end AtOnce

/-! ### Runs -/

section Runs

variable {uninitialized : MyNode} {s : State W}

/-- Calls are made in the roles of the threads. -/
theorem role_of_called (reachable : (threads W uninitialized).Reachable InRole s) :
    ∀ x c, (x, c) ∈ s.history.filterMap Object.Event.called? → Role x c := by
  refine reachable.invariant (I := fun s => ∀ x c, (x, c) ∈ s.history.filterMap
    Object.Event.called? → Role x c) ?_ fun s action t before role taken => ?_
  · rintro _ rfl x c member
    cases member
  · cases action with
    | call y d =>
      simp only [Object.concurrent, Object.next] at taken
      split at taken
      next =>
        obtain rfl := Option.some.inj taken
        intro x c member
        rw [List.filterMap_append, List.mem_append] at member
        rcases member with old | new
        · exact before x c old
        · obtain ⟨rfl, rfl⟩ := Prod.mk.inj (List.mem_singleton.mp new)
          exact role
      next => cases taken
    | step y =>
      -- A return is no call, and the other statements leave the history alone.
      have same : t.history.filterMap Object.Event.called? = s.history.filterMap Object.Event.called? := by
        obtain ⟨rest, _, taken⟩ := Option.bind_eq_some_iff.mp taken
        cases rest with
        | ret r =>
          obtain rfl := Option.some.inj taken
          simp [Object.Event.called?]
        | lock | unlock =>
          obtain ⟨_, taken⟩ := Option.ite_none_right_eq_some.mp taken
          obtain rfl := Option.some.inj taken
          rfl
        | access | intact =>
          obtain rfl := Option.some.inj taken
          rfl
        | undefined => cases taken
      rwa [same]

/-- Only `main` adds. -/
theorem pointers_of_role {calls : List (Option W × Call)} (role : ∀ x c, (x, c) ∈ calls → Role x c) :
    calls.filterMap (fun entry => entry.2.pointer?) =
      (Object.entriesOf none calls).filterMap Call.pointer? := by
  induction calls with
  | nil => rfl
  | cons entry calls ih =>
    have rest := ih fun x c member => role x c (List.mem_cons_of_mem _ member)
    have first := role entry.1 entry.2 List.mem_cons_self
    obtain ⟨x, c⟩ := entry
    rw [← List.singleton_append, List.filterMap_append, rest, Object.entriesOf_append,
      List.filterMap_append, Object.entriesOf_singleton]
    cases c with
    | addToList pointer =>
      cases x with
      | none => rfl
      | some w => cases first
    | getFromList => cases x <;> rfl

/-- The connections that the pool handles are among those that were accepted first, each as often
as it was accepted. With no call in progress they are all of these, and the others are in the list. -/
theorem handled_once (reachable : (threads W uninitialized).Reachable InRole s) :
    ∃ taken rest, taken ++ rest <+: accepted s ∧ (handled s).Subperm taken ∧
      (s.Quiet → (handled s).Perm taken ∧ taken ++ rest = accepted s ∧ (s.memory ()).Holds rest) := by
  obtain ⟨a, after, reached, history, same, _, quiet⟩ := Object.linearizable reachable.always
  have recorded := Object.recorded reached
  have kept : Kept a.object a.log := Object.atomic_invariant (I := Kept)
    ⟨⟨[], Connections.kept_init⟩, rfl⟩ (fun o log x c o' r before called => before.next called) reached
  obtain ⟨rest, ⟨list, linked, pointers⟩, added⟩ := kept.kept
  have role : ∀ x c, (x, c) ∈ a.log.map (fun entry => (entry.1, entry.2.1)) → Role x c := by
    intro x c member
    refine role_of_called reachable x c ?_
    rw [← history, ← Object.mem_entriesOf, (recorded x).calls]
    exact List.mem_append_left _ (Object.mem_entriesOf.mpr member)
  -- What `main` has added, and maybe the pointer that it is about to add.
  have accepts : accepted s = (atOnce a.object a.log).taken ++ rest ++
      (a.pending none).calls.filterMap Call.pointer? := by
    rw [← added, accepted, ← history, (recorded none).calls, List.filterMap_append,
      ← pointers_of_role role, List.filterMap_map]
    rfl
  have handles : ∀ x, Object.entriesOf x (a.log.map fun entry => (entry.1, entry.2.2)) =
      Object.entriesOf x (s.history.filterMap Object.Event.returned?) ++ (a.pending x).results :=
    fun x => history ▸ (recorded x).results
  have taken : (atOnce a.object a.log).taken =
      (a.log.map fun entry => (entry.1, entry.2.2)).filterMap Prod.snd := by
    rw [kept.taken, List.filterMap_map]
    rfl
  refine ⟨(atOnce a.object a.log).taken, rest, ⟨_, accepts.symm⟩, ?_, fun still => ?_⟩
  · obtain ⟨list, perm, within⟩ := Object.subperm_of_entriesOf fun x =>
      (handles x) ▸ List.sublist_append_left _ _
    rw [taken]
    exact ⟨list.filterMap Prod.snd, perm.filterMap _, within.filterMap _⟩
  · obtain ⟨memory, idle⟩ := quiet still
    refine ⟨?_, ?_, list, ?_, pointers⟩
    · rw [taken]
      refine (Object.perm_of_entriesOf fun x => ?_).filterMap _
      rw [handles x, idle x]
      exact (List.append_nil _).symm
    · rw [accepts, idle]
      exact (List.append_nil _).symm
    · have found : a.object = after () := same
      rw [memory, ← found]
      exact linked.segment

instance (s : State W) : DecidablePred (InRole s)
  | .call none (.addToList _) | .call (some _) .getFromList | .step _ => .isTrue trivial
  | .call none .getFromList | .call (some _) (.addToList _) => .isFalse id

/-- A thread of the pool waits for the mutex while `main` adds a connection. -/
def oneConnection : List (Object.Action (Option Unit) Call) :=
  [.call none (.addToList 5), .step none, .call (some ()) .getFromList] ++
    List.replicate 8 (.step none) ++ List.replicate 8 (.step (some ()))

theorem handled_once_oneConnection : ∃ s : State Unit, handled s = [5] ∧
    ∃ taken rest, taken ++ rest <+: accepted s ∧ (handled s).Subperm taken ∧
      (s.Quiet → (handled s).Perm taken ∧ taken ++ rest = accepted s ∧ (s.memory ()).Holds rest) := by
  have one : (((threads Unit ⟨none, none⟩).guarded InRole).run { memory := fun _ => {} }
      oneConnection).map handled = some [5] := by decide
  obtain ⟨s, ran, same⟩ := Option.map_eq_some_iff.mp one
  exact ⟨s, same, handled_once ((System.Reachable.start rfl).guarded ran)⟩

end Runs

end CloudLab.SingleNode.ThreadPool
