import CloudLab.Library.LinkedLists
import CloudLab.Library.Transition

/-!
# The connection queue (`task1/source/server.cpp`)

The accepting thread hands the connections to the workers in a linked list with a head and a tail.
Both of them hold `myMutex` during a call, so that a run is a list of calls. A node that has been
taken is never freed.
-/
namespace CloudLab.SingleNode.Connections

open Library

/-- The pointers are none where they are NULL; what they point to is a number. -/
structure MyNode where
  next : Option Nat
  socket : Option Nat
  deriving DecidableEq

/-- The globals, and the nodes that have been made. -/
structure Queue where
  nodes : List MyNode := []
  head : Option Nat := none
  tail : Option Nat := none
  deriving DecidableEq

namespace Queue

/-- None where a pointer dangles. -/
def addToList (q : Queue) (s : Option Nat) : Option Queue :=
  let n := q.nodes.length
  let nodes := q.nodes ++ [⟨none, s⟩]
  match q.tail with
  | none => some ⟨nodes, some n, some n⟩
  | some tail => nodes[tail]?.map fun node =>
      ⟨nodes.set tail { node with next := some n }, q.head, some n⟩

/-- The queue behind the call, and the pointer that is returned. -/
def getFromList (q : Queue) : Option (Queue × Option Nat) :=
  match q.head with
  | none => some (q, none)
  | some head => q.nodes[head]?.map fun node =>
      ({ q with head := node.next, tail := if node.next = none then none else q.tail }, node.socket)

/-! ## What is in the queue -/

def links (q : Queue) : Links Nat (Option Nat) := fun a =>
  q.nodes[a]?.map fun node => (node.socket, node.next)

/-- The pointers that are linked from the head, in order. -/
def Holds (q : Queue) (pointers : List Nat) : Prop :=
  ∃ list, q.links.Segment q.head list none ∧ list.map Prod.snd = pointers.map some

/-- The tail is on the last link. -/
structure Linked (q : Queue) (list : List (Nat × Option Nat)) : Prop where
  segment : q.links.Segment q.head list none
  tail : q.tail = list.getLast?.map Prod.fst

variable {q : Queue} {list : List (Nat × Option Nat)}

theorem linked_empty : Linked {} [] := ⟨rfl, rfl⟩

theorem Linked.lt_length (linked : q.Linked list) {link : Nat × Option Nat} (member : link ∈ list) :
    link.1 < q.nodes.length := by
  have there := linked.segment.isSome member
  rw [links, Option.isSome_map] at there
  simpa using there

theorem links_eq_some {a : Nat} {value next : Option Nat} (read : q.links a = some (value, next)) :
    q.nodes[a]? = some ⟨next, value⟩ := by
  obtain ⟨node, there, same⟩ := Option.map_eq_some_iff.mp read
  obtain ⟨rfl, rfl⟩ := Prod.mk.inj same
  exact there

/-- A new node is linked behind the last one. -/
theorem Linked.addToList (linked : q.Linked list) (s : Option Nat) :
    ∃ q', q.addToList s = some q' ∧ q'.Linked (list ++ [(q.nodes.length, s)]) := by
  rcases List.eq_nil_or_concat' list with rfl | ⟨front, ⟨tail, value⟩, rfl⟩
  · have empty : q.tail = none := linked.tail
    refine ⟨⟨q.nodes ++ [⟨none, s⟩], some q.nodes.length, some q.nodes.length⟩, ?_, ?_, rfl⟩
    · rw [Queue.addToList, empty]
    · rw [List.nil_append, Links.segment_singleton]
      exact ⟨rfl, by simp [links]⟩
  · have last : q.tail = some tail := by
      rw [linked.tail, List.getLast?_concat, Option.map_some]
    obtain ⟨_, before, rfl, _, read, rfl⟩ := Links.segment_append.mp linked.segment
    have there := links_eq_some read
    have bound : ∀ link ∈ front, link.1 < q.nodes.length := fun link member =>
      linked.lt_length (List.mem_append_left _ member)
    have apart : ∀ link ∈ front, link.1 ≠ tail := by
      have distinct := linked.segment.nodup
      rw [List.map_append, List.nodup_append] at distinct
      exact fun link member => distinct.2.2 link.1 (List.mem_map_of_mem member) tail (by simp)
    have inside : tail < q.nodes.length := (List.getElem?_eq_some_iff.mp there).1
    refine ⟨⟨(q.nodes ++ [MyNode.mk none s]).set tail ⟨some q.nodes.length, value⟩, q.head,
      some q.nodes.length⟩, ?_, ?_, by simp⟩
    · rw [Queue.addToList, last]
      simp only [List.getElem?_append_left inside, there, Option.map_some]
    · rw [List.append_assoc, Links.segment_append]
      -- In front of the tail nothing has changed; the tail leads to the new node, and that ends it.
      refine ⟨some tail, before.congr fun link member => ?_, rfl, some q.nodes.length, ?_, rfl, none,
        ?_, rfl⟩
      · simp only [links, List.getElem?_set_ne (apart link member).symm,
          List.getElem?_append_left (bound link member)]
      · simp [links, inside.trans (Nat.lt_succ_self _)]
      · simp only [links, List.getElem?_set_ne inside.ne, List.getElem?_concat_length,
          Option.map_some]

/-- The first node is taken off. -/
theorem Linked.getFromList (linked : q.Linked list) :
    ∃ q', q.getFromList = some (q', list.head?.bind Prod.snd) ∧ q'.Linked list.tail := by
  cases list with
  | nil =>
    have empty : q.head = none := linked.segment
    exact ⟨q, by rw [Queue.getFromList, empty]; rfl, linked⟩
  | cons link rest =>
    obtain ⟨first, next, read, behind⟩ := linked.segment
    have there := links_eq_some read
    refine ⟨{ q with head := next, tail := if next = none then none else q.tail }, ?_, behind, ?_⟩
    · rw [Queue.getFromList, first]
      simp only [there, Option.map_some]
      rfl
    · simp only [behind.eq_nil_iff, List.tail_cons]
      cases rest with
      | nil => rfl
      | cons second rest =>
        rw [if_neg (List.cons_ne_nil second rest), linked.tail, List.getLast?_cons_cons]

end Queue

/-! ## The calls of the threads -/

/-- `main` adds what `new int` returns; a worker takes a pointer. -/
inductive Call (W : Type) where
  | addToList (pointer : Nat)
  | getFromList (worker : W)

/-- The queue, the pointers that have been added, and what the workers got. -/
structure State (W : Type) where
  queue : Queue := {}
  added : List Nat := []
  results : List (W × Option Nat) := []

variable {W : Type}

namespace State

/-- The results that are not NULL. -/
def taken (s : State W) : List Nat := s.results.filterMap Prod.snd

def next (s : State W) : Call W → Option (State W)
  | .addToList pointer => (s.queue.addToList (some pointer)).map fun queue =>
      { s with queue := queue, added := s.added ++ [pointer] }
  | .getFromList worker => s.queue.getFromList.map fun (queue, result) =>
      { s with queue := queue, results := s.results ++ [(worker, result)] }

end State

variable (W) in
def system : System (State W) (Call W) := ⟨(· = {}), State.next⟩

/-- What has been added has been taken, or is in the queue. -/
structure Kept (s : State W) (rest : List Nat) : Prop where
  linked : ∃ list, s.queue.Linked list ∧ list.map Prod.snd = rest.map some
  added : s.added = s.taken ++ rest

theorem kept_init : Kept ({} : State W) [] := ⟨⟨[], Queue.linked_empty, rfl⟩, rfl⟩

variable {s : State W} {rest : List Nat}

theorem Kept.addToList (kept : Kept s rest) (pointer : Nat) :
    ∃ t, s.next (.addToList pointer) = some t ∧ Kept t (rest ++ [pointer]) := by
  obtain ⟨list, linked, same⟩ := kept.linked
  obtain ⟨q, ran, linked⟩ := linked.addToList (some pointer)
  refine ⟨{ s with queue := q, added := s.added ++ [pointer] }, ?_, ⟨_, linked, ?_⟩, ?_⟩
  · rw [State.next, ran, Option.map_some]
  · rw [List.map_append, List.map_append, same]
    rfl
  · rw [kept.added, List.append_assoc]
    rfl

/-- A worker gets the first pointer, or NULL where there is none. -/
theorem Kept.getFromList (kept : Kept s rest) (worker : W) :
    ∃ t, s.next (.getFromList worker) = some t ∧ t.results = s.results ++ [(worker, rest.head?)] ∧
      Kept t rest.tail := by
  obtain ⟨list, linked, same⟩ := kept.linked
  obtain ⟨q, ran, linked⟩ := linked.getFromList
  have first : list.head?.bind Prod.snd = rest.head? := by
    cases list with
    | nil =>
      rw [List.map_nil, eq_comm, List.map_eq_nil_iff] at same
      rw [same]
      rfl
    | cons link list =>
      cases rest with
      | nil => cases same
      | cons pointer rest => exact (List.cons.inj same).1
  rw [first] at ran
  refine ⟨{ s with queue := q, results := s.results ++ [(worker, rest.head?)] }, ?_, rfl,
    ⟨_, linked, ?_⟩, ?_⟩
  · rw [State.next, ran, Option.map_some]
  · rw [List.map_tail, same, List.map_tail]
  · rw [kept.added, State.taken, State.taken, List.filterMap_append, List.append_assoc]
    cases rest <;> rfl

theorem Kept.next (kept : Kept s rest) (call : Call W) :
    ∃ t rest', s.next call = some t ∧ Kept t rest' := by
  cases call with
  | addToList pointer =>
    obtain ⟨t, ran, kept⟩ := kept.addToList pointer
    exact ⟨t, _, ran, kept⟩
  | getFromList worker =>
    obtain ⟨t, ran, _, kept⟩ := kept.getFromList worker
    exact ⟨t, _, ran, kept⟩

theorem Kept.run (kept : Kept s rest) (calls : List (Call W)) :
    ∃ t rest', (system W).run s calls = some t ∧ Kept t rest' := by
  induction calls generalizing s rest with
  | nil => exact ⟨s, rest, rfl, kept⟩
  | cons call calls ih =>
    obtain ⟨t, rest', ran, kept⟩ := kept.next call
    obtain ⟨u, rest'', runs, kept⟩ := ih kept
    refine ⟨u, rest'', ?_, kept⟩
    rw [System.run, List.foldlM_cons]
    exact Option.bind_eq_some_iff.mpr ⟨t, ran, runs⟩

/-- In every order of the calls, the workers have taken the pointers that were added first, and
what is left is linked from the head. The next one that asks gets NULL if that is nothing. -/
theorem nothing_lost (calls : List (Call W)) :
    ∃ s rest, (system W).run {} calls = some s ∧ s.queue.Holds rest ∧ s.added = s.taken ++ rest ∧
      ∀ worker, ∃ t result, s.next (.getFromList worker) = some t ∧
        t.results = s.results ++ [(worker, result)] ∧ (result = none ↔ s.taken = s.added) := by
  obtain ⟨s, rest, ran, kept⟩ := kept_init.run calls
  obtain ⟨list, linked, same⟩ := kept.linked
  refine ⟨s, rest, ran, ⟨list, linked.segment, same⟩, kept.added, fun worker => ?_⟩
  obtain ⟨t, taken, result, _⟩ := kept.getFromList worker
  refine ⟨t, rest.head?, taken, result, ?_⟩
  rw [kept.added, List.head?_eq_none_iff, List.self_eq_append_right]

example : ((system Unit).run {} [.addToList 7, .getFromList (), .getFromList (), .addToList 8,
    .getFromList ()]).map State.results = some [((), some 7), ((), none), ((), some 8)] := rfl

end CloudLab.SingleNode.Connections
