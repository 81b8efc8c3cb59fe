import CloudLab.Library.Mutexes

/-!
# Methods under mutexes

The threads of a program call the methods of an object, which run one statement at a time. Each
statement touches the part of the memory that one mutex protects, and the methods are two-phase:
they take no mutex behind the first one that they give back. `linearizable`: whatever was called
and returned could have been called and returned by methods that take effect at once.

A statement may use something that no mutex protects any more. If it has changed, the behaviour is
undefined, and the thread stops there; `intact_linearizable` is about the runs without that.
-/
namespace Library

/-! ## Methods -/

/-- What is left of a method. `V m` is what the mutex `m` protects. -/
inductive Code {M : Type} (V : M → Type) (R : Type) where
  | ret (r : R)
  | lock (m : M) (rest : Code V R)
  | unlock (m : M) (rest : Code V R)
  /-- What is left depends on what was read. -/
  | access (m : M) (write : V m → V m) (rest : V m → Code V R)
  /-- Uses something that the method does not protect: undefined where it has changed. -/
  | intact (ok : (∀ m, V m) → Bool) (rest : Code V R)
  | undefined

namespace Code

variable {M R : Type} {V : M → Type}

/-- No mutex is taken any more, and all are given back. -/
def Shrinking : Set M → Code V R → Prop
  | held, .ret _ => held = ∅
  | _, .lock .. => False
  | held, .unlock m rest => m ∈ held ∧ rest.Shrinking (held \ {m})
  | held, .access m _ rest => m ∈ held ∧ ∀ v, (rest v).Shrinking held
  | held, .intact _ rest => rest.Shrinking held
  | _, .undefined => False

def TwoPhase : Set M → Code V R → Prop
  | held, .ret _ => held = ∅
  | held, .lock m rest => m ∉ held ∧ rest.TwoPhase (insert m held)
  | held, .unlock m rest => m ∈ held ∧ rest.Shrinking (held \ {m})
  | held, .access m _ rest => m ∈ held ∧ ∀ v, (rest v).TwoPhase held
  | held, .intact _ rest => rest.TwoPhase held
  | _, .undefined => True

/-- The mutexes that are locked and unlocked on a way to the end, whatever is read. -/
def Path : Code V R → List (LockOp M) → Prop
  | .ret _, ops => ops = []
  | .lock m rest, ops => ∃ later, ops = .lock m :: later ∧ rest.Path later
  | .unlock m rest, ops => ∃ later, ops = .unlock m :: later ∧ rest.Path later
  | .access _ _ rest, ops => ∃ v, (rest v).Path ops
  | .intact _ rest, ops => rest.Path ops
  | .undefined, _ => False

variable [DecidableEq M]

/-- The method with nobody else around. -/
def exec : Code V R → (∀ m, V m) → Option ((∀ m, V m) × R)
  | .ret r, memory => some (memory, r)
  | .lock _ rest, memory => rest.exec memory
  | .unlock _ rest, memory => rest.exec memory
  | .access m write rest, memory =>
    (rest (memory m)).exec (Function.update memory m (write (memory m)))
  | .intact _ rest, memory => rest.exec memory
  | .undefined, _ => none

variable {held : Set M} {code : Code V R} {memory memory' : ∀ m, V m}

/-- Behind the first mutex that it gives back, a method ends, whatever it does not hold, and leaves
that alone. -/
theorem Shrinking.exec (shrinking : code.Shrinking held)
    (same : ∀ m ∈ held, memory m = memory' m) :
    ∃ after after' r, code.exec memory = some (after, r) ∧ code.exec memory' = some (after', r) ∧
      (∀ m ∈ held, after m = after' m) ∧ ∀ m, m ∉ held → after m = memory m := by
  induction code generalizing held memory memory' with
  | ret r => exact ⟨memory, memory', r, rfl, rfl, same, fun _ _ => rfl⟩
  | lock => cases shrinking
  | unlock m rest ih =>
    obtain ⟨inside, shrinking⟩ := shrinking
    obtain ⟨after, after', r, ends, ends', agree, kept⟩ :=
      ih shrinking fun n member => same n member.1
    -- The other run leaves `m` alone as well.
    obtain ⟨_, _, _, again', _, _, kept'⟩ :=
      ih shrinking fun n _ => (rfl : memory' n = memory' n)
    obtain ⟨rfl, rfl⟩ := Prod.mk.inj (Option.some.inj (ends'.symm.trans again'))
    refine ⟨after, after', r, ends, ends', fun n member => ?_, fun n absent => ?_⟩
    · by_cases own : n = m
      · subst own
        have gone : n ∉ held \ {n} := fun within => within.2 rfl
        rw [kept n gone, kept' n gone, same n member]
      · exact agree n ⟨member, own⟩
    · exact kept n fun within => absent within.1
  | access m write rest ih =>
    obtain ⟨inside, shrinking⟩ := shrinking
    have agree : ∀ n ∈ held, Function.update memory m (write (memory m)) n =
        Function.update memory' m (write (memory m)) n := by
      intro n member
      by_cases own : n = m
      · subst own
        rw [Function.update_self, Function.update_self]
      · rw [Function.update_of_ne own, Function.update_of_ne own, same n member]
    obtain ⟨after, after', r, ends, ends', agree, kept⟩ := ih (memory m) (shrinking _) agree
    refine ⟨after, after', r, ends, ?_, agree, fun n absent => ?_⟩
    · rw [Code.exec, ← same m inside]
      exact ends'
    · have other : n ≠ m := fun own => absent (own.symm ▸ inside)
      rw [kept n absent, Function.update_of_ne other]
  | intact ok rest ih => exact ih shrinking same
  | undefined => cases shrinking

end Code

/-! ## Objects -/

/-- What the calls of an object do at once, and the methods that do it under mutexes. -/
structure Object {M : Type} [DecidableEq M] (V : M → Type) (σ C R : Type) where
  call : σ → C → Option (σ × R)
  method : C → Code V R
  /-- The object that is in the memory. -/
  view : (∀ m, V m) → σ
  twoPhase : ∀ c, (method c).TwoPhase ∅
  exec : ∀ c memory, ((method c).exec memory).map (fun ended => (view ended.1, ended.2)) =
    call (view memory) c

namespace Object

inductive Event (T C R : Type) where
  | called (x : T) (c : C)
  | returned (x : T) (r : R)
  deriving DecidableEq

structure State {M : Type} (V : M → Type) (T C R : Type) where
  memory : ∀ m, V m
  owner : M → Option T := fun _ => none
  running : T → Option (Code V R) := fun _ => none
  history : List (Event T C R) := []

inductive Action (T C : Type) where
  | call (x : T) (c : C)
  | step (x : T)

variable {M σ C R T : Type} {V : M → Type}

def State.Quiet (s : State V T C R) : Prop := ∀ x, s.running x = none

variable [DecidableEq M] [DecidableEq T]

namespace State

def goOn (s : State V T C R) (x : T) (rest : Code V R) : State V T C R :=
  { s with running := Function.update s.running x (some rest) }

/-- The next statement of a thread. -/
def step (s : State V T C R) (x : T) : Code V R → Option (State V T C R)
  | .ret r => some { s with
      running := Function.update s.running x none, history := s.history ++ [.returned x r] }
  | .lock m rest =>
    if s.owner m = none then
      some { s.goOn x rest with owner := Function.update s.owner m (some x) }
    else none
  | .unlock m rest =>
    if s.owner m = some x then
      some { s.goOn x rest with owner := Function.update s.owner m none }
    else none
  | .access m write rest => some { s.goOn x (rest (s.memory m)) with
      memory := Function.update s.memory m (write (s.memory m)) }
  | .intact ok rest => some (s.goOn x (if ok s.memory then rest else .undefined))
  | .undefined => none

/-- The thread does not use what has changed. -/
def Intact (s : State V T C R) : Action T C → Prop
  | .call .. => True
  | .step x =>
    match s.running x with
    | some (.intact ok _) => ok s.memory = true
    | _ => True

instance (s : State V T C R) : DecidablePred s.Intact
  | .call .. => .isTrue trivial
  | .step x => by
    unfold Intact
    dsimp only
    split <;> infer_instance

end State

variable (O : Object V σ C R)

def next (s : State V T C R) : Action T C → Option (State V T C R)
  | .call x c =>
    match s.running x with
    | none => some { s.goOn x (O.method c) with history := s.history ++ [.called x c] }
    | some _ => none
  | .step x => (s.running x).bind (s.step x)

variable (T) in
def concurrent (memory : ∀ m, V m) : System (State V T C R) (Action T C) where
  init s := s = { memory := memory }
  next := O.next

/-! ## Calls that take effect at once -/

inductive Pending (C R : Type) where
  | idle
  | called (c : C)
  | done (r : R)

structure Atomic (T σ C R : Type) where
  object : σ
  pending : T → Pending C R := fun _ => .idle
  history : List (Event T C R) := []
  /-- The calls in the order in which they have taken effect. -/
  log : List (T × C × R) := []

inductive AtomicAction (T C : Type) where
  | call (x : T) (c : C)
  | effect (x : T)
  | ret (x : T)

/-- A call takes effect at one moment between the call and the return. -/
def nextAtomic (call : σ → C → Option (σ × R)) (a : Atomic T σ C R) :
    AtomicAction T C → Option (Atomic T σ C R)
  | .call x c =>
    match a.pending x with
    | .idle => some { a with
        pending := Function.update a.pending x (.called c), history := a.history ++ [.called x c] }
    | _ => none
  | .effect x =>
    match a.pending x with
    | .called c => (call a.object c).map fun (object, r) => { a with
        object := object, pending := Function.update a.pending x (.done r)
        log := a.log ++ [(x, c, r)] }
    | _ => none
  | .ret x =>
    match a.pending x with
    | .done r => some { a with
        pending := Function.update a.pending x .idle, history := a.history ++ [.returned x r] }
    | _ => none

variable (T) in
def atomic (call : σ → C → Option (σ × R)) (object : σ) :
    System (Atomic T σ C R) (AtomicAction T C) where
  init a := a = { object := object }
  next := nextAtomic call

/-- What holds of the object and of the calls that have taken effect. -/
theorem atomic_invariant {call : σ → C → Option (σ × R)} {object : σ}
    {allowed : Atomic T σ C R → AtomicAction T C → Prop} {I : σ → List (T × C × R) → Prop}
    (base : I object []) (kept : ∀ o log x c o' r, I o log → call o c = some (o', r) →
      I o' (log ++ [(x, c, r)])) {a : Atomic T σ C R}
    (reachable : (atomic T call object).Reachable allowed a) : I a.object a.log := by
  refine reachable.invariant (I := fun a => I a.object a.log) ?_ fun a action b before _ taken => ?_
  · rintro _ rfl
    exact base
  · cases action with
    | call x c =>
      simp only [atomic, nextAtomic] at taken
      split at taken
      next =>
        obtain rfl := Option.some.inj taken
        exact before
      next => cases taken
    | effect x =>
      simp only [atomic, nextAtomic] at taken
      split at taken
      next c _ =>
        obtain ⟨⟨o', r⟩, called, rfl⟩ := Option.map_eq_some_iff.mp taken
        exact kept _ _ x c o' r before called
      next => cases taken
    | ret x =>
      simp only [atomic, nextAtomic] at taken
      split at taken
      next =>
        obtain rfl := Option.some.inj taken
        exact before
      next => cases taken

/-! ### What each thread calls and gets -/

def Event.called? : Event T C R → Option (T × C)
  | .called x c => some (x, c)
  | .returned .. => none

def Event.returned? : Event T C R → Option (T × R)
  | .called .. => none
  | .returned x r => some (x, r)

def Pending.calls : Pending C R → List C
  | .called c => [c]
  | _ => []

def Pending.results : Pending C R → List R
  | .done r => [r]
  | _ => []

/-- The entries of one thread. -/
def entriesOf {α : Type} (x : T) (list : List (T × α)) : List α :=
  list.filterMap fun entry => if entry.1 = x then some entry.2 else none

section Entries

variable {α : Type} {list list' : List (T × α)} {x : T}

theorem entriesOf_append (x : T) (list list' : List (T × α)) :
    entriesOf x (list ++ list') = entriesOf x list ++ entriesOf x list' := List.filterMap_append

theorem entriesOf_singleton (x y : T) (entry : α) :
    entriesOf x [(y, entry)] = if y = x then [entry] else [] := by
  rw [entriesOf]
  split <;> simp_all

theorem mem_entriesOf {entry : α} : entry ∈ entriesOf x list ↔ (x, entry) ∈ list := by
  simp [entriesOf]

theorem count_entriesOf [DecidableEq α] (x : T) (entry : α) (list : List (T × α)) :
    (entriesOf x list).count entry = list.count (x, entry) := by
  induction list with
  | nil => rfl
  | cons first list ih =>
    rw [← List.singleton_append, entriesOf_append, List.count_append, List.count_append, ih]
    obtain ⟨y, other⟩ := first
    rw [entriesOf_singleton]
    by_cases same : y = x
    · simp [same, List.count_singleton]
    · simp [same]

/-- Lists are told apart by the entries of the threads, up to their order. -/
theorem subperm_of_entriesOf (each : ∀ x, (entriesOf x list).Sublist (entriesOf x list')) :
    list.Subperm list' := by
  classical
  rw [List.subperm_ext_iff]
  rintro ⟨x, entry⟩ _
  rw [← count_entriesOf, ← count_entriesOf]
  exact (each x).count_le entry

theorem perm_of_entriesOf (each : ∀ x, entriesOf x list = entriesOf x list') : list.Perm list' := by
  classical
  rw [List.perm_iff_count]
  rintro ⟨x, entry⟩
  rw [← count_entriesOf, ← count_entriesOf, each x]

end Entries

/-- The entries of a thread in the log are what it has called and got, in this order. -/
structure Recorded (a : Atomic T σ C R) (x : T) : Prop where
  calls : entriesOf x (a.history.filterMap Event.called?) =
    entriesOf x (a.log.map fun entry => (entry.1, entry.2.1)) ++ (a.pending x).calls
  results : entriesOf x (a.log.map fun entry => (entry.1, entry.2.2)) =
    entriesOf x (a.history.filterMap Event.returned?) ++ (a.pending x).results

theorem Recorded.next {call : σ → C → Option (σ × R)} {a b : Atomic T σ C R} {x : T}
    {action : AtomicAction T C} (recorded : Recorded a x)
    (taken : nextAtomic call a action = some b) : Recorded b x := by
  have calls := recorded.calls
  have results := recorded.results
  cases action with
  | call y c =>
    simp only [nextAtomic] at taken
    split at taken
    next idle =>
      obtain rfl := Option.some.inj taken
      constructor
      · simp only [List.filterMap_append, entriesOf_append, calls, Event.called?, List.filterMap_cons,
          List.filterMap_nil, entriesOf_singleton]
        by_cases same : y = x
        · subst same
          simp [idle, Pending.calls]
        · simp [same, Function.update_of_ne (Ne.symm same)]
      · simp only [List.filterMap_append, entriesOf_append, results, Event.returned?,
          List.filterMap_cons, List.filterMap_nil]
        by_cases same : y = x
        · subst same
          simp [idle, Pending.results, entriesOf]
        · simp [Function.update_of_ne (Ne.symm same), entriesOf]
    next => cases taken
  | effect y =>
    simp only [nextAtomic] at taken
    split at taken
    next c waits =>
      obtain ⟨⟨o, r⟩, _, rfl⟩ := Option.map_eq_some_iff.mp taken
      constructor
      · simp only [calls, List.map_append, List.map_cons, List.map_nil, entriesOf_append,
          entriesOf_singleton]
        by_cases same : y = x
        · subst same
          simp [waits, Pending.calls]
        · simp [same, Function.update_of_ne (Ne.symm same)]
      · simp only [results, List.map_append, List.map_cons, List.map_nil, entriesOf_append,
          entriesOf_singleton]
        by_cases same : y = x
        · subst same
          simp [waits, Pending.results]
        · simp [same, Function.update_of_ne (Ne.symm same)]
    next => cases taken
  | ret y =>
    simp only [nextAtomic] at taken
    split at taken
    next r done =>
      obtain rfl := Option.some.inj taken
      constructor
      · simp only [List.filterMap_append, entriesOf_append, calls, Event.called?, List.filterMap_cons,
          List.filterMap_nil]
        by_cases same : y = x
        · subst same
          simp [done, Pending.calls, entriesOf]
        · simp [Function.update_of_ne (Ne.symm same), entriesOf]
      · simp only [List.filterMap_append, entriesOf_append, results, Event.returned?,
          List.filterMap_cons, List.filterMap_nil, entriesOf_singleton]
        by_cases same : y = x
        · subst same
          simp [done, Pending.results]
        · simp [same, Function.update_of_ne (Ne.symm same)]
    next => cases taken

theorem recorded {call : σ → C → Option (σ × R)} {object : σ} {a : Atomic T σ C R}
    {allowed : Atomic T σ C R → AtomicAction T C → Prop}
    (reachable : (atomic T call object).Reachable allowed a) (x : T) : Recorded a x := by
  refine reachable.invariant (I := fun a => Recorded a x) ?_ fun a action b before _ taken =>
    before.next taken
  rintro _ rfl
  exact ⟨rfl, rfl⟩

/-! ## The tie -/

namespace State

/-- The memory, where the thread has not taken what it found from anybody. -/
def sight (s : State V T C R) (x : T) (memory : ∀ m, V m) : ∀ m, V m := fun m =>
  if s.owner m = some x then s.memory m else memory m

def held (s : State V T C R) (x : T) : Set M := {m | s.owner m = some x}

end State

variable (races : Prop)

/-- A call has no effect before the first mutex is given back: until then what is left of it does
to the object what all of it would do. From then on its result is fixed. If there are races, a
thread may be lost anywhere. -/
inductive Tied (s : State V T C R) (memory : ∀ m, V m) (x : T) : Pending C R → Prop
  | lost {now : Pending C R} (allowed : races) (running : s.running x = some .undefined) :
    Tied s memory x now
  | idle (running : s.running x = none) (none : s.held x = ∅) : Tied s memory x .idle
  | called {c : C} {rest : Code V R} (running : s.running x = some rest)
      (twoPhase : rest.TwoPhase (s.held x))
      (replay : ∀ other : ∀ m, V m, (∀ m ∈ s.held x, other m = memory m) →
        (O.method c).exec other = rest.exec (s.sight x other)) : Tied s memory x (.called c)
  | done {r : R} {rest : Code V R} (running : s.running x = some rest)
      (shrinking : rest.Shrinking (s.held x))
      (ends : ∃ after, rest.exec s.memory = some (after, r) ∧ ∀ m ∈ s.held x, after m = memory m) :
      Tied s memory x (.done r)

/-- `memory` holds the effects of the calls that have taken effect, and of no others. -/
structure Linked (s : State V T C R) (a : Atomic T σ C R) (memory : ∀ m, V m) : Prop where
  object : a.object = O.view memory
  history : a.history = s.history
  free : ∀ m, s.owner m = none → s.memory m = memory m
  tied : ∀ x, O.Tied races s memory x (a.pending x)

section Steps

variable {O} {races} {s t : State V T C R} {a : Atomic T σ C R} {memory memory' : ∀ m, V m} {x y : T}
  {pending : Pending C R}

/-- What others do to the parts that the thread does not hold. -/
theorem Tied.frame (tied : O.Tied races s memory y pending) (running : t.running y = s.running y)
    (held : t.held y = s.held y) (found : ∀ m ∈ s.held y, t.memory m = s.memory m)
    (kept : ∀ m ∈ s.held y, memory' m = memory m) : O.Tied races t memory' y pending := by
  cases tied with
  | lost allowed gone => exact .lost allowed (running.trans gone)
  | idle none free => exact .idle (running.trans none) (held.trans free)
  | @called c rest there twoPhase replay =>
    refine .called (running.trans there) (held ▸ twoPhase) fun other agree => ?_
    rw [held] at agree
    have same : t.sight y other = s.sight y other := by
      funext m
      have owns : t.owner m = some y ↔ s.owner m = some y := Set.ext_iff.mp held m
      by_cases inside : s.owner m = some y
      · rw [State.sight, State.sight, if_pos inside, if_pos (owns.mpr inside), found m inside]
      · rw [State.sight, State.sight, if_neg inside, if_neg fun now => inside (owns.mp now)]
    rw [same]
    exact replay other fun m inside => (agree m inside).trans (kept m inside)
  | @done r rest there shrinking ends =>
    obtain ⟨after, ends, agree⟩ := ends
    obtain ⟨after', _, _, ends', again, same, _⟩ := shrinking.exec found
    obtain ⟨rfl, rfl⟩ := Prod.mk.inj (Option.some.inj (ends.symm.trans again))
    refine .done (running.trans there) (held ▸ shrinking) ⟨after', ends', fun m inside => ?_⟩
    rw [held] at inside
    rw [same m inside, agree m inside, kept m inside]

/-- A step of one thread, of which the others see nothing. -/
theorem Linked.step {b : Atomic T σ C R} (linked : O.Linked races s a memory)
    (running : ∀ y, y ≠ x → t.running y = s.running y) (held : ∀ y, y ≠ x → t.held y = s.held y)
    (found : ∀ m, s.owner m ≠ some x → t.memory m = s.memory m)
    (kept : ∀ m, s.owner m ≠ some x → memory' m = memory m)
    (pending : ∀ y, y ≠ x → b.pending y = a.pending y) (object : b.object = O.view memory')
    (history : b.history = t.history) (free : ∀ m, t.owner m = none → t.memory m = memory' m)
    {now : Pending C R} (here : b.pending x = now) (own : O.Tied races t memory' x now) :
    O.Linked races t b memory' := by
  refine ⟨object, history, free, fun y => ?_⟩
  by_cases same : y = x
  · rw [same, here]
    exact own
  · rw [pending y same]
    have apart : ∀ m ∈ s.held y, s.owner m ≠ some x := fun m inside both =>
      same (Option.some.inj (inside.symm.trans both))
    exact (linked.tied y).frame (running y same) (held y same) (fun m inside => found m (apart m inside))
      fun m inside => kept m (apart m inside)

theorem held_taken {m : M} (free : s.owner m = none) (y : T) :
    {n | Function.update s.owner m (some x) n = some y} =
      if y = x then insert m (s.held y) else s.held y := by
  ext n
  by_cases own : n = m
  · subst own
    by_cases same : y = x
    · simp [same]
    · simp [same, Ne.symm same, State.held, free]
  · by_cases same : y = x
    · simp [same, own, State.held]
    · simp [same, own, State.held]

theorem held_given {m : M} (mine : s.owner m = some x) (y : T) :
    {n | Function.update s.owner m none n = some y} =
      if y = x then s.held y \ {m} else s.held y := by
  ext n
  by_cases own : n = m
  · subst own
    by_cases same : y = x
    · simp [same]
    · simp [same, Ne.symm same, State.held, mine]
  · by_cases same : y = x
    · simp [same, own, State.held]
    · simp [same, own, State.held]

/-- Without a call the thread holds nothing. -/
theorem Tied.not_running (tied : O.Tied races s memory x pending) (idle : s.running x = none) :
    pending = .idle ∧ s.held x = ∅ := by
  cases tied with
  | idle _ free => exact ⟨rfl, free⟩
  | lost _ running | called running | done running => cases idle.symm.trans running

theorem Linked.call (linked : O.Linked races s a memory) (idle : s.running x = none) (c : C) :
    ∃ b, nextAtomic O.call a (.call x c) = some b ∧
      O.Linked races { s.goOn x (O.method c) with history := s.history ++ [.called x c] } b memory := by
  obtain ⟨pending, free⟩ := (linked.tied x).not_running idle
  refine ⟨{ a with
    pending := Function.update a.pending x (.called c), history := a.history ++ [.called x c] }, ?_, ?_⟩
  · rw [nextAtomic, pending]
  · have nothing : ∀ m, s.owner m ≠ some x := fun m mine => Set.eq_empty_iff_forall_notMem.mp free m mine
    have twoPhase : (O.method c).TwoPhase (s.held x) := by
      rw [free]
      exact O.twoPhase c
    refine linked.step (fun y other => Function.update_of_ne other ..) (fun _ _ => rfl)
      (fun _ _ => rfl) (fun _ _ => rfl) (fun y other => Function.update_of_ne other ..) linked.object
      (by rw [linked.history]) linked.free (Function.update_self ..) (.called (Function.update_self ..)
        twoPhase fun other _ => ?_)
    congr 1
    funext m
    exact (if_neg (nothing m)).symm

/-! ### Before the call takes effect -/

variable {c : C} {rest : Code V R}

/-- The call has no effect yet, and the thread takes another mutex or goes on. -/
theorem Linked.wait (linked : O.Linked races s a memory) (pending : a.pending x = .called c)
    (running : ∀ y, y ≠ x → t.running y = s.running y) (held : ∀ y, y ≠ x → t.held y = s.held y)
    (found : ∀ m, s.owner m ≠ some x → t.memory m = s.memory m) (history : t.history = s.history)
    (free : ∀ m, t.owner m = none → s.owner m = none) (here : t.running x = some rest)
    (twoPhase : rest.TwoPhase (t.held x))
    (replay : ∀ other : ∀ m, V m, (∀ m ∈ t.held x, other m = memory m) →
      (O.method c).exec other = rest.exec (t.sight x other)) : O.Linked races t a memory := by
  refine linked.step running held found (fun _ _ => rfl) (fun _ _ => rfl) linked.object
    (linked.history.trans history.symm) (fun m now => ?_) pending (.called here twoPhase replay)
  have before := free m now
  have apart : s.owner m ≠ some x := fun mine => by cases before.symm.trans mine
  rw [found m apart, linked.free m before]

/-- With no mutex given back yet, what is left does to the object what all of the call does. -/
theorem Linked.exec (linked : O.Linked races s a memory)
    (replay : ∀ other : ∀ m, V m, (∀ m ∈ s.held x, other m = memory m) →
      (O.method c).exec other = rest.exec (s.sight x other)) :
    O.call a.object c = (rest.exec (s.sight x memory)).map fun ended => (O.view ended.1, ended.2) := by
  rw [linked.object, ← O.exec, replay memory fun _ _ => rfl]

theorem Linked.effect (linked : O.Linked races s a memory) (pending : a.pending x = .called c)
    (replay : ∀ other : ∀ m, V m, (∀ m ∈ s.held x, other m = memory m) →
      (O.method c).exec other = rest.exec (s.sight x other)) {after : ∀ m, V m} {r : R}
    (ends : rest.exec (s.sight x memory) = some (after, r)) :
    nextAtomic O.call a (.effect x) = some { a with
      object := O.view after, pending := Function.update a.pending x (.done r)
      log := a.log ++ [(x, c, r)] } := by
  simp only [nextAtomic, pending, linked.exec replay, ends, Option.map_some]

theorem Linked.lock {m : M} (linked : O.Linked races s a memory) (pending : a.pending x = .called c)
    (twoPhase : m ∉ s.held x ∧ rest.TwoPhase (insert m (s.held x)))
    (replay : ∀ other : ∀ m, V m, (∀ m ∈ s.held x, other m = memory m) →
      (O.method c).exec other = rest.exec (s.sight x other)) (free : s.owner m = none) :
    O.Linked races { s.goOn x rest with owner := Function.update s.owner m (some x) } a memory := by
  have mine : State.held { s.goOn x rest with owner := Function.update s.owner m (some x) } x =
      insert m (s.held x) := (held_taken free x).trans (if_pos rfl)
  refine linked.wait pending (fun y other => Function.update_of_ne other ..)
    (fun y other => (held_taken free y).trans (if_neg other)) (fun _ _ => rfl) rfl (fun n now => ?_)
    (Function.update_self ..) (mine.symm ▸ twoPhase.2) fun other agree => ?_
  · by_cases own : n = m
    · subst own
      exact free
    · exact (Function.update_of_ne own ..).symm.trans now
  · rw [mine] at agree
    rw [replay other fun n inside => agree n (Set.mem_insert_of_mem _ inside)]
    congr 1
    funext n
    by_cases own : n = m
    · subst own
      simp only [State.sight, Function.update_self, if_pos, free, reduceCtorEq, if_false]
      rw [agree n (Set.mem_insert _ _), ← linked.free n free]
      rfl
    · simp only [State.sight, Function.update_of_ne own]
      rfl

theorem Linked.access {m : M} {write : V m → V m} {rest : V m → Code V R}
    (linked : O.Linked races s a memory) (pending : a.pending x = .called c)
    (twoPhase : m ∈ s.held x ∧ ∀ v, (rest v).TwoPhase (s.held x))
    (replay : ∀ other : ∀ m, V m, (∀ m ∈ s.held x, other m = memory m) →
      (O.method c).exec other = (Code.access m write rest).exec (s.sight x other)) :
    O.Linked races { s.goOn x (rest (s.memory m)) with
      memory := Function.update s.memory m (write (s.memory m)) } a memory := by
  have mine : s.owner m = some x := twoPhase.1
  refine linked.wait pending (fun y other => Function.update_of_ne other ..) (fun _ _ => rfl)
    (fun n other => ?_) rfl (fun _ now => now) (Function.update_self ..) (twoPhase.2 _)
    fun other agree => ?_
  · refine Function.update_of_ne ?_ ..
    intro own
    exact other (own ▸ mine)
  · rw [replay other agree, Code.exec]
    have here : s.sight x other m = s.memory m := if_pos mine
    rw [here]
    congr 1
    funext n
    by_cases own : n = m
    · subst own
      rw [Function.update_self]
      exact ((if_pos mine).trans (Function.update_self ..)).symm
    · rw [Function.update_of_ne own]
      simp only [State.sight, Function.update_of_ne own]
      rfl

/-! ### When and after it takes effect -/

/-- A method without any mutex takes effect when it returns. -/
theorem Linked.retAtOnce {r : R} (linked : O.Linked races s a memory) (pending : a.pending x = .called c)
    (nothing : s.held x = ∅)
    (replay : ∀ other : ∀ m, V m, (∀ m ∈ s.held x, other m = memory m) →
      (O.method c).exec other = (Code.ret r).exec (s.sight x other)) :
    ∃ b, (atomic T O.call a.object).run a [.effect x, .ret x] = some b ∧ O.Linked races { s with
      running := Function.update s.running x none, history := s.history ++ [.returned x r] } b memory := by
  have seen : s.sight x memory = memory := by
    funext m
    exact if_neg (Set.eq_empty_iff_forall_notMem.mp nothing m)
  have ends : (Code.ret r).exec (s.sight x memory) = some (memory, r) := by
    rw [seen]
    rfl
  have effect := linked.effect pending replay ends
  refine ⟨{ a with
    object := O.view memory, pending := Function.update (Function.update a.pending x (.done r)) x .idle
    log := a.log ++ [(x, c, r)], history := a.history ++ [.returned x r] }, ?_, ?_⟩
  · simp only [System.run, atomic, List.foldlM_cons, List.foldlM_nil, effect, Option.bind_eq_bind,
      Option.bind_some]
    simp [nextAtomic]
  · refine linked.step (x := x) (fun y other => Function.update_of_ne other ..) (fun _ _ => rfl)
      (fun _ _ => rfl) (fun _ _ => rfl) (fun y other => ?_) rfl (by rw [linked.history]) linked.free
      (Function.update_self ..) (.idle (Function.update_self ..) nothing)
    simp only [Function.update_of_ne other]

/-- The first mutex is given back: the call takes effect. -/
theorem Linked.giveBack {m : M} (linked : O.Linked races s a memory) (pending : a.pending x = .called c)
    (twoPhase : m ∈ s.held x ∧ rest.Shrinking (s.held x \ {m}))
    (replay : ∀ other : ∀ m, V m, (∀ m ∈ s.held x, other m = memory m) →
      (O.method c).exec other = (Code.unlock m rest).exec (s.sight x other)) :
    ∃ b memory', nextAtomic O.call a (.effect x) = some b ∧
      O.Linked races { s.goOn x rest with owner := Function.update s.owner m none } b memory' := by
  have mine : s.owner m = some x := twoPhase.1
  have left : State.held { s.goOn x rest with owner := Function.update s.owner m none } x =
      s.held x \ {m} := (held_given mine x).trans (if_pos rfl)
  have same : ∀ n ∈ s.held x \ {m}, s.sight x memory n = s.memory n := fun n inside => if_pos inside.1
  obtain ⟨after, after', r, ends, ends', agree, kept⟩ := twoPhase.2.exec same
  have outside : ∀ n, s.owner n ≠ some x → after n = memory n := fun n other =>
    (kept n fun inside => other inside.1).trans (if_neg other)
  refine ⟨_, after, linked.effect pending replay ends, linked.step
    (fun y other => Function.update_of_ne other ..) (fun y other => (held_given mine y).trans (if_neg other))
    (fun _ _ => rfl) outside (fun y other => Function.update_of_ne other ..) rfl linked.history
    (fun n now => ?_) (Function.update_self ..) (.done (Function.update_self ..) (left.symm ▸ twoPhase.2)
      ⟨after', ends', fun n inside => ?_⟩)⟩
  · by_cases own : n = m
    · subst own
      rw [kept n fun inside => inside.2 rfl]
      exact (if_pos mine).symm
    · have free : s.owner n = none := (Function.update_of_ne own ..).symm.trans now
      rw [outside n fun other => by cases free.symm.trans other]
      exact linked.free n free
  · rw [left] at inside
    exact (agree n inside).symm

/-- The thread uses what no mutex protects: it is lost, or goes on. -/
theorem Linked.intact {ok : (∀ m, V m) → Bool} (linked : O.Linked races s a memory)
    (running : s.running x = some (.intact ok rest)) (fair : races ∨ s.Intact (.step x))
    (own : O.Tied races (s.goOn x rest) memory x (a.pending x)) :
    O.Linked races (s.goOn x (if ok s.memory then rest else .undefined)) a memory := by
  refine linked.step (fun y other => Function.update_of_ne other ..) (fun _ _ => rfl) (fun _ _ => rfl)
    (fun _ _ => rfl) (fun _ _ => rfl) linked.object linked.history linked.free rfl ?_
  by_cases same : ok s.memory = true
  · rw [if_pos same]
    exact own
  · rw [if_neg same]
    refine .lost (fair.resolve_right fun intact => same ?_) (Function.update_self ..)
    simpa [State.Intact, running] using intact

theorem Linked.stepDone {r : R} (linked : O.Linked races s a memory) (pending : a.pending x = .done r)
    (running : s.running x = some rest) (fair : races ∨ s.Intact (.step x))
    (taken : s.step x rest = some t) :
    ∃ labels b, (atomic T O.call a.object).run a labels = some b ∧ O.Linked races t b memory := by
  have tied := linked.tied x
  rw [pending] at tied
  obtain ⟨_, gone⟩ | _ | _ | ⟨there, shrinking, after, ends, agree⟩ := tied
  · obtain rfl := Option.some.inj (running.symm.trans gone)
    cases taken
  obtain rfl := Option.some.inj (running.symm.trans there)
  have others : ∀ y, y ≠ x → ∀ now, Function.update s.running x now y = s.running y :=
    fun y other now => Function.update_of_ne other ..
  cases rest with
  | ret r' =>
    obtain rfl := Option.some.inj taken
    obtain ⟨rfl, rfl⟩ := Prod.mk.inj (Option.some.inj ends)
    refine ⟨[.ret x], { a with
      pending := Function.update a.pending x .idle, history := a.history ++ [.returned x r'] }, ?_, ?_⟩
    · simp [System.run, atomic, nextAtomic, pending]
    · exact linked.step (fun y other => others y other _) (fun _ _ => rfl) (fun _ _ => rfl)
        (fun _ _ => rfl) (fun y other => Function.update_of_ne other ..) linked.object
        (by rw [linked.history]) linked.free (Function.update_self ..)
        (.idle (Function.update_self ..) shrinking)
  | lock => cases shrinking
  | unlock m rest =>
    obtain ⟨mine, taken⟩ := Option.ite_none_right_eq_some.mp taken
    obtain rfl := Option.some.inj taken
    obtain ⟨inside, shrinking⟩ := shrinking
    obtain ⟨after', _, _, ends', _, _, kept⟩ := shrinking.exec fun n _ => Eq.refl (s.memory n)
    obtain ⟨rfl, rfl⟩ := Prod.mk.inj (Option.some.inj (ends.symm.trans ends'))
    have left : State.held { s.goOn x rest with owner := Function.update s.owner m none } x =
      s.held x \ {m} := (held_given mine x).trans (if_pos rfl)
    refine ⟨[], a, rfl, linked.step (fun y other => others y other _)
      (fun y other => (held_given mine y).trans (if_neg other)) (fun _ _ => rfl) (fun _ _ => rfl)
      (fun _ _ => rfl) linked.object linked.history (fun n now => ?_) pending
      (.done (Function.update_self ..) (left.symm ▸ shrinking) ⟨_, ends, fun n within => ?_⟩)⟩
    · by_cases own : n = m
      · subst own
        exact (kept n fun within => within.2 rfl).symm.trans (agree n inside)
      · exact linked.free n ((Function.update_of_ne own ..).symm.trans now)
    · rw [left] at within
      exact agree n within.1
  | access m write rest =>
    obtain rfl := Option.some.inj taken
    have mine : s.owner m = some x := shrinking.1
    have apart : ∀ n, s.owner n ≠ some x → n ≠ m := fun n other own => other (own ▸ mine)
    refine ⟨[], a, rfl, linked.step (fun y other => others y other _) (fun _ _ => rfl)
      (fun n other => Function.update_of_ne (apart n other) ..) (fun _ _ => rfl) (fun _ _ => rfl)
      linked.object linked.history (fun n now => ?_) pending
      (.done (Function.update_self ..) (shrinking.2 _) ⟨after, ends, agree⟩)⟩
    have free : s.owner n = none := now
    have other : s.owner n ≠ some x := fun same => by cases free.symm.trans same
    exact (Function.update_of_ne (apart n other) ..).trans (linked.free n free)
  | intact ok rest =>
    obtain rfl := Option.some.inj taken
    refine ⟨[], a, rfl, linked.intact running fair ?_⟩
    rw [pending]
    exact .done (Function.update_self ..) shrinking ⟨after, ends, agree⟩
  | undefined => cases shrinking

theorem Linked.stepCalled (linked : O.Linked races s a memory) (pending : a.pending x = .called c)
    (running : s.running x = some rest) (fair : races ∨ s.Intact (.step x))
    (taken : s.step x rest = some t) :
    ∃ labels b memory', (atomic T O.call a.object).run a labels = some b ∧ O.Linked races t b memory' := by
  have tied := linked.tied x
  rw [pending] at tied
  obtain ⟨_, gone⟩ | _ | ⟨there, twoPhase, replay⟩ | _ := tied
  · obtain rfl := Option.some.inj (running.symm.trans gone)
    cases taken
  obtain rfl := Option.some.inj (running.symm.trans there)
  cases rest with
  | ret r =>
    obtain rfl := Option.some.inj taken
    obtain ⟨b, ran, linked⟩ := linked.retAtOnce pending twoPhase replay
    exact ⟨_, b, memory, ran, linked⟩
  | lock m rest =>
    obtain ⟨free, taken⟩ := Option.ite_none_right_eq_some.mp taken
    obtain rfl := Option.some.inj taken
    exact ⟨[], a, memory, rfl, linked.lock pending twoPhase replay free⟩
  | unlock m rest =>
    obtain ⟨mine, taken⟩ := Option.ite_none_right_eq_some.mp taken
    obtain rfl := Option.some.inj taken
    obtain ⟨b, memory', ran, linked⟩ := linked.giveBack pending twoPhase replay
    exact ⟨[.effect x], b, memory', by simp [System.run, atomic, ran], linked⟩
  | access m write rest =>
    obtain rfl := Option.some.inj taken
    exact ⟨[], a, memory, rfl, linked.access pending twoPhase replay⟩
  | intact ok rest =>
    obtain rfl := Option.some.inj taken
    refine ⟨[], a, memory, rfl, linked.intact running fair ?_⟩
    rw [pending]
    exact .called (Function.update_self ..) twoPhase replay
  | undefined => cases taken

theorem Linked.next {action : Action T C} (linked : O.Linked races s a memory)
    (fair : races ∨ s.Intact action) (taken : O.next s action = some t) :
    ∃ labels b memory', (atomic T O.call a.object).run a labels = some b ∧ O.Linked races t b memory' := by
  cases action with
  | call x c =>
    cases idle : s.running x with
    | none =>
      simp only [Object.next, idle] at taken
      obtain rfl := Option.some.inj taken
      obtain ⟨b, ran, linked⟩ := linked.call idle c
      exact ⟨[.call x c], b, memory, by simp [System.run, atomic, ran], linked⟩
    | some rest =>
      simp only [Object.next, idle] at taken
      cases taken
  | step x =>
    obtain ⟨rest, running, taken⟩ := Option.bind_eq_some_iff.mp taken
    cases pending : a.pending x with
    | idle =>
      have tied := linked.tied x
      rw [pending] at tied
      cases tied with
      | idle none => cases none.symm.trans running
      | lost _ gone =>
        obtain rfl := Option.some.inj (running.symm.trans gone)
        cases taken
    | called c => exact linked.stepCalled pending running fair taken
    | done r =>
      obtain ⟨labels, b, ran, linked⟩ := linked.stepDone pending running fair taken
      exact ⟨labels, b, memory, ran, linked⟩

theorem linked_init : O.Linked races ({ memory := memory } : State V T C R) { object := O.view memory } memory where
  object := rfl
  history := rfl
  free _ _ := rfl
  tied _ := .idle rfl (Set.eq_empty_iff_forall_notMem.mpr fun _ mine => by cases mine)

end Steps

/-! ## Linearizability -/

variable {O} {races} {s : State V T C R} {memory : ∀ m, V m}

theorem exists_linked (races : Prop) (reachable : (O.concurrent T memory).Reachable
      (fun s action => races ∨ s.Intact action) s) :
    ∃ a after, (atomic T O.call (O.view memory)).Reachable System.Always a ∧
      O.Linked races s a after := by
  refine reachable.invariant (I := fun s => ∃ a after,
    (atomic T O.call (O.view memory)).Reachable System.Always a ∧ O.Linked races s a after) ?_ ?_
  · rintro s rfl
    exact ⟨_, memory, .start rfl, linked_init⟩
  · rintro s action t ⟨a, after, reached, linked⟩ fair taken
    obtain ⟨labels, b, after', ran, linked⟩ := linked.next fair taken
    exact ⟨b, after', reached.run ran, linked⟩

/-- With no call under way the memory holds the effects of all calls. -/
theorem Linked.quiet {a : Atomic T σ C R} {after : ∀ m, V m} (linked : O.Linked races s a after)
    (quiet : s.Quiet) : s.memory = after ∧ ∀ x, a.pending x = .idle := by
  refine ⟨?_, fun x => ((linked.tied x).not_running (quiet x)).1⟩
  funext m
  refine linked.free m ?_
  cases owner : s.owner m with
  | none => rfl
  | some x =>
    obtain ⟨_, nothing⟩ := (linked.tied x).not_running (quiet x)
    exact absurd owner (Set.eq_empty_iff_forall_notMem.mp nothing m)

/-- What has been called and what has been returned could come from calls that take effect at once.
Their effects are in the memory wherever no mutex is held. -/
theorem linearizable (reachable : (O.concurrent T memory).Reachable System.Always s) :
    ∃ a after, (atomic T O.call (O.view memory)).Reachable System.Always a ∧ a.history = s.history ∧
      a.object = O.view after ∧ (∀ m, s.owner m = none → s.memory m = after m) ∧
      (s.Quiet → s.memory = after ∧ ∀ x, a.pending x = .idle) := by
  obtain ⟨a, after, reached, linked⟩ :=
    exists_linked True (reachable.mono fun _ _ _ => .inl trivial)
  exact ⟨a, after, reached, linked.history, linked.object, linked.free, linked.quiet⟩

/-- Where no thread uses what has changed, it stops only in a call that is undefined as well when it
takes effect at once. -/
theorem intact_linearizable (reachable : (O.concurrent T memory).Reachable State.Intact s) :
    ∃ a after, (atomic T O.call (O.view memory)).Reachable System.Always a ∧ a.history = s.history ∧
      a.object = O.view after ∧ (s.Quiet → s.memory = after) ∧
      ∀ x, s.running x = some .undefined → ∃ c, a.pending x = .called c ∧ O.call a.object c = none := by
  obtain ⟨a, after, reached, linked⟩ :=
    exists_linked False (reachable.mono fun _ _ => .inr)
  refine ⟨a, after, reached, linked.history, linked.object, fun quiet => (linked.quiet quiet).1,
    fun x gone => ?_⟩
  have tied := linked.tied x
  cases pending : a.pending x with
  | idle =>
    rw [pending] at tied
    obtain ⟨none, _⟩ | ⟨running, _⟩ := tied
    · cases none
    · cases running.symm.trans gone
  | called c =>
    rw [pending] at tied
    obtain ⟨none, _⟩ | _ | ⟨running, _, replay⟩ | _ := tied
    · cases none
    · obtain rfl := Option.some.inj (running.symm.trans gone)
      exact ⟨c, rfl, linked.exec replay⟩
  | done r =>
    rw [pending] at tied
    obtain ⟨none, _⟩ | _ | _ | ⟨running, shrinking, _⟩ := tied
    · cases none
    · obtain rfl := Option.some.inj (running.symm.trans gone)
      cases shrinking

end Object

end Library
