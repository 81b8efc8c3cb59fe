import CloudLab.Library.Transition

/-!
# Mutexes

Threads that run programs of lock and unlock operations. A deadlock is a set of threads that
each wait for a mutex of another one in the set. `not_deadlocked` excludes them for the runs in
which no thread takes a mutex that another one still needs, while that one has a mutex which the
first still needs itself.
-/
namespace Library

inductive LockOp (M : Type) where
  | lock (m : M)
  | unlock (m : M)
  deriving DecidableEq

namespace LockOp

/-! ## Programs -/

variable {M : Type}

/-- What is left of a program has to take the mutex. -/
def Needs (ops : List (LockOp M)) (m : M) : Prop := .lock m ∈ ops

/-- What is left of a program has taken the mutex, and has to give it back. -/
def Holds (ops : List (LockOp M)) (m : M) : Prop := .unlock m ∈ ops ∧ .lock m ∉ ops

def Waits (ops : List (LockOp M)) (m : M) : Prop := ops.head? = some (.lock m)

/-- Each holds a mutex that the other needs. -/
def Opposed (x y : List (LockOp M)) : Prop :=
  ∃ m n, Holds x m ∧ Needs y m ∧ Holds y n ∧ Needs x n

/-- Where the first waits for the second, and that one waits as well, they cannot both be running,
or the second has the smaller rank. -/
def Ranked (rank : List (LockOp M) → Nat) (x y : List (LockOp M)) : Prop :=
  ∀ m n, Waits x m → Holds y m → Waits y n →
    Opposed x y ∨ (∃ j, Holds x j ∧ Holds y j) ∨ rank y < rank x

/-- Every mutex is unlocked after it is locked, and neither is done twice. -/
def Proper : List (LockOp M) → Prop
  | [] => True
  | .lock m :: rest => .unlock m ∈ rest ∧ .lock m ∉ rest ∧ Proper rest
  | .unlock m :: rest => .unlock m ∉ rest ∧ .lock m ∉ rest ∧ Proper rest

/-- A program takes every mutex that it gives back. -/
def Complete (program : List (LockOp M)) : Prop :=
  Proper program ∧ ∀ m, .unlock m ∈ program → .lock m ∈ program

section Decide

variable [DecidableEq M]

instance (ops : List (LockOp M)) : DecidablePred (Needs ops) := fun _ => List.instDecidableMemOfLawfulBEq _ _

instance (ops : List (LockOp M)) : DecidablePred (Holds ops) := fun _ => instDecidableAnd

instance (ops : List (LockOp M)) : DecidablePred (Waits ops) := fun _ => decEq _ _

instance [Fintype M] (x y : List (LockOp M)) : Decidable (Opposed x y) :=
  inferInstanceAs (Decidable (∃ m n, Holds x m ∧ Needs y m ∧ Holds y n ∧ Needs x n))

instance [Fintype M] (rank : List (LockOp M) → Nat) (x y : List (LockOp M)) :
    Decidable (Ranked rank x y) :=
  inferInstanceAs (Decidable (∀ m n, Waits x m → Holds y m → Waits y n →
    Opposed x y ∨ (∃ j, Holds x j ∧ Holds y j) ∨ rank y < rank x))

instance instDecidableProper : DecidablePred (Proper : List (LockOp M) → Prop)
  | [] => .isTrue trivial
  | .lock m :: rest =>
    haveI := instDecidableProper rest
    inferInstanceAs (Decidable (.unlock m ∈ rest ∧ .lock m ∉ rest ∧ Proper rest))
  | .unlock m :: rest =>
    haveI := instDecidableProper rest
    inferInstanceAs (Decidable (.unlock m ∉ rest ∧ .lock m ∉ rest ∧ Proper rest))

instance [Fintype M] : DecidablePred (Complete : List (LockOp M) → Prop) := fun _ =>
  instDecidableAnd

end Decide

theorem Opposed.symm {x y : List (LockOp M)} (opposed : Opposed x y) : Opposed y x := by
  obtain ⟨m, n, first, wanted, second, needed⟩ := opposed
  exact ⟨n, m, second, needed, first, wanted⟩

theorem Proper.suffix {x y : List (LockOp M)} (proper : Proper y) (suffix : x <:+ y) :
    Proper x := by
  induction y with
  | nil =>
    rw [List.suffix_nil.mp suffix]
    trivial
  | cons op rest ih =>
    rcases List.suffix_cons_iff.mp suffix with rfl | inside
    · exact proper
    · cases op with
      | lock m => exact ih proper.2.2 inside
      | unlock m => exact ih proper.2.2 inside

theorem holds_of_lock {m : M} {rest : List (LockOp M)} (proper : Proper (.lock m :: rest)) (n : M) :
    Holds rest n ↔ n = m ∨ Holds (.lock m :: rest) n := by
  obtain ⟨unlocked, once, _⟩ := proper
  by_cases same : n = m
  · subst same
    simp [Holds, unlocked, once]
  · simp [Holds, same]

theorem holds_of_unlock {m : M} {rest : List (LockOp M)} (proper : Proper (.unlock m :: rest))
    (n : M) : Holds rest n ↔ n ≠ m ∧ Holds (.unlock m :: rest) n := by
  obtain ⟨once, unlocked, _⟩ := proper
  by_cases same : n = m
  · subst same
    simp [Holds, once]
  · simp [Holds, same]

end LockOp

/-! ## Threads -/

open LockOp

structure Threads (T M : Type) where
  holder : M → Option T
  todo : T → List (LockOp M)

namespace Threads

variable {T M : Type}

inductive Step (T M : Type) where
  | call (t : T) (program : List (LockOp M))
  | next (t : T)

/-- Every thread of the set waits for a mutex of another one. -/
def Deadlocked (s : Threads T M) (threads : Set T) : Prop :=
  threads.Nonempty ∧
    ∀ t ∈ threads, ∃ u ∈ threads, u ≠ t ∧ ∃ m, Waits (s.todo t) m ∧ s.holder m = some u

/-- Nobody takes a mutex that another thread needs, and which has one that is still needed. -/
def Polite (s : Threads T M) : Step T M → Prop
  | .call _ _ => True
  | .next t =>
    match s.todo t with
    | .lock m :: rest => ∀ u, u ≠ t → Needs (s.todo u) m → ∀ n, Needs rest n → s.holder n ≠ some u
    | _ => True

variable [DecidableEq T] [DecidableEq M]

instance [Fintype T] [Fintype M] (s : Threads T M) : DecidablePred (Polite s)
  | .call _ _ => .isTrue trivial
  | .next t =>
    match todo : s.todo t with
    | [] => .isTrue (by simp only [Polite, todo])
    | .unlock m :: rest => .isTrue (by simp only [Polite, todo])
    | .lock m :: rest =>
      decidable_of_iff
        (∀ u, u ≠ t → Needs (s.todo u) m → ∀ n, Needs rest n → s.holder n ≠ some u)
        (by simp only [Polite, todo])

/-- A thread that is done may run any of the programs; one that finds a mutex taken waits. -/
def step (programs : List (List (LockOp M))) (s : Threads T M) : Step T M → Option (Threads T M)
  | .call t program =>
    if s.todo t = [] ∧ program ∈ programs then
      some { s with todo := Function.update s.todo t program }
    else none
  | .next t =>
    match s.todo t with
    | [] => none
    | .lock m :: rest =>
      if s.holder m = none then
        some ⟨Function.update s.holder m (some t), Function.update s.todo t rest⟩
      else none
    | .unlock m :: rest => some ⟨Function.update s.holder m none, Function.update s.todo t rest⟩

def system (T : Type) [DecidableEq T] (programs : List (List (LockOp M))) :
    System (Threads T M) (Step T M) where
  init s := s = ⟨fun _ => none, fun _ => []⟩
  next := step programs

theorem step_cases {programs : List (List (LockOp M))} {s s' : Threads T M} {l : Step T M}
    (taken : s.step programs l = some s') :
    (∃ t program, l = .call t program ∧ s.todo t = [] ∧ program ∈ programs ∧
      s' = ⟨s.holder, Function.update s.todo t program⟩) ∨
    (∃ t m rest, l = .next t ∧ s.todo t = .lock m :: rest ∧ s.holder m = none ∧
      s' = ⟨Function.update s.holder m (some t), Function.update s.todo t rest⟩) ∨
    (∃ t m rest, l = .next t ∧ s.todo t = .unlock m :: rest ∧
      s' = ⟨Function.update s.holder m none, Function.update s.todo t rest⟩) := by
  cases l with
  | call t program =>
    obtain ⟨⟨idle, listed⟩, same⟩ := Option.ite_none_right_eq_some.mp taken
    exact .inl ⟨t, program, rfl, idle, listed, (Option.some.inj same).symm⟩
  | next t =>
    rw [step] at taken
    split at taken
    next => cases taken
    next m rest todo =>
      obtain ⟨free, same⟩ := Option.ite_none_right_eq_some.mp taken
      exact .inr (.inl ⟨t, m, rest, rfl, todo, free, (Option.some.inj same).symm⟩)
    next m rest todo => exact .inr (.inr ⟨t, m, rest, rfl, todo, (Option.some.inj taken).symm⟩)

/-! ## Runs in which nobody takes what another needs -/

structure Unopposed (programs : List (List (LockOp M))) (s : Threads T M) : Prop where
  holder : ∀ t m, s.holder m = some t ↔ Holds (s.todo t) m
  todo : ∀ t, s.todo t = [] ∨ ∃ program ∈ programs, s.todo t <:+ program
  apart : ∀ t u, t ≠ u → ¬Opposed (s.todo t) (s.todo u)

section Invariant

variable {programs : List (List (LockOp M))} {s s' : Threads T M} {t : T}
  {op : LockOp M} {rest : List (LockOp M)}

omit [DecidableEq T] [DecidableEq M] in
theorem Unopposed.proper (unopposed : Unopposed programs s)
    (complete : ∀ program ∈ programs, Complete program) (t : T) : Proper (s.todo t) := by
  rcases unopposed.todo t with idle | ⟨program, listed, suffix⟩
  · rw [idle]
    trivial
  · exact (complete program listed).1.suffix suffix

omit [DecidableEq T] [DecidableEq M] in
theorem Unopposed.suffix (unopposed : Unopposed programs s) (todo : s.todo t = op :: rest) :
    ∃ program ∈ programs, rest <:+ program := by
  rcases unopposed.todo t with idle | ⟨program, listed, suffix⟩
  · rw [idle] at todo
    cases todo
  · rw [todo] at suffix
    exact ⟨program, listed, (List.suffix_cons op rest).trans suffix⟩

omit [DecidableEq M] in
/-- The threads stay apart if the one that made a step is apart from the others. -/
theorem apart_update (apart : ∀ t u, t ≠ u → ¬Opposed (s.todo t) (s.todo u)) (t : T)
    (own : ∀ u, u ≠ t → ¬Opposed rest (s.todo u)) (u v : T) (different : u ≠ v) :
    ¬Opposed (Function.update s.todo t rest u) (Function.update s.todo t rest v) := by
  by_cases first : u = t
  · subst first
    rw [Function.update_self, Function.update_of_ne (Ne.symm different)]
    exact own v (Ne.symm different)
  · rw [Function.update_of_ne first]
    by_cases second : v = t
    · subst second
      rw [Function.update_self]
      exact fun opposed => own u first opposed.symm
    · rw [Function.update_of_ne second]
      exact apart u v different

omit [DecidableEq M] in
theorem todo_update (suffixes : ∀ u, s.todo u = [] ∨ ∃ program ∈ programs, s.todo u <:+ program)
    (t : T) (listed : ∃ program ∈ programs, rest <:+ program) (u : T) :
    Function.update s.todo t rest u = [] ∨
      ∃ program ∈ programs, Function.update s.todo t rest u <:+ program := by
  by_cases own : u = t
  · subst own
    rw [Function.update_self]
    exact .inr listed
  · rw [Function.update_of_ne own]
    exact suffixes u

omit [DecidableEq M] in
theorem holder_update (unopposed : Unopposed programs s) (t : T) {holder : M → Option T}
    (own : ∀ n, holder n = some t ↔ Holds rest n)
    (others : ∀ u, u ≠ t → ∀ n, holder n = some u ↔ s.holder n = some u) (u : T) (n : M) :
    holder n = some u ↔ Holds (Function.update s.todo t rest u) n := by
  by_cases same : u = t
  · subst same
    rw [Function.update_self, own]
  · rw [Function.update_of_ne same, others u same, unopposed.holder]

theorem Unopposed.step (unopposed : Unopposed programs s)
    (complete : ∀ program ∈ programs, Complete program) {l : Step T M} (polite : Polite s l)
    (taken : s.step programs l = some s') : Unopposed programs s' := by
  rcases step_cases taken with ⟨t, program, rfl, idle, listed, rfl⟩ |
    ⟨t, m, rest, rfl, todo, free, rfl⟩ | ⟨t, m, rest, rfl, todo, rfl⟩
  -- A thread that starts a program holds nothing.
  · have nothing : ∀ m, ¬Holds program m := fun m holds =>
      holds.2 ((complete program listed).2 m holds.1)
    refine ⟨holder_update unopposed t (fun m => ?_) fun _ _ _ => Iff.rfl,
      todo_update unopposed.todo t ⟨program, listed, List.suffix_rfl⟩,
      apart_update unopposed.apart t fun u _ => ?_⟩
    · rw [unopposed.holder, idle]
      exact iff_of_false (by simp [Holds]) (nothing m)
    · rintro ⟨m, n, holds, _⟩
      exact nothing m holds
  · have proper := unopposed.proper complete t
    rw [todo] at proper
    refine ⟨holder_update unopposed t (fun n => ?_) fun u other n => ?_,
      todo_update unopposed.todo t (unopposed.suffix todo),
      apart_update unopposed.apart t fun u other => ?_⟩
    · rw [holds_of_lock proper, ← todo, ← unopposed.holder]
      by_cases here : n = m <;> simp [here]
    · by_cases here : n = m
      · subst here
        simp [free, Ne.symm other]
      · simp [here]
    · rintro ⟨j, n, holds, wanted, second, needed⟩
      rcases (holds_of_lock proper j).mp holds with rfl | before
      · rw [Polite, todo] at polite
        exact polite u other wanted n needed ((unopposed.holder u n).mpr second)
      · refine unopposed.apart t u (Ne.symm other) ?_
        rw [todo]
        exact ⟨j, n, before, wanted, second, List.mem_cons_of_mem _ needed⟩
  · have proper := unopposed.proper complete t
    rw [todo] at proper
    have held : s.holder m = some t := by
      rw [unopposed.holder, todo]
      exact ⟨List.mem_cons_self, by simpa using proper.2.1⟩
    refine ⟨holder_update unopposed t (fun n => ?_) fun u other n => ?_,
      todo_update unopposed.todo t (unopposed.suffix todo),
      apart_update unopposed.apart t fun u other => ?_⟩
    · rw [holds_of_unlock proper, ← todo, ← unopposed.holder]
      by_cases here : n = m <;> simp [here]
    · by_cases here : n = m
      · subst here
        simp [held, Ne.symm other]
      · simp [here]
    · rintro ⟨j, n, holds, wanted, second, needed⟩
      refine unopposed.apart t u (Ne.symm other) ?_
      rw [todo]
      exact ⟨j, n, ((holds_of_unlock proper j).mp holds).2, wanted, second,
        List.mem_cons_of_mem _ needed⟩

theorem Unopposed.reachable (complete : ∀ program ∈ programs, Complete program)
    (reachable : (system T programs).Reachable Polite s) : Unopposed programs s := by
  refine reachable.invariant ?_ fun s l s' unopposed polite taken =>
    unopposed.step complete polite taken
  rintro s rfl
  exact ⟨fun t m => by simp [Holds], fun t => .inl rfl, fun t u _ => by simp [Opposed, Holds]⟩

/-- Nobody waits for ever when the ranks of the waiting threads descend. -/
theorem not_deadlocked (rank : List (LockOp M) → Nat)
    (complete : ∀ program ∈ programs, Complete program)
    (ranked : ∀ x ∈ programs.flatMap List.tails, ∀ y ∈ programs.flatMap List.tails, Ranked rank x y)
    (reachable : (system T programs).Reachable Polite s) (threads : Set T) :
    ¬s.Deadlocked threads := by
  rintro ⟨nonempty, blocked⟩
  have unopposed := Unopposed.reachable complete reachable
  have listed : ∀ {t m}, Waits (s.todo t) m → s.todo t ∈ programs.flatMap List.tails := by
    intro t m waits
    rcases unopposed.todo t with idle | ⟨program, listed, suffix⟩
    · rw [idle] at waits
      cases waits
    · exact List.mem_flatMap.mpr ⟨program, listed, (List.mem_tails _ _).mpr suffix⟩
  -- The thread of least rank waits for one that waits as well.
  obtain ⟨t, member, least⟩ :=
    (measure fun t => rank (s.todo t)).wf.has_min threads nonempty
  obtain ⟨u, inside, other, m, waits, held⟩ := blocked t member
  obtain ⟨v, _, _, n, blocked, _⟩ := blocked u inside
  rw [unopposed.holder] at held
  rcases ranked _ (listed waits) _ (listed blocked) m n waits held blocked with
    opposed | ⟨j, first, second⟩ | less
  · exact unopposed.apart t u (Ne.symm other) opposed
  · rw [← unopposed.holder] at first second
    exact other (Option.some.inj (second.symm.trans first))
  · exact least u inside less

end Invariant

end Threads

end Library
