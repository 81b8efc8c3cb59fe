import CloudLab.Library.Mutexes

/-!
# The mutexes of the store

Each method of `KvStore` as the mutexes that it locks and unlocks, in its order; a `lock_guard`
is given back where its scope ends. `tx_get` locks `gets_mtx` before `db_mtx`, and `tx_abort`
locks it before `txs_mtx`; `tx_commit` locks it last. So two calls may wait for each other:
`deadlocked_crossing`. Nothing else goes wrong: `not_deadlocked_of_polite`.
-/
namespace CloudLab.KvStore

open Library Library.LockOp

inductive Mutex where
  | dbMtx
  | txsMtx
  | getsMtx
  deriving DecidableEq, Repr

instance : Fintype Mutex := ⟨{.dbMtx, .txsMtx, .getsMtx}, fun m => by cases m <;> decide⟩

namespace Locks

/-! ## Methods -/

def put : List (LockOp Mutex) := [.lock .dbMtx, .unlock .dbMtx]

def get : List (LockOp Mutex) := [.lock .dbMtx, .unlock .dbMtx]

def txStart : List (LockOp Mutex) := [.lock .txsMtx, .unlock .txsMtx]

def txPut : List (LockOp Mutex) := [.lock .txsMtx, .unlock .txsMtx]

def safeGet : List (LockOp Mutex) := [.lock .dbMtx, .unlock .dbMtx]

def txGet : List (LockOp Mutex) := .lock .getsMtx :: safeGet ++ [.unlock .getsMtx]

/-- Another transaction has locked the key. -/
def txGetRefused : List (LockOp Mutex) := [.lock .getsMtx, .unlock .getsMtx]

def txCommit : List (LockOp Mutex) :=
  [.lock .txsMtx, .lock .dbMtx, .lock .getsMtx, .unlock .getsMtx, .unlock .dbMtx, .unlock .txsMtx]

def txAbort : List (LockOp Mutex) :=
  [.lock .getsMtx, .lock .txsMtx, .unlock .txsMtx, .unlock .getsMtx]

end Locks

def methods : List (List (LockOp Mutex)) :=
  [Locks.put, Locks.get, Locks.txStart, Locks.txPut, Locks.txGet, Locks.txGetRefused,
    Locks.txCommit, Locks.txAbort]

/-! ## Deadlocks -/

theorem complete_methods : ∀ method ∈ methods, Complete method := by decide

/-- A thread without a mutex may wait for any other one, and an abort for a commit. -/
def rank (todo : List (LockOp Mutex)) : Nat :=
  if ∃ m, Holds todo m then
    if Waits todo .txsMtx then 1 else 0
  else 2

theorem ranked_methods :
    ∀ x ∈ methods.flatMap List.tails, ∀ y ∈ methods.flatMap List.tails, Ranked rank x y := by
  decide

/-- Threads that call any methods never deadlock as long as none locks a mutex that another one
still needs while it needs one that the other has locked. -/
theorem not_deadlocked_of_polite {T : Type} [DecidableEq T] (s : Threads T Mutex)
    (reachable : (Threads.system T methods).Reachable Threads.Polite s) (threads : Set T) :
    ¬s.Deadlocked threads :=
  Threads.not_deadlocked rank complete_methods ranked_methods reachable threads

/-! ## A read and a commit -/

def idle : Threads Bool Mutex := ⟨fun _ => none, fun _ => []⟩

/-- The read has `gets_mtx` and waits for `db_mtx`, the commit the other way round. -/
def crossing : List (Threads.Step Bool Mutex) :=
  [.call false Locks.txGet, .call true Locks.txCommit, .next false, .next true, .next true]

theorem not_deadlocked_before_crossing :
    ∃ s : Threads Bool Mutex, s.holder .getsMtx = some false ∧ s.holder .txsMtx = some true ∧
      (Threads.system Bool methods).Reachable Threads.Polite s ∧
        ∀ threads, ¬s.Deadlocked threads := by
  let S := (Threads.system Bool methods).guarded Threads.Polite
  have polite : (S.run idle crossing.dropLast).isSome := by decide
  have locked : ∀ s ∈ S.run idle crossing.dropLast, s.holder .getsMtx = some false ∧
      s.holder .txsMtx = some true := by decide
  obtain ⟨s, reached⟩ := Option.isSome_iff_exists.mp polite
  have reachable : (Threads.system Bool methods).Reachable Threads.Polite s :=
    System.Reachable.guarded (.start rfl) reached
  exact ⟨s, (locked s reached).1, (locked s reached).2, reachable,
    not_deadlocked_of_polite s reachable⟩

theorem deadlocked_crossing :
    ¬∀ (T : Type) (_ : DecidableEq T) (s : Threads T Mutex),
        (Threads.system T methods).Reachable System.Always s → ∀ threads, ¬s.Deadlocked threads := by
  intro all
  let S := Threads.system Bool methods
  have defined : (S.run idle crossing).isSome := by decide
  have waiting : ∀ s ∈ S.run idle crossing, Waits (s.todo false) .dbMtx ∧
      s.holder .dbMtx = some true ∧ Waits (s.todo true) .getsMtx ∧
        s.holder .getsMtx = some false := by decide
  obtain ⟨s, reached⟩ := Option.isSome_iff_exists.mp defined
  obtain ⟨read, db, commit, gets⟩ := waiting s reached
  refine all Bool inferInstance s (System.Reachable.run (.start rfl) reached) Set.univ
    ⟨⟨true, trivial⟩, fun t _ => ⟨!t, trivial, by simp, ?_⟩⟩
  cases t with
  | false => exact ⟨_, read, db⟩
  | true => exact ⟨_, commit, gets⟩

end CloudLab.KvStore
