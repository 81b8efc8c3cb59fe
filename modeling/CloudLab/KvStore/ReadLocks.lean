import CloudLab.KvStore.Methods
import CloudLab.Library.Transition

/-!
# Read locks

`tx_get` locks a key only if no other transaction holds it, and the other methods lock nothing;
so whatever is called, a key has one holder at most.
-/
namespace CloudLab.KvStore

open Library

/-- Any calls in any order; a step is missing where a call is undefined. -/
def system (iteration : Iteration (Int32 × Bytes)) : System KvStore Call where
  init s := s = init
  next s c := (s.call iteration c).map Prod.fst

/-- No key is in the lists of two transactions. -/
def Exclusive (s : KvStore) : Prop :=
  ∀ t u key, key ∈ s.keysOf t → key ∈ s.keysOf u → t = u

theorem exclusive_init : Exclusive init := by
  intro t u key held
  cases held

/-- A lock for a key that no other transaction holds. -/
theorem Exclusive.lock {s : KvStore} (exclusive : Exclusive s) {txId key : Int32}
    (free : s.lockedByOther txId key = false) :
    Exclusive ⟨s.kvStore, s.liveTxs, s.lockedKeys.insertOrAssign txId (s.keysOf txId ++ [key])⟩ := by
  have alone : ∀ other, key ∈ s.keysOf other → other = txId := by
    intro other held
    by_contra different
    rw [(s.lockedByOther_iff txId key).mpr ⟨other, different, held⟩] at free
    cases free
  -- Whoever holds a key behind the lock held it before, or it is the new one.
  have before : ∀ t k, k ∈ (if t = txId then s.keysOf txId ++ [key] else s.keysOf t) →
      k ∈ s.keysOf t ∨ t = txId ∧ k = key := by
    intro t k held
    split at held
    next same =>
      subst same
      rcases List.mem_append.mp held with old | new
      · exact Or.inl old
      · exact Or.inr ⟨rfl, List.mem_singleton.mp new⟩
    next => exact Or.inl held
  intro t u k first second
  rw [keysOf_insertOrAssign] at first second
  rcases before t k first with here | ⟨rfl, rfl⟩
  · rcases before u k second with there | ⟨rfl, rfl⟩
    · exact exclusive t u k here there
    · exact alone t here
  · rcases before u k second with there | ⟨rfl, _⟩
    · exact (alone u there).symm
    · rfl

/-- A commit or an abort gives locks back. -/
theorem Exclusive.erase {s : KvStore} (exclusive : Exclusive s) (kvStore : Store Int32 Bytes)
    (liveTxs : Store Int32 (UnorderedMap Int32 Bytes)) (txId : Int32) :
    Exclusive ⟨kvStore, liveTxs, s.lockedKeys.erase txId⟩ := by
  intro t u key first second
  rw [keysOf_erase] at first second
  split at first
  · cases first
  · split at second
    · cases second
    · exact exclusive t u key first second

theorem Exclusive.effect {s t : KvStore} {c : Call} {r : Result} (exclusive : Exclusive s)
    (effect : Effect s c r t) : Exclusive t := by
  cases effect with
  | put | started | buffered => exact exclusive
  | get | notStarted | notBuffered | refused => exact exclusive
  | read free stored => exact exclusive.lock free
  | committed txId => exact exclusive.erase _ _ txId
  | aborted txId => exact exclusive.erase _ _ txId

/-- In every state a key has one holder at most; and `tx_get` is refused exactly if another
transaction holds the key, and then leaves the store as it was. -/
theorem locks_exclusive (iteration : Iteration (Int32 × Bytes)) {s : KvStore}
    (reachable : (system iteration).Reachable System.Always s) :
    (∀ t u key, t ≠ u → ¬(key ∈ s.keysOf t ∧ key ∈ s.keysOf u)) ∧
      ∀ txId key, (s.kvStore key).isSome → ∃ s' ok value,
        s.txGet txId key = some (s', ok, value) ∧
          (ok = false ↔ ∃ other, other ≠ txId ∧ key ∈ s.keysOf other) ∧ (ok = false → s' = s) := by
  have exclusive : Exclusive s := by
    apply reachable.invariant
    · rintro _ rfl
      exact exclusive_init
    · intro s c t exclusive _ taken
      obtain ⟨⟨_, r⟩, called, rfl⟩ := Option.map_eq_some_iff.mp taken
      exact exclusive.effect (call_iff.mp called)
  constructor
  · rintro t u key different ⟨first, second⟩
    exact different (exclusive t u key first second)
  · intro txId key stored
    obtain ⟨value, stored⟩ := Option.isSome_iff_exists.mp stored
    rw [← lockedByOther_iff]
    cases locked : s.lockedByOther txId key with
    | true =>
      have refused : s.txGet txId key = some (s, false, []) := by simp [txGet, locked]
      exact ⟨_, _, _, refused, by simp, fun _ => rfl⟩
    | false =>
      have read : s.txGet txId key = some (⟨s.kvStore, s.liveTxs,
          s.lockedKeys.insertOrAssign txId (s.keysOf txId ++ [key])⟩, true, value) := by
        simp [txGet, safeGet, locked, stored]
      exact ⟨_, _, _, read, by simp, by simp⟩

/-- A transaction stores a key, and another one that was never started reads it. -/
def readOnce : List Call :=
  [.txStart 1, .txPut 1 5 [9], .txCommit 1, .txGet 2 5]

theorem locks_exclusive_readOnce : ∃ s, (system .asListed).run init readOnce = some s ∧
    s.keysOf 2 = [5] ∧ s.txGet 3 5 = some (s, false, []) := by
  obtain ⟨s, ran⟩ : ∃ s, (system .asListed).run init readOnce = some s :=
    Option.isSome_iff_exists.mp (by decide)
  have state : ∀ s ∈ (system .asListed).run init readOnce, (s.kvStore 5).isSome ∧ s.keysOf 2 = [5] := by
    decide
  obtain ⟨stored, held⟩ := state s ran
  have reachable := System.Reachable.run (.start rfl) ran
  obtain ⟨s', ok, value, got, refused, same⟩ := (locks_exclusive .asListed reachable).2 3 5 stored
  obtain rfl : ok = false := refused.mpr ⟨2, by decide, by simp [held]⟩
  obtain rfl := same rfl
  have empty : value = [] := by
    rw [txGet, (lockedByOther_iff s' 3 5).mpr ⟨2, by decide, by simp [held]⟩] at got
    cases got
    rfl
  exact ⟨s', ran, held, by rw [got, empty]⟩

end CloudLab.KvStore
