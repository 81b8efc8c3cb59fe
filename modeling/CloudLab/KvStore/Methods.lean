import CloudLab.Library.Bytes
import CloudLab.Library.UnorderedMap

/-!
# The transactional store (`kv_store.h` of `task1/source` and `task2/source`)

A transaction collects its writes in a buffer of its own, and `tx_commit` moves them to the
store. `tx_get` reads the store and locks the key for its transaction; it is refused where the
key is locked for another one.
-/
namespace CloudLab

open Library

structure KvStore where
  kvStore : Store Int32 Bytes
  liveTxs : Store Int32 (UnorderedMap Int32 Bytes)
  lockedKeys : UnorderedMap Int32 (List Int32)

namespace KvStore

/-! ## Methods -/

def init : KvStore := ⟨.empty, .empty, ∅⟩

def put (s : KvStore) (key : Int32) (value : Bytes) : KvStore × Bool :=
  ({ s with kvStore := s.kvStore.put key value }, true)

def get (s : KvStore) (key : Int32) : Option Bytes := s.kvStore key

def txStart (s : KvStore) (txId : Int32) : KvStore × Bool :=
  if (s.liveTxs txId).isSome then (s, false)
  else ({ s with liveTxs := s.liveTxs.put txId ∅ }, true)

def txPut (s : KvStore) (txId key : Int32) (value : Bytes) : KvStore × Bool :=
  match s.liveTxs txId with
  | none => (s, false)
  | some txBuf => ({ s with liveTxs := s.liveTxs.put txId (txBuf.insertOrAssign key value) }, true)

/-- Undefined on a key that is not stored: `end()` is dereferenced. -/
def safeGet (s : KvStore) (key : Int32) : Option Bytes := s.kvStore key

/-- The loop of `tx_get` over `locked_keys`. -/
def lockedByOther (s : KvStore) (txId key : Int32) : Bool :=
  s.lockedKeys.entries.any fun txLockedKeys => txLockedKeys.1 ≠ txId ∧ key ∈ txLockedKeys.2

/-- `locked_keys[tx_id]` -/
def keysOf (s : KvStore) (txId : Int32) : List Int32 := (s.lockedKeys.find? txId).getD []

def txGet (s : KvStore) (txId key : Int32) : Option (KvStore × Bool × Bytes) :=
  if s.lockedByOther txId key then some (s, false, [])
  else (s.safeGet key).map fun retVal =>
    ({ s with lockedKeys := s.lockedKeys.insertOrAssign txId (s.keysOf txId ++ [key]) }, true, retVal)

/-- `live_txs[tx_id]` is an empty buffer where the transaction is not live. -/
def curTx (s : KvStore) (txId : Int32) : UnorderedMap Int32 Bytes := (s.liveTxs txId).getD ∅

def txCommit (iteration : Iteration (Int32 × Bytes)) (s : KvStore) (txId : Int32) :
    KvStore × Bool :=
  let updates := iteration.order (s.curTx txId).entries
  (⟨updates.foldl (fun kvStore update => kvStore.put update.1 update.2) s.kvStore,
    s.liveTxs.delete txId, s.lockedKeys.erase txId⟩, true)

def txAbort (s : KvStore) (txId : Int32) : KvStore × Bool :=
  ({ s with liveTxs := s.liveTxs.delete txId, lockedKeys := s.lockedKeys.erase txId }, true)

/-- The writes of a transaction on top of a store. -/
def overlay (writes db : Store Int32 Bytes) : Store Int32 Bytes := fun k => (writes k).or (db k)

/-- The order in which a commit visits the buffer makes no difference. -/
theorem txCommit_eq (iteration : Iteration (Int32 × Bytes)) (s : KvStore) (txId : Int32) :
    s.txCommit iteration txId =
      (⟨overlay (s.curTx txId).find? s.kvStore, s.liveTxs.delete txId, s.lockedKeys.erase txId⟩,
        true) := by
  have contents := funext ((s.curTx txId).foldl_put iteration s.kvStore)
  simp only [txCommit, contents]
  rfl

theorem lockedByOther_iff (s : KvStore) (txId key : Int32) :
    s.lockedByOther txId key = true ↔ ∃ other, other ≠ txId ∧ key ∈ s.keysOf other := by
  rw [lockedByOther, List.any_eq_true]
  constructor
  · rintro ⟨⟨other, keys⟩, member, held⟩
    obtain ⟨different, held⟩ := of_decide_eq_true held
    have found := (s.lockedKeys.mem_entries_iff other keys).mp member
    exact ⟨other, different, by rwa [keysOf, found]⟩
  · rintro ⟨other, different, held⟩
    rw [keysOf] at held
    cases found : s.lockedKeys.find? other with
    | none =>
      rw [found] at held
      cases held
    | some keys =>
      rw [found] at held
      exact ⟨(other, keys), (s.lockedKeys.mem_entries_iff other keys).mpr found,
        decide_eq_true ⟨different, held⟩⟩

theorem keysOf_insertOrAssign (s : KvStore) (txId other : Int32) (keys : List Int32) :
    keysOf ⟨s.kvStore, s.liveTxs, s.lockedKeys.insertOrAssign txId keys⟩ other =
      if other = txId then keys else s.keysOf other := by
  rw [keysOf, UnorderedMap.find?_insertOrAssign]
  split <;> rfl

theorem keysOf_erase (s : KvStore) (kvStore : Store Int32 Bytes)
    (liveTxs : Store Int32 (UnorderedMap Int32 Bytes)) (txId other : Int32) :
    keysOf ⟨kvStore, liveTxs, s.lockedKeys.erase txId⟩ other =
      if other = txId then [] else s.keysOf other := by
  rw [keysOf, UnorderedMap.find?_erase]
  split <;> rfl

/-! ## Calls -/

inductive Call where
  | put (key : Int32) (value : Bytes)
  | get (key : Int32)
  | txStart (txId : Int32)
  | txPut (txId key : Int32) (value : Bytes)
  | txGet (txId key : Int32)
  | txCommit (txId : Int32)
  | txAbort (txId : Int32)
  deriving DecidableEq, Repr

/-- What a method returns. -/
inductive Result where
  | done (ok : Bool)
  | found (value : Option Bytes)
  | read (ok : Bool) (value : Bytes)
  deriving DecidableEq, Repr

/-- A call in some state; none where it is undefined. -/
def call (iteration : Iteration (Int32 × Bytes)) (s : KvStore) : Call → Option (KvStore × Result)
  | .put key value => some ((s.put key value).map id .done)
  | .get key => some (s, .found (s.get key))
  | .txStart txId => some ((s.txStart txId).map id .done)
  | .txPut txId key value => some ((s.txPut txId key value).map id .done)
  | .txGet txId key => (s.txGet txId key).map fun (s, ok, value) => (s, .read ok value)
  | .txCommit txId => some ((s.txCommit iteration txId).map id .done)
  | .txAbort txId => some ((s.txAbort txId).map id .done)

/-- Everything that a call can do. -/
inductive Effect (s : KvStore) : Call → Result → KvStore → Prop
  | put (key : Int32) (value : Bytes) :
    Effect s (.put key value) (.done true) { s with kvStore := s.kvStore.put key value }
  | get (key : Int32) : Effect s (.get key) (.found (s.kvStore key)) s
  | started {txId : Int32} (fresh : s.liveTxs txId = none) :
    Effect s (.txStart txId) (.done true) { s with liveTxs := s.liveTxs.put txId ∅ }
  | notStarted {txId : Int32} (live : (s.liveTxs txId).isSome) :
    Effect s (.txStart txId) (.done false) s
  | buffered {txId : Int32} {txBuf : UnorderedMap Int32 Bytes} (key : Int32) (value : Bytes)
    (live : s.liveTxs txId = some txBuf) :
    Effect s (.txPut txId key value) (.done true)
      { s with liveTxs := s.liveTxs.put txId (txBuf.insertOrAssign key value) }
  | notBuffered {txId : Int32} (key : Int32) (value : Bytes) (unknown : s.liveTxs txId = none) :
    Effect s (.txPut txId key value) (.done false) s
  | read {txId key : Int32} {value : Bytes} (free : s.lockedByOther txId key = false)
    (stored : s.kvStore key = some value) :
    Effect s (.txGet txId key) (.read true value)
      ⟨s.kvStore, s.liveTxs, s.lockedKeys.insertOrAssign txId (s.keysOf txId ++ [key])⟩
  | refused {txId key : Int32} (locked : s.lockedByOther txId key = true) :
    Effect s (.txGet txId key) (.read false []) s
  | committed (txId : Int32) :
    Effect s (.txCommit txId) (.done true)
      ⟨overlay (s.curTx txId).find? s.kvStore, s.liveTxs.delete txId, s.lockedKeys.erase txId⟩
  | aborted (txId : Int32) :
    Effect s (.txAbort txId) (.done true)
      ⟨s.kvStore, s.liveTxs.delete txId, s.lockedKeys.erase txId⟩

theorem call_iff {iteration : Iteration (Int32 × Bytes)} {s t : KvStore} {c : Call} {r : Result} :
    s.call iteration c = some (t, r) ↔ Effect s c r t := by
  constructor
  · intro called
    cases c with
    | put key value =>
      cases called
      exact .put key value
    | get key =>
      cases called
      exact .get key
    | txStart txId =>
      simp only [call, txStart] at called
      split at called <;> cases called
      next live => exact .notStarted live
      next fresh => exact .started (Option.not_isSome_iff_eq_none.mp fresh)
    | txPut txId key value =>
      simp only [call, txPut] at called
      split at called <;> cases called
      next unknown => exact .notBuffered key value unknown
      next live => exact .buffered key value live
    | txGet txId key =>
      simp only [call, txGet] at called
      split at called
      next locked =>
        cases called
        exact .refused locked
      next free =>
        rw [Option.map_map] at called
        obtain ⟨value, stored, called⟩ := Option.map_eq_some_iff.mp called
        cases called
        exact .read (Bool.eq_false_iff.mpr free) stored
    | txCommit txId =>
      rw [call, txCommit_eq] at called
      cases called
      exact .committed txId
    | txAbort txId =>
      cases called
      exact .aborted txId
  · intro effect
    cases effect with
    | put key value => rfl
    | get key => rfl
    | started fresh => simp [call, txStart, fresh]
    | notStarted live => simp [call, txStart, live]
    | buffered key value live => simp [call, txPut, live]
    | notBuffered key value unknown => simp [call, txPut, unknown]
    | read free stored => simp [call, txGet, safeGet, free, stored]
    | refused locked => simp [call, txGet, locked]
    | committed txId =>
      rw [call, txCommit_eq]
      rfl
    | aborted txId => rfl

/-- `tx_get` is called on a stored key. -/
def Call.OnStored (s : KvStore) : Call → Prop
  | .txGet _ key => (s.kvStore key).isSome
  | _ => True

instance (s : KvStore) : DecidablePred (Call.OnStored s)
  | .txGet _ _ => instDecidableEqBool _ _
  | .put _ _ | .get _ | .txStart _ | .txPut _ _ _ | .txCommit _ | .txAbort _ => .isTrue trivial

theorem call_defined (iteration : Iteration (Int32 × Bytes)) {s : KvStore} {c : Call}
    (stored : c.OnStored s) : ∃ t r, s.call iteration c = some (t, r) := by
  cases c with
  | txGet txId key =>
    obtain ⟨value, stored⟩ := Option.isSome_iff_exists.mp stored
    cases locked : s.lockedByOther txId key with
    | true => exact ⟨_, _, call_iff.mpr (.refused locked)⟩
    | false => exact ⟨_, _, call_iff.mpr (.read locked stored)⟩
  | _ => exact ⟨_, _, rfl⟩

end KvStore

end CloudLab
