import CloudLab.KvStore.History
import CloudLab.KvStore.Locking
import CloudLab.KvStore.ReadLocks
import CloudLab.KvStore.Serializability
import CloudLab.Library.TwoPhase

/-!
# The methods of the store, statement by statement

The bodies of the methods with the mutexes they hold at each statement. `tx_get` copies the
characters of a value when `safe_get` has given back `db_mtx`, so that it is undefined if the value
is assigned in between. In the runs in which no copy does that, the threads get what calls that
happen at once would give them: `methods_linearizable`. `unlocked_invariants` is about all runs; in
the model a thread stops at a copy that is undefined.
-/
namespace CloudLab.KvStore

open Library

/-! ## The memory -/

structure Stored where
  kvStore : Store Int32 Bytes
  /-- How often the value of a key has been assigned. -/
  assigned : Int32 → Nat

def Stored.insertOrAssign (db : Stored) (key : Int32) (value : Bytes) : Stored where
  kvStore := db.kvStore.put key value
  assigned := Function.update db.assigned key (db.assigned key + 1)

/-- What each mutex protects. -/
abbrev Protected : Mutex → Type
  | .dbMtx => Stored
  | .txsMtx => Store Int32 (UnorderedMap Int32 Bytes)
  | .getsMtx => UnorderedMap Int32 (List Int32)

abbrev Method := Code Protected Result

namespace Method

/-! ## Methods -/

def put (key : Int32) (value : Bytes) : Method :=
  .lock .dbMtx <| .access .dbMtx (fun db => db.insertOrAssign key value) fun _ =>
    .unlock .dbMtx <| .ret (.done true)

def get (key : Int32) : Method :=
  .lock .dbMtx <| .access .dbMtx id fun db => .unlock .dbMtx <| .ret (.found (db.kvStore key))

def txStart (txId : Int32) : Method :=
  .lock .txsMtx <| .access .txsMtx id fun liveTxs =>
    if (liveTxs txId).isSome then .unlock .txsMtx <| .ret (.done false)
    else .access .txsMtx (fun liveTxs => liveTxs.put txId ∅) fun _ =>
      .unlock .txsMtx <| .ret (.done true)

def txPut (txId key : Int32) (value : Bytes) : Method :=
  .lock .txsMtx <| .access .txsMtx id fun liveTxs =>
    if (liveTxs txId).isNone then .unlock .txsMtx <| .ret (.done false)
    else .access .txsMtx
      (fun liveTxs => liveTxs.put txId (((liveTxs txId).getD ∅).insertOrAssign key value)) fun _ =>
        .unlock .txsMtx <| .ret (.done true)

/-- `safe_get`, and the `std::string` that is made of its view behind the lock. -/
def safeGet (key : Int32) (rest : Bytes → Method) : Method :=
  .lock .dbMtx <| .access .dbMtx id fun db =>
    match db.kvStore key with
    | none => .undefined
    | some view => .unlock .dbMtx <|
      .intact (fun memory => (memory .dbMtx).assigned key = db.assigned key) (rest view)

/-- The loop of `tx_get`. -/
def lockedByOther (lockedKeys : UnorderedMap Int32 (List Int32)) (txId key : Int32) : Bool :=
  lockedKeys.entries.any fun txLockedKeys => txLockedKeys.1 ≠ txId ∧ key ∈ txLockedKeys.2

def txGet (txId key : Int32) : Method :=
  .lock .getsMtx <| .access .getsMtx id fun lockedKeys =>
    if lockedByOther lockedKeys txId key then .unlock .getsMtx <| .ret (.read false [])
    else safeGet key fun retVal =>
      .access .getsMtx (fun lockedKeys =>
        lockedKeys.insertOrAssign txId ((lockedKeys.find? txId).getD [] ++ [key])) fun _ =>
          .unlock .getsMtx <| .ret (.read true retVal)

/-- The loop of `tx_commit`. -/
def unsafePuts (rest : Method) : List (Int32 × Bytes) → Method
  | [] => rest
  | update :: updates =>
    .access .dbMtx (fun db => db.insertOrAssign update.1 update.2) fun _ => unsafePuts rest updates

/-- `live_txs[tx_id]` makes an empty buffer where there is none. -/
def txCommit (iteration : Iteration (Int32 × Bytes)) (txId : Int32) : Method :=
  .lock .txsMtx <| .lock .dbMtx <|
    .access .txsMtx (fun liveTxs => liveTxs.put txId ((liveTxs txId).getD ∅)) fun liveTxs =>
      unsafePuts (.access .txsMtx (fun liveTxs => liveTxs.delete txId) fun _ =>
        .lock .getsMtx <| .access .getsMtx (fun lockedKeys => lockedKeys.erase txId) fun _ =>
          .unlock .getsMtx <| .unlock .dbMtx <| .unlock .txsMtx <| .ret (.done true))
        (iteration.order ((liveTxs txId).getD ∅).entries)

def txAbort (txId : Int32) : Method :=
  .lock .getsMtx <| .access .getsMtx (fun lockedKeys => lockedKeys.erase txId) fun _ =>
    .lock .txsMtx <| .access .txsMtx (fun liveTxs => liveTxs.delete txId) fun _ =>
      .unlock .txsMtx <| .unlock .getsMtx <| .ret (.done true)

def ofCall (iteration : Iteration (Int32 × Bytes)) : Call → Method
  | .put key value => put key value
  | .get key => get key
  | .txStart txId => txStart txId
  | .txPut txId key value => txPut txId key value
  | .txGet txId key => txGet txId key
  | .txCommit txId => txCommit iteration txId
  | .txAbort txId => txAbort txId

/-! ## Two phases -/

theorem twoPhase_unsafePuts {held : Set Mutex} (inside : .dbMtx ∈ held) {rest : Method}
    (twoPhase : rest.TwoPhase held) (updates : List (Int32 × Bytes)) :
    (unsafePuts rest updates).TwoPhase held := by
  induction updates with
  | nil => exact twoPhase
  | cons update updates ih => exact ⟨inside, fun _ => ih⟩

theorem twoPhase (iteration : Iteration (Int32 × Bytes)) (c : Call) :
    (ofCall iteration c).TwoPhase ∅ := by
  cases c with
  | put key value => simp [ofCall, put, Code.TwoPhase, Code.Shrinking]
  | get key => simp [ofCall, get, Code.TwoPhase, Code.Shrinking]
  | txStart txId =>
    refine ⟨by simp, by simp, fun liveTxs => ?_⟩
    dsimp only
    split <;> simp [Code.TwoPhase, Code.Shrinking]
  | txPut txId key value =>
    refine ⟨by simp, by simp, fun liveTxs => ?_⟩
    dsimp only
    split <;> simp [Code.TwoPhase, Code.Shrinking]
  | txGet txId key =>
    refine ⟨by simp, by simp, fun lockedKeys => ?_⟩
    dsimp only
    split
    next => simp [Code.TwoPhase, Code.Shrinking]
    next =>
      refine ⟨by simp, by simp, fun db => ?_⟩
      dsimp only
      split
      next => trivial
      next => simp [Code.TwoPhase, Code.Shrinking]
  | txCommit txId =>
    refine ⟨by simp, by simp, by simp, fun liveTxs => twoPhase_unsafePuts (by simp) ?_ _⟩
    simp [Code.TwoPhase, Code.Shrinking]
  | txAbort txId => simp [ofCall, txAbort, Code.TwoPhase, Code.Shrinking]

/-! ## Mutexes -/

theorem path_unsafePuts {rest : Method} {ops : List (LockOp Mutex)} {updates : List (Int32 × Bytes)}
    (path : (unsafePuts rest updates).Path ops) : rest.Path ops := by
  induction updates with
  | nil => exact path
  | cons update updates ih =>
    obtain ⟨_, path⟩ := path
    exact ih path

/-- Each way through a method locks and unlocks as one of the lists says. -/
theorem path_mem_methods {iteration : Iteration (Int32 × Bytes)} {c : Call} {ops : List (LockOp Mutex)}
    (path : (ofCall iteration c).Path ops) : ops ∈ methods := by
  cases c with
  | put key value =>
    obtain ⟨_, rfl, _, _, rfl, rfl⟩ := path
    decide
  | get key =>
    obtain ⟨_, rfl, _, _, rfl, rfl⟩ := path
    decide
  | txStart txId =>
    obtain ⟨_, rfl, liveTxs, path⟩ := path
    dsimp only at path
    split at path
    · obtain ⟨_, rfl, rfl⟩ := path
      decide
    · obtain ⟨_, _, rfl, rfl⟩ := path
      decide
  | txPut txId key value =>
    obtain ⟨_, rfl, liveTxs, path⟩ := path
    dsimp only at path
    split at path
    · obtain ⟨_, rfl, rfl⟩ := path
      decide
    · obtain ⟨_, _, rfl, rfl⟩ := path
      decide
  | txGet txId key =>
    obtain ⟨_, rfl, lockedKeys, path⟩ := path
    dsimp only at path
    split at path
    · obtain ⟨_, rfl, rfl⟩ := path
      decide
    · obtain ⟨_, rfl, db, path⟩ := path
      dsimp only at path
      split at path
      · cases path
      · obtain ⟨_, rfl, _, _, rfl, rfl⟩ := path
        decide
  | txCommit txId =>
    obtain ⟨_, rfl, _, rfl, _, path⟩ := path
    obtain ⟨_, _, rfl, _, _, rfl, _, rfl, _, rfl, rfl⟩ := path_unsafePuts path
    decide
  | txAbort txId =>
    obtain ⟨_, rfl, _, _, rfl, _, _, rfl, _, rfl, rfl⟩ := path
    decide

/-! ## One call alone -/

theorem exec_unsafePuts (rest : Method) (updates : List (Int32 × Bytes)) (memory : ∀ m, Protected m) :
    (unsafePuts rest updates).exec memory = rest.exec (Function.update memory .dbMtx
      (updates.foldl (fun db update => db.insertOrAssign update.1 update.2) (memory .dbMtx))) := by
  induction updates generalizing memory with
  | nil => rw [unsafePuts, List.foldl_nil, Function.update_eq_self]
  | cons update updates ih =>
    rw [unsafePuts, Code.exec, ih, Function.update_idem, Function.update_self, List.foldl_cons]

theorem kvStore_foldl (updates : List (Int32 × Bytes)) (db : Stored) :
    (updates.foldl (fun db update => db.insertOrAssign update.1 update.2) db).kvStore =
      updates.foldl (fun kvStore update => kvStore.put update.1 update.2) db.kvStore := by
  induction updates generalizing db with
  | nil => rfl
  | cons update updates ih => exact ih _

end Method

/-- What the memory holds, without the counters. -/
def view (memory : ∀ m, Protected m) : KvStore where
  kvStore := (memory .dbMtx).kvStore
  liveTxs := memory .txsMtx
  lockedKeys := memory .getsMtx

/-- Alone, a method does what the call does at once. -/
theorem Method.exec (iteration : Iteration (Int32 × Bytes)) (c : Call) (memory : ∀ m, Protected m) :
    ((ofCall iteration c).exec memory).map (fun ended => (view ended.1, ended.2)) =
      (view memory).call iteration c := by
  cases c with
  | put key value => rfl
  | get key => rfl
  | txStart txId =>
    simp only [ofCall, txStart, Code.exec, call, KvStore.txStart, view]
    split
    next live => simp [Code.exec, live]
    next fresh => simp [Code.exec, fresh]
  | txPut txId key value =>
    simp only [ofCall, txPut, Code.exec, call, KvStore.txPut, view]
    cases buffer : memory .txsMtx txId with
    | none => simp [Code.exec]
    | some txBuf => simp [Code.exec, buffer]
  | txGet txId key =>
    have loop : (view memory).lockedByOther txId key = lockedByOther (memory .getsMtx) txId key := rfl
    simp only [ofCall, txGet, safeGet, Code.exec, call, KvStore.txGet, loop]
    split
    next locked => simp [Code.exec]
    next free =>
      cases stored : (memory .dbMtx).kvStore key with
      | none => simp [Code.exec, KvStore.safeGet, view, stored]
      | some value => simp [Code.exec, KvStore.safeGet, keysOf, view, stored]
  | txCommit txId =>
    simp only [ofCall, txCommit, Code.exec, exec_unsafePuts, call, KvStore.txCommit, curTx, view]
    simp [kvStore_foldl, delete_put]
  | txAbort txId => rfl

def object (iteration : Iteration (Int32 × Bytes)) : Object Protected KvStore Call Result where
  call s c := s.call iteration c
  method := Method.ofCall iteration
  view := view
  twoPhase := Method.twoPhase iteration
  exec := Method.exec iteration

/-- Threads that call the methods, one statement at a time. -/
abbrev interleaved (T : Type) [DecidableEq T] (iteration : Iteration (Int32 × Bytes))
    (memory : ∀ m, Protected m) :=
  (object iteration).concurrent T memory

/-- Threads whose calls happen at once. -/
abbrev atomic (T : Type) [DecidableEq T] (iteration : Iteration (Int32 × Bytes)) (store : KvStore) :=
  Object.atomic T (fun (s : KvStore) (c : Call) => s.call iteration c) store

def empty : ∀ m, Protected m
  | .dbMtx => ⟨Store.empty, fun _ => 0⟩
  | .txsMtx => Store.empty
  | .getsMtx => ∅

section Runs

variable {T : Type} [DecidableEq T] {s : Object.State Protected T Call Result}

/-- Whatever statements of the threads run in whatever order, as long as no `tx_get` copies a value
that has been assigned since `safe_get` looked it up: what they call and what they get back could
come from calls that happen at once, and so could the store when all have returned. Then a thread
stops nowhere but in the `tx_get` of a key that is not stored. -/
theorem methods_linearizable (iteration : Iteration (Int32 × Bytes)) {memory : ∀ m, Protected m}
    (reachable : (interleaved T iteration memory).Reachable Object.State.Intact s) :
    ∃ a, (atomic T iteration (view memory)).Reachable System.Always a ∧ a.history = s.history ∧
      (s.Quiet → a.object = view s.memory) ∧
      ∀ x, s.running x = some .undefined →
        ∃ c : Call, a.pending x = .called c ∧ ¬c.OnStored a.object := by
  obtain ⟨a, after, reached, history, same, quiet, gone⟩ := Object.intact_linearizable reachable
  refine ⟨a, reached, history, fun none => by rw [same, quiet none]; rfl, fun x stopped => ?_⟩
  obtain ⟨c, pending, undefined⟩ := gone x stopped
  refine ⟨c, pending, fun stored => ?_⟩
  obtain ⟨t, r, defined⟩ := call_defined iteration stored
  cases undefined.symm.trans defined

/-- Two calls whose statements alternate. -/
def alternating : List (Object.Action Bool Call) :=
  [.call false (.put 1 [1]), .call true (.txPut 7 1 [2]), .step false, .step true, .step false,
    .step true, .step false, .step true, .step true, .step false]

theorem methods_linearizable_alternating : ∃ s : Object.State Protected Bool Call Result,
    s.history = [.called false (.put 1 [1]), .called true (.txPut 7 1 [2]),
      .returned true (.done false), .returned false (.done true)] ∧
    ∃ a, (atomic Bool .asListed (view empty)).Reachable System.Always a ∧ a.history = s.history ∧
      (s.Quiet → a.object = view s.memory) ∧
      ∀ x, s.running x = some .undefined →
        ∃ c : Call, a.pending x = .called c ∧ ¬c.OnStored a.object := by
  have history : (((interleaved Bool .asListed empty).guarded Object.State.Intact).run
      { memory := empty } alternating).map Object.State.history =
        some [.called false (.put 1 [1]), .called true (.txPut 7 1 [2]),
          .returned true (.done false), .returned false (.done true)] := by decide
  obtain ⟨s, ran, same⟩ := Option.map_eq_some_iff.mp history
  exact ⟨s, same, methods_linearizable .asListed ((System.Reachable.start rfl).guarded ran)⟩

/-- The value is put again between the lookup and the copy of `tx_get`. -/
example : ∃ s, (interleaved Bool .asListed empty).run { memory := empty }
    [.call true (.put 1 [1]), .step true, .step true, .step true, .step true,
      .call false (.txGet 7 1), .step false, .step false, .step false, .step false, .step false,
      .call true (.put 1 [2]), .step true, .step true, .step true, .step true, .step false] = some s ∧
    s.running false = some .undefined := ⟨_, rfl, rfl⟩

/-- The calls that have taken effect, the latest first. -/
def events (log : List (T × Call × Result)) : List Event :=
  (log.map fun entry => ⟨entry.2.1, entry.2.2⟩).reverse

/-- While nobody holds `db_mtx`, the store holds what was put directly and what was committed; and
while nobody holds `gets_mtx`, no two transactions hold a key. In any run: a `tx_get` whose copy is
undefined stops there, with `gets_mtx`, and the others go on. -/
theorem unlocked_invariants (iteration : Iteration (Int32 × Bytes))
    (reachable : (interleaved T iteration empty).Reachable System.Always s) :
    ∃ a, (atomic T iteration init).Reachable System.Always a ∧ a.history = s.history ∧
      (s.owner .dbMtx = none → (s.memory .dbMtx).kvStore = contents (events a.log)) ∧
      (s.owner .getsMtx = none → Exclusive (view s.memory)) := by
  obtain ⟨a, after, reached, history, same, free, _⟩ := Object.linearizable reachable
  have invariant : Described (events a.log) a.object ∧ Exclusive a.object := by
    refine Object.atomic_invariant (I := fun o log => Described (events log) o ∧ Exclusive o)
      ⟨described_init, exclusive_init⟩ (fun o log x c o' r before called => ⟨?_, ?_⟩) reached
    · rw [events, List.map_append, List.reverse_append]
      exact before.1.call called
    · exact before.2.effect (call_iff.mp called)
  rw [same] at invariant
  refine ⟨a, reached, history, fun unlocked => ?_, fun unlocked => ?_⟩
  · rw [free .dbMtx unlocked]
    exact invariant.1.stored
  · intro t u key first second
    have found : s.memory .getsMtx = after .getsMtx := free .getsMtx unlocked
    simp only [keysOf, view, found] at first second
    exact invariant.2 t u key first second

theorem unlocked_invariants_alternating : ∃ s : Object.State Protected Bool Call Result,
    s.owner .dbMtx = none ∧ ∃ a, (atomic Bool .asListed init).Reachable System.Always a ∧
      a.history = s.history ∧
      (s.owner .dbMtx = none → (s.memory .dbMtx).kvStore = contents (events a.log)) ∧
      (s.owner .getsMtx = none → Exclusive (view s.memory)) := by
  have owner : ((interleaved Bool .asListed empty).run { memory := empty } alternating).map
      (fun s => s.owner .dbMtx) = some none := by decide
  obtain ⟨s, ran, same⟩ := Option.map_eq_some_iff.mp owner
  exact ⟨s, same, unlocked_invariants .asListed ((System.Reachable.start rfl).run ran)⟩

end Runs

end CloudLab.KvStore
