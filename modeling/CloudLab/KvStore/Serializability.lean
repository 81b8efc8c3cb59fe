import CloudLab.KvStore.Methods
import CloudLab.Library.Transition

/-!
# Interleaved transactions

Transactions that are started, read and write, and commit, call by call in any order. A read
sees what has been committed, and locks its key; nobody looks at the locks when a transaction
commits. So two transactions may each overwrite what the other has read:
`not_serializable_crossed`. As long as no commit writes a key that another transaction has locked,
the order of the commits is an equivalent serial order: `serializable`.
-/
namespace CloudLab.KvStore

open Library

/-! ## Transactions -/

inductive TxOp where
  | get (key : Int32)
  | put (key : Int32) (value : Bytes)
  deriving DecidableEq, Repr

def TxOp.call (txId : Int32) : TxOp → Call
  | .get key => .txGet txId key
  | .put key value => .txPut txId key value

structure Txn where
  txId : Int32
  ops : List TxOp

def Txn.calls (txn : Txn) : List Call :=
  .txStart txn.txId :: txn.ops.map (TxOp.call txn.txId) ++ [.txCommit txn.txId]

def Result.Succeeds : Result → Prop
  | .done ok | .read ok _ => ok = true
  | .found value => value.isSome

instance : DecidablePred Result.Succeeds
  | .done _ | .read _ _ | .found _ => instDecidableEqBool _ _

/-! ## Interleavings -/

/-- The calls that the transactions have yet to make, and what they have been told so far. -/
structure Progress (ι : Type) where
  store : KvStore
  todo : ι → List Call
  results : ι → List Result

variable {ι : Type} [DecidableEq ι] (iteration : Iteration (Int32 × Bytes)) (txns : ι → Txn)
  (db : Store Int32 Bytes)

/-- The next call of a transaction; every call succeeds. -/
def Progress.next (p : Progress ι) (i : ι) : Option (Progress ι) :=
  match p.todo i with
  | [] => none
  | c :: rest => (p.store.call iteration c).bind fun (store, r) =>
    if r.Succeeds then
      some ⟨store, Function.update p.todo i rest, Function.update p.results i (p.results i ++ [r])⟩
    else none

omit [DecidableEq ι] in
def start : Progress ι where
  store := ⟨db, .empty, ∅⟩
  todo i := (txns i).calls
  results _ := []

def interleaving : System (Progress ι) ι where
  init p := p = start txns db
  next := Progress.next iteration

omit [DecidableEq ι] in
/-- The transactions one after another. -/
def serialSchedule (order : List ι) : List ι :=
  order.flatMap fun i => List.replicate (txns i).calls.length i

/-- Some serial order returns the same to every call, and leaves the same store. -/
def Serializable (p : Progress ι) : Prop :=
  ∃ order : List ι, order.Nodup ∧ (∀ i, i ∈ order) ∧
    ∃ q, (interleaving iteration txns db).run (start txns db) (serialSchedule txns order) = some q ∧
      q.results = p.results ∧ q.store.kvStore = p.store.kvStore

omit [DecidableEq ι] in
/-- A transaction that commits writes no key that another one has locked. -/
def RespectsLocks (p : Progress ι) (i : ι) : Prop :=
  match p.todo i with
  | .txCommit txId :: _ =>
    ∀ update ∈ (p.store.curTx txId).entries, p.store.lockedByOther txId update.1 = false
  | _ => True

instance (p : Progress ι) : DecidablePred (RespectsLocks p) := fun i => by
  unfold RespectsLocks
  split <;> infer_instance

/-! ## The calls of one transaction -/

/-- What an operation returns that is not refused. -/
def TxOp.result (db : Store Int32 Bytes) : TxOp → Option Result
  | .get key => (db key).map (Result.read true)
  | .put _ _ => some (.done true)

def TxOp.buffer (txBuf : UnorderedMap Int32 Bytes) : TxOp → UnorderedMap Int32 Bytes
  | .get _ => txBuf
  | .put key value => txBuf.insertOrAssign key value

def bufferOf (ops : List TxOp) : UnorderedMap Int32 Bytes := ops.foldl TxOp.buffer ∅

theorem bufferOf_append (ops : List TxOp) (op : TxOp) :
    bufferOf (ops ++ [op]) = op.buffer (bufferOf ops) := by
  rw [bufferOf, List.foldl_append]
  rfl

/-- What a successful operation of a live transaction changes. -/
structure Operated (txId : Int32) (op : TxOp) (txBuf : UnorderedMap Int32 Bytes) (s t : KvStore) :
    Prop where
  kvStore : t.kvStore = s.kvStore
  liveTxs : t.liveTxs = s.liveTxs.put txId (op.buffer txBuf)
  others : ∀ other, other ≠ txId → t.keysOf other = s.keysOf other
  keeps : ∀ key ∈ s.keysOf txId, key ∈ t.keysOf txId
  locks : ∀ key, op = .get key → key ∈ t.keysOf txId

theorem Effect.operated {s t : KvStore} {txId : Int32} {op : TxOp} {r : Result}
    {txBuf : UnorderedMap Int32 Bytes} (effect : Effect s (op.call txId) r t)
    (live : s.liveTxs txId = some txBuf) (ok : r.Succeeds) :
    op.result s.kvStore = some r ∧ Operated txId op txBuf s t := by
  cases op with
  | get key =>
    cases effect with
    | refused => cases ok
    | read free stored =>
      refine ⟨by simp [TxOp.result, stored], rfl, ?_, ?_, ?_, ?_⟩
      · exact (Function.update_eq_self_iff.mpr live.symm).symm
      · intro other different
        rw [keysOf_insertOrAssign, if_neg different]
      · intro held member
        rw [keysOf_insertOrAssign, if_pos rfl]
        exact List.mem_append_left _ member
      · rintro _ ⟨⟩
        rw [keysOf_insertOrAssign, if_pos rfl]
        simp
  | put key value =>
    cases effect with
    | notBuffered => cases ok
    | buffered key value found =>
      obtain rfl := Option.some.inj (live.symm.trans found)
      exact ⟨rfl, rfl, rfl, fun _ _ => rfl, fun _ member => member, fun _ same => by cases same⟩

/-- An operation succeeds unless it reads a key that is not stored or that another one has. -/
theorem operation_succeeds {s : KvStore} {txId : Int32} {op : TxOp} {r : Result}
    {txBuf : UnorderedMap Int32 Bytes} (live : s.liveTxs txId = some txBuf)
    (stored : op.result s.kvStore = some r)
    (free : ∀ key, s.lockedByOther txId key = false) :
    ∃ t, Effect s (op.call txId) r t ∧ r.Succeeds := by
  cases op with
  | get key =>
    obtain ⟨value, found, rfl⟩ := Option.map_eq_some_iff.mp stored
    exact ⟨_, .read (free key) found, rfl⟩
  | put key value =>
    obtain rfl := Option.some.inj stored
    exact ⟨_, .buffered key value live, rfl⟩

variable {iteration txns db}

theorem next_iff {p q : Progress ι} {i : ι} :
    p.next iteration i = some q ↔ ∃ c rest r store, p.todo i = c :: rest ∧
      Effect p.store c r store ∧ r.Succeeds ∧
        q = ⟨store, Function.update p.todo i rest, Function.update p.results i (p.results i ++ [r])⟩ := by
  rw [Progress.next]
  split
  next nothing => simp [nothing]
  next c rest todo =>
    simp only [todo, Option.bind_eq_some_iff, Option.ite_none_right_eq_some, Option.some.injEq,
      Prod.exists, call_iff, List.cons.injEq]
    constructor
    · rintro ⟨store, r, effect, ok, rfl⟩
      exact ⟨c, rest, r, store, ⟨rfl, rfl⟩, effect, ok, rfl⟩
    · rintro ⟨_, _, r, store, ⟨rfl, rfl⟩, effect, ok, rfl⟩
      exact ⟨store, r, effect, ok, rfl⟩

/-! ## A transaction between its start and its commit -/

/-- The transaction has made no call. -/
structure Idle (txn : Txn) (p : Progress ι) (i : ι) : Prop where
  todo : p.todo i = txn.calls
  results : p.results i = []

/-- The transaction has started, and done the operations of `past`. -/
structure Running (txn : Txn) (p : Progress ι) (i : ι) (past rest : List TxOp) : Prop where
  ops : txn.ops = past ++ rest
  todo : p.todo i = rest.map (TxOp.call txn.txId) ++ [.txCommit txn.txId]
  live : p.store.liveTxs txn.txId = some (bufferOf past)
  results : (p.results i).map some = some (.done true) :: past.map (TxOp.result p.store.kvStore)
  locked : ∀ key, .get key ∈ past → key ∈ p.store.keysOf txn.txId

section Steps

variable {p q : Progress ι} {i j : ι} {txn : Txn} {past rest : List TxOp}

omit [DecidableEq ι]

theorem Running.not_idle (running : Running txn p i past rest) : ¬Idle txn p i := by
  intro idle
  have same := running.todo.symm.trans idle.todo
  rcases rest with _ | ⟨op, rest⟩
  · cases same
  · cases op <;> cases same

theorem Running.todo_ne_nil (running : Running txn p i past rest) : p.todo i ≠ [] := by
  rw [running.todo]
  simp

/-- What the reads have returned is still so while the keys keep their values. -/
theorem results_congr {db db' : Store Int32 Bytes} (ops : List TxOp)
    (same : ∀ key, .get key ∈ ops → db' key = db key) :
    ops.map (TxOp.result db') = ops.map (TxOp.result db) := by
  refine List.map_congr_left fun op member => ?_
  cases op with
  | get key => rw [TxOp.result, TxOp.result, same key member]
  | put key value => rfl

theorem Running.frame (running : Running txn p i past rest) (todo : q.todo i = p.todo i)
    (results : q.results i = p.results i)
    (live : q.store.liveTxs txn.txId = p.store.liveTxs txn.txId)
    (locked : ∀ key ∈ p.store.keysOf txn.txId, key ∈ q.store.keysOf txn.txId)
    (same : ∀ key ∈ p.store.keysOf txn.txId, q.store.kvStore key = p.store.kvStore key) :
    Running txn q i past rest where
  ops := running.ops
  todo := todo.trans running.todo
  live := live.trans running.live
  results := by
    rw [results, running.results, results_congr past fun key member =>
      same key (running.locked key member)]
  locked key member := locked key (running.locked key member)

variable [DecidableEq ι]

/-- The others have neither called anything nor been told anything. -/
theorem next_others (taken : p.next iteration i = some q) (other : j ≠ i) :
    q.todo j = p.todo j ∧ q.results j = p.results j := by
  obtain ⟨c, rest, r, store, todo, effect, ok, rfl⟩ := next_iff.mp taken
  exact ⟨Function.update_of_ne other _ _, Function.update_of_ne other _ _⟩

theorem Idle.next (idle : Idle txn p i) (taken : p.next iteration i = some q) :
    p.store.liveTxs txn.txId = none ∧
      q.store = ⟨p.store.kvStore, p.store.liveTxs.put txn.txId ∅, p.store.lockedKeys⟩ ∧
      Running txn q i [] txn.ops := by
  obtain ⟨c, rest, r, store, todo, effect, ok, rfl⟩ := next_iff.mp taken
  rw [idle.todo] at todo
  cases todo
  cases effect with
  | notStarted => cases ok
  | started fresh =>
    refine ⟨fresh, rfl, rfl, ?_, ?_, ?_, ?_⟩
    · exact Function.update_self _ _ _
    · exact Store.put_self _ _ _
    · simp [idle.results]
    · intro key member
      cases member

theorem Running.next {op : TxOp} (running : Running txn p i past (op :: rest))
    (taken : p.next iteration i = some q) :
    Operated txn.txId op (bufferOf past) p.store q.store ∧ Running txn q i (past ++ [op]) rest := by
  obtain ⟨c, todo, r, store, now, effect, ok, rfl⟩ := next_iff.mp taken
  rw [running.todo] at now
  cases now
  obtain ⟨result, operated⟩ := effect.operated running.live ok
  refine ⟨operated, ?_, ?_, ?_, ?_, ?_⟩
  · rw [running.ops, List.append_assoc]
    rfl
  · exact Function.update_self _ _ _
  · rw [operated.liveTxs, Store.put_self, bufferOf_append]
  · rw [operated.kvStore]
    simp [running.results, result]
  · intro key member
    rcases List.mem_append.mp member with member | member
    · exact operated.keeps key (running.locked key member)
    · exact operated.locks key (List.mem_singleton.mp member).symm

theorem Running.commit (running : Running txn p i past []) (taken : p.next iteration i = some q) :
    q.store = ⟨overlay (bufferOf txn.ops).find? p.store.kvStore, p.store.liveTxs.delete txn.txId,
        p.store.lockedKeys.erase txn.txId⟩ ∧
      q.todo i = [] ∧
      (q.results i).map some =
        some (.done true) :: txn.ops.map (TxOp.result p.store.kvStore) ++ [some (.done true)] := by
  obtain ⟨c, todo, r, store, now, effect, ok, rfl⟩ := next_iff.mp taken
  rw [running.todo] at now
  cases now
  cases effect with
  | committed =>
    have ops : txn.ops = past := running.ops.trans (List.append_nil past)
    refine ⟨?_, Function.update_self _ _ _, ?_⟩
    · simp only [curTx, running.live, Option.getD_some, ops]
    · simp only [Function.update_self, List.map_append, running.results, ops]
      rfl

end Steps

/-! ## A transaction on its own -/

/-- Between transactions: nobody is live, and no key is locked. -/
structure Quiet (s : KvStore) : Prop where
  live : s.liveTxs = Store.empty
  locks : ∀ txId, s.keysOf txId = []

/-- A transaction that runs alone; `q` is where it was started. -/
structure Solo (txn : Txn) (q p : Progress ι) (i : ι) (past rest : List TxOp) : Prop where
  running : Running txn p i past rest
  live : p.store.liveTxs.delete txn.txId = Store.empty
  locks : ∀ other, other ≠ txn.txId → p.store.keysOf other = []
  kvStore : p.store.kvStore = q.store.kvStore
  others : ∀ j, j ≠ i → p.todo j = q.todo j ∧ p.results j = q.results j

omit [DecidableEq ι] in
theorem free_of_locks {s : KvStore} {txId : Int32}
    (locks : ∀ other, other ≠ txId → s.keysOf other = []) (key : Int32) :
    s.lockedByOther txId key = false := by
  rw [Bool.eq_false_iff, Ne, lockedByOther_iff]
  rintro ⟨other, different, held⟩
  rw [locks other different] at held
  cases held

section Alone

variable {p q : Progress ι} {i : ι} {txn : Txn} {past rest : List TxOp}
  (iteration : Iteration (Int32 × Bytes))

theorem delete_put {K V : Type} [DecidableEq K] (db : Store K V) (k : K) (v : V) :
    (db.put k v).delete k = db.delete k := Function.update_idem _ _ _

theorem Solo.start (quiet : Quiet q.store) (idle : Idle txn q i) :
    ∃ p, q.next iteration i = some p ∧ Solo txn q p i [] txn.ops := by
  have fresh : q.store.liveTxs txn.txId = none := by rw [quiet.live, Store.empty_apply]
  obtain ⟨p, taken⟩ : ∃ p, q.next iteration i = some p :=
    ⟨_, next_iff.mpr ⟨_, _, _, _, idle.todo, .started fresh, rfl, rfl⟩⟩
  obtain ⟨_, store, running⟩ := idle.next taken
  refine ⟨p, taken, running, ?_, ?_, by rw [store], fun j other => next_others taken other⟩
  · rw [store, delete_put, quiet.live]
    exact Function.update_eq_self _ _
  · intro other _
    rw [store]
    exact quiet.locks other

theorem Solo.next {op : TxOp} (solo : Solo txn q p i past (op :: rest))
    (defined : (op.result q.store.kvStore).isSome) :
    ∃ p', p.next iteration i = some p' ∧ Solo txn q p' i (past ++ [op]) rest := by
  obtain ⟨r, stored⟩ := Option.isSome_iff_exists.mp defined
  rw [← solo.kvStore] at stored
  obtain ⟨store, effect, ok⟩ :=
    operation_succeeds solo.running.live stored (free_of_locks solo.locks)
  obtain ⟨p', taken⟩ : ∃ p', p.next iteration i = some p' :=
    ⟨_, next_iff.mpr ⟨_, _, _, _, solo.running.todo, effect, ok, rfl⟩⟩
  obtain ⟨operated, running⟩ := solo.running.next taken
  refine ⟨p', taken, running, ?_, ?_, operated.kvStore.trans solo.kvStore, fun j other => ?_⟩
  · rw [operated.liveTxs, delete_put, solo.live]
  · intro other different
    rw [operated.others other different, solo.locks other different]
  · obtain ⟨todo, results⟩ := next_others taken other
    exact ⟨todo.trans (solo.others j other).1, results.trans (solo.others j other).2⟩

theorem Solo.run (solo : Solo txn q p i past rest)
    (defined : ∀ op ∈ rest, (op.result q.store.kvStore).isSome) :
    ∃ p', (List.replicate rest.length i).foldlM (Progress.next iteration) p = some p' ∧
      Solo txn q p' i txn.ops [] := by
  induction rest generalizing p past with
  | nil =>
    have ops : txn.ops = past := solo.running.ops.trans (List.append_nil past)
    exact ⟨p, rfl, ops ▸ solo⟩
  | cons op rest ih =>
    obtain ⟨p', taken, solo⟩ := solo.next iteration (defined op (by simp))
    obtain ⟨p'', ran, solo⟩ := ih solo fun op member => defined op (by simp [member])
    refine ⟨p'', ?_, solo⟩
    rw [List.length_cons, List.replicate_succ, List.foldlM_cons, taken]
    exact ran

/-- A transaction on its own reads and writes on what is stored when it starts. -/
theorem run_alone (quiet : Quiet q.store) (idle : Idle txn q i)
    (defined : ∀ op ∈ txn.ops, (op.result q.store.kvStore).isSome) :
    ∃ p, (List.replicate txn.calls.length i).foldlM (Progress.next iteration) q = some p ∧
      Quiet p.store ∧ p.store.kvStore = overlay (bufferOf txn.ops).find? q.store.kvStore ∧
      p.todo i = [] ∧
      (p.results i).map some =
        some (.done true) :: txn.ops.map (TxOp.result q.store.kvStore) ++ [some (.done true)] ∧
      ∀ j, j ≠ i → p.todo j = q.todo j ∧ p.results j = q.results j := by
  obtain ⟨p, started, solo⟩ := Solo.start iteration quiet idle
  obtain ⟨p', ran, solo⟩ := solo.run iteration defined
  obtain ⟨last, taken⟩ : ∃ last, p'.next iteration i = some last :=
    ⟨_, next_iff.mpr ⟨_, _, _, _, solo.running.todo, .committed txn.txId, rfl, rfl⟩⟩
  obtain ⟨store, todo, results⟩ := solo.running.commit taken
  rw [solo.kvStore] at store results
  refine ⟨last, ?_, ⟨?_, ?_⟩, by rw [store], todo, results, ?_⟩
  · have length : txn.calls.length = 1 + txn.ops.length + 1 := by
      simp [Txn.calls]
      omega
    rw [length, List.replicate_add, List.replicate_add, List.foldlM_append, List.foldlM_append]
    simp [started, ran, taken]
  · rw [store]
    exact solo.live
  · intro other
    rw [store, keysOf_erase]
    split
    · rfl
    next different => exact solo.locks other different
  · intro j other
    obtain ⟨todo, results⟩ := next_others taken other
    exact ⟨todo.trans (solo.others j other).1, results.trans (solo.others j other).2⟩

end Alone

/-! ## Interleaved runs -/

omit [DecidableEq ι] in
def IsRunning (txns : ι → Txn) (p : Progress ι) (i : ι) : Prop :=
  ∃ past rest, Running (txns i) p i past rest

variable (iteration txns db)

/-- The transactions that have committed, in that order, lead to the same store. -/
structure Committed (order : List ι) (p : Progress ι) : Prop where
  nodup : order.Nodup
  finished : ∀ i ∈ order, p.todo i = []
  others : ∀ i, i ∉ order → Idle (txns i) p i ∨ IsRunning txns p i
  ids : ∀ i j, IsRunning txns p i → IsRunning txns p j → (txns i).txId = (txns j).txId → i = j
  serial : ∃ q, (interleaving iteration txns db).run (start txns db) (serialSchedule txns order) =
      some q ∧ Quiet q.store ∧ q.store.kvStore = p.store.kvStore ∧
    (∀ i ∈ order, q.results i = p.results i) ∧ ∀ i, i ∉ order → Idle (txns i) q i

variable {iteration txns db}

section Invariant

variable {p q : Progress ι} {i j : ι} {order : List ι}

theorem Committed.start : Committed iteration txns db [] (start txns db) where
  nodup := .nil
  finished _ member := by cases member
  others i _ := .inl ⟨rfl, rfl⟩
  ids i j runs := by
    obtain ⟨past, rest, running⟩ := runs
    exact absurd ⟨rfl, rfl⟩ running.not_idle
  serial := by
    refine ⟨_, rfl, ⟨rfl, fun _ => rfl⟩, rfl, ?_, fun i _ => ⟨rfl, rfl⟩⟩
    intro i member
    cases member

theorem Committed.not_mem (committed : Committed iteration txns db order p)
    (taken : p.next iteration i = some q) : i ∉ order := by
  intro member
  obtain ⟨c, rest, r, store, todo, _⟩ := next_iff.mp taken
  rw [committed.finished i member] at todo
  cases todo

omit [DecidableEq ι] in
theorem Idle.frame {txn : Txn} (idle : Idle txn p i) (todo : q.todo i = p.todo i)
    (results : q.results i = p.results i) : Idle txn q i :=
  ⟨todo.trans idle.todo, results.trans idle.results⟩

/-- Another transaction that is running has been running before. -/
theorem Committed.running_before (committed : Committed iteration txns db order p)
    (taken : p.next iteration i = some q) (other : j ≠ i) (runs : IsRunning txns q j) :
    IsRunning txns p j := by
  obtain ⟨past, rest, running⟩ := runs
  obtain ⟨todo, results⟩ := next_others taken other
  by_cases member : j ∈ order
  · exact absurd (todo.trans (committed.finished j member)) running.todo_ne_nil
  · rcases committed.others j member with idle | runs
    · exact absurd (idle.frame todo results) running.not_idle
    · exact runs

/-- What the store has to keep for the other transactions. -/
structure Keeps (txns : ι → Txn) (i : ι) (s t : KvStore) : Prop where
  live : ∀ other, other ≠ (txns i).txId → t.liveTxs other = s.liveTxs other
  locked : ∀ other, other ≠ (txns i).txId → t.keysOf other = s.keysOf other
  same : ∀ other, other ≠ (txns i).txId → ∀ key ∈ s.keysOf other, t.kvStore key = s.kvStore key

theorem Committed.others_next (committed : Committed iteration txns db order p)
    (taken : p.next iteration i = some q) (keeps : Keeps txns i p.store q.store)
    (apart : ∀ j, j ≠ i → IsRunning txns p j → (txns j).txId ≠ (txns i).txId) (other : j ≠ i)
    (member : j ∉ order) : Idle (txns j) q j ∨ IsRunning txns q j := by
  obtain ⟨todo, results⟩ := next_others taken other
  rcases committed.others j member with idle | ⟨past, rest, running⟩
  · exact .inl (idle.frame todo results)
  · have different := apart j other ⟨past, rest, running⟩
    refine .inr ⟨past, rest, running.frame todo results (keeps.live _ different) ?_
      (keeps.same _ different)⟩
    intro key held
    rwa [keeps.locked _ different]

/-- The identifiers stay apart whatever the transaction that made the call is doing now. -/
theorem Committed.ids_next (committed : Committed iteration txns db order p)
    (taken : p.next iteration i = some q)
    (apart : ∀ j, j ≠ i → IsRunning txns p j → (txns j).txId ≠ (txns i).txId) (j k : ι)
    (first : IsRunning txns q j) (second : IsRunning txns q k)
    (same : (txns j).txId = (txns k).txId) : j = k := by
  by_cases own : j = i
  · by_contra different
    subst own
    exact apart k (Ne.symm different)
      (committed.running_before taken (Ne.symm different) second) same.symm
  · by_cases second_own : k = i
    · subst second_own
      exact absurd same (apart j own (committed.running_before taken own first))
    · exact committed.ids j k (committed.running_before taken own first)
        (committed.running_before taken second_own second) same

/-- A call before the commit. -/
theorem Committed.stay (committed : Committed iteration txns db order p)
    (taken : p.next iteration i = some q) (keeps : Keeps txns i p.store q.store)
    (apart : ∀ j, j ≠ i → IsRunning txns p j → (txns j).txId ≠ (txns i).txId)
    (runs : IsRunning txns q i) (same : q.store.kvStore = p.store.kvStore) :
    Committed iteration txns db order q := by
  have listed : ∀ j ∈ order, j ≠ i := fun j member own =>
    committed.not_mem taken (own ▸ member)
  refine ⟨committed.nodup, ?_, ?_, committed.ids_next taken apart, ?_⟩
  · intro j member
    rw [(next_others taken (listed j member)).1, committed.finished j member]
  · intro j member
    by_cases own : j = i
    · exact .inr (own ▸ runs)
    · exact committed.others_next taken keeps apart own member
  · obtain ⟨alone, ran, quiet, store, results, idle⟩ := committed.serial
    refine ⟨alone, ran, quiet, store.trans same.symm, ?_, idle⟩
    intro j member
    rw [(next_others taken (listed j member)).2, results j member]

omit [DecidableEq ι] in
/-- Every operation has a result on its own where it has had one among the others. -/
theorem Running.defined {txn : Txn} (running : Running txn p i txn.ops []) :
    ∀ op ∈ txn.ops, (op.result p.store.kvStore).isSome := by
  intro op member
  have listed : op.result p.store.kvStore ∈ (p.results i).map some := by
    rw [running.results]
    exact List.mem_cons_of_mem _ (List.mem_map.mpr ⟨op, member, rfl⟩)
  obtain ⟨r, _, same⟩ := List.mem_map.mp listed
  rw [← same, Option.isSome_some]

omit [DecidableEq ι] in
theorem serialSchedule_append (order : List ι) (i : ι) :
    serialSchedule txns (order ++ [i]) =
      serialSchedule txns order ++ List.replicate (txns i).calls.length i := by
  simp [serialSchedule]

/-- A commit puts its transaction behind those that have committed. -/
theorem Committed.commit (committed : Committed iteration txns db order p)
    (taken : p.next iteration i = some q) (keeps : Keeps txns i p.store q.store)
    (running : Running (txns i) p i (txns i).ops []) :
    Committed iteration txns db (order ++ [i]) q := by
  have absent := committed.not_mem taken
  have apart : ∀ j, j ≠ i → IsRunning txns p j → (txns j).txId ≠ (txns i).txId :=
    fun j other runs same => other (committed.ids j i runs ⟨_, _, running⟩ same)
  obtain ⟨store, todo, results⟩ := running.commit taken
  refine ⟨?_, ?_, ?_, committed.ids_next taken apart, ?_⟩
  · exact List.nodup_append'.mpr ⟨committed.nodup, List.nodup_singleton i, by simpa using absent⟩
  · intro j member
    by_cases own : j = i
    · exact own ▸ todo
    · rw [(next_others taken own).1, committed.finished j (by simpa [own] using member)]
  · intro j member
    simp only [List.mem_append, List.mem_singleton, not_or] at member
    exact committed.others_next taken keeps apart member.2 member.1
  · obtain ⟨alone, ran, quiet, same, told, idle⟩ := committed.serial
    obtain ⟨last, runs, settled, stored, _, returned, others⟩ :=
      run_alone iteration quiet (idle i absent) (same ▸ running.defined)
    refine ⟨last, ?_, settled, ?_, ?_, ?_⟩
    · rw [serialSchedule_append, System.run, List.foldlM_append]
      rw [System.run] at ran
      rw [ran]
      exact runs
    · rw [stored, same, store]
    · intro j member
      by_cases own : j = i
      · subst own
        refine List.map_injective_iff.mpr (Option.some_injective _) ?_
        rw [returned, results, same]
      · rw [(others j own).2, (next_others taken own).2, told j (by simpa [own] using member)]
    · intro j member
      simp only [List.mem_append, List.mem_singleton, not_or] at member
      exact (idle j member.1).frame (others j member.2).1 (others j member.2).2

/-- One call of an interleaving in which commits respect the locks. -/
theorem Committed.next (committed : Committed iteration txns db order p)
    (respects : RespectsLocks p i) (taken : p.next iteration i = some q) :
    ∃ order, Committed iteration txns db order q := by
  rcases committed.others i (committed.not_mem taken) with idle | ⟨past, rest, running⟩
  · obtain ⟨fresh, store, running⟩ := idle.next taken
    refine ⟨order, committed.stay taken ?_ ?_ ⟨_, _, running⟩ (by rw [store])⟩
    · rw [store]
      refine ⟨fun other different => ?_, fun _ _ => rfl, fun _ _ _ _ => rfl⟩
      simp only [Store.put_apply, if_neg different]
    · rintro j - ⟨past, rest, runs⟩ same
      have live := runs.live
      rw [same, fresh] at live
      cases live
  · have apart : ∀ j, j ≠ i → IsRunning txns p j → (txns j).txId ≠ (txns i).txId :=
      fun j other runs same => other (committed.ids j i runs ⟨_, _, running⟩ same)
    cases rest with
    | cons op rest =>
      obtain ⟨operated, runs⟩ := running.next taken
      refine ⟨order, committed.stay taken ?_ apart ⟨_, _, runs⟩ operated.kvStore⟩
      refine ⟨fun other different => ?_, operated.others, fun _ _ _ _ => by rw [operated.kvStore]⟩
      rw [operated.liveTxs, Store.put_apply, if_neg different]
    | nil =>
      have ops : (txns i).ops = past := running.ops.trans (List.append_nil past)
      subst ops
      refine ⟨order ++ [i], committed.commit taken ?_ running⟩
      obtain ⟨store, _⟩ := running.commit taken
      rw [store]
      refine ⟨fun other different => ?_, fun other different => ?_, fun other different key held => ?_⟩
      · simp only [Store.delete_apply, if_neg different]
      · rw [keysOf_erase, if_neg different]
      -- A key that another one has locked is not among the updates.
      · rw [RespectsLocks, running.todo] at respects
        simp only [curTx, running.live, Option.getD_some, List.map_nil, List.nil_append] at respects
        have absent : (bufferOf (txns i).ops).find? key = none := by
          rw [Option.eq_none_iff_forall_ne_some]
          intro value found
          have free := respects (key, value) ((UnorderedMap.mem_entries_iff _ _ _).mpr found)
          rw [Bool.eq_false_iff, Ne, lockedByOther_iff] at free
          exact free ⟨other, different, held⟩
        simp only [overlay, absent, Option.none_or]

end Invariant

theorem Committed.run {p q : Progress ι} {order : List ι} {schedule : List ι}
    (committed : Committed iteration txns db order p)
    (ran : ((interleaving iteration txns db).guarded RespectsLocks).run p schedule = some q) :
    ∃ order, Committed iteration txns db order q := by
  induction schedule generalizing p order with
  | nil =>
    obtain rfl := Option.some.inj ran
    exact ⟨order, committed⟩
  | cons i schedule ih =>
    obtain ⟨p', taken, rest⟩ := Option.bind_eq_some_iff.mp ran
    obtain ⟨respects, taken⟩ := Option.ite_none_right_eq_some.mp taken
    obtain ⟨order, committed⟩ := committed.next respects taken
    exact ih committed rest

/-- A complete interleaving in which no commit writes a key that another transaction has locked
is equivalent to the transactions in the order of their commits. -/
theorem serializable (iteration : Iteration (Int32 × Bytes)) (txns : ι → Txn)
    (db : Store Int32 Bytes) (schedule : List ι) (p : Progress ι)
    (ran : ((interleaving iteration txns db).guarded RespectsLocks).run (start txns db) schedule =
      some p) (complete : ∀ i, p.todo i = []) : Serializable iteration txns db p := by
  obtain ⟨order, committed⟩ := Committed.start.run ran
  have all : ∀ i, i ∈ order := by
    intro i
    by_contra absent
    rcases committed.others i absent with idle | ⟨past, rest, running⟩
    · cases idle.todo.symm.trans (complete i)
    · exact running.todo_ne_nil (complete i)
  obtain ⟨q, ran, -, store, results, -⟩ := committed.serial
  exact ⟨order, committed.nodup, all, q, ran, funext fun i => results i (all i), store⟩

/-! ## Two transactions on two keys -/

/-- Each reads a key and writes the other one. -/
def skewed : Bool → Txn
  | false => ⟨1, [.get 10, .put 20 [3]]⟩
  | true => ⟨2, [.get 20, .put 10 [4]]⟩

def skewedStore : Store Int32 Bytes := (Store.empty.put 10 [1]).put 20 [2]

/-- One starts when the other has committed. -/
def inTurn : List Bool := [false, false, false, false, true, true, true, true]

/-- Both have read before either commits. -/
def crossed : List Bool := [false, true, false, true, false, true, false, true]

theorem serializable_inTurn :
    ∃ p, ((interleaving .asListed skewed skewedStore).guarded RespectsLocks).run
        (start skewed skewedStore) inTurn = some p ∧
      (∀ i, p.todo i = []) ∧ Serializable .asListed skewed skewedStore p := by
  let ran := ((interleaving .asListed skewed skewedStore).guarded RespectsLocks).run
    (start skewed skewedStore) inTurn
  have defined : ran.isSome := by decide
  have complete : ∀ p ∈ ran, ∀ i, p.todo i = [] := by decide
  obtain ⟨p, reached⟩ := Option.isSome_iff_exists.mp defined
  exact ⟨p, reached, complete p reached,
    serializable .asListed skewed skewedStore inTurn p reached (complete p reached)⟩

theorem not_serializable_crossed :
    ¬∀ schedule p, (interleaving .asListed skewed skewedStore).run (start skewed skewedStore)
        schedule = some p → (∀ i, p.todo i = []) → Serializable .asListed skewed skewedStore p := by
  intro all
  let run := (interleaving .asListed skewed skewedStore).run (start skewed skewedStore)
  have defined : (run crossed).isSome := by decide
  have complete : ∀ p ∈ run crossed, ∀ i, p.todo i = [] := by decide
  have differs : ∀ p ∈ run crossed, ∀ order ∈ [[false, true], [true, false]],
      ∀ q ∈ run (serialSchedule skewed order), q.results ≠ p.results := by decide
  obtain ⟨p, reached⟩ := Option.isSome_iff_exists.mp defined
  obtain ⟨order, nodup, both, q, ran, results, _⟩ := all crossed p reached (complete p reached)
  have orders : order ∈ [[false, true], [true, false]] := by
    have perm : order.Perm [false, true] :=
      (List.perm_ext_iff_of_nodup nodup (by decide)).mpr fun i => by simp [both]
    obtain ⟨i, j, rfl⟩ := List.length_eq_two.mp perm.length_eq
    revert nodup
    cases i <;> cases j <;> simp
  exact differs p reached order orders q ran results

end CloudLab.KvStore
