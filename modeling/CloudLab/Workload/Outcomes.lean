import CloudLab.Library.Extensions
import CloudLab.Workload.Oracle

/-!
# What the transactions come to

The states that `get_possible_results` returns, without going through the orders. Of a trace of
plain commands each key ends with the last PUT of a transaction behind which nothing puts it, and
with any of these: `mem_values_iff`. If transactions that are not ordered commute, there is one
state, and every run of the workers comes to it: `confluent`.
-/
namespace CloudLab.Workload

open Library

/-! ## Plain commands -/

/-- What a command puts on a key. -/
def TxnCmd.written (key : UInt32) (cmd : TxnCmd) : Option Bytes :=
  if cmd.op = .op .put ∧ cmd.key = key then some cmd.value else none

namespace Trace

variable (T : Trace)

/-- What a transaction leaves at a key that it puts. -/
def lastPut (key : UInt32) (id : UInt64) : Option Bytes :=
  ((T.cmds id).filterMap (TxnCmd.written key)).getLast?

/-- No operation calls a function; so it is with the operations that the generator draws if it is
not told otherwise. -/
def Plain : Prop := ∀ txn ∈ T.txns, ∀ cmd ∈ txn.cmds, ∃ op, opTypeMap cmd.op = .op op

/-- Nothing that depends on the transaction puts the key. -/
def Final (key : UInt32) (id : UInt64) : Prop :=
  id ∈ T.ids ∧ ∀ other ∈ T.ids, (T.lastPut key other).isSome → ¬T.dependencies.Before id other

/-- What a key may hold when all transactions have run. -/
inductive Outcome (key : UInt32) : Option Bytes → Prop
  | put {id : UInt64} {value : Bytes} : T.Final key id → T.lastPut key id = some value →
      Outcome key (some value)
  | absent : (∀ id ∈ T.ids, T.lastPut key id = none) → Outcome key none

variable {T}

theorem Plain.cmds (plain : T.Plain) (id : UInt64) : ∀ cmd ∈ T.cmds id, ∃ op, cmd.op = .op op := by
  intro cmd member
  rw [Trace.cmds] at member
  rcases found : T.find? id with _ | txn
  · rw [found] at member
    cases member
  · rw [found] at member
    obtain ⟨kv, inside, same⟩ := List.mem_map.mp member
    exact same ▸ plain txn (find?_eq_some found).1 kv inside

end Trace

section Plain

variable {effect : OpFunc → KVStoreState → TxnCmd → KVStoreState} {T : Trace} {order : List UInt64}
  {key : UInt32} {id : UInt64}

theorem runCmd_plain {cmd : TxnCmd} (plain : ∃ op, cmd.op = .op op) (state : KVStoreState) :
    runCmd effect state cmd key = (cmd.written key).or (state key) := by
  obtain ⟨op, same⟩ := plain
  by_cases put : op = .put
  · by_cases here : cmd.key = key
    · simp [runCmd, TxnCmd.written, same, put, here]
    · simp [runCmd, TxnCmd.written, same, put, here, Ne.symm here, Store.put_apply]
  · simp [runCmd, TxnCmd.written, same, put]

theorem runTxn_plain (plain : T.Plain) (state : KVStoreState) :
    runTxn effect T state id key = (T.lastPut key id).or (state key) :=
  Store.foldl_written (fun cmd member => runCmd_plain (plain.cmds id cmd member)) state

/-- A serial run leaves at each key the last PUT of the last transaction that puts it. -/
theorem foldl_runTxn_plain (plain : T.Plain) :
    order.foldl (runTxn effect T) Store.empty key = (order.filterMap (T.lastPut key)).getLast? := by
  rw [Store.foldl_written (f := runTxn effect T) fun _ _ state => runTxn_plain plain state, Store.empty_apply, Option.or_none]

/-- The last transaction of an order that puts a key. -/
theorem exists_last_put {value : Bytes}
    (last : (order.filterMap (T.lastPut key)).getLast? = some value) :
    ∃ front id back, order = front ++ id :: back ∧ T.lastPut key id = some value ∧
      ∀ other ∈ back, T.lastPut key other = none := by
  induction order using List.reverseRecOn with
  | nil => cases last
  | append_singleton order id ih =>
    rcases put : T.lastPut key id with _ | written
    · rw [List.filterMap_append, List.filterMap_cons_none put, List.filterMap_nil, List.append_nil] at last
      obtain ⟨front, found, back, split, same, none⟩ := ih last
      refine ⟨front, found, back ++ [id], by simp [split], same, fun other member => ?_⟩
      rcases List.mem_append.mp member with member | member
      · exact none other member
      · rwa [List.mem_singleton.mp member]
    · rw [List.filterMap_append, List.filterMap_cons_some put, List.filterMap_nil,
        List.getLast?_append_cons, List.getLast?_singleton] at last
      exact ⟨order, id, [], rfl, put.trans last, fun other member => absurd member List.not_mem_nil⟩

theorem outcome_of_linear (plain : T.Plain) (linear : T.dependencies.LinearExtension order) :
    T.Outcome key (order.foldl (runTxn effect T) Store.empty key) := by
  rw [foldl_runTxn_plain plain]
  rcases last : (order.filterMap (T.lastPut key)).getLast? with _ | value
  · refine .absent fun id member => ?_
    rw [List.getLast?_eq_none_iff, List.filterMap_eq_nil_iff] at last
    exact last id (linear.1.mem_iff.mpr member)
  · obtain ⟨front, id, back, split, put, none⟩ := exists_last_put last
    subst split
    refine .put ⟨linear.1.mem_iff.mp (by simp), fun other member some before => ?_⟩ put
    -- Behind the last one nothing puts the key, and what depends on it is behind.
    rcases List.mem_append.mp (linear.1.mem_iff.mpr member) with early | late
    · obtain ⟨first, second, cut⟩ := List.append_of_mem early
      subst cut
      rw [List.append_assoc, List.cons_append] at linear
      have nodup := linear.1.nodup_iff.mpr T.distinct
      have inside := linear.before before
      rw [List.nodup_append] at nodup
      exact nodup.2.2 id inside id (by simp) rfl
    · rcases List.mem_cons.mp late with same | late
      · exact T.dependencies.acyclic id (same ▸ before)
      · rw [none other late] at some
        cases some

theorem exists_linear (effect : OpFunc → KVStoreState → TxnCmd → KVStoreState) (plain : T.Plain)
    {value : Option Bytes} (outcome : T.Outcome key value) :
    ∃ order, T.dependencies.LinearExtension order ∧
      order.foldl (runTxn effect T) Store.empty key = value := by
  cases outcome with
  | @put id value final put =>
    obtain ⟨front, back, linear, none⟩ := Dependencies.exists_last (D := T.dependencies)
      (p := fun other => (T.lastPut key other).isSome) final.1 final.2
    refine ⟨_, linear, ?_⟩
    have silent : back.filterMap (T.lastPut key) = [] := by
      refine List.filterMap_eq_nil_iff.mpr fun other member => ?_
      simpa using none other member
    rw [foldl_runTxn_plain plain, List.filterMap_append, List.filterMap_cons_some put, silent,
      List.getLast?_append_cons, List.getLast?_singleton]
  | absent none =>
    obtain ⟨order, linear⟩ := Dependencies.exists_linear T.dependencies
    refine ⟨order, linear, ?_⟩
    rw [foldl_runTxn_plain plain, List.getLast?_eq_none_iff, List.filterMap_eq_nil_iff]
    exact fun id member => none id (linear.1.mem_iff.mp member)

end Plain

/-- What the returned states have at a key. -/
theorem mem_values_iff (effect : OpFunc → KVStoreState → TxnCmd → KVStoreState)
    (destruction : Iteration (Nat × Nat)) (loop death : Iteration (UInt64 × Nat × List UInt64))
    (T : Trace) (plain : T.Plain) :
    ∃ results, Returns effect destruction loop death T results ∧ ∀ key value,
      (∃ state ∈ results, state key = value) ↔ T.Outcome key value := by
  obtain ⟨results, returns, states⟩ := exists_returns effect destruction loop death T
  refine ⟨results, returns, fun key value => ⟨?_, fun outcome => ?_⟩⟩
  · rintro ⟨state, member, same⟩
    rw [states.mem_iff, mem_statesFrom] at member
    obtain ⟨order, linear, rfl⟩ := member
    exact same ▸ outcome_of_linear plain linear
  · obtain ⟨order, linear, same⟩ := exists_linear effect plain outcome
    refine ⟨_, ?_, same⟩
    rw [states.mem_iff, mem_statesFrom]
    exact ⟨order, linear, rfl⟩

/-- One transaction PUTs, one of the two behind it PUTs again and the other one GETs. -/
def fork : Trace where
  txns := [⟨true, 1, [], [⟨.put, [0], [1]⟩]⟩, ⟨true, 2, [1], [⟨.put, [0], [2]⟩]⟩,
    ⟨true, 3, [1], [⟨.get, [0], []⟩]⟩]
  distinct := by decide
  closed := by decide
  acyclic := Trace.acyclic_of_rank UInt64.toNat (by decide)

theorem plain_fork : fork.Plain := by
  intro txn member cmd inside
  fin_cases member <;> rw [List.mem_singleton.mp inside] <;> exact ⟨_, rfl⟩

theorem mem_values_iff_fork : ∃ results,
    Returns (fun _ state _ => state) .asListed .asListed .asListed fork results ∧ ∀ key value,
      (∃ state ∈ results, state key = value) ↔ fork.Outcome key value :=
  mem_values_iff (fun _ state _ => state) .asListed .asListed .asListed fork plain_fork

/-! ## Transactions that commute -/

/-- Neither of the transactions depends on the other one, and their order matters to some state. -/
def Trace.Conflict (effect : OpFunc → KVStoreState → TxnCmd → KVStoreState) (T : Trace)
    (i j : UInt64) : Prop :=
  T.dependencies.Unordered i j ∧
    ∃ state, runTxn effect T (runTxn effect T state i) j ≠ runTxn effect T (runTxn effect T state j) i

/-- Without a conflict one state is returned, and every run of the workers that ran as one
transaction after another comes to it. -/
theorem confluent (effect : OpFunc → KVStoreState → TxnCmd → KVStoreState)
    (destruction : Iteration (Nat × Nat)) (loop death : Iteration (UInt64 × Nat × List UInt64))
    (T : Trace) (commutes : ∀ i ∈ T.ids, ∀ j ∈ T.ids, ¬T.Conflict effect i j) :
    ∃ results state, Returns effect destruction loop death T results ∧ results ≠ [] ∧
      (∀ result ∈ results, result = state) ∧
      ∀ (W : Type) [Fintype W] [DecidableEq W] (s : Workers.State W) (order : List UInt64),
        (Workers.system W T loop death).Reachable System.Always s → (∀ id ∈ T.ids, id ∈ s.handed) →
          order.Perm T.ids → Workers.Respects s.log order →
            order.foldl (runTxn effect T) Store.empty = state := by
  have one : ∀ {order order'}, T.dependencies.LinearExtension order →
      T.dependencies.LinearExtension order' →
        order.foldl (runTxn effect T) Store.empty = order'.foldl (runTxn effect T) Store.empty := by
    intro order order' first second
    refine Dependencies.foldl_eq (fun i first j second unordered state => ?_) first second Store.empty
    by_contra different
    exact commutes i first j second ⟨unordered, state, different⟩
  obtain ⟨order, linear⟩ := Dependencies.exists_linear T.dependencies
  obtain ⟨results, returns, states⟩ := exists_returns effect destruction loop death T
  refine ⟨results, order.foldl (runTxn effect T) Store.empty, returns, ?_, fun result member => ?_, ?_⟩
  · refine List.ne_nil_of_mem (a := order.foldl (runTxn effect T) Store.empty) ?_
    rw [states.mem_iff, mem_statesFrom]
    exact ⟨order, linear, rfl⟩
  · rw [states.mem_iff, mem_statesFrom] at member
    obtain ⟨other, found, rfl⟩ := member
    exact one found linear
  · intro W _ _ s other reachable handed perm respects
    exact one ((Workers.scheduled reachable).linear perm respects handed) linear

theorem not_conflict_fork : ∀ i ∈ fork.ids, ∀ j ∈ fork.ids,
    ¬fork.Conflict (fun _ state _ => state) i j := by
  rintro i first j second ⟨⟨before, behind⟩, state, different⟩
  have edge : ∀ id, id = 2 ∨ id = 3 → fork.dependencies.Before 1 id := by
    rintro id (rfl | rfl) <;> exact .single (by decide)
  -- What is not ordered is a transaction and itself, or the PUT and the GET behind the first one.
  fin_cases first <;> fin_cases second
  all_goals first
    | exact different rfl
    | exact before (edge _ (by decide))
    | exact behind (edge _ (by decide))

theorem confluent_fork : ∃ results state,
    Returns (fun _ state _ => state) .asListed .asListed .asListed fork results ∧ results ≠ [] ∧
      (∀ result ∈ results, result = state) ∧
      ∀ (W : Type) [Fintype W] [DecidableEq W] (s : Workers.State W) (order : List UInt64),
        (Workers.system W fork .asListed .asListed).Reachable System.Always s →
          (∀ id ∈ fork.ids, id ∈ s.handed) → order.Perm fork.ids → Workers.Respects s.log order →
            order.foldl (runTxn (fun _ state _ => state) fork) Store.empty = state :=
  confluent (fun _ state _ => state) .asListed .asListed .asListed fork not_conflict_fork

end CloudLab.Workload
