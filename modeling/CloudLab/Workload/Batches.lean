import CloudLab.Library.Layers
import CloudLab.Workload.Generator
import CloudLab.Workload.Oracle

/-!
# Batches of a generated trace

What becomes of the batches of `generate_txns` behind the parser. A worker that gets a transaction
finds all batches in front of its own dropped: `barrier`. So the runs differ only within batches,
and `get_possible_results` has a result for each way to put every batch in order: `length_results`.
-/
namespace CloudLab.Workload

open Library Nat

/-! ## Layers -/

namespace Workers

variable {W : Type} [Fintype W] {T : Trace} {s : State W} {deps : List UInt64}
  {layers : List (List UInt64)}

theorem Scheduled.handed_of_dropped (scheduled : Scheduled T s) {id : UInt64} (gone : id ∈ s.dropped) :
    id ∈ s.handed :=
  scheduled.handed.mem_iff.mpr (List.mem_append_right _ gone)

/-- What a transaction depends on has been dropped when it is handed out. -/
theorem Scheduled.dropped_of_handed (scheduled : Scheduled T s) {id dep : UInt64} (out : id ∈ s.handed)
    (depends : dep ∈ T.dependsOn id) : dep ∈ s.dropped := by
  obtain ⟨later, earlier, split⟩ := List.append_of_mem (mem_handed.mp out)
  have gone := (scheduled.order later id earlier split dep depends).2
  rw [mem_dropped, split]
  exact List.mem_append_right _ (List.mem_cons_of_mem _ gone)

/-- Behind a layer that is not done nothing has been handed out. -/
theorem Scheduled.untouched (scheduled : Scheduled T s) (layered : T.dependencies.Layered deps layers)
    {missing : UInt64} (waits : missing ∈ deps) (left : missing ∉ s.dropped) :
    ∀ id ∈ layers.flatten, id ∉ s.handed := by
  induction layers generalizing deps missing with
  | nil =>
    intro id member
    cases member
  | cons layer rest ih =>
    obtain ⟨some, same, layered⟩ := layered
    have first : ∀ id ∈ layer, id ∉ s.handed := fun id member out =>
      left (scheduled.dropped_of_handed out ((same id member missing).mpr waits))
    obtain ⟨next, member⟩ := List.exists_mem_of_ne_nil layer some
    have behind := ih layered member fun gone => first next member (scheduled.handed_of_dropped gone)
    intro id listed
    rw [List.flatten_cons, List.mem_append] at listed
    exact listed.elim (first id) (behind id)

/-- At most one layer is being worked on. -/
theorem Scheduled.exists_now (scheduled : Scheduled T s) (layered : T.dependencies.Layered deps layers) :
    ∃ front now back, layers = front ++ now ++ back ∧ now.length ≤ 1 ∧
      (∀ id ∈ front.flatten, id ∈ s.dropped) ∧ ∀ id ∈ back.flatten, id ∉ s.handed := by
  induction layers generalizing deps with
  | nil => exact ⟨[], [], [], rfl, zero_le _, nofun, nofun⟩
  | cons layer rest ih =>
    obtain ⟨_, _, layered⟩ := layered
    by_cases done : ∀ id ∈ layer, id ∈ s.dropped
    · obtain ⟨front, now, back, split, one, gone, fresh⟩ := ih layered
      refine ⟨layer :: front, now, back, by rw [split]; rfl, one, fun id member => ?_, fresh⟩
      rw [List.flatten_cons, List.mem_append] at member
      exact member.elim (done id) (gone id)
    · push Not at done
      obtain ⟨missing, waits, left⟩ := done
      exact ⟨[], [layer], rest, rfl, le_rfl, nofun, scheduled.untouched layered waits left⟩

end Workers

namespace Generator

variable {cityHash32 : Bytes → UInt32} {keyRange : KeyRange} {draws : Draws keyRange}
  {depends : List Nat} {batches : List (List Txn)} {test : List Txn} {T : Trace}

/-- The ids of a batch as the loader has them. -/
def wireIds (batch : List Txn) : List UInt64 := batch.map fun txn => UInt64.ofNat txn.txnId

/-- What `main` writes is cut into batches; the fill transaction is one by itself. -/
theorem Args.main_batched {args : Args} {fuel : Nat} (ran : args.main cityHash32 draws fuel = some test) :
    WellFormed test ∧ (∀ txn ∈ test, txn.txnId ≤ args.numTxns) ∧
      ∃ batches, test = batches.flatten ∧ Batched [] batches := by
  obtain ⟨⟨txns, rfl, generated⟩, _⟩ := generateTxns_eq ran
  refine ⟨generated.wellFormed, fun txn member => ?_, ?_⟩
  · rcases List.mem_append.mp member with first | member
    · have id : txn.txnId ∈ (args.filled cityHash32 draws).map Txn.txnId := List.mem_map_of_mem first
      rw [args.ids_filled] at id
      split at id
      · rw [List.mem_singleton.mp id]
        exact Nat.zero_le _
      · cases id
    · have id : txn.txnId ∈ txns.map Txn.txnId := List.mem_map_of_mem member
      rw [generated.ids, List.mem_range'_1, Args.txnSizes, List.length_map, List.length_range] at id
      omega
  · obtain ⟨batches, rfl, batched⟩ := generated.batches
    rw [Args.filled]
    split at batched
    next fill =>
      refine ⟨[generateFillTrace cityHash32 draws] :: batches, by rw [if_pos fill]; rfl, ?_⟩
      refine ⟨List.cons_ne_nil _ _, fun txn member => ?_, batched⟩
      rw [List.mem_singleton.mp member]
      rfl
    next empty => exact ⟨batches, by rw [if_neg empty]; rfl, batched⟩

theorem ids_wire (txns : T.txns = test.map Txn.wire) : T.ids = wireIds test := by
  rw [Trace.ids, txns, List.map_map]
  rfl

theorem dependsOn_wire (txns : T.txns = test.map Txn.wire) {txn : Txn} (member : txn ∈ test) :
    T.dependsOn (UInt64.ofNat txn.txnId) = txn.dependsOn.map UInt64.ofNat := by
  have listed : txn.wire ∈ T.txns := txns ▸ List.mem_map_of_mem member
  have found := Trace.find?_of_mem listed
  rw [Trace.dependsOn, show UInt64.ofNat txn.txnId = txn.wire.txnId from rfl, found]
  rfl

theorem flatten_wireIds : (batches.map wireIds).flatten = wireIds batches.flatten := by
  rw [wireIds, List.map_flatten]
  rfl

/-- The batches are layers of the dependencies that the loader gets. -/
theorem Batched.layered (batched : Batched depends batches) (txns : T.txns = test.map Txn.wire)
    (inside : ∀ txn ∈ batches.flatten, txn ∈ test) :
    T.dependencies.Layered (depends.map UInt64.ofNat) (batches.map wireIds) := by
  induction batches generalizing depends with
  | nil => trivial
  | cons batch rest ih =>
    obtain ⟨some, same, batched⟩ := batched
    refine ⟨by simpa [wireIds] using some, fun id member dep => ?_, ?_⟩
    · obtain ⟨txn, listed, rfl⟩ := List.mem_map.mp member
      have known : txn ∈ test := inside txn (by simp [listed])
      rw [show T.dependencies.deps (UInt64.ofNat txn.txnId) = T.dependsOn (UInt64.ofNat txn.txnId) from rfl,
        dependsOn_wire txns known, same txn listed]
    · have next := ih batched fun txn member => inside txn (by simp [List.mem_flatten.mp member])
      rwa [List.map_map] at next

/-! ## Results -/

/-- One result for each way to put every batch in order. -/
theorem length_results {args : Args} {fuel : Nat} (ran : args.main cityHash32 draws fuel = some test)
    (fits : args.numTxns < 2 ^ 64) (effect : OpFunc → KVStoreState → TxnCmd → KVStoreState)
    (destruction : Iteration (Nat × Nat)) (loop death : Iteration (UInt64 × Nat × List UInt64)) :
    ∃ batches T results, test = batches.flatten ∧ Batched [] batches ∧ T.txns = test.map Txn.wire ∧
      Returns effect destruction loop death T results ∧
        results.length = (batches.map fun batch => batch.length !).prod := by
  obtain ⟨wellFormed, below, batches, rfl, batched⟩ := Args.main_batched ran
  obtain ⟨T, txns⟩ := wellFormed.trace fun txn member => (below txn member).trans_lt fits
  obtain ⟨results, returns, states⟩ := exists_returns effect destruction loop death T
  refine ⟨batches, T, results, rfl, batched, txns, returns, ?_⟩
  have layered := batched.layered txns fun _ member => member
  have perm : (batches.map wireIds).flatten.Perm T.dependencies.items := by
    rw [flatten_wireIds, ← ids_wire txns]
    exact .refl _
  calc results.length = (T.dependencies.orders T.ids.length []).length := by
        rw [states.length_eq, statesFrom, List.length_map]
    _ = T.dependencies.extensions.length := T.dependencies.orders_perm.length_eq
    _ = ((batches.map wireIds).map fun layer => layer.length !).prod := layered.length_extensions perm
    _ = (batches.map fun batch => batch.length !).prod := by
        rw [List.map_map]
        simp [wireIds, Function.comp_def]

theorem oneKey_fits : 0 + 1 < 2 ^ 32 := by decide

theorem oneKey_mem (_ : Nat) : 0 ≤ 0 ∧ 0 < 0 + 1 := by decide

theorem zero_lt (_ : Nat) : 0 < 2 ^ 63 - 1 ∧ 0 < 2 ^ 63 - 1 := by decide

/-- Every batch is of two transactions, without commands. -/
def pairs : Draws ⟨0, 1, oneKey_fits⟩ where
  size _ := 0
  parallel _ := 1
  fillValue _ := 0
  key _ := 0
  value _ := 0
  op _ := .get
  key_mem := oneKey_mem
  value_lt := zero_lt

def pairsArgs : Args where
  numTxns := 4
  numParallel := 2
  fillKvStore := true

theorem length_results_pairs : ∃ test, pairsArgs.main (fun _ => 0) pairs 5 = some test ∧
    ∃ batches T results, test = batches.flatten ∧ Batched [] batches ∧ T.txns = test.map Txn.wire ∧
      Returns (fun _ state _ => state) .asListed .asListed .asListed T results ∧
        results.length = (batches.map fun batch => batch.length !).prod := by
  have ran : (pairsArgs.main (fun _ => 0) pairs 5).isSome := by decide
  obtain ⟨test, ran⟩ := Option.isSome_iff_exists.mp ran
  exact ⟨test, ran, length_results ran (by decide) (fun _ state _ => state) .asListed .asListed .asListed⟩

/-! ## Runs -/

/-- Whatever the workers do, all batches in front of one have been dropped, and none behind it has
been touched. -/
theorem barrier {args : Args} {fuel : Nat} (ran : args.main cityHash32 draws fuel = some test)
    (fits : args.numTxns < 2 ^ 64) (loop death : Iteration (UInt64 × Nat × List UInt64)) :
    ∃ batches T, test = batches.flatten ∧ Batched [] batches ∧ T.txns = test.map Txn.wire ∧
      ∀ (W : Type) [Fintype W] [DecidableEq W] (s : Workers.State W),
        (Workers.system W T loop death).Reachable System.Always s →
          ∃ front now back, batches = front ++ now ++ back ∧ now.length ≤ 1 ∧
            (∀ id ∈ wireIds front.flatten, id ∈ s.dropped) ∧
              ∀ id ∈ wireIds back.flatten, id ∉ s.handed := by
  obtain ⟨wellFormed, below, batches, rfl, batched⟩ := Args.main_batched ran
  obtain ⟨T, txns⟩ := wellFormed.trace fun txn member => (below txn member).trans_lt fits
  refine ⟨batches, T, rfl, batched, txns, fun W _ _ s reachable => ?_⟩
  have layered := batched.layered txns fun _ member => member
  obtain ⟨front, now, back, cut, one, gone, fresh⟩ := (Workers.scheduled reachable).exists_now layered
  rw [List.append_assoc] at cut
  obtain ⟨front', rest, rfl, rfl, split⟩ := List.map_eq_append_iff.mp cut
  obtain ⟨now', back', rfl, rfl, rfl⟩ := List.map_eq_append_iff.mp split
  rw [flatten_wireIds] at gone fresh
  exact ⟨front', now', back', (List.append_assoc ..).symm, by simpa using one, gone, fresh⟩

theorem barrier_pairs : ∃ test, pairsArgs.main (fun _ => 0) pairs 5 = some test ∧
    ∃ batches T, test = batches.flatten ∧ Batched [] batches ∧ T.txns = test.map Txn.wire ∧
      ∀ (W : Type) [Fintype W] [DecidableEq W] (s : Workers.State W),
        (Workers.system W T .asListed .asListed).Reachable System.Always s →
          ∃ front now back, batches = front ++ now ++ back ∧ now.length ≤ 1 ∧
            (∀ id ∈ wireIds front.flatten, id ∈ s.dropped) ∧
              ∀ id ∈ wireIds back.flatten, id ∉ s.handed := by
  have ran : (pairsArgs.main (fun _ => 0) pairs 5).isSome := by decide
  obtain ⟨test, ran⟩ := Option.isSome_iff_exists.mp ran
  exact ⟨test, ran, barrier ran (by decide) .asListed .asListed⟩

end Generator

end CloudLab.Workload
