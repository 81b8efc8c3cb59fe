import CloudLab.Workload.Parsing

/-!
# Generated traces (`scripts/trace_generator.py`)

`generate_txns` cuts the transactions into batches of random length, and each batch depends on the
one before it. What is drawn is a parameter, one sequence for each place that draws. The loop of
`generate_txn` counts only GETs and PUTs, so it ends if enough of them are drawn: `generates_iff`.
-/
namespace CloudLab.Workload.Generator

open Library

/-! ## Draws -/

/-- `KeyRange`, as `main` chooses it below `MAX_KEY`. -/
structure KeyRange where
  begin_ : Nat
  keys : Nat
  fits : begin_ + keys < 2 ^ 32

def KeyRange.end_ (keyRange : KeyRange) : Nat := keyRange.begin_ + keyRange.keys

/-- What the generator draws. There is no draw from an empty range, as `randrange` raises. -/
structure Draws (keyRange : KeyRange) where
  /-- The results of the loop in `next_rand`, for the sizes and for the lengths of the batches. -/
  size : Nat → Nat
  parallel : Nat → Nat
  fillValue : Nat → Nat
  key : Nat → Nat
  value : Nat → Nat
  /-- `random.choices` -/
  op : Nat → TraceOp
  key_mem : ∀ n, keyRange.begin_ ≤ key n ∧ key n < keyRange.end_
  value_lt : ∀ n, value n < 2 ^ 63 - 1 ∧ fillValue n < 2 ^ 63 - 1

/-- `next_rand`, by what its loop returns. -/
def nextRand (mean : Int) (drawn : Nat) : Nat := if mean = 0 then 0 else drawn

/-! ## Transactions -/

/-- `Txn`, with the integers of the script. -/
structure Txn where
  isTxn : Bool
  txnId : Nat
  dependsOn : List Nat
  cmds : List KVPair

variable (cityHash32 : Bytes → UInt32) {keyRange : KeyRange} (draws : Draws keyRange)

/-- The key for a number. -/
def hashKey (i : Nat) : Bytes := littleEndian 4 (cityHash32 (littleEndian 4 i)).toNat

def generateFillTrace : Txn where
  isTxn := false
  txnId := 0
  dependsOn := []
  cmds := (List.range keyRange.keys).map fun k =>
    ⟨.put, hashKey cityHash32 (keyRange.begin_ + k), littleEndian 8 (draws.fillValue k)⟩

/-- The command that is drawn behind `drawn` others. -/
def drawCmd (drawn : Nat) : KVPair :=
  ⟨draws.op drawn, hashKey cityHash32 (draws.key drawn), littleEndian 8 (draws.value drawn)⟩

/-- The loop of `generate_txn`. -/
def cmdLoop (txnSize : Int) : Nat → Nat → List KVPair → Nat → Option (List KVPair × Nat)
  | 0, _, _, _ => none
  | fuel + 1, i, cmds, drawn =>
    if i < txnSize then
      let kv := drawCmd cityHash32 draws drawn
      cmdLoop txnSize fuel (if kv.op ∈ [.get, .put] then i + 1 else i) (cmds ++ [kv]) (drawn + 1)
    else some (cmds, drawn)

def generateTxn (fuel txId : Nat) (txnSize : Int) (dependsOn : List Nat) (drawn : Nat) :
    Option (Txn × Nat) :=
  (cmdLoop cityHash32 draws txnSize fuel 0 [] drawn).map fun (cmds, drawn) =>
    (⟨true, txId, dependsOn, cmds⟩, drawn)

/-- The inner loop of `generate_txns`, with the rounds that are left and the next `j`. -/
def batchLoop (fuel : Nat) (txnSizes : List Int) (i : Nat) (depends : List Nat) :
    Nat → Nat → List Txn → Nat → Option (List Txn × Nat)
  | 0, _, test, drawn => some (test, drawn)
  | rounds + 1, j, test, drawn =>
    txnSizes[i + j]?.bind fun txnSize =>
      (generateTxn cityHash32 draws fuel (i + 1 + j) txnSize depends drawn).bind fun (txn, drawn) =>
        batchLoop fuel txnSizes i depends rounds (j + 1) (test ++ [txn]) drawn

/-- The outer loop of `generate_txns`; `batch` counts its rounds. -/
def txnsLoop (cmdFuel : Nat) (txnSizes : List Int) (numParallel : Int) :
    Nat → Nat → List Nat → Nat → List Txn → Nat → Option (List Txn × Nat)
  | 0, _, _, _, _, _ => none
  | fuel + 1, i, depends, batch, test, drawn =>
    if i < txnSizes.length then
      let countParallel := nextRand (numParallel - 1) (draws.parallel batch) + 1
      (batchLoop cityHash32 draws cmdFuel txnSizes i depends
          (min (txnSizes.length - i) countParallel) 0 test drawn).bind fun (test, drawn) =>
        txnsLoop cmdFuel txnSizes numParallel fuel (i + countParallel)
          (List.range' (i + 1) countParallel) (batch + 1) test drawn
    else some (test, drawn)

def generateTxns (fuel : Nat) (test : List Txn) (txnSizes : List Int) (numParallel : Int)
    (fillGenerated : Bool) : Option (List Txn) :=
  (txnsLoop cityHash32 draws fuel txnSizes numParallel fuel 0 (if fillGenerated then [0] else []) 0
    test 0).map Prod.fst

/-- The arguments that `main` uses behind the choice of the keys. -/
structure Args where
  numTxns : Nat := 100
  numOps : Int := 10
  numParallel : Int := 1
  fillKvStore : Bool := false

namespace Args

variable (args : Args)

def txnSizes : List Int :=
  (List.range args.numTxns).map fun k => nextRand args.numOps (draws.size k)

/-- The test before `generate_txns`. -/
def filled : List Txn := if args.fillKvStore then [generateFillTrace cityHash32 draws] else []

/-- The test that `main` writes. -/
def main (fuel : Nat) : Option (List Txn) :=
  generateTxns cityHash32 draws fuel (args.filled cityHash32 draws) (args.txnSizes draws)
    args.numParallel args.fillKvStore

end Args

/-! ## Counted draws -/

/-- How many of the first draws are GETs or PUTs, which `generate_txn` counts. -/
def counted (drawn : Nat) : Nat := Nat.count (fun k => draws.op k ∈ [TraceOp.get, .put]) drawn

/-- The counter behind one more command. -/
theorem counted_succ (i drawn : Nat) :
    ∃ i', (if (drawCmd cityHash32 draws drawn).op ∈ [TraceOp.get, .put] then i + 1 else i) = i' ∧
      counted draws (drawn + 1) + i = counted draws drawn + i' ∧ i' ≤ i + 1 := by
  refine ⟨_, rfl, ?_⟩
  have next : counted draws (drawn + 1) =
      counted draws drawn + if draws.op drawn ∈ [TraceOp.get, .put] then 1 else 0 := by
    rw [counted, Nat.count_succ, counted]
  rw [drawCmd, next]
  split <;> omega

/-- How many commands some sizes ask for. -/
def total (txnSizes : List Int) : Nat := (txnSizes.map Int.toNat).sum

/-- The draws hold as many GETs and PUTs as the sizes ask for. -/
def Enough (txnSizes : List Int) : Prop := ∃ drawn, total txnSizes ≤ counted draws drawn

theorem total_drop {txnSizes : List Int} {i : Nat} (within : i < txnSizes.length) :
    total (txnSizes.drop i) = txnSizes[i].toNat + total (txnSizes.drop (i + 1)) := by
  rw [List.drop_eq_getElem_cons within, total, List.map_cons, List.sum_cons, total]

/-- A batch that reaches over the end leaves nothing. -/
theorem total_drop_min (txnSizes : List Int) (i count : Nat) :
    total (txnSizes.drop (i + min (txnSizes.length - i) count)) =
      total (txnSizes.drop (i + count)) := by
  by_cases fits : count ≤ txnSizes.length - i
  · rw [Nat.min_eq_right fits]
  · rw [List.drop_eq_nil_of_le (by omega), List.drop_eq_nil_of_le (by omega)]

variable {cityHash32 draws}

/-! ## One transaction -/

/-- A transaction uses up as many counted draws as its size says. -/
theorem counted_cmdLoop {txnSize : Int} {fuel i drawn drawn' : Nat} {cmds cmds' : List KVPair}
    (below : i ≤ txnSize.toNat)
    (ran : cmdLoop cityHash32 draws txnSize fuel i cmds drawn = some (cmds', drawn')) :
    counted draws drawn' + i = counted draws drawn + txnSize.toNat := by
  induction fuel generalizing i cmds drawn with
  | zero => cases ran
  | succ fuel ih =>
    rw [cmdLoop] at ran
    split at ran
    next more =>
      obtain ⟨i', next, counts, small⟩ := counted_succ cityHash32 draws i drawn
      simp only [next] at ran
      have rest := ih (by omega) ran
      omega
    next done =>
      cases ran
      omega

/-- With enough counted draws ahead of it the loop ends. -/
theorem cmdLoop_ends (cityHash32 : Bytes → UInt32) {txnSize : Int} {fuel i drawn goal : Nat}
    (cmds : List KVPair) (before : drawn ≤ goal) (fuels : goal < fuel + drawn)
    (enough : counted draws drawn + txnSize.toNat ≤ counted draws goal + i) :
    ∃ cmds' drawn', cmdLoop cityHash32 draws txnSize fuel i cmds drawn = some (cmds', drawn') ∧
      drawn' ≤ goal := by
  induction fuel generalizing i cmds drawn with
  | zero => omega
  | succ fuel ih =>
    rw [cmdLoop]
    split
    next more =>
      obtain ⟨i', next, counts, small⟩ := counted_succ cityHash32 draws i drawn
      simp only [next]
      -- something that counts is still to come
      have ahead : drawn ≠ goal := by
        rintro rfl
        omega
      exact ih _ (by omega) (by omega) (by omega)
    next done => exact ⟨cmds, drawn, rfl, before⟩

/-! ## One batch -/

/-- A batch has the next ids, and all of it depends on the same. -/
theorem batchLoop_eq {txnSizes : List Int} {i rounds j fuel drawn drawn' : Nat} {depends : List Nat}
    {test test' : List Txn} (within : i + j + rounds ≤ txnSizes.length)
    (ran : batchLoop cityHash32 draws fuel txnSizes i depends rounds j test drawn =
      some (test', drawn')) :
    ∃ txns, test' = test ++ txns ∧ txns.map Txn.txnId = List.range' (i + 1 + j) rounds ∧
      (∀ txn ∈ txns, txn.dependsOn = depends) ∧
      counted draws drawn' + total (txnSizes.drop (i + j + rounds)) =
        counted draws drawn + total (txnSizes.drop (i + j)) := by
  induction rounds generalizing j test drawn with
  | zero =>
    cases ran
    exact ⟨[], by rw [List.append_nil], rfl, fun txn member => absurd member List.not_mem_nil, rfl⟩
  | succ rounds ih =>
    have inside : i + j < txnSizes.length := by omega
    rw [batchLoop, List.getElem?_eq_getElem inside, Option.bind_some] at ran
    obtain ⟨⟨txn, after⟩, made, ran⟩ := Option.bind_eq_some_iff.mp ran
    obtain ⟨⟨cmds, drawn₁⟩, drew, same⟩ := Option.map_eq_some_iff.mp made
    obtain ⟨rfl, rfl⟩ := Prod.mk.inj same
    have used := counted_cmdLoop (Nat.zero_le _) drew
    have left := total_drop inside
    have bound : i + (j + 1) + rounds ≤ txnSizes.length := by omega
    obtain ⟨txns, rfl, ids, same, uses⟩ := ih bound ran
    refine ⟨⟨true, i + 1 + j, depends, cmds⟩ :: txns, ?_, ?_, ?_, ?_⟩
    · rw [List.append_assoc, List.singleton_append]
    · rw [List.map_cons, ids, List.range'_succ]
      rfl
    · exact List.forall_mem_cons.mpr ⟨rfl, same⟩
    · rw [show i + j + (rounds + 1) = i + (j + 1) + rounds by omega]
      rw [show i + (j + 1) = i + j + 1 by omega] at uses ⊢
      omega

theorem batchLoop_ends {txnSizes : List Int} {i rounds j fuel drawn goal : Nat}
    (depends : List Nat) (test : List Txn) (within : i + j + rounds ≤ txnSizes.length)
    (before : drawn ≤ goal) (fuels : goal < fuel)
    (enough : counted draws drawn + total (txnSizes.drop (i + j)) ≤ counted draws goal) :
    ∃ test' drawn', batchLoop cityHash32 draws fuel txnSizes i depends rounds j test drawn =
      some (test', drawn') ∧ drawn' ≤ goal := by
  induction rounds generalizing j test drawn with
  | zero => exact ⟨test, drawn, rfl, before⟩
  | succ rounds ih =>
    have inside : i + j < txnSizes.length := by omega
    have left := total_drop inside
    have ahead : counted draws drawn + txnSizes[i + j].toNat ≤ counted draws goal + 0 := by omega
    obtain ⟨cmds, drawn₁, drew, before₁⟩ :=
      cmdLoop_ends cityHash32 [] before (Nat.lt_add_right drawn fuels) ahead
    have used := counted_cmdLoop (Nat.zero_le _) drew
    rw [batchLoop, List.getElem?_eq_getElem inside, Option.bind_some, generateTxn, drew,
      Option.map_some, Option.bind_some]
    exact ih _ (by omega) before₁ (by rw [show i + (j + 1) = i + j + 1 by omega]; omega)

/-! ## All batches -/

/-- Each batch depends on exactly the batch before it, the first one on `depends`. -/
def Batched : List Nat → List (List Txn) → Prop
  | _, [] => True
  | depends, batch :: rest =>
    batch ≠ [] ∧ (∀ txn ∈ batch, txn.dependsOn = depends) ∧ Batched (batch.map Txn.txnId) rest

theorem Batched.eq_nil {depends : List Nat} {batches : List (List Txn)}
    (batched : Batched depends batches) (none : batches.flatten = []) : batches = [] := by
  cases batches with
  | nil => rfl
  | cons batch rest => exact absurd (List.append_eq_nil_iff.mp none).1 batched.1

/-- A batch that reaches over the end is the last one. -/
theorem Batched.behind {size i count : Nat} {txns : List Txn} {batches : List (List Txn)}
    (batched : Batched (List.range' (i + 1) count) batches)
    (ids : txns.map Txn.txnId = List.range' (i + 1) (min (size - i) count))
    (next : batches.flatten.map Txn.txnId = List.range' (i + count + 1) (size - (i + count))) :
    txns.map Txn.txnId ++ batches.flatten.map Txn.txnId = List.range' (i + 1) (size - i) ∧
      Batched (txns.map Txn.txnId) batches := by
  by_cases fits : count ≤ size - i
  · rw [Nat.min_eq_right fits] at ids
    rw [ids, next]
    refine ⟨?_, batched⟩
    rw [show i + count + 1 = i + 1 + count by omega, List.range'_append_1]
    congr 1
    omega
  · rw [show size - (i + count) = 0 by omega, List.range'_zero] at next
    rw [Nat.min_eq_left (by omega)] at ids
    rw [next, batched.eq_nil (List.map_eq_nil_iff.mp next), ids]
    exact ⟨List.append_nil _, trivial⟩

theorem txnsLoop_eq {txnSizes : List Int} {numParallel : Int}
    {cmdFuel fuel i batch drawn drawn' : Nat} {depends : List Nat} {test test' : List Txn}
    (ran : txnsLoop cityHash32 draws cmdFuel txnSizes numParallel fuel i depends batch test drawn =
      some (test', drawn')) :
    ∃ batches, test' = test ++ batches.flatten ∧
      batches.flatten.map Txn.txnId = List.range' (i + 1) (txnSizes.length - i) ∧
      Batched depends batches ∧
      counted draws drawn' = counted draws drawn + total (txnSizes.drop i) := by
  induction fuel generalizing i depends batch test drawn with
  | zero => cases ran
  | succ fuel ih =>
    rw [txnsLoop] at ran
    split at ran
    next more =>
      obtain ⟨⟨test₁, drawn₁⟩, made, ran⟩ := Option.bind_eq_some_iff.mp ran
      obtain ⟨count, length⟩ :
          ∃ count, nextRand (numParallel - 1) (draws.parallel batch) + 1 = count := ⟨_, rfl⟩
      simp only [length] at made ran
      have positive : 0 < count := by omega
      have within : i + 0 + min (txnSizes.length - i) count ≤ txnSizes.length := by omega
      obtain ⟨txns, rfl, ids, same, used⟩ := batchLoop_eq within made
      obtain ⟨batches, rfl, next, batched, uses⟩ := ih ran
      have some : txns ≠ [] := by
        rintro rfl
        have lengths := congrArg List.length ids
        rw [List.map_nil, List.length_nil, List.length_range'] at lengths
        omega
      rw [Nat.add_zero] at ids used
      rw [total_drop_min] at used
      obtain ⟨joined, chained⟩ := batched.behind ids next
      refine ⟨txns :: batches, ?_, ?_, ⟨some, same, chained⟩, ?_⟩
      · rw [List.flatten_cons, List.append_assoc]
      · rw [List.flatten_cons, List.map_append, joined]
      · omega
    next done =>
      cases ran
      refine ⟨[], ?_, ?_, trivial, ?_⟩
      · rw [List.flatten_nil, List.append_nil]
      · rw [show txnSizes.length - i = 0 by omega]
        rfl
      · rw [List.drop_eq_nil_of_le (by omega)]
        rfl

theorem txnsLoop_ends (cityHash32 : Bytes → UInt32) {txnSizes : List Int} (numParallel : Int)
    {cmdFuel fuel i drawn goal : Nat} (depends : List Nat) (batch : Nat) (test : List Txn)
    (before : drawn ≤ goal) (cmdFuels : goal < cmdFuel) (fuels : txnSizes.length < fuel + i)
    (spare : 0 < fuel)
    (enough : counted draws drawn + total (txnSizes.drop i) ≤ counted draws goal) :
    ∃ result, txnsLoop cityHash32 draws cmdFuel txnSizes numParallel fuel i depends batch test
      drawn = some result := by
  induction fuel generalizing i depends batch test drawn with
  | zero => omega
  | succ fuel ih =>
    rw [txnsLoop]
    split
    next more =>
      obtain ⟨count, length⟩ :
          ∃ count, nextRand (numParallel - 1) (draws.parallel batch) + 1 = count := ⟨_, rfl⟩
      simp only [length]
      have within : i + 0 + min (txnSizes.length - i) count ≤ txnSizes.length := by omega
      obtain ⟨test₁, drawn₁, made, before₁⟩ :=
        batchLoop_ends depends test within before cmdFuels enough
      obtain ⟨txns, _, _, _, used⟩ := batchLoop_eq within made
      rw [Nat.add_zero, total_drop_min] at used
      have left :
          counted draws drawn₁ + total (txnSizes.drop (i + count)) ≤ counted draws goal := by
        rw [used]
        exact enough
      rw [made, Option.bind_some]
      exact ih _ _ test₁ before₁ (by omega) (by omega) left
    next done => exact ⟨_, rfl⟩

/-! ## Tests -/

/-- What `parse_txn_trace` relies on. -/
structure WellFormed (test : List Txn) : Prop where
  distinct : (test.map Txn.txnId).Nodup
  closed : ∀ txn ∈ test, ∀ dep ∈ txn.dependsOn, dep ∈ test.map Txn.txnId
  smaller : ∀ txn ∈ test, ∀ dep ∈ txn.dependsOn, dep < txn.txnId

/-- The ids go up from 1 and the batches depend on each other, the first one on `depends`. -/
structure Generated (txnSizes : List Int) (depends : List Nat) (txns : List Txn) : Prop where
  ids : txns.map Txn.txnId = List.range' 1 txnSizes.length
  batches : ∃ batches, txns = batches.flatten ∧ Batched depends batches

theorem Batched.dependsOn {depends : List Nat} {batches : List (List Txn)}
    (batched : Batched depends batches) {txn : Txn} (member : txn ∈ batches.flatten) :
    ∃ front back, batches.flatten = front ++ back ∧ txn ∈ back ∧
      ∀ dep ∈ txn.dependsOn, dep ∈ depends ++ front.map Txn.txnId := by
  induction batches generalizing depends with
  | nil => cases member
  | cons batch rest ih =>
    obtain ⟨some, same, batched⟩ := batched
    rw [List.flatten_cons, List.mem_append] at member
    rcases member with member | member
    · refine ⟨[], batch ++ rest.flatten, rfl, List.mem_append_left _ member, ?_⟩
      intro dep inside
      rw [same txn member] at inside
      exact List.mem_append_left _ inside
    · obtain ⟨front, back, cut, behind, inside⟩ := ih batched member
      refine ⟨batch ++ front, back, ?_, behind, ?_⟩
      · rw [List.flatten_cons, cut, List.append_assoc]
      · intro dep depended
        rw [List.map_append]
        exact List.mem_append_right _ (inside dep depended)

theorem Args.ids_filled (cityHash32 : Bytes → UInt32) (draws : Draws keyRange) (args : Args) :
    (args.filled cityHash32 draws).map Txn.txnId = if args.fillKvStore then [0] else [] := by
  rw [filled]
  split <;> rfl

/-- The fill transaction comes first, and nothing that it could depend on. -/
theorem Generated.wellFormed {args : Args} {txnSizes : List Int} {txns : List Txn}
    (generated : Generated txnSizes (if args.fillKvStore then [0] else []) txns) :
    WellFormed (args.filled cityHash32 draws ++ txns) := by
  have ids : (args.filled cityHash32 draws ++ txns).map Txn.txnId =
      (if args.fillKvStore then [0] else []) ++ List.range' 1 txnSizes.length := by
    rw [List.map_append, args.ids_filled cityHash32 draws, generated.ids]
  have sorted : ((args.filled cityHash32 draws ++ txns).map Txn.txnId).Pairwise (· < ·) := by
    rw [ids, List.pairwise_append]
    refine ⟨?_, List.pairwise_lt_range', ?_⟩
    · split <;> simp
    · intro first member id later
      have positive := (List.mem_range'_1.mp later).1
      split at member
      · rw [List.mem_singleton.mp member]
        exact positive
      · cases member
  have before : ∀ txn ∈ args.filled cityHash32 draws ++ txns, ∀ dep ∈ txn.dependsOn,
      dep ∈ (args.filled cityHash32 draws ++ txns).map Txn.txnId ∧ dep < txn.txnId := by
    intro txn member dep depended
    rcases List.mem_append.mp member with first | member
    · rw [Args.filled] at first
      split at first
      · rw [List.mem_singleton.mp first] at depended
        cases depended
      · cases first
    · obtain ⟨batches, rfl, batched⟩ := generated.batches
      obtain ⟨front, back, cut, behind, inside⟩ := batched.dependsOn member
      have earlier := inside dep depended
      rw [← args.ids_filled cityHash32 draws] at earlier
      rw [cut, ← List.append_assoc, List.map_append] at sorted ⊢
      rw [List.map_append] at sorted ⊢
      exact ⟨List.mem_append_left _ earlier,
        (List.pairwise_append.mp sorted).2.2 dep earlier _ (List.mem_map.mpr ⟨txn, behind, rfl⟩)⟩
  exact ⟨sorted.imp Nat.ne_of_lt, fun txn member dep depended => (before txn member dep depended).1,
    fun txn member dep depended => (before txn member dep depended).2⟩

/-- `generate_txns` ends and appends batches, the first one behind the fill transaction. -/
def Generates (cityHash32 : Bytes → UInt32) (draws : Draws keyRange) (args : Args)
    (txnSizes : List Int) : Prop :=
  ∃ enough, ∀ fuel, enough ≤ fuel → ∀ test, ∃ txns,
    generateTxns cityHash32 draws fuel test txnSizes args.numParallel args.fillKvStore =
      some (test ++ txns) ∧
    Generated txnSizes (if args.fillKvStore then [0] else []) txns

/-- `main` ends and what it writes is well-formed. -/
def Writes (cityHash32 : Bytes → UInt32) (draws : Draws keyRange) (args : Args) : Prop :=
  ∃ enough, ∀ fuel, enough ≤ fuel → ∃ test, args.main cityHash32 draws fuel = some test ∧
    WellFormed test

theorem generateTxns_eq {txnSizes : List Int} {numParallel : Int} {fuel : Nat}
    {fillGenerated : Bool} {test test' : List Txn}
    (ran : generateTxns cityHash32 draws fuel test txnSizes numParallel fillGenerated =
      some test') :
    (∃ txns, test' = test ++ txns ∧
      Generated txnSizes (if fillGenerated then [0] else []) txns) ∧ Enough draws txnSizes := by
  obtain ⟨⟨result, drawn⟩, looped, rfl⟩ := Option.map_eq_some_iff.mp ran
  obtain ⟨batches, same, ids, batched, used⟩ := txnsLoop_eq looped
  rw [List.drop_zero] at used
  constructor
  · exact ⟨batches.flatten, same, ids, batches, rfl, batched⟩
  · exact ⟨drawn, by omega⟩

theorem generates_of_enough (cityHash32 : Bytes → UInt32) (args : Args) {txnSizes : List Int}
    (enough : Enough draws txnSizes) : Generates cityHash32 draws args txnSizes := by
  obtain ⟨goal, enough⟩ := enough
  use goal + txnSizes.length + 1
  intro fuel bound test
  have ahead : counted draws 0 + total (txnSizes.drop 0) ≤ counted draws goal := by
    rw [counted, Nat.count_zero, List.drop_zero, Nat.zero_add]
    exact enough
  have fuels : txnSizes.length < fuel + 0 := by omega
  obtain ⟨result, looped⟩ := txnsLoop_ends cityHash32 args.numParallel
    (if args.fillKvStore then [0] else []) 0 test (Nat.zero_le goal) (show goal < fuel by omega)
    fuels (by omega) ahead
  have ran : generateTxns cityHash32 draws fuel test txnSizes args.numParallel args.fillKvStore =
      some result.1 := by
    rw [generateTxns, looped, Option.map_some]
  obtain ⟨⟨txns, same, generated⟩, _⟩ := generateTxns_eq ran
  exact ⟨txns, by rw [ran, same], generated⟩

/-- The generator ends with what it promises if enough GETs and PUTs are drawn, and otherwise it
does not end. -/
theorem generates_iff (cityHash32 : Bytes → UInt32) (draws : Draws keyRange) (args : Args) :
    (∀ txnSizes, Generates cityHash32 draws args txnSizes ↔ Enough draws txnSizes) ∧
      (Writes cityHash32 draws args ↔ Enough draws (args.txnSizes draws)) ∧
      ∀ txnSizes, ¬ Enough draws txnSizes → ∀ fuel test, generateTxns cityHash32 draws fuel test txnSizes
        args.numParallel args.fillKvStore = none := by
  refine ⟨fun txnSizes => ⟨?_, generates_of_enough cityHash32 args⟩, ⟨?_, ?_⟩,
    fun txnSizes few fuel test => ?_⟩
  · rintro ⟨enough, generates⟩
    obtain ⟨txns, ran, _⟩ := generates enough (le_refl enough) []
    exact (generateTxns_eq ran).2
  · rintro ⟨enough, writes⟩
    obtain ⟨test, ran, _⟩ := writes enough (le_refl enough)
    exact (generateTxns_eq ran).2
  · intro enough
    obtain ⟨bound, generates⟩ := generates_of_enough cityHash32 args enough
    use bound
    intro fuel fuels
    obtain ⟨txns, ran, generated⟩ := generates fuel fuels (args.filled cityHash32 draws)
    exact ⟨_, ran, generated.wellFormed⟩
  · rw [Option.eq_none_iff_forall_ne_some]
    intro test' ran
    exact few (generateTxns_eq ran).2

/-- One key, and nothing is drawn but `OP_SEND_AND_EXECUTE`. -/
def sendAndExecute : Draws ⟨0, 1, by decide⟩ where
  size _ := 0
  parallel _ := 0
  fillValue _ := 0
  key _ := 0
  value _ := 0
  op _ := .sendAndExecute
  key_mem _ := by decide
  value_lt _ := by decide

/-- A transaction of size 1 is never complete. -/
theorem not_generates_sendAndExecute : ¬ Generates (fun _ => 0) sendAndExecute {} [1] := by
  rintro ⟨enough, generates⟩
  obtain ⟨txns, ran, _⟩ := generates enough (le_refl enough) []
  obtain ⟨drawn, much⟩ := (generateTxns_eq ran).2
  have none : counted sendAndExecute drawn = 0 := by
    rw [counted, Nat.count_iff_forall_not]
    intro k _
    show TraceOp.sendAndExecute ∉ [TraceOp.get, .put]
    decide
  rw [none] at much
  revert much
  decide

/-! ## Reading the test -/

/-- The message that the loader gets. -/
def Txn.wire (txn : Txn) : Workload.Txn :=
  ⟨txn.isTxn, UInt64.ofNat txn.txnId, txn.dependsOn.map UInt64.ofNat, txn.cmds⟩

/-- Where the ids fit into their fields, the loader gets a trace. -/
theorem WellFormed.trace {test : List Txn} (wellFormed : WellFormed test)
    (fits : ∀ txn ∈ test, txn.txnId < 2 ^ 64) : ∃ T : Trace, T.txns = test.map Txn.wire := by
  have back : ∀ id ∈ test.map Txn.txnId, (UInt64.ofNat id).toNat = id := by
    intro id member
    obtain ⟨txn, listed, rfl⟩ := List.mem_map.mp member
    exact UInt64.toNat_ofNat_of_lt' (fits txn listed)
  have ids : (test.map Txn.wire).map Workload.Txn.txnId =
      (test.map Txn.txnId).map UInt64.ofNat := by
    rw [List.map_map, List.map_map]
    rfl
  refine ⟨⟨test.map Txn.wire, ?_, ?_, Trace.acyclic_of_rank UInt64.toNat ?_⟩, rfl⟩
  · rw [ids]
    apply wellFormed.distinct.map_on
    intro m first n second same
    rw [← back m first, same, back n second]
  · rintro _ member _ depended
    obtain ⟨txn, listed, rfl⟩ := List.mem_map.mp member
    obtain ⟨dep, inside, rfl⟩ := List.mem_map.mp depended
    rw [ids]
    exact List.mem_map.mpr ⟨dep, wellFormed.closed txn listed dep inside, rfl⟩
  · rintro _ member _ depended
    obtain ⟨txn, listed, rfl⟩ := List.mem_map.mp member
    obtain ⟨dep, inside, rfl⟩ := List.mem_map.mp depended
    rw [back dep (wellFormed.closed txn listed dep inside), Txn.wire,
      back txn.txnId (List.mem_map.mpr ⟨txn, listed, rfl⟩)]
    exact wellFormed.smaller txn listed dep inside

/-- So the loader reads it to the end, whatever the orders of its map. -/
theorem WellFormed.parse {test : List Txn} (wellFormed : WellFormed test)
    (fits : ∀ txn ∈ test, txn.txnId < 2 ^ 64)
    (loop destruction : Iteration (UInt64 × Nat × List UInt64)) :
    ∃ w, ∀ fuel, test.length ≤ fuel →
      parseTxnTrace loop destruction fuel (test.map Txn.wire) = some (w, 0) := by
  obtain ⟨T, txns⟩ := wellFormed.trace fits
  obtain ⟨w, _, _, ran, _⟩ := parseTxnTrace_owned T loop destruction
  refine ⟨w, fun fuel enough => ?_⟩
  rw [← txns]
  apply ran
  rw [Trace.ids, txns, List.map_map, List.length_map]
  exact enough

end CloudLab.Workload.Generator
