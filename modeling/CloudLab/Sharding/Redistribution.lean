import CloudLab.Sharding.Server
import CloudLab.Sharding.Master

/-!
# Redistribution

What the messages of a join make of one shard: the REORG empties a shard whose keys
are all listed, and the REORG_PUTs fill it with the entries of the master's map that
belong to it. Nothing depends on what the shard held before.
-/
namespace CloudLab.Sharding

open Library Library.Wire

/-- The messages for one port, in order. -/
def sentTo (port : Int32) (messages : List (Int32 × Msg)) : List Msg :=
  (messages.filter fun e => e.1 = port).map Prod.snd

theorem sentTo_append (port : Int32) (xs ys : List (Int32 × Msg)) :
    sentTo port (xs ++ ys) = sentTo port xs ++ sentTo port ys := by
  simp [sentTo]

/-! ## The shard's side -/

namespace Shard

theorem foldl_reorg {s : Shard} (tracked : s.Tracked) {ms : List Msg} (nonempty : ms ≠ [])
    (reorgs : ∀ m ∈ ms, m.type = .reorg) : ms.foldl handle s = {} := by
  induction ms generalizing s with
  | nil => exact absurd rfl nonempty
  | cons m ms ih =>
    rw [List.foldl_cons, reorg_empties tracked (reorgs m (by simp))]
    cases ms with
    | nil => rfl
    | cons m' ms' => exact ih tracked_empty (by simp) fun q hq => reorgs q (by simp [hq])

theorem handle_reorgPutMessage (s : Shard) (k : Int32) {v : WireString} (plain : ZeroFree v.bytes) :
    s.handle (Master.reorgPutMessage k.toInt v) = s.store k v := by
  have key : (Master.reorgPutMessage k.toInt v).key = k := Int32.ofInt_toInt k
  rw [handle_reorgPut rfl, key]
  exact congrArg (s.store k) (WireString.cStr_eq_self plain)

theorem foldl_reorgPut (entries : List (Int × WireString))
    (keys : ∀ e ∈ entries, ∃ k : Int32, k.toInt = e.1) (plain : ∀ e ∈ entries, ZeroFree e.2.bytes)
    (s : Shard) :
    ((entries.map fun e => Master.reorgPutMessage e.1 e.2).foldl handle s).db =
      (entries.map fun e => (stdToString e.1, e.2)).foldl (fun db e => db.put e.1 e.2) s.db := by
  induction entries generalizing s with
  | nil => rfl
  | cons e rest ih =>
    obtain ⟨k, key⟩ := keys e (by simp)
    rw [List.map_cons, List.foldl_cons, ih (fun f hf => keys f (by simp [hf]))
      (fun f hf => plain f (by simp [hf])), ← key,
      handle_reorgPutMessage _ _ (plain e (by simp))]
    simp [store, key]

end Shard

/-! ## The master's side -/

namespace Master

/-- The master's map as clients fill it: non-negative keys of 32 bits, values without
zero bytes. -/
structure Known (m : Master) : Prop where
  keys : ∀ x v, m.kvMap.find? x = some v → ∃ k : Int32, k.toInt = x
  nonneg : ∀ x v, m.kvMap.find? x = some v → 0 ≤ x
  plain : ∀ x v, m.kvMap.find? x = some v → ZeroFree v.bytes

theorem known_empty : Known {} where
  keys x v held := by simp at held
  nonneg x v held := by simp at held
  plain x v held := by simp at held

theorem Known.insert {m : Master} (known : m.Known) {k : Int32} (nonneg : 0 ≤ k.toInt)
    {v : WireString} (plain : ZeroFree v.bytes) :
    Known { m with kvMap := m.kvMap.insert k.toInt v } := by
  have entry : ∀ x w, (m.kvMap.insert k.toInt v).find? x = some w →
      m.kvMap.find? x = some w ∨ (x = k.toInt ∧ w = v) := by
    intro x w held
    rw [StdMap.find?_insert] at held
    split at held
    next same =>
      subst same
      cases before : m.kvMap.find? k.toInt <;> simp_all
    next => exact Or.inl held
  refine ⟨fun x w held => ?_, fun x w held => ?_, fun x w held => ?_⟩
  · rcases entry x w held with old | ⟨rfl, rfl⟩
    · exact known.keys x w old
    · exact ⟨k, rfl⟩
  · rcases entry x w held with old | ⟨rfl, rfl⟩
    · exact known.nonneg x w old
    · exact nonneg
  · rcases entry x w held with old | ⟨rfl, rfl⟩
    · exact known.plain x w old
    · exact plain

theorem Known.register {m : Master} (known : m.Known) (port : Int32) : (m.register port).Known :=
  ⟨known.keys, known.nonneg, known.plain⟩

variable {m : Master} {ports : List Int32}

/-- The server of a key, by the list of ports. -/
def owner (ports : List Int32) (key : Int) : Int32 :=
  (ports[shardIndex ports.length key]?).getD 0

theorem route_of_known (registered : m.Registered ports) (nonempty : 0 < ports.length)
    {key : Int} (nonneg : 0 ≤ key) : m.route key = some (owner ports key) := by
  have routable := routable_of_nonneg ports.length nonneg
  rw [route_of_registered registered nonempty routable, owner,
    List.getElem?_eq_getElem (shardIndex_lt nonempty routable), Option.getD_some]

theorem owner_mem (nonempty : 0 < ports.length) {key : Int} (nonneg : 0 ≤ key) :
    owner ports key ∈ ports := by
  have inside := shardIndex_lt nonempty (routable_of_nonneg ports.length nonneg)
  rw [owner, List.getElem?_eq_getElem inside]
  exact List.getElem_mem inside

theorem owner_eq_iff (distinct : ports.Nodup) {key : Int} (nonneg : 0 ≤ key) {i : Nat}
    (bound : i < ports.length) : owner ports key = ports[i] ↔ shardIndex ports.length key = i := by
  have inside := shardIndex_lt (by omega : 0 < ports.length) (routable_of_nonneg ports.length nonneg)
  rw [owner, List.getElem?_eq_getElem inside, Option.getD_some]
  exact List.Nodup.getElem_inj_iff distinct

theorem reorgPutMessages_of_known (registered : m.Registered ports) (nonempty : 0 < ports.length)
    (known : m.Known) :
    m.reorgPutMessages =
      some (m.kvMap.entries.map fun e => (owner ports e.1, reorgPutMessage e.1 e.2)) :=
  reorgPutMessages_of_routes fun k v held =>
    route_of_known registered nonempty (known.nonneg k v held)

theorem mem_entries_of_registered (registered : m.Registered ports) {i : Nat}
    (bound : i < ports.length) : (((i + 1 : Nat) : Int), ports[i]) ∈ m.serverPortMap.entries := by
  rw [StdMap.mem_entries_iff, registered.lookup, List.getElem?_eq_getElem bound]

theorem port_of_mem_entries (registered : m.Registered ports) {e : Int × Int32}
    (member : e ∈ m.serverPortMap.entries) : e.2 ∈ ports := by
  have found := (m.serverPortMap.mem_entries_iff e.1 e.2).mp member
  have positive : 0 < e.1 := by
    by_contra low
    rw [registered.positive e.1 (by omega)] at found
    cases found
  rw [show e.1 = ((e.1.toNat - 1 + 1 : Nat) : Int) by omega, registered.lookup] at found
  exact List.mem_of_getElem? found

/-- What the messages of a join leave in the database of the `i`-th shard. -/
theorem foldl_redistribution (registered : m.Registered ports) (distinct : ports.Nodup)
    (known : m.Known) {puts : List (Int32 × Msg)} (all : m.reorgPutMessages = some puts) {i : Nat}
    (bound : i < ports.length) {s : Shard} (tracked : s.Tracked) (b : Bytes) (w : WireString) :
    ((sentTo ports[i] (m.reorgMessages ++ puts)).foldl Shard.handle s).db b = some w ↔
      ∃ k, b = stdToString k ∧ m.kvMap.find? k = some w ∧ shardIndex ports.length k = i := by
  have nonempty : 0 < ports.length := by omega
  -- REORG comes first and empties the shard.
  have emptied : (sentTo ports[i] m.reorgMessages).foldl Shard.handle s = {} := by
    apply Shard.foldl_reorg tracked
    · apply List.ne_nil_of_mem (a := { type_ := some .reorg })
      have entry := mem_entries_of_registered registered bound
      simp only [sentTo, reorgMessages, List.mem_map, List.mem_filter, decide_eq_true_eq]
      exact ⟨_, ⟨⟨_, entry, rfl⟩, rfl⟩, rfl⟩
    · intro q member
      simp only [sentTo, reorgMessages, List.mem_map, List.mem_filter] at member
      obtain ⟨_, ⟨⟨_, _, rfl⟩, _⟩, rfl⟩ := member
      rfl
  rw [reorgPutMessages_of_known registered nonempty known] at all
  obtain rfl := Option.some.inj all
  -- Of the entries the shard is sent those it owns.
  have own : sentTo ports[i] (m.kvMap.entries.map fun e => (owner ports e.1, reorgPutMessage e.1 e.2)) =
      (m.kvMap.entries.filter fun e => owner ports e.1 = ports[i]).map
        fun e => reorgPutMessage e.1 e.2 := by
    simp only [sentTo, List.filter_map, List.map_map]
    rfl
  have entry : ∀ e ∈ m.kvMap.entries.filter (fun e => owner ports e.1 = ports[i]),
      m.kvMap.find? e.1 = some e.2 := fun e member =>
    (m.kvMap.mem_entries_iff e.1 e.2).mp (List.mem_filter.mp member).1
  rw [sentTo_append, List.foldl_append, emptied, own,
    Shard.foldl_reorgPut _ (fun e member => known.keys _ _ (entry e member))
      (fun e member => known.plain _ _ (entry e member))]
  -- They have distinct texts, so each keeps its own value.
  have separate : (((m.kvMap.entries.filter fun e => owner ports e.1 = ports[i]).map
      fun e => (stdToString e.1, e.2)).map Prod.fst).Nodup := by
    have keys := m.kvMap.keys_nodup.sublist
      ((List.filter_sublist (p := fun e => owner ports e.1 = ports[i])).map Prod.fst)
    simpa [List.map_map, Function.comp_def] using List.Nodup.map stdToString_injective keys
  rw [Store.foldl_put_empty_iff _ separate]
  simp only [List.mem_map, List.mem_filter, decide_eq_true_eq, Prod.mk.injEq]
  constructor
  · rintro ⟨⟨k, v⟩, ⟨member, mine⟩, rfl, rfl⟩
    have held := (m.kvMap.mem_entries_iff k v).mp member
    exact ⟨k, rfl, held, (owner_eq_iff distinct (known.nonneg k v held) bound).mp mine⟩
  · rintro ⟨k, rfl, held, mine⟩
    exact ⟨(k, w), ⟨(m.kvMap.mem_entries_iff k w).mpr held,
      (owner_eq_iff distinct (known.nonneg k w held) bound).mpr mine⟩, rfl, rfl⟩

end Master

end CloudLab.Sharding
