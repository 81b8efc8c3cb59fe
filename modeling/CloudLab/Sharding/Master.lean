import CloudLab.Sharding.Message
import CloudLab.Library.Maps

/-!
# The master (`task2/source/master_server.cpp`)

One round of the loop of `main` for a message that was received and parsed. The
result `none` is undefined behaviour: a remainder by zero, or reading through the
iterator `end()` when no server is registered under the computed number.
-/
namespace CloudLab.Sharding

open Library Library.Wire

structure Master where
  numServers : Nat := 0
  serverPortMap : StdMap Int Int32 := ∅
  kvMap : StdMap Int WireString := ∅
  deriving DecidableEq

/-- What a round sends: a reply on the accepted connection, then messages to ports. -/
structure Sends where
  reply : Option Msg := none
  messages : List (Int32 × Msg) := []
  deriving DecidableEq

namespace Master

/-- `server_port_map.find((key % num_servers) + 1)->second`, with C++'s remainder. -/
def route (m : Master) (key : Int) : Option Int32 :=
  if m.numServers = 0 then none else m.serverPortMap.find? (key.tmod m.numServers + 1)

def register (m : Master) (port : Int32) : Master :=
  { m with numServers := m.numServers + 1
           serverPortMap := m.serverPortMap.insert (m.numServers + 1 : Nat) port }

def reorgMessages (m : Master) : List (Int32 × Msg) :=
  m.serverPortMap.entries.map fun e => (e.2, { type_ := some .reorg })

def reorgPutMessage (key : Int) (value : WireString) : Msg :=
  { type_ := some .reorgPut, key_ := some (Int32.ofInt key), value_ := some value }

def reorgPutMessages (m : Master) : Option (List (Int32 × Msg)) :=
  m.kvMap.entries.mapM fun e => (m.route e.1).map fun port => (port, reorgPutMessage e.1 e.2)

def handle (m : Master) (msg : Msg) : Option (Master × Sends) :=
  match msg.type with
  | .masterPut => some ({ m with kvMap := m.kvMap.insert msg.key.toInt msg.value }, {})
  | .server =>
    if (m.register msg.port).numServers ≥ 3 then
      (m.register msg.port).reorgPutMessages.map fun puts =>
        (m.register msg.port, { messages := (m.register msg.port).reorgMessages ++ puts })
    else some (m.register msg.port, {})
  | .get | .put =>
    (m.route msg.key.toInt).map fun port =>
      (m, { reply := some { port_ := some port, type_ := some .reply } })
  | .reply | .reorg | .reorgPut => some (m, {})

theorem handle_server (m : Master) (port : Int32) : m.handle (serverMessage port) =
    if (m.register port).numServers ≥ 3 then
      (m.register port).reorgPutMessages.map fun puts =>
        (m.register port, { messages := (m.register port).reorgMessages ++ puts })
    else some (m.register port, {}) := rfl

/-! ## What is redistributed -/

/-- Every REORG_PUT carries an entry of the master's map to the server of its key. -/
theorem mem_reorgPutMessages {m : Master} {puts : List (Int32 × Msg)}
    (all : m.reorgPutMessages = some puts) {port : Int32} {msg : Msg} (member : (port, msg) ∈ puts) :
    ∃ k v, m.kvMap.find? k = some v ∧ m.route k = some port ∧ msg = reorgPutMessage k v := by
  obtain ⟨⟨k, v⟩, entry, sent⟩ := mem_of_mapM all member
  obtain ⟨p, routed, same⟩ := Option.map_eq_some_iff.mp sent
  obtain ⟨rfl, rfl⟩ := Prod.mk.inj same
  exact ⟨k, v, (m.kvMap.mem_entries_iff k v).mp entry, routed, rfl⟩

theorem reorgPutMessages_of_routes {m : Master} {ports : Int → Int32}
    (routed : ∀ k v, m.kvMap.find? k = some v → m.route k = some (ports k)) :
    m.reorgPutMessages =
      some (m.kvMap.entries.map fun e => (ports e.1, reorgPutMessage e.1 e.2)) := by
  apply mapM_of_forall
  rintro ⟨k, v⟩ member
  rw [routed k v ((m.kvMap.mem_entries_iff k v).mp member)]
  rfl

/-! ## Registered servers -/

/-- The servers `1 … n` of the port map are the given ports, in order of their joins. -/
structure Registered (m : Master) (ports : List Int32) : Prop where
  count : m.numServers = ports.length
  lookup : ∀ i : Nat, m.serverPortMap.find? (i + 1 : Nat) = ports[i]?
  positive : ∀ i : Int, i ≤ 0 → m.serverPortMap.find? i = none

theorem registered_empty : Registered {} [] where
  count := rfl
  lookup _ := rfl
  positive _ _ := rfl

theorem registered_register {m : Master} {ports : List Int32} (registered : m.Registered ports)
    (port : Int32) : (m.register port).Registered (ports ++ [port]) where
  count := by simp [register, registered.count]
  lookup i := by
    have old := registered.lookup
    simp only [register, StdMap.find?_insert, registered.count, List.getElem?_append]
    rcases Nat.lt_trichotomy i ports.length with less | rfl | more
    · rw [if_neg (by omega), if_pos less, old]
    · have free : m.serverPortMap.find? ((ports.length + 1 : Nat) : Int) = none := by
        rw [old, List.getElem?_eq_none (Nat.le_refl _)]
      rw [if_pos rfl, free, if_neg (by omega), Nat.sub_self]
      rfl
    · rw [if_neg (by omega), if_neg (by omega), old, List.getElem?_eq_none (by omega),
        List.getElem?_eq_none (by simp; omega)]
  positive i low := by
    simp only [register, StdMap.find?_insert]
    rw [if_neg (by omega), registered.positive i low]

theorem Registered.learned {m : Master} {ports : List Int32} (registered : m.Registered ports)
    (kvMap : StdMap Int WireString) : Registered { m with kvMap := kvMap } ports :=
  ⟨registered.count, registered.lookup, registered.positive⟩

/-- Which of `n` shards a key belongs to, counted from zero. -/
def shardIndex (n : Nat) (key : Int) : Nat := (key.tmod n).toNat

/-- The master computes a server number from 1 on for this key. -/
def Routable (n : Nat) (key : Int) : Prop := 0 ≤ key.tmod n

instance (n : Nat) (key : Int) : Decidable (Routable n key) :=
  inferInstanceAs (Decidable (0 ≤ key.tmod n))

theorem routable_of_nonneg (n : Nat) {key : Int} (nonneg : 0 ≤ key) : Routable n key :=
  Int.tmod_nonneg _ nonneg

theorem shardIndex_lt {n : Nat} (positive : 0 < n) {key : Int} (routable : Routable n key) :
    shardIndex n key < n := by
  have bound := Int.tmod_lt_of_pos key (b := n) (by omega)
  unfold Routable at routable
  unfold shardIndex
  omega

theorem shardIndex_cast (n : Nat) {key : Int} (nonneg : 0 ≤ key) :
    (shardIndex n key : Int) = key % n := by
  rw [shardIndex, Int.toNat_of_nonneg (routable_of_nonneg n nonneg),
    Int.tmod_eq_emod_of_nonneg nonneg]

theorem route_of_registered {m : Master} {ports : List Int32} (registered : m.Registered ports)
    (nonempty : 0 < ports.length) {key : Int} (routable : Routable ports.length key) :
    m.route key = ports[shardIndex ports.length key]? := by
  have index : key.tmod m.numServers + 1 = ((shardIndex ports.length key + 1 : Nat) : Int) := by
    unfold Routable at routable
    rw [registered.count, shardIndex]
    omega
  rw [route, if_neg (by rw [registered.count]; omega), index, registered.lookup]

/-- A negative remainder leads to `end()`. -/
theorem route_of_not_routable {m : Master} {ports : List Int32} (registered : m.Registered ports)
    {key : Int} (negative : ¬Routable ports.length key) : m.route key = none := by
  unfold Routable at negative
  rw [route]
  split
  · rfl
  · exact registered.positive _ (by rw [registered.count]; omega)

end Master

end CloudLab.Sharding
