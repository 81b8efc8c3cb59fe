import CloudLab.Sharding.Cluster

/-!
# What a transport does to the messages of task 2

Two transports are used below: the ideal one, where a message decodes to what was
sent, and the wire, where the receiver parses a C string. Both keep type and key of
every request; `keep` is what becomes of its value.
-/
namespace CloudLab.Sharding

open Library Library.Wire

/-- What clients, shards and the master send as requests: neither port nor status, no
value without its key, no zero byte in a value. -/
structure Msg.IsRequest (m : Msg) : Prop where
  typed : m.type_.isSome = true
  port : m.port_ = none
  status : m.status_ = none
  keyed : m.key_ = none → m.value_ = none
  plain : ∀ v, m.value_ = some v → ZeroFree v.bytes

theorem Msg.IsRequest.retyped {m : Msg} (request : m.IsRequest) (t : OperationType) :
    Msg.IsRequest { m with type_ := some t } where
  typed := rfl
  port := request.port
  status := request.status
  keyed := request.keyed
  plain := request.plain

theorem Msg.IsRequest.cStr_value {m : Msg} (request : m.IsRequest) : m.value.cStr = m.value := by
  apply WireString.cStr_eq_self
  cases stored : m.value_ with
  | none => simp [Msg.value, stored]
  | some v => simpa [Msg.value, stored] using request.plain v stored

theorem Request.routeMessage_isRequest (r : Request) : r.routeMessage.IsRequest where
  typed := rfl
  port := rfl
  status := rfl
  keyed _ := rfl
  plain _ present := by cases present

theorem Request.message_isRequest (r : Request) : r.message.IsRequest where
  typed := by cases r <;> rfl
  port := by cases r <;> rfl
  status := by cases r <;> rfl
  keyed absent := by cases r <;> cases absent
  plain v present := by
    cases r with
    | put key value => cases present; exact value.plain
    | get key => cases present

structure Delivery (deliver : Msg → Option Msg) (keep : Int32 → WireString → WireString) : Prop where
  request : ∀ m : Msg, m.IsRequest → ∃ m', deliver m = some m' ∧ m'.IsRequest ∧
    m'.type = m.type ∧ m'.key = m.key ∧ m'.value = keep m.key m.value
  acknowledged : deliver (generateMessage true) = some (generateMessage true)
  keep_keep : ∀ k v, keep k (keep k v) = keep k v

theorem delivery_ideal : Delivery some (fun _ v => v) where
  request m request := ⟨m, rfl, request, rfl, rfl, rfl⟩
  acknowledged := rfl
  keep_keep _ _ := rfl

/-- The value behind a zero key is cut off with it. -/
def wireKeep (key : Int32) (v : WireString) : WireString := if key = 0 then default else v

theorem delivery_wire : Delivery wireDeliver wireKeep where
  -- A key of 0 is a zero byte and takes the value behind it along.
  request m request := by
    obtain ⟨typed, port, status, keyed, plain⟩ := request
    rcases m with ⟨type, key, value, _, _⟩
    obtain ⟨t, rfl⟩ := Option.isSome_iff_exists.mp typed
    obtain rfl : _ = none := port
    obtain rfl : _ = none := status
    refine ⟨_, wireDeliver_request t key value plain, ?_, rfl, ?_, ?_⟩
    · refine ⟨rfl, rfl, rfl, fun absent => ?_, fun v present => ?_⟩
      · rcases key with _ | k
        · obtain rfl : value = none := keyed rfl
          simp
        · by_cases zero : k = 0
          · simp [zero]
          · simp [Option.filter_some, zero] at absent
      · split at present
        · cases present
        · exact plain v (Option.filter_eq_some_iff.mp present).1
    · rcases key with _ | k
      · rfl
      · by_cases zero : k = 0 <;> simp [Msg.key, Option.filter_some, zero]
    · rcases key with _ | k
      · obtain rfl : value = none := keyed rfl
        simp [Msg.value, Msg.key, wireKeep]
      · by_cases zero : k = 0
        · simp [Msg.value, Msg.key, wireKeep, zero]
        · rcases value with _ | v
          · simp [Msg.value, Msg.key, wireKeep, zero]
          · by_cases empty : v = default <;>
              simp [Msg.value, Msg.key, wireKeep, Option.filter_some, zero, empty]
  acknowledged := wireDeliver_of_survives rfl
    ⟨by simp [generateMessage], by simp [generateMessage], by simp [generateMessage],
      by simp [generateMessage]⟩
  keep_keep k v := by by_cases zero : k = 0 <;> simp [wireKeep, zero]

theorem wireDeliver_port {port : Int32} (nonzero : port ≠ 0) (t : OperationType) :
    wireDeliver { port_ := some port, type_ := some t } =
      some { port_ := some port, type_ := some t } :=
  wireDeliver_of_survives rfl ⟨by simp, by simpa using nonzero, by simp, by simp⟩

/-- The key a GET looks up: `static_cast<char>`. -/
def charKey (k : Int32) : Int32 := k.toInt8.toInt32

namespace Cluster

variable {deliver : Msg → Option Msg} {keep : Int32 → WireString → WireString}

/-- A client's question for a port leaves the master as it is. -/
theorem toMaster_route (delivery : Delivery deliver keep) (c : Cluster) (r : Request) :
    c.toMaster deliver r.routeMessage =
      (c.master.route r.key.toInt).map fun port =>
        (c, some { port_ := some port, type_ := some .reply }) := by
  obtain ⟨q, arrived, _, type, key, _⟩ := delivery.request _ r.routeMessage_isRequest
  have get : q.type = .get := by rw [type]; rfl
  have same : q.key = r.key := by rw [key]; rfl
  cases routed : c.master.route r.key.toInt <;>
    simp [toMaster, arrived, Master.handle, get, same, routed, sendAll]

theorem run_unrouted (delivery : Delivery deliver keep) {c : Cluster} {r : Request}
    (unrouted : c.master.route r.key.toInt = none) : c.run deliver r = none := by
  simp [run, toMaster_route delivery, unrouted]

theorem toMaster_masterPut (delivery : Delivery deliver keep) (c : Cluster) {m : Msg}
    (request : m.IsRequest) (kind : m.type = .masterPut) :
    c.toMaster deliver m =
      some ({ c with master.kvMap := c.master.kvMap.insert m.key.toInt (keep m.key m.value) },
        none) := by
  obtain ⟨p, arrived, _, type, key, value⟩ := delivery.request m request
  rw [kind] at type
  simp [toMaster, arrived, Master.handle, type, key, value, sendAll]

/-- Behind the master's answer a run is the exchange with the shard. -/
theorem run_routed (delivery : Delivery deliver keep) {c : Cluster} {r : Request} {port : Int32}
    (routed : c.master.route r.key.toInt = some port)
    (told : deliver { port_ := some port, type_ := some .reply } =
      some { port_ := some port, type_ := some .reply }) :
    c.run deliver r = c.askShard deliver port r := by
  rw [run, toMaster_route delivery, routed]
  simp only [Option.map_some, Option.bind_some, told, Msg.port, Option.getD_some]

/-- A PUT stores the value at the shard and tells the master of it. -/
theorem run_put (delivery : Delivery deliver keep) {c : Cluster} {k port : Int32} {v : Argument}
    {s : Shard} (routed : c.master.route k.toInt = some port)
    (told : deliver { port_ := some port, type_ := some .reply } =
      some { port_ := some port, type_ := some .reply })
    (live : c.shardAt port = some s) :
    c.run deliver (.put k v) =
      some ({ master := { c.master with kvMap := c.master.kvMap.insert k.toInt (keep k v.string) }
              shardAt := Function.update c.shardAt port (some (s.store k (keep k v.string))) },
        ⟨0, some (generateMessage true)⟩) := by
  obtain ⟨m, arrived, request, type, key, value⟩ :=
    delivery.request _ (Request.put k v).message_isRequest
  replace type : m.type = .put := type
  replace key : m.key = k := key
  replace value : m.value = keep k v.string := value
  have handled : s.handle m = s.store k (keep k v.string) := by
    rw [Shard.handle_put type, request.cStr_value, key, value]
  -- The shard answers, and notes what the master is to be told.
  have pending : (s.receive m).2 =
      ⟨some (generateMessage true), some ({ m with type_ := some .masterPut }, m.keyText)⟩ := by
    simp only [Shard.receive, type]
  -- MASTER_PUT is a request in its turn, cut in the same way.
  have noted (c : Cluster) : c.toMaster deliver { m with type_ := some .masterPut } =
      some ({ c with master.kvMap := c.master.kvMap.insert k.toInt (keep k v.string) }, none) := by
    have sent := toMaster_masterPut delivery c (request.retyped .masterPut) rfl
    rw [show Msg.key { m with type_ := some .masterPut } = k from key,
      show Msg.value { m with type_ := some .masterPut } = keep k v.string from value,
      delivery.keep_keep] at sent
    exact sent
  rw [run_routed (r := .put k v) delivery routed told]
  simp only [askShard, toShard, live, arrived, Option.map_some, handled, pending, notifyMaster,
    noted, Option.bind_some, outcome, delivery.acknowledged]
  rfl

/-- The shard's answer to a GET: what it holds under the key cast to `char`. -/
def getReply (found : Option WireString) : Msg :=
  { generateMessage found.isSome with value_ := some (found.getD default) }

/-- A GET changes nothing. -/
theorem run_get (delivery : Delivery deliver keep) {c : Cluster} {k port : Int32} {s : Shard}
    (routed : c.master.route k.toInt = some port)
    (told : deliver { port_ := some port, type_ := some .reply } =
      some { port_ := some port, type_ := some .reply })
    (live : c.shardAt port = some s) :
    c.run deliver (.get k) = some (c, outcome deliver (getReply (s.find (charKey k)))) := by
  obtain ⟨m, arrived, _, type, key, _⟩ := delivery.request _ (Request.get k).message_isRequest
  replace type : m.type = .get := type
  replace key : m.key = k := key
  have pending : (s.receive m).2 = ⟨some (getReply (s.find (charKey k))), none⟩ := by
    simp only [Shard.receive, type, getReply, Shard.find, Msg.charText, key, charKey,
      Int8.toInt_toInt32]
  have unchanged : Function.update c.shardAt port (some s) = c.shardAt := by
    rw [← live, Function.update_eq_self]
  rw [run_routed (r := .get k) delivery routed told]
  simp only [askShard, toShard, live, arrived, Option.map_some, Shard.handle_get type, unchanged,
    pending, notifyMaster, Option.bind_some]

end Cluster

end CloudLab.Sharding
