import CloudLab.Sharding.Transport
import CloudLab.Sharding.Server
import CloudLab.Sharding.Master

/-!
# Requests one after another

Master, shards and client (`task2/source/client.cpp`) run to completion for one
message at a time. `deliver` is the transport: what the handler at the other end
gets for a message that was sent, nothing when the receiver sees an empty result.
An action has no result when a process runs into undefined behaviour, exits or
waits for ever.
-/
namespace CloudLab.Sharding

open Library Library.Wire

/-- A string of the command line: a C string. -/
structure Argument where
  string : WireString
  plain : ZeroFree string.bytes
  deriving DecidableEq

/-- A value of one byte. -/
def letter (b : UInt8) (plain : b ≠ 0) : Argument :=
  ⟨⟨[b], Nat.lt_of_lt_of_le (by decide : 1 < 2) (by decide)⟩, by simp [plain]⟩

theorem letterA_plain : (97 : UInt8) ≠ 0 := by decide

def letterA : Argument := letter 97 letterA_plain

inductive Request where
  | put (key : Int32) (value : Argument)
  | get (key : Int32)
  deriving DecidableEq

namespace Request

def key : Request → Int32
  | .put key _ => key
  | .get key => key

/-- The message for the master; the operation is always GET. -/
def routeMessage (r : Request) : Msg := { type_ := some .get, key_ := some r.key }

/-- The message for the shard. -/
def message : Request → Msg
  | .put key value => { type_ := some .put, key_ := some key, value_ := some value.string }
  | .get key => { type_ := some .get, key_ := some key }

end Request

/-- The exit code of a client, and the shard's reply as the client decoded it. -/
structure Outcome where
  exit : Nat
  reply : Option Msg
  deriving DecidableEq

structure Cluster where
  master : Master := {}
  /-- The shard whose process listens on a port. -/
  shardAt : Int32 → Option Shard := fun _ => none

namespace Cluster

variable (deliver : Msg → Option Msg)

/-- A message to a port: no result when nothing listens there. -/
def toShard (c : Cluster) (port : Int32) (m : Msg) : Option (Cluster × Pending) :=
  (c.shardAt port).map fun s =>
    match deliver m with
    | none => (c, {})
    | some m =>
      ({ c with shardAt := Function.update c.shardAt port (some (s.handle m)) }, (s.receive m).2)

def sendAll (c : Cluster) : List (Int32 × Msg) → Option Cluster
  | [] => some c
  | (port, m) :: rest => (c.toShard deliver port m).bind fun r => r.1.sendAll rest

/-- A message to the master, all it sends in that round included. -/
def toMaster (c : Cluster) (m : Msg) : Option (Cluster × Option Msg) :=
  match deliver m with
  | none => some (c, none)
  | some m =>
    (c.master.handle m).bind fun r =>
      ({ c with master := r.1 }.sendAll deliver r.2.messages).map fun c => (c, r.2.reply)

def notifyMaster (c : Cluster) (p : Pending) : Option Cluster :=
  match p.masterPut with
  | none => some c
  | some (m, _) => (c.toMaster deliver m).map Prod.fst

/-- The exit code the client makes of the shard's reply. -/
def outcome (reply : Msg) : Outcome :=
  match deliver reply with
  | none => ⟨2, none⟩
  | some m4 => ⟨if m4.status ≠ 0 then 0 else 2, some m4⟩

/-- The second half of the client, behind the master's reply. -/
def askShard (c : Cluster) (port : Int32) (request : Request) : Option (Cluster × Outcome) :=
  match c.toShard deliver port request.message with
  | none => some (c, ⟨1, none⟩)
  | some (c, p) =>
    (c.notifyMaster deliver p).bind fun c =>
      p.reply.map fun reply => (c, outcome deliver reply)

/-- One run of the client. -/
def run (c : Cluster) (request : Request) : Option (Cluster × Outcome) :=
  (c.toMaster deliver request.routeMessage).bind fun r =>
    r.2.bind fun reply =>
      match deliver reply with
      | none => some (r.1, ⟨2, none⟩)
      | some m2 => r.1.askShard deliver m2.port request

def runAll (c : Cluster) : List Request → Option (Cluster × List (Request × Outcome))
  | [] => some (c, [])
  | request :: rest =>
    (c.run deliver request).bind fun r =>
      (r.1.runAll rest).map fun t => (t.1, (request, r.2) :: t.2)

/-- A server process starts with an empty database and announces its port. -/
def join (c : Cluster) (port : Int32) : Option Cluster :=
  ({ c with shardAt := Function.update c.shardAt port (some {}) }.toMaster deliver
    (serverMessage port)).map Prod.fst

end Cluster

/-- The ports of the servers, in the order of their joins. -/
structure Layout where
  ports : List Int32
  nonempty : 0 < ports.length
  distinct : ports.Nodup
  nonzero : ∀ p ∈ ports, p ≠ 0

/-- The servers of a layout are registered and every database is empty. -/
def Layout.fresh (l : Layout) : Cluster where
  master := l.ports.foldl Master.register {}
  shardAt p := if p ∈ l.ports then some {} else none

theorem Layout.fresh_registered (l : Layout) : l.fresh.master.Registered l.ports := by
  have general : ∀ (ports before : List Int32) (m : Master), m.Registered before →
      (ports.foldl Master.register m).Registered (before ++ ports) := by
    intro ports
    induction ports with
    | nil => intro before m registered; simpa using registered
    | cons p ps ih =>
      intro before m registered
      have rest := ih (before ++ [p]) (m.register p) (Master.registered_register registered p)
      simpa using rest
  have all := general l.ports [] {} Master.registered_empty
  simpa [Layout.fresh] using all

private theorem foldl_register_kvMap (ports : List Int32) (m : Master) :
    (ports.foldl Master.register m).kvMap = m.kvMap := by
  induction ports generalizing m with
  | nil => rfl
  | cons p ps ih => exact ih (m.register p)

theorem Layout.fresh_kvMap (l : Layout) : l.fresh.master.kvMap = ∅ :=
  foldl_register_kvMap l.ports {}

end CloudLab.Sharding
