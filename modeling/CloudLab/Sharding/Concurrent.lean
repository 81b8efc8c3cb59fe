import CloudLab.Sharding.Processes
import CloudLab.Sharding.Redistribution
import CloudLab.Library.Transition

/-!
# Clients, shards, joining servers and the master at once

Messages decode to what was sent, and a process that listens is given its connections in
the order in which they were made, each with its message. A step of a process ends when it
has sent something or waits. A client is named by its key: every key is put at most once.
The run ends when the master exits.
-/
namespace CloudLab.Sharding.Concurrent

open Library Library.Wire

abbrev Connection := Sharding.Connection Int32

abbrev Round := Sharding.Round Int32

/-- A client that puts a value under its key. -/
inductive Client where
  | idle
  /-- It waits for the master's reply. -/
  | asking (value : Argument)
  | routed (value : Argument) (port : Int32)
  /-- It waits for the shard's reply. -/
  | sent (value : Argument)
  /-- Exit code 0. -/
  | acked (value : Argument)
  | failed
  deriving DecidableEq

structure Process where
  listening : Bool := false
  queue : List Connection := []
  shard : Shard := {}
  round : Option Round := none

structure State where
  master : Master
  /-- What the master has left to send in its round. -/
  left : List (Int32 × Msg) := []
  exited : Bool := false
  inbox : List Connection := []
  process : Int32 → Process
  client : Int32 → Client := fun _ => .idle
  /-- The ports of the server processes. -/
  servers : List Int32
  /-- The keys of the clients that have started. -/
  started : List Int32 := []

inductive Action where
  | ask (key : Int32) (value : Argument)
  | put (key : Int32)
  | announce (port : Int32)
  | listen (port : Int32)
  /-- The master accepts the next connection. -/
  | take
  /-- The master sends the next message of its round. -/
  | forward
  /-- A shard accepts the next connection. -/
  | receive (port : Int32)
  | reply (port : Int32)
  | finish (port : Int32)

/-! ## Clients -/

def putMessage (k : Int32) (v : Argument) : Msg := (Request.put k v).message

def routeMessage (k : Int32) (v : Argument) : Msg := (Request.put k v).routeMessage

/-- The master's reply holds the port of a shard. -/
def Client.learn (reply : Msg) : Client → Client
  | .asking v => .routed v reply.port
  | c => c

/-- The shard's reply decides the exit code. -/
def Client.conclude (reply : Msg) : Client → Client
  | .sent v => if reply.status ≠ 0 then .acked v else .failed
  | c => c

namespace State

def setProcess (s : State) (port : Int32) (q : Process) : State :=
  { s with process := Function.update s.process port q }

def setClient (s : State) (k : Int32) (c : Client) : State :=
  { s with client := Function.update s.client k c }

/-- A reply on a connection, for the client at its other end. -/
def answer (s : State) (f : Msg → Client → Client) (client : Option Int32) (reply : Option Msg) :
    State :=
  { s with client := hear s.client f client reply }

/-- A connection to the port of a shard. -/
def connect (s : State) (port : Int32) (c : Connection) : State :=
  s.setProcess port { s.process port with queue := (s.process port).queue ++ [c] }

def stepAsk (s : State) (k : Int32) (v : Argument) : Option State :=
  if 0 ≤ k.toInt ∧ k ∉ s.started then
    some { s.setClient k (.asking v) with
      started := k :: s.started, inbox := s.inbox ++ [⟨some k, routeMessage k v⟩] }
  else none

def stepPut (s : State) (k : Int32) : Option State :=
  match s.client k with
  | .routed v port =>
    if (s.process port).listening then
      some ((s.connect port ⟨some k, putMessage k v⟩).setClient k (.sent v))
    else some (s.setClient k .failed)
  | _ => none

/-! ## Joining servers -/

def stepAnnounce (s : State) (port : Int32) : Option State :=
  if port ∈ s.servers then none
  else some { s with servers := port :: s.servers, inbox := s.inbox ++ [⟨none, serverMessage port⟩] }

def stepListen (s : State) (port : Int32) : Option State :=
  if port ∈ s.servers ∧ (s.process port).listening = false then
    some (s.setProcess port { s.process port with listening := true })
  else none

/-! ## The master -/

def stepTake (s : State) : Option State :=
  match s.left, s.inbox with
  | [], c :: rest =>
    (s.master.handle c.message).map fun r =>
      { s.answer Client.learn c.client r.2.reply with
        master := r.1, left := r.2.messages, inbox := rest }
  | _, _ => none

/-- The master exits when nobody listens on a registered port. -/
def stepForward (s : State) : Option State :=
  match s.left with
  | (port, m) :: rest =>
    if (s.process port).listening then some { s.connect port ⟨none, m⟩ with left := rest }
    else some { s with exited := true }
  | [] => none

/-! ## Shards -/

def stepReceive (s : State) (port : Int32) : Option State :=
  match (s.process port).round, (s.process port).queue with
  | none, c :: rest =>
    some (s.setProcess port { s.process port with
      queue := rest
      shard := ((s.process port).shard.receive c.message).1
      round := some ⟨c.client, ((s.process port).shard.receive c.message).2⟩ })
  | _, _ => none

def stepReply (s : State) (port : Int32) : Option State :=
  match (s.process port).round with
  | some ⟨client, ⟨some m, masterPut⟩⟩ =>
    some ((s.setProcess port { s.process port with round := some ⟨client, ⟨none, masterPut⟩⟩ }).answer
      Client.conclude client (some m))
  | _ => none

def stepFinish (s : State) (port : Int32) : Option State :=
  match (s.process port).round with
  | some ⟨_, ⟨none, masterPut⟩⟩ =>
    some { s.setProcess port { s.process port with
        shard := (s.process port).shard.finish ⟨none, masterPut⟩, round := none } with
      inbox := s.inbox ++ masterPut.toList.map fun p => ⟨none, p.1⟩ }
  | _ => none

end State

/-- The servers of a layout are registered and listen, with empty databases. -/
def start (l : Layout) : State where
  master := l.fresh.master
  process p := { listening := decide (p ∈ l.ports) }
  servers := l.ports

def system (l : Layout) : System State Action where
  init s := s = start l
  next s a :=
    if s.exited then none
    else match a with
      | .ask k v => s.stepAsk k v
      | .put k => s.stepPut k
      | .announce port => s.stepAnnounce port
      | .listen port => s.stepListen port
      | .take => s.stepTake
      | .forward => s.stepForward
      | .receive port => s.stepReceive port
      | .reply port => s.stepReply port
      | .finish port => s.stepFinish port

/-! ## What a step can do -/

inductive Step (s : State) : Action → State → Prop
  | ask {k : Int32} {v : Argument} (nonneg : 0 ≤ k.toInt) (fresh : k ∉ s.started) :
      Step s (.ask k v) { s.setClient k (.asking v) with
        started := k :: s.started, inbox := s.inbox ++ [⟨some k, routeMessage k v⟩] }
  | put {k : Int32} {v : Argument} {port : Int32} (routed : s.client k = .routed v port)
      (up : (s.process port).listening = true) :
      Step s (.put k) ((s.connect port ⟨some k, putMessage k v⟩).setClient k (.sent v))
  | refused {k : Int32} {v : Argument} {port : Int32} (routed : s.client k = .routed v port) :
      Step s (.put k) (s.setClient k .failed)
  | announce {port : Int32} (fresh : port ∉ s.servers) :
      Step s (.announce port) { s with
        servers := port :: s.servers, inbox := s.inbox ++ [⟨none, serverMessage port⟩] }
  | listen {port : Int32} (member : port ∈ s.servers) :
      Step s (.listen port) (s.setProcess port { s.process port with listening := true })
  | take {c : Connection} {rest : List Connection} {master : Master} {sends : Sends}
      (idle : s.left = []) (inbox : s.inbox = c :: rest)
      (handled : s.master.handle c.message = some (master, sends)) :
      Step s .take { s.answer Client.learn c.client sends.reply with
        master := master, left := sends.messages, inbox := rest }
  | forward {port : Int32} {m : Msg} {rest : List (Int32 × Msg)} (left : s.left = (port, m) :: rest)
      (up : (s.process port).listening = true) :
      Step s .forward { s.connect port ⟨none, m⟩ with left := rest }
  | exit : Step s .forward { s with exited := true }
  | receive {port : Int32} {c : Connection} {rest : List Connection}
      (free : (s.process port).round = none) (queue : (s.process port).queue = c :: rest) :
      Step s (.receive port) (s.setProcess port { s.process port with
        queue := rest
        shard := ((s.process port).shard.receive c.message).1
        round := some ⟨c.client, ((s.process port).shard.receive c.message).2⟩ })
  | reply {port : Int32} {client : Option Int32} {m : Msg} {masterPut : Option (Msg × Bytes)}
      (round : (s.process port).round = some ⟨client, ⟨some m, masterPut⟩⟩) :
      Step s (.reply port) ((s.setProcess port { s.process port with
        round := some ⟨client, ⟨none, masterPut⟩⟩ }).answer Client.conclude client (some m))
  | finish {port : Int32} {client : Option Int32} {masterPut : Option (Msg × Bytes)}
      (round : (s.process port).round = some ⟨client, ⟨none, masterPut⟩⟩) :
      Step s (.finish port) { s.setProcess port { s.process port with
          shard := (s.process port).shard.finish ⟨none, masterPut⟩, round := none } with
        inbox := s.inbox ++ masterPut.toList.map fun p => ⟨none, p.1⟩ }

theorem step_of_next {l : Layout} {s t : State} {a : Action} (taken : (system l).next s a = some t) :
    Step s a t := by
  simp only [system] at taken
  -- No step is taken behind the exit of the master.
  split_ifs at taken
  cases a with
  | ask k v =>
    simp only [State.stepAsk] at taken
    split_ifs at taken with fresh
    exact Option.some.inj taken ▸ .ask fresh.1 fresh.2
  | put k =>
    simp only [State.stepPut] at taken
    split at taken
    -- The PUT goes through if the shard listens.
    next v port routed =>
      split_ifs at taken with up
      · exact Option.some.inj taken ▸ .put routed up
      · exact Option.some.inj taken ▸ .refused routed
    next => cases taken
  | announce port =>
    simp only [State.stepAnnounce] at taken
    split_ifs at taken with fresh
    exact Option.some.inj taken ▸ .announce fresh
  | listen port =>
    simp only [State.stepListen] at taken
    split_ifs at taken with down
    exact Option.some.inj taken ▸ .listen down.1
  | take =>
    simp only [State.stepTake] at taken
    split at taken
    next c rest idle inbox =>
      obtain ⟨⟨master, sends⟩, handled, rfl⟩ := Option.map_eq_some_iff.mp taken
      exact .take idle inbox handled
    next => cases taken
  | forward =>
    simp only [State.stepForward] at taken
    split at taken
    next port m rest left =>
      split_ifs at taken with up
      · exact Option.some.inj taken ▸ .forward left up
      -- The master exits where nobody listens.
      · exact Option.some.inj taken ▸ .exit
    next => cases taken
  | receive port =>
    simp only [State.stepReceive] at taken
    split at taken
    next c rest free queue => exact Option.some.inj taken ▸ .receive free queue
    next => cases taken
  | reply port =>
    simp only [State.stepReply] at taken
    split at taken
    next client m masterPut round => exact Option.some.inj taken ▸ .reply round
    next => cases taken
  | finish port =>
    simp only [State.stepFinish] at taken
    split at taken
    next client masterPut round => exact Option.some.inj taken ▸ .finish round
    next => cases taken

/-! ## Quiescence -/

def Process.Idle (q : Process) : Prop := q.listening = true ∧ q.queue = [] ∧ q.round = none

def Client.Done : Client → Prop
  | .acked _ | .failed => True
  | _ => False

/-- No message is in flight and every process waits or has ended. -/
structure Quiescent (s : State) : Prop where
  alive : s.exited = false
  sent : s.left = []
  inbox : s.inbox = []
  servers : ∀ p ∈ s.servers, (s.process p).Idle
  clients : ∀ k ∈ s.started, (s.client k).Done

instance (q : Process) : Decidable q.Idle := inferInstanceAs (Decidable (_ ∧ _))

instance : DecidablePred Client.Done
  | .acked _ | .failed => .isTrue trivial
  | .idle | .asking _ | .routed _ _ | .sent _ => .isFalse id

instance (s : State) : Decidable (Quiescent s) :=
  decidable_of_iff (s.exited = false ∧ s.left = [] ∧ s.inbox = [] ∧
      (∀ p ∈ s.servers, (s.process p).Idle) ∧ ∀ k ∈ s.started, (s.client k).Done)
    ⟨fun ⟨alive, sent, inbox, servers, clients⟩ => ⟨alive, sent, inbox, servers, clients⟩,
      fun quiet => ⟨quiet.alive, quiet.sent, quiet.inbox, quiet.servers, quiet.clients⟩⟩

/-- Every acknowledged PUT is in the database of the shard that its key is routed to. -/
def Kept (s : State) : Prop :=
  ∀ k v, s.client k = .acked v → ∃ port, s.master.route k.toInt = some port ∧
    (s.process port).shard.find k = some v.string

end CloudLab.Sharding.Concurrent
