import CloudLab.Sharding.Linearizable

/-!
# Clients at once while servers join

The processes of `Clients` from the start of the master: no server is registered yet, and any number
of them join at any time, with what the master sends behind a join. Replies and redistributed values
may overtake PUTs, so the clients no longer see a map. But whatever the order of the steps, the value
that answers a GET has been put under the key that the GET looks up: `answers_written`.

The master is killed when a client asks it before the first server has joined, and exits when it
cannot reach a server. Then the shards go on, until they have to tell it of a PUT. Runs stop where the
behaviour is undefined: the master has no step for a key with a negative remainder, for which it reads
through `end()`.
-/
namespace CloudLab.Sharding.Growing

open Library Library.Wire Clients

structure State (T : Type) extends Clients.State T where
  /-- What the master has left to send in its round. -/
  left : List (Int32 × Msg) := []
  exited : Bool := false
  listening : Int32 → Bool := fun _ => false
  /-- The ports of the server processes. -/
  servers : List Int32 := []

inductive Action (T : Type) where
  | start (x : T) (r : Request)
  | announce (port : Int32)
  | listen (port : Int32)
  | take
  /-- The master sends the next message of its round. -/
  | forward
  | connect (x : T)
  | receive (port : Int32)
  | reply (port : Int32)
  | finish (port : Int32)
  /-- A client's connection is closed without a reply. -/
  | lose (x : T)
  | exit (x : T)

variable {T : Type} [DecidableEq T] (deliver : Msg → Option Msg)

/-- The clients that a shard has to answer. -/
def waiting (q : Process T) : List T :=
  (q.round.bind fun round => if round.pending.reply.isSome then round.client else none).toList ++
    q.queue.filterMap Connection.client

/-- The connection on which a client waits is still there. -/
def Connected (s : Clients.State T) (x : T) : Client → Prop
  | .asking _ => x ∈ s.inbox.filterMap Connection.client
  | .sent _ port => x ∈ waiting (s.process port)
  | _ => True

instance (s : Clients.State T) (x : T) : DecidablePred (Connected s x)
  | .asking _ | .sent _ _ => inferInstanceAs (Decidable (_ ∈ _))
  | .idle | .routed _ _ | .ended _ => .isTrue trivial

namespace State

variable (s : State T)

/-- A connection to the port of a shard. -/
def enqueue (port : Int32) (c : Connection T) : Clients.State T :=
  s.setProcess port { s.process port with queue := (s.process port).queue ++ [c] }

/-- The master is gone, and the connections to it are closed. -/
def down : State T := { s with inbox := [], left := [], exited := true }

/-- Without a master a client exits at once. -/
def stepStart (x : T) (r : Request) : Option (State T) :=
  if s.exited then
    match s.client x with
    | .idle => some { s with toState := { s.setClient x (.ended ⟨1, none⟩) with
        history := s.history ++ [.called x r] } }
    | _ => none
  else (s.toState.stepStart x r).map fun t => { s with toState := t }

/-- Without a master a server does not come so far. -/
def stepAnnounce (port : Int32) : Option (State T) :=
  if s.exited ∨ port ∈ s.servers then none
  else some { s with
    servers := port :: s.servers, inbox := s.inbox ++ [⟨none, serverMessage port⟩] }

def stepListen (port : Int32) : Option (State T) :=
  if port ∈ s.servers ∧ s.listening port = false then
    some { s with listening := Function.update s.listening port true }
  else none

/-- A remainder by zero kills the master. -/
def stepTake : Option (State T) :=
  match s.left, s.inbox with
  | [], c :: rest =>
    match deliver c.message with
    | none => some { s with inbox := rest }
    | some m =>
      if s.master.numServers = 0 ∧ (m.type = .get ∨ m.type = .put) then some s.down
      else (s.master.handle m).map fun r =>
        { s with
          toState := { s.toState.answer (Client.learn deliver) c.client r.2.reply with
            master := r.1, inbox := rest }
          left := r.2.messages }
  | _, _ => none

/-- The master exits when nobody listens on a registered port. -/
def stepForward : Option (State T) :=
  match s.left with
  | (port, m) :: rest =>
    if s.listening port then some { s with toState := s.enqueue port ⟨none, m⟩, left := rest }
    else some s.down
  | [] => none

def stepConnect (x : T) : Option (State T) :=
  match s.client x with
  | .routed r port =>
    if s.listening port then
      some { s with toState := (s.enqueue port ⟨some x, r.message⟩).setClient x (.sent r port) }
    else some { s with toState := s.setClient x (.ended ⟨1, none⟩) }
  | _ => none

/-- The server on a port is gone, and the connections to it are closed. -/
def serverDown (port : Int32) : State T :=
  { s with
    toState := s.setProcess port { s.process port with queue := [], round := none }
    listening := Function.update s.listening port false
    servers := s.servers.filter (· ≠ port) }

/-- A shard that cannot tell the master of a PUT exits. -/
def stepFinish (port : Int32) : Option (State T) :=
  match s.exited, (s.process port).round with
  | true, some ⟨_, ⟨none, some _⟩⟩ => some (s.serverDown port)
  | _, _ => (s.toState.stepFinish port).map fun t => { s with toState := t }

/-- A client whose connection is gone has no reply. -/
def stepLose (x : T) : Option (State T) :=
  if Connected s.toState x (s.client x) then none
  else some { s with toState := s.setClient x (.ended ⟨2, none⟩) }

end State

variable (T) in
def servers : System (State T) (Action T) where
  init s := s = { master := {} }
  next s
    | .start x r => s.stepStart x r
    | .announce port => s.stepAnnounce port
    | .listen port => s.stepListen port
    | .take => s.stepTake deliver
    | .forward => s.stepForward
    | .connect x => s.stepConnect x
    | .receive port => (s.toState.stepReceive deliver port).map fun t => { s with toState := t }
    | .reply port => (s.toState.stepReply deliver port).map fun t => { s with toState := t }
    | .finish port => s.stepFinish port
    | .lose x => s.stepLose x
    | .exit x => (s.toState.stepExit x).map fun t => { s with toState := t }

/-! ## What a step can do -/

inductive Step (s : State T) : State T → Prop
  | start {x : T} (r : Request) (idle : s.client x = .idle) :
      Step s { s with toState := { s.setClient x (.asking r) with
        inbox := s.inbox ++ [⟨some x, r.routeMessage⟩], history := s.history ++ [.called x r] } }
  | startDown {x : T} (r : Request) (idle : s.client x = .idle) (gone : s.exited = true) :
      Step s { s with toState := { s.setClient x (.ended ⟨1, none⟩) with
        history := s.history ++ [.called x r] } }
  | announce (port : Int32) :
      Step s { s with
        servers := port :: s.servers, inbox := s.inbox ++ [⟨none, serverMessage port⟩] }
  | listen (port : Int32) : Step s { s with listening := Function.update s.listening port true }
  | ignore {c : Connection T} {rest : List (Connection T)} (inbox : s.inbox = c :: rest)
      (lost : deliver c.message = none) :
      Step s { s with inbox := rest }
  | take {c : Connection T} {rest : List (Connection T)} {m : Msg} {master : Master} {sends : Sends}
      (inbox : s.inbox = c :: rest) (arrived : deliver c.message = some m)
      (handled : s.master.handle m = some (master, sends)) :
      Step s { s with
        toState := { s.toState.answer (Client.learn deliver) c.client sends.reply with
          master := master, inbox := rest }
        left := sends.messages }
  | forward {port : Int32} {m : Msg} {rest : List (Int32 × Msg)} (left : s.left = (port, m) :: rest) :
      Step s { s with toState := s.enqueue port ⟨none, m⟩, left := rest }
  | down : Step s s.down
  | connect {x : T} {r : Request} {port : Int32} (routed : s.client x = .routed r port) :
      Step s { s with toState := (s.enqueue port ⟨some x, r.message⟩).setClient x (.sent r port) }
  | refused {x : T} {r : Request} {port : Int32} (routed : s.client x = .routed r port) :
      Step s { s with toState := s.setClient x (.ended ⟨1, none⟩) }
  | drop {port : Int32} {c : Connection T} {rest : List (Connection T)}
      (queue : (s.process port).queue = c :: rest) (lost : deliver c.message = none) :
      Step s { s with toState := s.setProcess port { s.process port with queue := rest } }
  | receive {port : Int32} {c : Connection T} {rest : List (Connection T)} {m : Msg}
      (free : (s.process port).round = none) (queue : (s.process port).queue = c :: rest)
      (arrived : deliver c.message = some m) :
      Step s { s with toState := s.setProcess port {
        queue := rest
        shard := ((s.process port).shard.receive m).1
        round := some ⟨c.client, ((s.process port).shard.receive m).2⟩ } }
  | reply {port : Int32} {client : Option T} {m : Msg} {masterPut : Option (Msg × Bytes)}
      (round : (s.process port).round = some ⟨client, ⟨some m, masterPut⟩⟩) :
      Step s { s with toState := (s.setProcess port { s.process port with
        round := some ⟨client, ⟨none, masterPut⟩⟩ }).answer (Client.conclude deliver) client (some m) }
  | finish {port : Int32} {client : Option T} {masterPut : Option (Msg × Bytes)}
      (round : (s.process port).round = some ⟨client, ⟨none, masterPut⟩⟩) :
      Step s { s with toState := { s.setProcess port { s.process port with
          shard := (s.process port).shard.finish ⟨none, masterPut⟩, round := none } with
        inbox := s.inbox ++ masterPut.toList.map fun p => ⟨none, p.1⟩ } }
  | serverDown (port : Int32) (gone : s.exited = true) : Step s (s.serverDown port)
  | lose {x : T} (closed : ¬Connected s.toState x (s.client x)) :
      Step s { s with toState := s.setClient x (.ended ⟨2, none⟩) }
  | exit {x : T} {o : Outcome} (ended : s.client x = .ended o) :
      Step s { s with toState := { s.setClient x .idle with
        history := s.history ++ [.returned x o] } }

variable {deliver} {s t : State T}

theorem step_of_next {a : Action T} (taken : (servers T deliver).next s a = some t) :
    Step deliver s t := by
  cases a with
  | start x r =>
    simp only [servers, State.stepStart] at taken
    split_ifs at taken with gone
    -- There is no master any more.
    · split at taken
      next idle => exact Option.some.inj taken ▸ .startDown r idle gone
      next => cases taken
    · obtain ⟨u, step, rfl⟩ := Option.map_eq_some_iff.mp taken
      unfold Clients.State.stepStart at step
      split at step
      next idle => exact Option.some.inj step ▸ .start r idle
      next => cases step
  | announce port =>
    simp only [servers, State.stepAnnounce] at taken
    split_ifs at taken
    exact Option.some.inj taken ▸ .announce port
  | listen port =>
    simp only [servers, State.stepListen] at taken
    split_ifs at taken
    exact Option.some.inj taken ▸ .listen port
  | take =>
    simp only [servers, State.stepTake] at taken
    split at taken
    next c rest _ inbox =>
      split at taken
      next lost => exact Option.some.inj taken ▸ .ignore inbox lost
      next m arrived =>
        split_ifs at taken
        · exact Option.some.inj taken ▸ .down
        · obtain ⟨⟨master, sends⟩, handled, rfl⟩ := Option.map_eq_some_iff.mp taken
          exact .take inbox arrived handled
    next => cases taken
  | forward =>
    simp only [servers, State.stepForward] at taken
    split at taken
    next port m rest left =>
      split_ifs at taken
      · exact Option.some.inj taken ▸ .forward left
      · exact Option.some.inj taken ▸ .down
    next => cases taken
  | connect x =>
    simp only [servers, State.stepConnect] at taken
    split at taken
    next r port routed =>
      split_ifs at taken
      · exact Option.some.inj taken ▸ .connect routed
      · exact Option.some.inj taken ▸ .refused routed
    next => cases taken
  | receive port =>
    obtain ⟨u, step, rfl⟩ := Option.map_eq_some_iff.mp taken
    unfold Clients.State.stepReceive at step
    split at step
    next c rest free queue =>
      split at step
      next lost => exact Option.some.inj step ▸ .drop queue lost
      next m arrived => exact Option.some.inj step ▸ .receive free queue arrived
    next => cases step
  | reply port =>
    obtain ⟨u, step, rfl⟩ := Option.map_eq_some_iff.mp taken
    unfold Clients.State.stepReply at step
    split at step
    next round => exact Option.some.inj step ▸ .reply round
    next => cases step
  | finish port =>
    simp only [servers, State.stepFinish] at taken
    split at taken
    next gone _ => exact Option.some.inj taken ▸ .serverDown port gone
    next =>
      obtain ⟨u, step, rfl⟩ := Option.map_eq_some_iff.mp taken
      unfold Clients.State.stepFinish at step
      split at step
      next round => exact Option.some.inj step ▸ .finish round
      next => cases step
  | lose x =>
    simp only [servers, State.stepLose] at taken
    split_ifs at taken with closed
    exact Option.some.inj taken ▸ .lose closed
  | exit x =>
    obtain ⟨u, step, rfl⟩ := Option.map_eq_some_iff.mp taken
    unfold Clients.State.stepExit at step
    split at step
    next ended => exact Option.some.inj step ▸ .exit ended
    next => cases step

/-! ## What has been put -/

/-- Some client has called for the value under the key. -/
def Written (h : List (Object.Event T Request Outcome)) (k : Int32) (w : WireString) : Prop :=
  ∃ x v, .called x (.put k v) ∈ h ∧ w = wireKeep k v.string

/-- A message that carries a value carries one that was put. -/
def Carries (h : List (Object.Event T Request Outcome)) (m : Msg) : Prop :=
  m.type = .put ∨ m.type = .reorgPut ∨ m.type = .masterPut → Written h m.key (wireKeep m.key m.value)

def Honest (h : List (Object.Event T Request Outcome)) (m : Msg) : Prop :=
  (∃ port, m = serverMessage port) ∨ m.IsRequest ∧ Carries h m

/-- A database holds what was put, under the texts of the keys. -/
def Holds (h : List (Object.Event T Request Outcome)) (db : Store Bytes WireString) : Prop :=
  ∀ t w, db t = some w → ∃ k : Int32, t = stdToString k.toInt ∧ Written h k w

/-- The outcomes that a client can have, where `gone` says that the master has exited. A value that
it finds has been put under the key that the shard looks up. -/
inductive Told (gone : Prop) (h : List (Object.Event T Request Outcome)) : Request → Outcome → Prop
  | refused (r : Request) : Told gone h r ⟨1, none⟩
  | lost (r : Request) (down : gone) : Told gone h r ⟨2, none⟩
  | stored (k : Int32) (v : Argument) : Told gone h (.put k v) ⟨0, some (generateMessage true)⟩
  | missing (k : Int32) : Told gone h (.get k) ⟨2, some { type_ := some .reply }⟩
  | found {k : Int32} {x : T} {v : Argument} (put : .called x (.put (charKey k) v) ∈ h) :
      Told gone h (.get k)
        ⟨0, some { type_ := some .reply, value_ := some v.string, status_ := some 1 }⟩

/-- The request that a client has called last. -/
def lastCall (x : T) (h : List (Object.Event T Request Outcome)) : Option Request :=
  h.reverse.findSome? fun
    | .called y r => if y = x then some r else none
    | .returned _ _ => none

section Values

variable {h h' : List (Object.Event T Request Outcome)} {k : Int32} {w : WireString} {m m' : Msg}

omit [DecidableEq T] in
theorem Written.mono (written : Written h k w) (sub : h ⊆ h') : Written h' k w := by
  obtain ⟨x, v, called, same⟩ := written
  exact ⟨x, v, sub called, same⟩

omit [DecidableEq T] in
theorem Honest.mono (honest : Honest h m) (sub : h ⊆ h') : Honest h' m :=
  honest.imp id fun ⟨request, carries⟩ => ⟨request, fun put => (carries put).mono sub⟩

omit [DecidableEq T] in
theorem Holds.mono {db : Store Bytes WireString} (holds : Holds h db) (sub : h ⊆ h') : Holds h' db := by
  intro t w stored
  obtain ⟨k, same, written⟩ := holds t w stored
  exact ⟨k, same, written.mono sub⟩

omit [DecidableEq T] in
theorem Told.mono {gone gone' : Prop} {r : Request} {o : Outcome} (told : Told gone h r o)
    (later : gone → gone') (sub : h ⊆ h') : Told gone' h' r o := by
  cases told with
  | refused => exact .refused r
  | lost _ down => exact .lost r (later down)
  | stored k v => exact .stored k v
  | missing k => exact .missing k
  | found put => exact .found (sub put)

omit [DecidableEq T] in
theorem Written.plain (written : Written h k w) : ZeroFree w.bytes := by
  obtain ⟨_, v, _, rfl⟩ := written
  unfold wireKeep
  split
  · simp
  · exact v.plain

omit [DecidableEq T] in
/-- What was kept is kept. -/
theorem Written.keep (written : Written h k w) : wireKeep k w = w := by
  obtain ⟨_, v, _, rfl⟩ := written
  exact delivery_wire.keep_keep k v.string

/-- Without its port too the message of a joining server is one. -/
theorem wireDeliver_server (port : Int32) :
    ∃ m, wireDeliver (serverMessage port) = some m ∧ m.type = .server := by
  by_cases zero : port = 0
  · have tag := survives_type .server
    refine ⟨{ type_ := some .server }, ?_, rfl⟩
    rw [wireDeliver_eq rfl]
    simp [serverMessage, Msg.fields, tag, zero]
  · exact ⟨_, wireDeliver_port zero .server, rfl⟩

/-- A message that was sent, as the receiver has it. -/
def Arrived (h : List (Object.Event T Request Outcome)) (m : Msg) : Prop :=
  m.type = .server ∨ m.IsRequest ∧
    (m.type = .put ∨ m.type = .reorgPut ∨ m.type = .masterPut → Written h m.key m.value)

omit [DecidableEq T] in
theorem Honest.arrived (honest : Honest h m) (arrived : wireDeliver m = some m') : Arrived h m' := by
  rcases honest with ⟨port, rfl⟩ | ⟨request, carries⟩
  · obtain ⟨n, same, type⟩ := wireDeliver_server port
    obtain rfl := Option.some.inj (same.symm.trans arrived)
    exact .inl type
  · obtain ⟨n, same, request', type, key, value⟩ := delivery_wire.request m request
    obtain rfl := Option.some.inj (same.symm.trans arrived)
    refine .inr ⟨request', fun put => ?_⟩
    rw [type] at put
    rw [key, value]
    exact carries put

omit [DecidableEq T] in
/-- No message is dropped. -/
theorem Honest.delivered (honest : Honest h m) : wireDeliver m ≠ none := by
  intro lost
  rcases honest with ⟨port, rfl⟩ | ⟨request, _⟩
  · obtain ⟨n, same, _⟩ := wireDeliver_server port
    cases lost.symm.trans same
  · obtain ⟨n, same, _⟩ := delivery_wire.request m request
    cases lost.symm.trans same

/-! ## The rounds of shard and master -/

omit [DecidableEq T] in
theorem Holds.put {db : Store Bytes WireString} (holds : Holds h db) (request : m.IsRequest)
    (written : Written h m.key m.value) : Holds h (db.put m.keyText m.value.cStr) := by
  intro t w stored
  rw [Store.put_apply, request.cStr_value] at stored
  split at stored
  next same =>
    obtain rfl := Option.some.inj stored
    exact ⟨m.key, same, written⟩
  next => exact holds t w stored

omit [DecidableEq T] in
theorem Holds.receive {shard : Shard} (holds : Holds h shard.db) (arrived : Arrived h m) :
    Holds h (shard.receive m).1.db := by
  cases type : m.type with
  | reorg =>
    intro t w stored
    simp only [Shard.receive, type, Store.foldl_delete] at stored
    split at stored
    · cases stored
    · exact holds t w stored
  | put | reorgPut =>
    rcases arrived with server | ⟨request, written⟩
    · cases server.symm.trans type
    · simp only [Shard.receive, type]
      exact holds.put request (written (by simp [type]))
  | get | server | reply | masterPut => simpa only [Shard.receive, type] using holds

omit [DecidableEq T] in
theorem Arrived.masterPut {shard : Shard} (arrived : Arrived h m) {e : Msg × Bytes}
    (put : (shard.receive m).2.masterPut = some e) : Honest h e.1 := by
  have type : m.type = .put := by
    cases type : m.type <;> simp [Shard.receive, type] at put ⊢
  simp only [Shard.receive, type, Option.some.injEq] at put
  subst put
  rcases arrived with server | ⟨request, written⟩
  · cases server.symm.trans type
  · refine .inr ⟨request.retyped .masterPut, fun _ => ?_⟩
    have written := written (.inl type)
    show Written h m.key (wireKeep m.key m.value)
    rwa [written.keep]

/-- The master's map holds what was put. -/
def Learned (h : List (Object.Event T Request Outcome)) (master : Master) : Prop :=
  ∀ x w, master.kvMap.find? x = some w → ∃ k : Int32, k.toInt = x ∧ Written h k w

omit [DecidableEq T] in
theorem Learned.reorgPut {master : Master} (learned : Learned h master) {x : Int}
    (found : master.kvMap.find? x = some w) : Honest h (Master.reorgPutMessage x w) := by
  obtain ⟨k, rfl, written⟩ := learned x w found
  refine .inr ⟨⟨rfl, rfl, rfl, (fun none => by cases none), fun v same => ?_⟩, fun _ => ?_⟩
  · obtain rfl := Option.some.inj same
    exact written.plain
  · show Written h (Int32.ofInt k.toInt) (wireKeep (Int32.ofInt k.toInt) w)
    rwa [Int32.ofInt_toInt, written.keep]

omit [DecidableEq T] in
theorem Learned.handle {master master' : Master} {sends : Sends} (learned : Learned h master)
    (arrived : Arrived h m) (handled : master.handle m = some (master', sends)) :
    Learned h master' ∧ ∀ e ∈ sends.messages, Honest h e.2 := by
  cases type : m.type with
  | masterPut =>
    simp only [Master.handle, type, Option.some.injEq, Prod.mk.injEq] at handled
    obtain ⟨rfl, rfl⟩ := handled
    refine ⟨fun x w found => ?_, fun e member => by cases member⟩
    rw [StdMap.find?_insert] at found
    split at found
    next same =>
      -- The first value of a key stays.
      rcases old : master.kvMap.find? m.key.toInt with _ | v
      · rcases arrived with server | ⟨_, written⟩
        · cases server.symm.trans type
        · obtain rfl : m.value = w := by simpa [old] using found
          exact ⟨m.key, same.symm, written (by simp [type])⟩
      · obtain rfl : v = w := by simpa [old] using found
        exact same ▸ learned _ v old
    next => exact learned x w found
  | server =>
    simp only [Master.handle, type] at handled
    split at handled
    · obtain ⟨puts, all, same⟩ := Option.map_eq_some_iff.mp handled
      obtain ⟨rfl, rfl⟩ := Prod.mk.inj same
      refine ⟨learned, fun e member => ?_⟩
      rcases List.mem_append.mp member with reorg | put
      · obtain ⟨_, _, rfl⟩ := List.mem_map.mp reorg
        have request : Msg.IsRequest { type_ := some .reorg } :=
          ⟨rfl, rfl, rfl, fun _ => rfl, fun v some => by cases some⟩
        exact .inr ⟨request, fun put => by simp [Msg.type] at put⟩
      · obtain ⟨port, m⟩ := e
        obtain ⟨x, w, found, _, same⟩ := Master.mem_reorgPutMessages all put
        rw [same]
        exact Learned.reorgPut learned found
    · obtain ⟨rfl, rfl⟩ := Prod.mk.inj (Option.some.inj handled)
      exact ⟨learned, fun e member => by cases member⟩
  | get | put =>
    simp only [Master.handle, type] at handled
    obtain ⟨port, _, same⟩ := Option.map_eq_some_iff.mp handled
    obtain ⟨rfl, rfl⟩ := Prod.mk.inj same
    exact ⟨learned, fun e member => by cases member⟩
  | reply | reorg | reorgPut =>
    simp only [Master.handle, type, Option.some.injEq, Prod.mk.injEq] at handled
    obtain ⟨rfl, rfl⟩ := handled
    exact ⟨learned, fun e member => by cases member⟩

end Values

/-! ## Values that travel -/

structure ProcessSound (h : List (Object.Event T Request Outcome)) (q : Process T) : Prop where
  queue : ∀ c ∈ q.queue, Honest h c.message
  masterPut : ∀ round, q.round = some round → ∀ e, round.pending.masterPut = some e → Honest h e.1
  db : Holds h q.shard.db

structure Sound (s : State T) : Prop where
  inbox : ∀ c ∈ s.inbox, Honest s.history c.message
  left : ∀ e ∈ s.left, Honest s.history e.2
  process : ∀ p, ProcessSound s.history (s.process p)
  learned : Learned s.history s.master

omit [DecidableEq T] in
theorem ProcessSound.mono {h h' : List (Object.Event T Request Outcome)} {q : Process T}
    (sound : ProcessSound h q) (sub : h ⊆ h') : ProcessSound h' q where
  queue c member := (sound.queue c member).mono sub
  masterPut round here e put := (sound.masterPut round here e put).mono sub
  db := sound.db.mono sub

omit [DecidableEq T] in
/-- What a step must show of its new values. -/
theorem Sound.grow (sound : Sound s) (sub : s.history ⊆ t.history)
    (inbox : ∀ c ∈ t.inbox, c ∈ s.inbox ∨ Honest t.history c.message)
    (left : ∀ e ∈ t.left, e ∈ s.left ∨ Honest t.history e.2)
    (process : ∀ p, t.process p = s.process p ∨ ProcessSound t.history (t.process p))
    (learned : t.master = s.master ∨ Learned t.history t.master) : Sound t where
  inbox c member := (inbox c member).elim (fun old => (sound.inbox c old).mono sub) id
  left e member := (left e member).elim (fun old => (sound.left e old).mono sub) id
  process p := (process p).elim (fun same => same ▸ (sound.process p).mono sub) id
  learned := by
    rcases learned with same | new
    · intro x w found
      rw [same] at found
      obtain ⟨k, key, written⟩ := sound.learned x w found
      exact ⟨k, key, written.mono sub⟩
    · exact new

omit [DecidableEq T] in
/-- A process of a port changes. -/
theorem process_or {s : Clients.State T} {port : Int32} {q : Process T}
    {h : List (Object.Event T Request Outcome)} (sound : ProcessSound h q) (p : Int32) :
    (s.setProcess port q).process p = s.process p ∨
      ProcessSound h ((s.setProcess port q).process p) := by
  by_cases same : p = port
  · subst same
    rw [s.setProcess_self]
    exact .inr sound
  · exact .inl (s.setProcess_of_ne same q)

omit [DecidableEq T] in
theorem honest_message {h : List (Object.Event T Request Outcome)} {x : T} {r : Request}
    (called : .called x r ∈ h) : Honest h r.message := by
  refine .inr ⟨r.message_isRequest, fun put => ?_⟩
  cases r with
  | put k v => exact ⟨x, v, called, rfl⟩
  | get k => simp [Request.message, Msg.type] at put

omit [DecidableEq T] in
theorem honest_routeMessage (h : List (Object.Event T Request Outcome)) (r : Request) :
    Honest h r.routeMessage :=
  .inr ⟨r.routeMessage_isRequest, fun put => by simp [Request.routeMessage, Msg.type] at put⟩

theorem Sound.step (sound : Sound s) (step : Step wireDeliver s t)
    (called : ∀ x r port, s.client x = .routed r port → .called x r ∈ s.history) : Sound t := by
  cases step with
  | start r idle =>
    refine sound.grow (fun e member => List.mem_append_left _ member) (fun c member => ?_)
      (fun _ old => .inl old) (fun _ => .inl rfl) (.inl rfl)
    refine (List.mem_append.mp member).imp id fun new => ?_
    rw [List.mem_singleton.mp new]
    exact honest_routeMessage _ r
  | announce port =>
    refine sound.grow (fun _ => id) (fun c member => ?_) (fun _ old => .inl old) (fun _ => .inl rfl)
      (.inl rfl)
    refine (List.mem_append.mp member).imp id fun new => ?_
    rw [List.mem_singleton.mp new]
    exact .inl ⟨port, rfl⟩
  | listen | refused | lose =>
    exact sound.grow (fun _ => id) (fun _ old => .inl old) (fun _ old => .inl old) (fun _ => .inl rfl)
      (.inl rfl)
  | down =>
    exact sound.grow (fun _ => id) (fun _ member => by cases member) (fun _ member => by cases member)
      (fun _ => .inl rfl) (.inl rfl)
  | serverDown port =>
    exact sound.grow (fun _ => id) (fun _ old => .inl old) (fun _ old => .inl old)
      (process_or ⟨fun _ member => (by cases member), fun _ here => (by cases here),
        (sound.process port).db⟩) (.inl rfl)
  | ignore inbox =>
    exact sound.grow (fun _ => id) (fun c old => .inl (inbox ▸ List.mem_cons_of_mem _ old))
      (fun _ old => .inl old) (fun _ => .inl rfl) (.inl rfl)
  | @take c rest m master sends inbox arrived handled =>
    have arrived := (sound.inbox c (by simp [inbox])).arrived arrived
    obtain ⟨learned, honest⟩ := sound.learned.handle arrived handled
    exact sound.grow (fun _ => id) (fun d old => .inl (inbox ▸ List.mem_cons_of_mem _ old))
      (fun e new => .inr (honest e new)) (fun _ => .inl rfl) (.inr learned)
  | @forward port m rest left =>
    have old := sound.process port
    refine sound.grow (fun _ => id) (fun _ old => .inl old)
      (fun e old => .inl (left ▸ List.mem_cons_of_mem _ old)) (process_or ?_) (.inl rfl)
    refine ⟨fun c member => ?_, old.masterPut, old.db⟩
    rcases List.mem_append.mp member with before | new
    · exact old.queue c before
    · rw [List.mem_singleton.mp new]
      exact sound.left (port, m) (by simp [left])
  | @connect x r port routed =>
    have old := sound.process port
    refine sound.grow (fun _ => id) (fun _ old => .inl old) (fun _ old => .inl old) (process_or ?_)
      (.inl rfl)
    refine ⟨fun c member => ?_, old.masterPut, old.db⟩
    rcases List.mem_append.mp member with before | new
    · exact old.queue c before
    · rw [List.mem_singleton.mp new]
      exact honest_message (called x r port routed)
  | @drop port c rest queue =>
    have old := sound.process port
    refine sound.grow (fun _ => id) (fun _ old => .inl old) (fun _ old => .inl old) (process_or ?_)
      (.inl rfl)
    exact ⟨fun d member => old.queue d (queue ▸ List.mem_cons_of_mem _ member), old.masterPut, old.db⟩
  | @receive port c rest m free queue arrived =>
    have old := sound.process port
    have arrived := (old.queue c (by simp [queue])).arrived arrived
    refine sound.grow (fun _ => id) (fun _ old => .inl old) (fun _ old => .inl old) (process_or ?_)
      (.inl rfl)
    refine ⟨fun d member => old.queue d (queue ▸ List.mem_cons_of_mem _ member),
      fun round here e put => ?_, old.db.receive arrived⟩
    obtain rfl := Option.some.inj here
    exact arrived.masterPut put
  | @reply port client m masterPut round =>
    have old := sound.process port
    have moved : ProcessSound s.history { s.process port with
        round := some ⟨client, ⟨none, masterPut⟩⟩ } := by
      refine ⟨old.queue, fun round' here e put => ?_, old.db⟩
      obtain rfl := Option.some.inj here
      exact old.masterPut _ round e put
    exact sound.grow (fun _ => id) (fun _ old => .inl old) (fun _ old => .inl old) (process_or moved)
      (.inl rfl)
  | @finish port client masterPut round =>
    have old := sound.process port
    refine sound.grow (fun _ => id) (fun c member => ?_) (fun _ old => .inl old) (process_or ?_)
      (.inl rfl)
    · refine (List.mem_append.mp member).imp id fun new => ?_
      obtain ⟨e, put, rfl⟩ := List.mem_map.mp new
      exact old.masterPut _ round e (Option.mem_toList.mp put)
    · refine ⟨old.queue, fun round' none => (by cases none), ?_⟩
      have db : ((s.process port).shard.finish ⟨none, masterPut⟩).db = (s.process port).shard.db := by
        rw [Shard.finish]
        split <;> rfl
      exact db ▸ old.db
  | startDown | exit =>
    exact sound.grow (fun e member => List.mem_append_left _ member) (fun _ old => .inl old)
      (fun _ old => .inl old) (fun _ => .inl rfl) (.inl rfl)

/-! ## Clients and their connections -/

structure ProcessTied (s : Clients.State T) (p : Int32) (q : Process T) : Prop where
  sent : ∀ c ∈ q.queue, ∀ x, c.client = some x → ∃ r, c.message = r.message ∧ s.client x = .sent r p
  replying : ∀ round, q.round = some round → ∀ x m, round.client = some x →
    round.pending.reply = some m →
      ∃ r, s.client x = .sent r p ∧ Told False s.history r (Cluster.outcome wireDeliver m)
  once : (waiting q).Nodup

/-- What a client does is about the request that it called last. -/
def Current (gone : Prop) (h : List (Object.Event T Request Outcome)) (x : T) : Client → Prop
  | .idle => True
  | .asking r | .routed r _ | .sent r _ => lastCall x h = some r
  | .ended o => ∃ r, lastCall x h = some r ∧ Told gone h r o

/-- Every client has been told the truth when it exited. -/
def Truthful (gone : Prop) (h : List (Object.Event T Request Outcome)) : Prop :=
  ∀ before x o after, h = before ++ .returned x o :: after →
    ∃ r, lastCall x before = some r ∧ Told gone before r o

structure Tied (gone : Prop) (s : Clients.State T) : Prop where
  asking : ∀ c ∈ s.inbox, ∀ x, c.client = some x →
    ∃ r, c.message = r.routeMessage ∧ s.client x = .asking r
  askingOnce : (s.inbox.filterMap Connection.client).Nodup
  process : ∀ p, ProcessTied s p (s.process p)
  current : ∀ x, Current gone s.history x (s.client x)
  truthful : Truthful gone s.history

section Ties

variable {s t : Clients.State T} {h h' : List (Object.Event T Request Outcome)} {x y : T} {p : Int32}
  {q : Process T} {r : Request} {o : Outcome} {gone gone' : Prop}

theorem lastCall_called :
    lastCall x (h ++ [.called y r]) = if y = x then some r else lastCall x h := by
  rw [lastCall, List.reverse_append, List.reverse_singleton, List.singleton_append,
    List.findSome?_cons]
  split <;> simp_all [lastCall]

theorem lastCall_returned : lastCall x (h ++ [.returned y o]) = lastCall x h := by
  rw [lastCall, List.reverse_append, List.reverse_singleton, List.singleton_append,
    List.findSome?_cons, lastCall]

theorem called_of_lastCall (last : lastCall x h = some r) : .called x r ∈ h := by
  obtain ⟨e, member, same⟩ := List.exists_of_findSome?_eq_some last
  cases e with
  | called y q =>
    obtain ⟨rfl, found⟩ := Option.ite_none_right_eq_some.mp same
    exact Option.some.inj found ▸ List.mem_reverse.mp member
  | returned => cases same

theorem Current.mono {c : Client} (current : Current gone h x c) (later : gone → gone') (sub : h ⊆ h')
    (last : lastCall x h' = lastCall x h) : Current gone' h' x c := by
  cases c with
  | idle => trivial
  | asking | routed | sent => exact last.trans current
  | ended o =>
    obtain ⟨r, same, told⟩ := current
    exact ⟨r, last.trans same, told.mono later sub⟩

theorem Truthful.snoc {e : Object.Event T Request Outcome} (truthful : Truthful gone h)
    (now : ∀ x o, e = .returned x o → ∃ r, lastCall x h = some r ∧ Told gone h r o) :
    Truthful gone (h ++ [e]) := by
  intro before x o after split
  -- The exit is the last event, or it was there before.
  rcases List.eq_nil_or_concat after with rfl | ⟨front, last, rfl⟩
  · obtain ⟨rfl, same⟩ := List.append_inj' split rfl
    exact now x o (List.singleton_inj.mp same)
  · rw [List.concat_eq_append, ← List.cons_append, ← List.append_assoc] at split
    exact truthful before x o front (List.append_inj' split rfl).1

omit [DecidableEq T] in
theorem ProcessTied.sent_of_waiting (tied : ProcessTied s p q) (member : x ∈ waiting q) :
    ∃ r, s.client x = .sent r p := by
  rcases List.mem_append.mp member with now | later
  · obtain ⟨round, here, client⟩ := Option.bind_eq_some_iff.mp (Option.mem_toList.mp now)
    split at client
    next some =>
      obtain ⟨m, reply⟩ := Option.isSome_iff_exists.mp some
      obtain ⟨r, sent, _⟩ := tied.replying round here x m client reply
      exact ⟨r, sent⟩
    next => cases client
  · obtain ⟨c, inside, client⟩ := List.mem_filterMap.mp later
    obtain ⟨r, _, sent⟩ := tied.sent c inside x client
    exact ⟨r, sent⟩

omit [DecidableEq T] in
theorem ProcessTied.frame (tied : ProcessTied s p q)
    (same : ∀ y ∈ waiting q, t.client y = s.client y) (sub : s.history ⊆ t.history) :
    ProcessTied t p q where
  sent c member x client := by
    obtain ⟨r, message, sent⟩ := tied.sent c member x client
    refine ⟨r, message, (same x ?_).trans sent⟩
    exact List.mem_append_right _ (List.mem_filterMap.mpr ⟨c, member, client⟩)
  replying round here x m client reply := by
    obtain ⟨r, sent, told⟩ := tied.replying round here x m client reply
    refine ⟨r, (same x ?_).trans sent, told.mono id sub⟩
    exact List.mem_append_left _ (by simp [here, reply, client])
  once := tied.once

theorem Tied.not_asking (tied : Tied gone s) (other : ∀ r, s.client x ≠ .asking r) {c : Connection T}
    (member : c ∈ s.inbox) : c.client ≠ some x := by
  intro client
  obtain ⟨r, _, asking⟩ := tied.asking c member x client
  exact other r asking

theorem Tied.not_waiting (tied : Tied gone s) (other : ∀ r, s.client x ≠ .sent r p) :
    x ∉ waiting (s.process p) := by
  intro member
  obtain ⟨r, sent⟩ := (tied.process p).sent_of_waiting member
  exact other r sent

/-- A client changes that nothing waits for. -/
theorem Tied.ofClient (tied : Tied gone s) (others : ∀ y, y ≠ x → t.client y = s.client y)
    (history : t.history = s.history) (process : t.process = s.process)
    (inbox : ∀ c ∈ t.inbox, c ∈ s.inbox ∧ c.client ≠ some x)
    (once : (t.inbox.filterMap Connection.client).Nodup) (apart : ∀ p, x ∉ waiting (s.process p))
    (current : Current gone s.history x (t.client x)) : Tied gone t where
  asking c member y client := by
    obtain ⟨old, other⟩ := inbox c member
    obtain ⟨r, message, asking⟩ := tied.asking c old y client
    refine ⟨r, message, (others y ?_).trans asking⟩
    rintro rfl
    exact other client
  askingOnce := once
  process p := by
    rw [process]
    refine (tied.process p).frame (fun y member => others y ?_) (by rw [history]; exact fun _ => id)
    rintro rfl
    exact apart p member
  current y := by
    rw [history]
    by_cases same : y = x
    · exact same ▸ current
    · rw [others y same]
      exact tied.current y
  truthful := history ▸ tied.truthful

/-- A client starts. -/
theorem Tied.call (tied : Tied gone s) {c : Client} (idle : s.client x = .idle)
    (current : Current gone (s.history ++ [.called x r]) x c) :
    Tied gone { s.setClient x c with history := s.history ++ [.called x r] } where
  asking d member y client := by
    obtain ⟨q, message, asking⟩ := tied.asking d member y client
    refine ⟨q, message, (Function.update_of_ne ?_ ..).trans asking⟩
    rintro rfl
    cases idle.symm.trans asking
  askingOnce := tied.askingOnce
  process p := by
    refine (tied.process p).frame (fun y member => Function.update_of_ne ?_ ..)
      fun e old => List.mem_append_left _ old
    rintro rfl
    exact tied.not_waiting (by simp [idle]) member
  current y := by
    by_cases same : y = x
    · subst same
      show Current gone _ y (Function.update s.client y _ y)
      rw [Function.update_self]
      exact current
    · show Current gone _ y (Function.update s.client x _ y)
      rw [Function.update_of_ne same]
      exact (tied.current y).mono id (fun e old => List.mem_append_left _ old)
        (lastCall_called.trans (if_neg (Ne.symm same)))
  truthful := tied.truthful.snoc fun _ _ none => by cases none

/-- Its question is on the way to the master. -/
theorem Tied.ask (tied : Tied gone s) (asking : s.client x = .asking r)
    (fresh : ∀ c ∈ s.inbox, c.client ≠ some x) :
    Tied gone { s with inbox := s.inbox ++ [⟨some x, r.routeMessage⟩] } where
  asking c member y client := by
    rcases List.mem_append.mp member with old | new
    · exact tied.asking c old y client
    · obtain rfl := List.mem_singleton.mp new
      cases client
      exact ⟨r, rfl, asking⟩
  askingOnce := by
    rw [List.filterMap_append, List.nodup_append]
    refine ⟨tied.askingOnce, by simp, fun y old z new => ?_⟩
    obtain ⟨c, member, client⟩ := List.mem_filterMap.mp old
    obtain rfl : z = x := by simpa using new
    rintro rfl
    exact fresh c member client
  process p := (tied.process p).frame (fun _ _ => rfl) fun _ => id
  current := tied.current
  truthful := tied.truthful

theorem Tied.start (tied : Tied gone s) (r : Request) (idle : s.client x = .idle) :
    Tied gone { s.setClient x (.asking r) with
      inbox := s.inbox ++ [⟨some x, r.routeMessage⟩], history := s.history ++ [.called x r] } :=
  (tied.call (r := r) (c := .asking r) idle (lastCall_called.trans (if_pos rfl))).ask
    (Function.update_self ..) fun _ member => tied.not_asking (by simp [idle]) member

theorem Tied.mono (tied : Tied gone s) (later : gone → gone') : Tied gone' s where
  asking := tied.asking
  askingOnce := tied.askingOnce
  process := tied.process
  current x := (tied.current x).mono later (fun _ => id) rfl
  truthful before x o after split := by
    obtain ⟨r, last, told⟩ := tied.truthful before x o after split
    exact ⟨r, last, told.mono later fun _ => id⟩

/-- Nobody is left in the master's queue. -/
theorem Tied.down (tied : Tied gone s) : Tied gone { s with inbox := [] } where
  asking _ member := by cases member
  askingOnce := List.nodup_nil
  process p := (tied.process p).frame (fun _ _ => rfl) fun _ => id
  current := tied.current
  truthful := tied.truthful

theorem Tied.exit (tied : Tied gone s) (ended : s.client x = .ended o) :
    Tied gone { s.setClient x .idle with history := s.history ++ [.returned x o] } where
  asking c member y client := by
    obtain ⟨q, message, asking⟩ := tied.asking c member y client
    refine ⟨q, message, (Function.update_of_ne ?_ ..).trans asking⟩
    rintro rfl
    cases ended.symm.trans asking
  askingOnce := tied.askingOnce
  process p := by
    refine (tied.process p).frame (fun y member => Function.update_of_ne ?_ ..)
      fun e old => List.mem_append_left _ old
    rintro rfl
    exact tied.not_waiting (by simp [ended]) member
  current y := by
    by_cases same : y = x
    · subst same
      show Current gone _ y (Function.update s.client y _ y)
      rw [Function.update_self]
      trivial
    · show Current gone _ y (Function.update s.client x _ y)
      rw [Function.update_of_ne same]
      exact (tied.current y).mono id (fun e old => List.mem_append_left _ old) lastCall_returned
  truthful := tied.truthful.snoc fun y p same => by
    cases same
    have current := tied.current x
    rwa [ended] at current

/-- The next connection is taken from the master's queue. -/
theorem Tied.pop (tied : Tied gone s) {c : Connection T} {rest : List (Connection T)} {master : Master}
    (inbox : s.inbox = c :: rest) : Tied gone { s with master := master, inbox := rest } where
  asking d member := tied.asking d (inbox ▸ List.mem_cons_of_mem c member)
  askingOnce := by
    have once := tied.askingOnce
    rw [inbox] at once
    exact once.sublist ((List.sublist_cons_self c rest).filterMap _)
  process p := (tied.process p).frame (fun _ _ => rfl) fun _ => id
  current := tied.current
  truthful := tied.truthful

/-- Nobody waits for an answer to what the servers tell the master. -/
theorem Tied.tell (tied : Tied gone s) {more : List (Connection T)} (silent : ∀ c ∈ more, c.client = none) :
    Tied gone { s with inbox := s.inbox ++ more } where
  asking c member x client := by
    rcases List.mem_append.mp member with old | new
    · exact tied.asking c old x client
    · cases (silent c new).symm.trans client
  askingOnce := by
    rw [List.filterMap_append, List.filterMap_eq_nil_iff.mpr silent, List.append_nil]
    exact tied.askingOnce
  process p := (tied.process p).frame (fun _ _ => rfl) fun _ => id
  current := tied.current
  truthful := tied.truthful

/-- The question of a client is answered with a port, which need not be the one that arrives. -/
theorem Tied.learn (tied : Tied gone s) {c : Connection T} {rest : List (Connection T)} {m : Msg}
    {master : Master} {sends : Sends} (inbox : s.inbox = c :: rest) (client : c.client = some x)
    (arrived : wireDeliver c.message = some m) (handled : s.master.handle m = some (master, sends)) :
    ∃ r port reply, s.client x = .asking r ∧ sends.reply = some reply ∧
      Client.learn wireDeliver reply (s.client x) = .routed r port := by
  obtain ⟨r, message, asking⟩ := tied.asking c (by simp [inbox]) x client
  obtain ⟨n, same, _, type, _, _⟩ := delivery_wire.request _ r.routeMessage_isRequest
  obtain rfl : n = m := Option.some.inj (same.symm.trans (message ▸ arrived))
  replace type : n.type = .get := type
  simp only [Master.handle, type] at handled
  obtain ⟨port, _, pair⟩ := Option.map_eq_some_iff.mp handled
  obtain ⟨rfl, rfl⟩ := Prod.mk.inj pair
  obtain ⟨reply, told⟩ : ∃ reply, wireDeliver { port_ := some port, type_ := some .reply } =
      some reply := ⟨_, wireDeliver_eq rfl⟩
  exact ⟨r, reply.port, _, asking, rfl, by rw [asking, Client.learn, told]⟩

theorem Tied.take (tied : Tied gone s) {c : Connection T} {rest : List (Connection T)} {m : Msg}
    {master : Master} {sends : Sends} (inbox : s.inbox = c :: rest)
    (arrived : wireDeliver c.message = some m) (handled : s.master.handle m = some (master, sends)) :
    Tied gone { s.answer (Client.learn wireDeliver) c.client sends.reply with
      master := master, inbox := rest } := by
  rcases client : c.client with _ | x
  · exact tied.pop inbox
  · obtain ⟨r, port, reply, asking, sent, learned⟩ := tied.learn inbox client arrived handled
    have last := tied.current x
    rw [asking] at last
    have once := tied.askingOnce
    rw [inbox, List.filterMap_cons_some client, List.nodup_cons] at once
    rw [sent]
    refine tied.ofClient (x := x) (fun y other => Function.update_of_ne other ..) rfl rfl
      (fun d member => ⟨inbox ▸ List.mem_cons_of_mem c member, fun same => once.1 ?_⟩) once.2
      (fun p => tied.not_waiting (by simp [asking])) ?_
    · exact List.mem_filterMap.mpr ⟨d, member, same⟩
    · show Current gone _ x (Function.update s.client x _ x)
      rw [Function.update_self, learned]
      exact last

theorem Tied.ofProcess (tied : Tied gone s) (ok : ProcessTied s p q) : Tied gone (s.setProcess p q) where
  asking := tied.asking
  askingOnce := tied.askingOnce
  process j := by
    by_cases same : j = p
    · subst same
      rw [s.setProcess_self]
      exact ok.frame (fun _ _ => rfl) fun _ => id
    · rw [s.setProcess_of_ne same]
      exact (tied.process j).frame (fun _ _ => rfl) fun _ => id
  current := tied.current
  truthful := tied.truthful

omit [DecidableEq T] in
/-- A message of the master's is on its way to a shard. -/
theorem ProcessTied.forward (tied : ProcessTied s p q) (m : Msg) :
    ProcessTied s p { q with queue := q.queue ++ [⟨none, m⟩] } where
  sent c member x client := by
    rcases List.mem_append.mp member with old | new
    · exact tied.sent c old x client
    · rw [List.mem_singleton.mp new] at client
      cases client
  replying := tied.replying
  once := by simpa [waiting] using tied.once

/-- A client connects to the shard that it was given. -/
theorem Tied.connect (tied : Tied gone s) (routed : s.client x = .routed r p) :
    Tied gone ((s.setProcess p { s.process p with
      queue := (s.process p).queue ++ [⟨some x, r.message⟩] }).setClient x (.sent r p)) where
  asking c member y client := by
    obtain ⟨q, message, asking⟩ := tied.asking c member y client
    refine ⟨q, message, (Function.update_of_ne ?_ ..).trans asking⟩
    rintro rfl
    cases routed.symm.trans asking
  askingOnce := tied.askingOnce
  process j := by
    have apart : x ∉ waiting (s.process j) := tied.not_waiting (by simp [routed])
    have others : ∀ y ∈ waiting (s.process j), Function.update s.client x (.sent r p) y = s.client y := by
      intro y member
      refine Function.update_of_ne ?_ ..
      rintro rfl
      exact apart member
    show ProcessTied _ j (Function.update s.process p _ j)
    by_cases same : j = p
    · subst same
      rw [Function.update_self]
      have old := (tied.process j).frame (t := s.setClient x (.sent r j)) others fun _ => id
      refine ⟨fun c member y client => ?_, old.replying, ?_⟩
      · rcases List.mem_append.mp member with before | new
        · exact old.sent c before y client
        · obtain rfl := List.mem_singleton.mp new
          cases client
          exact ⟨r, rfl, Function.update_self ..⟩
      · have snoc : waiting { s.process j with queue := (s.process j).queue ++ [⟨some x, r.message⟩] } =
            waiting (s.process j) ++ [x] := by simp [waiting]
        rw [snoc]
        exact List.Nodup.append old.once (List.nodup_singleton x) (by simpa using apart)
    · rw [Function.update_of_ne same]
      exact (tied.process j).frame others fun _ => id
  current y := by
    by_cases same : y = x
    · subst same
      have last := tied.current y
      rw [routed] at last
      show Current gone _ y (Function.update s.client y _ y)
      rw [Function.update_self]
      exact last
    · show Current gone _ y (Function.update s.client x _ y)
      rw [Function.update_of_ne same]
      exact tied.current y
  truthful := tied.truthful

omit [DecidableEq T] in
/-- What a shard answers to a client. -/
theorem told_reply {shard : Shard} {m n : Msg} (holds : Holds h shard.db)
    (arrived : wireDeliver r.message = some m) (reply : (shard.receive m).2.reply = some n) :
    Told False h r (Cluster.outcome wireDeliver n) := by
  obtain ⟨m', same, _, type, key, _⟩ := delivery_wire.request _ r.message_isRequest
  obtain rfl : m' = m := Option.some.inj (same.symm.trans arrived)
  cases r with
  | put k v =>
    replace type : m'.type = .put := type
    simp only [Shard.receive, type, Option.some.injEq] at reply
    subst reply
    rw [Cluster.outcome, delivery_wire.acknowledged]
    exact .stored k v
  | get k =>
    replace type : m'.type = .get := type
    replace key : m'.key = k := key
    simp only [Shard.receive, type, Option.some.injEq] at reply
    subst reply
    have plain : ∀ w, shard.db m'.charText = some w → ZeroFree w.bytes := by
      intro w stored
      obtain ⟨_, _, written⟩ := holds _ w stored
      exact written.plain
    have outcome := outcome_getReply plain
    rw [Cluster.getReply] at outcome
    rw [outcome]
    split
    next w found =>
      obtain ⟨stored, filled⟩ := Option.filter_eq_some_iff.mp found
      obtain ⟨j, text, x, v, put, kept⟩ := holds _ w stored
      -- The text is that of the key cast to `char`.
      obtain rfl : charKey k = j := by
        rwa [Msg.charText, key, ← Int8.toInt_toInt32, stdToString_inj, Int32.toInt_inj] at text
      unfold wireKeep at kept
      split at kept
      · simp [kept] at filled
      · subst kept
        exact .found put
    next => exact .missing k

theorem Tied.receive (tied : Tied gone s) {c : Connection T} {rest : List (Connection T)} {m : Msg}
    (holds : Holds s.history (s.process p).shard.db) (free : (s.process p).round = none)
    (queue : (s.process p).queue = c :: rest) (arrived : wireDeliver c.message = some m) :
    Tied gone (s.setProcess p {
      queue := rest
      shard := ((s.process p).shard.receive m).1
      round := some ⟨c.client, ((s.process p).shard.receive m).2⟩ }) := by
  have old := tied.process p
  refine tied.ofProcess ⟨fun d member => old.sent d (queue ▸ List.mem_cons_of_mem c member),
    fun round here x n client reply => ?_, ?_⟩
  · obtain rfl := Option.some.inj here
    obtain ⟨r, message, sent⟩ := old.sent c (by simp [queue]) x client
    exact ⟨r, sent, told_reply holds (message ▸ arrived) reply⟩
  · have once := old.once
    rw [waiting, free, queue, Option.bind_none, Option.toList_none, List.nil_append] at once
    rw [waiting, Option.bind_some]
    rcases client : c.client with _ | x
    · rw [List.filterMap_cons_none client] at once
      simpa using once
    · rw [List.filterMap_cons_some client] at once
      split
      · exact once
      · exact once.of_cons

/-- A connection is dropped without a word. -/
theorem Tied.drop (tied : Tied gone s) {c : Connection T} {rest : List (Connection T)}
    (queue : (s.process p).queue = c :: rest) :
    Tied gone (s.setProcess p { s.process p with queue := rest }) := by
  have old := tied.process p
  refine tied.ofProcess ⟨fun d member => old.sent d (queue ▸ List.mem_cons_of_mem c member),
    old.replying, old.once.sublist ?_⟩
  rw [waiting, waiting, queue]
  exact ((List.sublist_cons_self c rest).filterMap _).append_left _

theorem Tied.reply (tied : Tied gone s) {client : Option T} {m : Msg} {masterPut : Option (Msg × Bytes)}
    (round : (s.process p).round = some ⟨client, ⟨some m, masterPut⟩⟩) :
    Tied gone ((s.setProcess p { s.process p with round := some ⟨client, ⟨none, masterPut⟩⟩ }).answer
      (Client.conclude wireDeliver) client (some m)) := by
  have old := tied.process p
  have once : waiting (s.process p) =
      client.toList ++ (s.process p).queue.filterMap Connection.client := by
    rw [waiting, round]
    rfl
  have ok : ProcessTied s p { s.process p with round := some ⟨client, ⟨none, masterPut⟩⟩ } := by
    refine ⟨old.sent, fun round' here x n _ reply => ?_, (once ▸ old.once).sublist ?_⟩
    · obtain rfl := Option.some.inj here
      cases reply
    · exact List.sublist_append_right _ _
  have moved := tied.ofProcess ok
  rcases client with _ | x
  · exact moved
  · obtain ⟨r, sent, told⟩ := old.replying _ round x m rfl rfl
    have last := tied.current x
    rw [sent] at last
    have concluded : Client.conclude wireDeliver m (s.client x) =
        .ended (Cluster.outcome wireDeliver m) := by rw [sent]; rfl
    -- Nothing else waits for the client.
    have apart : ∀ j, x ∉ waiting ((s.setProcess p { s.process p with
        round := some ⟨some x, ⟨none, masterPut⟩⟩ }).process j) := by
      intro j member
      obtain ⟨q, elsewhere⟩ := (moved.process j).sent_of_waiting member
      obtain rfl : j = p := (Client.sent.inj (elsewhere.symm.trans sent)).2
      rw [s.setProcess_self] at member
      have nodup := old.once
      rw [once] at nodup
      exact (List.nodup_cons.mp nodup).1 member
    refine moved.ofClient (x := x) (fun y other => Function.update_of_ne other ..) rfl rfl
      (fun c member => ⟨member, moved.not_asking ?_ member⟩) moved.askingOnce apart ?_
    · intro q asking
      cases sent.symm.trans asking
    · show Current gone _ x (Function.update s.client x _ x)
      rw [Function.update_self]
      show Current gone _ x (Client.conclude wireDeliver m (s.client x))
      rw [concluded]
      exact ⟨r, last, told.mono False.elim fun _ => id⟩

/-- A round ends with the MASTER_PUT, which nobody waits for. -/
theorem Tied.finish (tied : Tied gone s) {client : Option T} {masterPut : Option (Msg × Bytes)}
    (round : (s.process p).round = some ⟨client, ⟨none, masterPut⟩⟩) :
    Tied gone { s.setProcess p { s.process p with
        shard := (s.process p).shard.finish ⟨none, masterPut⟩, round := none } with
      inbox := s.inbox ++ masterPut.toList.map fun p => ⟨none, p.1⟩ } := by
  have old := tied.process p
  have ok : ProcessTied s p { s.process p with
      shard := (s.process p).shard.finish ⟨none, masterPut⟩, round := none } := by
    refine ⟨old.sent, fun round' none => (by cases none), ?_⟩
    have once := old.once
    rw [waiting, round] at once
    exact once
  exact (tied.ofProcess ok).tell fun c member => by
    obtain ⟨e, _, rfl⟩ := List.mem_map.mp member
    rfl

/-- A client goes without a reply when its connection is gone. -/
theorem Tied.lose (tied : Tied gone s) (closed : ¬Connected s x (s.client x)) (down : gone) :
    Tied gone (s.setClient x (.ended ⟨2, none⟩)) := by
  have last := tied.current x
  have apart : (∀ c ∈ s.inbox, c.client ≠ some x) ∧ (∀ p, x ∉ waiting (s.process p)) ∧
      ∃ r, lastCall x s.history = some r := by
    cases doing : s.client x with
    | asking r =>
      rw [doing] at last closed
      exact ⟨fun c member client => closed (List.mem_filterMap.mpr ⟨c, member, client⟩),
        fun p => tied.not_waiting (by simp [doing]), r, last⟩
    | sent r port =>
      rw [doing] at last closed
      refine ⟨fun c member => tied.not_asking (by simp [doing]) member, fun p member => ?_, r, last⟩
      -- The client waits at the port where it is missing.
      obtain ⟨q, elsewhere⟩ := (tied.process p).sent_of_waiting member
      obtain rfl : p = port := (Client.sent.inj (elsewhere.symm.trans doing)).2
      exact closed member
    | idle | routed | ended =>
      rw [doing] at closed
      exact absurd trivial closed
  obtain ⟨inbox, process, r, called⟩ := apart
  refine tied.ofClient (x := x) (fun y other => Function.update_of_ne other ..) rfl rfl
    (fun c member => ⟨member, inbox c member⟩) tied.askingOnce process ?_
  show Current gone _ x (Function.update s.client x _ x)
  rw [Function.update_self]
  exact ⟨r, called, .lost r down⟩

end Ties

/-! ## Connections that are there -/

/-- As long as the master runs, no connection is closed without a reply. -/
def Attended (s : State T) : Prop := s.exited = false → ∀ x, Connected s.toState x (s.client x)

section Connections

variable {s t : Clients.State T} {x : T} {p : Int32} {q : Process T} {gone : Prop}

omit [DecidableEq T] in
theorem Connected.frame {c : Client} (connected : Connected s x c)
    (inbox : x ∈ s.inbox.filterMap Connection.client → x ∈ t.inbox.filterMap Connection.client)
    (process : ∀ p, x ∈ waiting (s.process p) → x ∈ waiting (t.process p)) : Connected t x c := by
  cases c with
  | asking => exact inbox connected
  | sent r port => exact process port connected
  | idle | routed | ended => trivial

/-- One client goes on. -/
theorem connected_update {c : Client} (own : Connected t x c)
    (others : ∀ y, y ≠ x → Connected t y (s.client y)) (y : T) :
    Connected t y (Function.update s.client x c y) := by
  by_cases same : y = x
  · subst same
    rw [Function.update_self]
    exact own
  · rw [Function.update_of_ne same]
    exact others y same

omit [DecidableEq T] in
theorem waiting_setProcess (kept : x ∈ waiting (s.process p) → x ∈ waiting q) (j : Int32)
    (member : x ∈ waiting (s.process j)) : x ∈ waiting ((s.setProcess p q).process j) := by
  by_cases same : j = p
  · subst same
    rw [s.setProcess_self]
    exact kept member
  · rwa [s.setProcess_of_ne same]

omit [DecidableEq T] in
theorem mem_waiting_enqueue {c : Connection T} (member : x ∈ waiting q) :
    x ∈ waiting { q with queue := q.queue ++ [c] } := by
  rw [waiting, List.filterMap_append, ← List.append_assoc]
  exact List.mem_append_left _ member

omit [DecidableEq T] in
/-- A shard answers the client whose request it has received. -/
theorem ProcessTied.receive {c : Connection T} {rest : List (Connection T)} {m : Msg}
    (tied : ProcessTied s p q) (free : q.round = none) (queue : q.queue = c :: rest)
    (arrived : wireDeliver c.message = some m) (shard : Shard) (member : x ∈ waiting q) :
    x ∈ waiting { queue := rest, shard := shard, round := some ⟨c.client, (shard.receive m).2⟩ } := by
  rw [waiting, free, queue, Option.bind_none, Option.toList_none, List.nil_append] at member
  rw [waiting, Option.bind_some]
  rcases client : c.client with _ | y
  · rw [List.filterMap_cons_none client] at member
    exact List.mem_append_right _ member
  · obtain ⟨r, message, _⟩ := tied.sent c (by simp [queue]) y client
    obtain ⟨n, same, _, type, _, _⟩ := delivery_wire.request _ r.message_isRequest
    obtain rfl : n = m := Option.some.inj (same.symm.trans (message ▸ arrived))
    have replied : (shard.receive n).2.reply.isSome := by
      cases r with
      | put => simp [Shard.receive, show n.type = .put from type]
      | get => simp [Shard.receive, show n.type = .get from type]
    rw [List.filterMap_cons_some client] at member
    simpa [replied] using member

end Connections

theorem Attended.step {gone : Prop} (attended : Attended s) (tied : Tied gone s.toState)
    (sound : Sound s) (step : Step wireDeliver s t) : Attended t := by
  intro runs
  cases step with
  | @start x r idle =>
    refine connected_update ?_ fun y other => (attended runs y).frame (fun member => ?_) fun _ => id
    · exact List.mem_filterMap.mpr ⟨_, List.mem_append_right _ List.mem_cons_self, rfl⟩
    · exact List.filterMap_append ▸ List.mem_append_left _ member
  | startDown _ _ down | serverDown _ down => cases runs.symm.trans down
  | down => cases runs
  | announce port =>
    exact fun y => (attended runs y).frame
      (fun member => List.filterMap_append ▸ List.mem_append_left _ member) fun _ => id
  | listen port => exact attended runs
  | ignore inbox lost => exact absurd lost (sound.inbox _ (by simp [inbox])).delivered
  | @take c rest m master sends inbox arrived handled =>
    rcases client : c.client with _ | x
    · refine fun y => (attended runs y).frame (fun member => ?_) fun _ => id
      rwa [inbox, List.filterMap_cons_none client] at member
    -- The client that asked has its answer.
    · obtain ⟨r, port, reply, _, sent, learned⟩ := tied.learn inbox client arrived handled
      rw [sent]
      refine connected_update (by rw [learned]; trivial) fun y other =>
        (attended runs y).frame (fun member => ?_) fun _ => id
      rw [inbox, List.filterMap_cons_some client] at member
      exact (List.mem_cons.mp member).resolve_left other
  | forward left =>
    exact fun y => (attended runs y).frame id (waiting_setProcess mem_waiting_enqueue)
  | @connect x r port routed =>
    refine connected_update ?_ fun y other =>
      (attended runs y).frame id (waiting_setProcess mem_waiting_enqueue)
    show x ∈ waiting ((s.enqueue port ⟨some x, r.message⟩).process port)
    rw [State.enqueue, s.setProcess_self, waiting, List.filterMap_append]
    exact List.mem_append_right _ (List.mem_append_right _ (by simp))
  | refused | lose =>
    exact connected_update trivial fun y other => (attended runs y).frame id fun _ => id
  | @drop port c rest queue lost =>
    exact absurd lost ((sound.process port).queue c (by simp [queue])).delivered
  | @receive port c rest m free queue arrived =>
    exact fun y => (attended runs y).frame id
      (waiting_setProcess ((tied.process port).receive free queue arrived _))
  | @reply port client m masterPut round =>
    have once : waiting (s.process port) =
        client.toList ++ (s.process port).queue.filterMap Connection.client := by
      rw [waiting, round]
      rfl
    rcases client with _ | x
    · refine fun y => (attended runs y).frame id (waiting_setProcess fun member => ?_)
      rwa [once] at member
    · refine connected_update ?_ fun y other =>
        (attended runs y).frame id (waiting_setProcess fun member => ?_)
      · obtain ⟨r, sent, _⟩ := (tied.process port).replying _ round x m rfl rfl
        show Connected _ x (Client.conclude wireDeliver m (s.client x))
        rw [sent]
        trivial
      · rw [once] at member
        exact (List.mem_cons.mp member).resolve_left other
  | @finish port client masterPut round =>
    refine fun y => (attended runs y).frame
      (fun member => List.filterMap_append ▸ List.mem_append_left _ member)
      (waiting_setProcess fun member => ?_)
    rwa [waiting, round] at member
  | exit => exact connected_update trivial fun y other => (attended runs y).frame id fun _ => id

/-! ## What the clients are told -/

theorem Tied.step (tied : Tied (s.exited = true) s.toState) (attended : Attended s) (sound : Sound s)
    (step : Step wireDeliver s t) : Tied (t.exited = true) t.toState := by
  cases step with
  | start r idle => exact tied.start r idle
  | announce port => exact tied.tell fun c member => List.mem_singleton.mp member ▸ rfl
  | startDown r idle =>
    exact tied.call idle ⟨r, lastCall_called.trans (if_pos rfl), .refused r⟩
  | listen => exact tied
  | down => exact tied.down.mono fun _ => rfl
  | serverDown port =>
    exact tied.ofProcess ⟨fun _ member => (by cases member), fun _ here => (by cases here),
      List.nodup_nil⟩
  | ignore inbox => exact tied.pop inbox
  | take inbox arrived handled => exact tied.take inbox arrived handled
  | forward => exact tied.ofProcess ((tied.process _).forward _)
  | connect routed => exact tied.connect routed
  | @refused x r port routed =>
    have last := tied.current x
    rw [routed] at last
    refine tied.ofClient (x := x) (fun y other => Function.update_of_ne other ..) rfl rfl
      (fun c member => ⟨member, tied.not_asking (by simp [routed]) member⟩) tied.askingOnce
      (fun p => tied.not_waiting (by simp [routed])) ?_
    show Current _ _ x (Function.update s.client x _ x)
    rw [Function.update_self]
    exact ⟨r, last, .refused r⟩
  | drop queue => exact tied.drop queue
  | receive free queue arrived => exact tied.receive (sound.process _).db free queue arrived
  | reply round => exact tied.reply round
  | finish round => exact tied.finish round
  | @lose x closed =>
    refine tied.lose closed ?_
    by_contra runs
    exact closed (attended (Bool.eq_false_of_not_eq_true runs) x)
  | exit ended => exact tied.exit ended

omit [DecidableEq T] in
theorem sound_init : Sound ({ master := {} } : State T) where
  inbox _ member := by cases member
  left _ member := by cases member
  process _ :=
    { queue := fun _ member => by cases member
      masterPut := fun _ here => by cases here
      db := fun t w stored => by simp at stored }
  learned x w found := by simp at found

theorem tied_init (gone : Prop) : Tied gone ({ master := {} } : Clients.State T) where
  asking _ member := by cases member
  askingOnce := List.nodup_nil
  process _ :=
    { sent := fun _ member => by cases member
      replying := fun _ here => by cases here
      once := List.nodup_nil }
  current _ := trivial
  truthful before x o after split := by simp at split

theorem reachable_sound (reachable : (servers T wireDeliver).Reachable System.Always s) :
    Sound s ∧ Tied (s.exited = true) s.toState ∧ Attended s := by
  refine reachable.invariant (I := fun s => Sound s ∧ Tied (s.exited = true) s.toState ∧ Attended s) ?_ ?_
  · rintro s rfl
    exact ⟨sound_init, tied_init _, fun _ _ => trivial⟩
  · rintro s a t ⟨sound, tied, attended⟩ _ taken
    have step := step_of_next taken
    refine ⟨sound.step step fun x r port routed => called_of_lastCall ?_,
      tied.step attended sound step, attended.step tied sound step⟩
    have last := tied.current x
    rwa [routed] at last

/-- Three servers join, a client puts a value at the third, and a fourth server joins: the client
finds the value at the second. -/
def moved : List (Action Unit) :=
  [.announce 25001, .listen 25001, .take, .announce 25002, .listen 25002, .take, .announce 25003,
   .listen 25003, .take, .forward, .forward, .forward, .receive 25001, .finish 25001, .receive 25002,
   .finish 25002, .receive 25003, .finish 25003,
   .start () (.put 5 letterA), .take, .connect (), .receive 25003, .reply 25003,
   .exit (), .finish 25003, .take,
   .announce 25004, .listen 25004, .take, .forward, .forward, .forward, .forward, .forward,
   .receive 25001, .finish 25001, .receive 25002, .finish 25002, .receive 25003, .finish 25003,
   .receive 25004, .finish 25004, .receive 25002, .finish 25002,
   .start () (.get 5), .take, .connect (), .receive 25002, .reply 25002, .exit ()]

def movedEnd : State Unit :=
  ((servers Unit wireDeliver).run { master := {} } moved).get (by decide)

/-- A client that asks in front of the first server kills the master. -/
example : ((servers Unit wireDeliver).run { master := {} } [.start () (.get 5), .announce 25001, .take,
    .lose (), .exit (), .start () (.get 5)]).map (fun s => (s.exited, s.history)) =
      some (true, [.called () (.get 5), .returned () ⟨2, none⟩, .called () (.get 5)]) := by decide

end CloudLab.Sharding.Growing
