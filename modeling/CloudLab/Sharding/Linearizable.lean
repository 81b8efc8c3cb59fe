import CloudLab.Library.TwoPhase
import CloudLab.Sharding.Processes
import CloudLab.Sharding.StoreAsMap

/-!
# Clients at once

Any number of clients, the master and a fixed set of shards, each a process of its own. `Cluster.run`
serves one client after another; here their messages pass each other on the way, and a shard tells
the master of a PUT when it has answered it. `clients_linearizable`: whatever the order of the steps,
the clients exit as if `Cluster.run` had served them one after another, each at some moment between
its start and its exit. A run stops where the behaviour is undefined: the master has no step for a
key with a negative remainder, for which it reads through `end()`. `Plain` rules such keys out.
-/
namespace CloudLab.Sharding.Clients

open Library Library.Wire

/-! ## The processes -/

inductive Client where
  | idle
  /-- It waits for the master's reply. -/
  | asking (r : Request)
  | routed (r : Request) (port : Int32)
  /-- It waits for the shard's reply. -/
  | sent (r : Request) (port : Int32)
  | ended (o : Outcome)

structure Process (T : Type) where
  queue : List (Connection T) := []
  shard : Shard := {}
  round : Option (Round T) := none

structure State (T : Type) where
  master : Master
  inbox : List (Connection T) := []
  /-- The shards, by their ports. -/
  process : Int32 → Process T := fun _ => {}
  client : T → Client := fun _ => .idle
  history : List (Object.Event T Request Outcome) := []

inductive Action (T : Type) where
  | start (x : T) (r : Request)
  /-- The master accepts the next connection. -/
  | take
  /-- A client connects to the port that it was given. -/
  | connect (x : T)
  /-- A shard accepts the next connection. -/
  | receive (port : Int32)
  | reply (port : Int32)
  | finish (port : Int32)
  | exit (x : T)

variable {T : Type} [DecidableEq T] (deliver : Msg → Option Msg)

/-- What a client makes of the master's reply. -/
def Client.learn (reply : Msg) : Client → Client
  | .asking r =>
    match deliver reply with
    | none => .ended ⟨2, none⟩
    | some m2 => .routed r m2.port
  | c => c

/-- What it makes of the shard's reply. -/
def Client.conclude (reply : Msg) : Client → Client
  | .sent _ _ => .ended (Cluster.outcome deliver reply)
  | c => c

namespace State

variable (s : State T)

def setClient (x : T) (c : Client) : State T := { s with client := Function.update s.client x c }

def setProcess (port : Int32) (q : Process T) : State T :=
  { s with process := Function.update s.process port q }

omit [DecidableEq T] in
theorem setProcess_self (port : Int32) (q : Process T) : (s.setProcess port q).process port = q :=
  Function.update_self ..

omit [DecidableEq T] in
theorem setProcess_of_ne {p port : Int32} (other : p ≠ port) (q : Process T) :
    (s.setProcess port q).process p = s.process p := Function.update_of_ne other ..

/-- A reply on a connection, for the client at its other end. -/
def answer (f : Msg → Client → Client) (client : Option T) (reply : Option Msg) : State T :=
  { s with client := hear s.client f client reply }

def stepStart (x : T) (r : Request) : Option (State T) :=
  match s.client x with
  | .idle => some { s.setClient x (.asking r) with
      inbox := s.inbox ++ [⟨some x, r.routeMessage⟩], history := s.history ++ [.called x r] }
  | _ => none

/-- No server joins, so the master sends nothing but replies. A key with a negative remainder is
undefined behaviour. -/
def stepTake : Option (State T) :=
  match s.inbox with
  | [] => none
  | c :: rest =>
    match deliver c.message with
    | none => some { s with inbox := rest }
    | some m => (s.master.handle m).map fun r =>
      { s.answer (Client.learn deliver) c.client r.2.reply with master := r.1, inbox := rest }

def stepConnect (l : Layout) (x : T) : Option (State T) :=
  match s.client x with
  | .routed r port =>
    if port ∈ l.ports then
      some ((s.setProcess port { s.process port with
        queue := (s.process port).queue ++ [⟨some x, r.message⟩] }).setClient x (.sent r port))
    else some (s.setClient x (.ended ⟨1, none⟩))
  | _ => none

def stepReceive (port : Int32) : Option (State T) :=
  match (s.process port).round, (s.process port).queue with
  | none, c :: rest =>
    match deliver c.message with
    | none => some (s.setProcess port { s.process port with queue := rest })
    | some m => some (s.setProcess port {
        queue := rest
        shard := ((s.process port).shard.receive m).1
        round := some ⟨c.client, ((s.process port).shard.receive m).2⟩ })
  | _, _ => none

def stepReply (port : Int32) : Option (State T) :=
  match (s.process port).round with
  | some ⟨client, ⟨some m, masterPut⟩⟩ =>
    some ((s.setProcess port { s.process port with round := some ⟨client, ⟨none, masterPut⟩⟩ }).answer
      (Client.conclude deliver) client (some m))
  | _ => none

/-- The rest of the round, MASTER_PUT included. -/
def stepFinish (port : Int32) : Option (State T) :=
  match (s.process port).round with
  | some ⟨_, ⟨none, masterPut⟩⟩ =>
    some { s.setProcess port { s.process port with
        shard := (s.process port).shard.finish ⟨none, masterPut⟩, round := none } with
      inbox := s.inbox ++ masterPut.toList.map fun p => ⟨none, p.1⟩ }
  | _ => none

def stepExit (x : T) : Option (State T) :=
  match s.client x with
  | .ended o => some { s.setClient x .idle with history := s.history ++ [.returned x o] }
  | _ => none

end State

variable (T) in
/-- The servers of a layout are registered and listen, with empty databases. -/
def clients (l : Layout) : System (State T) (Action T) where
  init s := s = { master := l.fresh.master }
  next s
    | .start x r => s.stepStart x r
    | .take => s.stepTake deliver
    | .connect x => s.stepConnect l x
    | .receive port => s.stepReceive deliver port
    | .reply port => s.stepReply deliver port
    | .finish port => s.stepFinish port
    | .exit x => s.stepExit x

/-- Clients that `Cluster.run` serves at once. -/
abbrev serial (T : Type) [DecidableEq T] (deliver : Msg → Option Msg) (l : Layout) :=
  Object.atomic T (fun (c : Cluster) (r : Request) => c.run deliver r) l.fresh

/-! ## The link -/

abbrev Serial (T : Type) := Object.Atomic T Cluster Request Outcome

/-- A connection to the master: a question, or a MASTER_PUT. -/
def ToMaster (s : State T) (c : Connection T) : Prop :=
  (∃ x r, c = ⟨some x, r.routeMessage⟩ ∧ s.client x = .asking r) ∨
    (c.client = none ∧ c.message.IsRequest ∧ c.message.type = .masterPut)

/-- A connection to a shard: the request has not taken effect. -/
def ToShard (s : State T) (a : Serial T) (port : Int32) (c : Connection T) : Prop :=
  ∃ x r, c = ⟨some x, r.message⟩ ∧ s.client x = .sent r port ∧ a.pending x = .called r

/-- A round of a shard: the request has taken effect. -/
structure InRound (s : State T) (a : Serial T) (port : Int32) (round : Round T) : Prop where
  reply : ∀ m, round.pending.reply = some m → ∃ x r, round.client = some x ∧
    s.client x = .sent r port ∧ a.pending x = .done (Cluster.outcome deliver m)
  masterPut : ∀ e, round.pending.masterPut = some e → e.1.IsRequest ∧ e.1.type = .masterPut

/-- What a client does, and what becomes of its request when it is served at once. -/
def Tied (route : Int → Option Int32) : Client → Object.Pending Request Outcome → Prop
  | .idle, pending => pending = .idle
  | .asking r, pending => pending = .called r
  | .routed r port, pending => pending = .called r ∧ route r.key.toInt = some port
  | .sent r port, _ => route r.key.toInt = some port
  | .ended o, pending => pending = .done o

structure Linked (l : Layout) (s : State T) (a : Serial T) : Prop where
  history : a.history = s.history
  registered : s.master.Registered l.ports
  route : ∀ k, a.object.master.route k = s.master.route k
  live : ∀ p ∈ l.ports, ∃ shard, a.object.shardAt p = some shard ∧ shard.db = (s.process p).shard.db
  tied : ∀ x, Tied s.master.route (s.client x) (a.pending x)
  inbox : ∀ c ∈ s.inbox, ToMaster s c
  inboxOnce : (s.inbox.filterMap Connection.client).Nodup
  queue : ∀ p, ∀ c ∈ (s.process p).queue, ToShard s a p c
  queueOnce : ∀ p, ((s.process p).queue.filterMap Connection.client).Nodup
  round : ∀ p round, (s.process p).round = some round → InRound deliver s a p round

section Link

variable {deliver} {keep : Int32 → WireString → WireString} {l : Layout} {s t : State T} {a b : Serial T}
  {x y : T} {c : Connection T} {p port : Int32}

omit [DecidableEq T] in
theorem ToMaster.frame (sent : ToMaster s c) (same : ∀ y, c.client = some y → t.client y = s.client y) :
    ToMaster t c := by
  rcases sent with ⟨x, r, rfl, asking⟩ | told
  · exact .inl ⟨x, r, rfl, (same x rfl).trans asking⟩
  · exact .inr told

omit [DecidableEq T] in
theorem ToShard.frame (sent : ToShard s a p c)
    (same : ∀ y, c.client = some y → t.client y = s.client y ∧ b.pending y = a.pending y) :
    ToShard t b p c := by
  obtain ⟨x, r, rfl, client, pending⟩ := sent
  exact ⟨x, r, rfl, (same x rfl).1.trans client, (same x rfl).2.trans pending⟩

omit [DecidableEq T] in
theorem InRound.frame {round : Round T} (inRound : InRound deliver s a p round)
    (same : ∀ y m, round.pending.reply = some m → round.client = some y →
      t.client y = s.client y ∧ b.pending y = a.pending y) : InRound deliver t b p round := by
  refine ⟨fun m reply => ?_, inRound.masterPut⟩
  obtain ⟨x, r, here, client, pending⟩ := inRound.reply m reply
  have same := same x m reply here
  exact ⟨x, r, here, same.1.trans client, same.2.trans pending⟩

omit [DecidableEq T] in
theorem Linked.asking (linked : Linked deliver l s a) (member : c ∈ s.inbox) (client : c.client = some x) :
    ∃ r, s.client x = .asking r := by
  rcases linked.inbox c member with ⟨y, r, rfl, asking⟩ | told
  · cases client
    exact ⟨r, asking⟩
  · cases told.1.symm.trans client

omit [DecidableEq T] in
theorem Linked.sent (linked : Linked deliver l s a) (member : c ∈ (s.process p).queue)
    (client : c.client = some x) : ∃ r, s.client x = .sent r p ∧ a.pending x = .called r := by
  obtain ⟨y, r, rfl, sent, pending⟩ := linked.queue p c member
  cases client
  exact ⟨r, sent, pending⟩

omit [DecidableEq T] in
theorem Linked.replied (linked : Linked deliver l s a) {round : Round T}
    (here : (s.process p).round = some round) {m : Msg} (reply : round.pending.reply = some m)
    (client : round.client = some x) :
    ∃ r, s.client x = .sent r p ∧ a.pending x = .done (Cluster.outcome deliver m) := by
  obtain ⟨y, r, same, sent, pending⟩ := (linked.round p round here).reply m reply
  cases client.symm.trans same
  exact ⟨r, sent, pending⟩

omit [DecidableEq T] in
theorem Linked.member (linked : Linked deliver l s a) {r : Request} (sent : s.client x = .sent r p) :
    s.master.route r.key.toInt = some p := by
  have tied := linked.tied x
  rwa [sent] at tied

omit [DecidableEq T] in
theorem Linked.of_route (linked : Linked deliver l s a) {k : Int32}
    (routed : s.master.route k.toInt = some port) : port ∈ l.ports := by
  by_cases routable : Master.Routable l.ports.length k.toInt
  · have known := Master.route_of_registered linked.registered l.nonempty routable
    exact List.mem_of_getElem? (known.symm.trans routed)
  · rw [Master.route_of_not_routable linked.registered routable] at routed
    cases routed

omit [DecidableEq T] in
theorem linked_init : Linked deliver l ({ master := l.fresh.master } : State T) { object := l.fresh } where
  history := rfl
  registered := l.fresh_registered
  route _ := rfl
  live p member := ⟨{}, if_pos member, rfl⟩
  tied _ := rfl
  inbox _ member := by cases member
  inboxOnce := List.nodup_nil
  queue _ _ member := by cases member
  queueOnce _ := List.nodup_nil
  round _ _ here := by cases here

/-- A client changes that no connection and no round waits for. -/
theorem Linked.ofClient (linked : Linked deliver l s a) (others : ∀ y, y ≠ x → t.client y = s.client y)
    (pending : ∀ y, y ≠ x → b.pending y = a.pending y) (history : b.history = t.history)
    (master : t.master = s.master) (object : b.object = a.object) (process : t.process = s.process)
    (inbox : ∀ c ∈ t.inbox, c ∈ s.inbox ∧ c.client ≠ some x ∨ ToMaster t c)
    (inboxOnce : (t.inbox.filterMap Connection.client).Nodup)
    (notSent : ∀ r p, s.client x ≠ .sent r p)
    (tied : Tied s.master.route (t.client x) (b.pending x)) : Linked deliver l t b := by
  have apart : ∀ y r p, s.client y = .sent r p → y ≠ x := by
    rintro y r p sent rfl
    exact notSent r p sent
  refine ⟨history, by rw [master]; exact linked.registered, by rw [object, master]; exact linked.route,
    by rw [object, process]; exact linked.live, fun y => ?_, fun c member => ?_, inboxOnce,
    fun p c member => ?_, by rw [process]; exact linked.queueOnce, fun p round here => ?_⟩
  · by_cases same : y = x
    · rw [master, same]
      exact tied
    · rw [others y same, pending y same, master]
      exact linked.tied y
  · rcases inbox c member with ⟨old, other⟩ | new
    · exact (linked.inbox c old).frame fun y client => others y fun same => other (same ▸ client)
    · exact new
  · rw [process] at member
    refine (linked.queue p c member).frame fun y client => ?_
    obtain ⟨r, sent, _⟩ := linked.sent member client
    exact ⟨others y (apart y r p sent), pending y (apart y r p sent)⟩
  · rw [process] at here
    refine (linked.round p round here).frame fun y m reply client => ?_
    obtain ⟨r, sent, _⟩ := linked.replied here reply client
    exact ⟨others y (apart y r p sent), pending y (apart y r p sent)⟩

/-! ## Starts and exits -/

theorem Linked.start (linked : Linked deliver l s a) {r : Request} (taken : s.stepStart x r = some t) :
    ∃ b, (serial T deliver l).next a (.call x r) = some b ∧ Linked deliver l t b := by
  unfold State.stepStart at taken
  split at taken
  next idle =>
    obtain rfl := Option.some.inj taken
    have pending : a.pending x = .idle := by
      have tied := linked.tied x
      rwa [idle] at tied
    refine ⟨{ a with
      pending := Function.update a.pending x (.called r), history := a.history ++ [.called x r] },
      by simp [Object.atomic, Object.nextAtomic, pending], ?_⟩
    have fresh : ∀ c ∈ s.inbox, c.client ≠ some x := by
      intro c member client
      obtain ⟨q, asking⟩ := linked.asking member client
      cases idle.symm.trans asking
    refine linked.ofClient (x := x) (fun y other => Function.update_of_ne other ..)
      (fun y other => Function.update_of_ne other ..) (by rw [linked.history]) rfl rfl rfl
      (fun c member => ?_) ?_ (by simp [idle]) ?_
    · rcases List.mem_append.mp member with old | new
      · exact .inl ⟨old, fresh c old⟩
      · rw [List.mem_singleton.mp new]
        exact .inr (.inl ⟨x, r, rfl, Function.update_self ..⟩)
    · rw [List.filterMap_append, List.nodup_append]
      refine ⟨linked.inboxOnce, by simp, fun y old z new => ?_⟩
      obtain ⟨c, member, client⟩ := List.mem_filterMap.mp old
      obtain rfl : z = x := by simpa using new
      rintro rfl
      exact fresh c member client
    · simp [State.setClient, Tied]
  next => cases taken

theorem Linked.exit (linked : Linked deliver l s a) (taken : s.stepExit x = some t) :
    ∃ b, (serial T deliver l).next a (.ret x) = some b ∧ Linked deliver l t b := by
  unfold State.stepExit at taken
  split at taken
  next o ended =>
    obtain rfl := Option.some.inj taken
    have pending : a.pending x = .done o := by
      have tied := linked.tied x
      rwa [ended] at tied
    refine ⟨{ a with
      pending := Function.update a.pending x .idle, history := a.history ++ [.returned x o] },
      by simp [Object.atomic, Object.nextAtomic, pending], ?_⟩
    refine linked.ofClient (x := x) (fun y other => Function.update_of_ne other ..)
      (fun y other => Function.update_of_ne other ..) (by rw [linked.history]) rfl rfl rfl
      (fun c member => .inl ⟨member, fun client => ?_⟩) linked.inboxOnce (by simp [ended]) ?_
    · obtain ⟨q, asking⟩ := linked.asking member client
      cases ended.symm.trans asking
    · simp [State.setClient, Tied]
  next => cases taken

/-! ## The master -/

omit [DecidableEq T] in
/-- A connection is taken from the inbox. -/
theorem Linked.ofMaster (linked : Linked deliver l s a) {rest : List (Connection T)}
    (inbox : s.inbox = c :: rest) {kvMap : StdMap Int WireString} :
    Linked deliver l { s with master := { s.master with kvMap := kvMap }, inbox := rest } a where
  history := linked.history
  registered := linked.registered.learned kvMap
  route := linked.route
  live := linked.live
  tied := linked.tied
  inbox d member := linked.inbox d (inbox ▸ List.mem_cons_of_mem c member)
  inboxOnce := by
    have once := linked.inboxOnce
    rw [inbox] at once
    exact once.sublist ((List.sublist_cons_self c rest).filterMap _)
  queue := linked.queue
  queueOnce := linked.queueOnce
  round p round here := (linked.round p round here).frame fun _ _ _ _ => ⟨rfl, rfl⟩

theorem Linked.take (linked : Linked deliver l s a) (delivery : Delivery deliver keep)
    (told : ∀ p ∈ l.ports, deliver { port_ := some p, type_ := some .reply } =
      some { port_ := some p, type_ := some .reply })
    (taken : s.stepTake deliver = some t) : Linked deliver l t a := by
  unfold State.stepTake at taken
  split at taken
  · cases taken
  next c rest inbox =>
    rcases linked.inbox c (by simp [inbox]) with ⟨x, r, rfl, asking⟩ | ⟨nobody, request, kind⟩
    -- A question is answered with the port of the key's shard.
    · obtain ⟨m, arrived, _, type, key, _⟩ := delivery.request _ r.routeMessage_isRequest
      replace type : m.type = .get := type
      replace key : m.key = r.key := key
      cases routed : s.master.route r.key.toInt with
      | none => simp [arrived, Master.handle, type, key, routed] at taken
      | some port =>
        have learned : Client.learn deliver { port_ := some port, type_ := some .reply } (.asking r) =
            .routed r port := by
          rw [Client.learn, told port (linked.of_route routed)]
          rfl
        simp only [arrived, Master.handle, type, key, routed, Option.map_some, State.answer, hear, asking,
          learned, Option.some.injEq] at taken
        subst taken
        have once := linked.inboxOnce
        rw [inbox, List.filterMap_cons_some (f := Connection.client) (b := x) rfl, List.nodup_cons] at once
        refine linked.ofClient (x := x) (fun y other => Function.update_of_ne other ..) (fun _ _ => rfl)
          linked.history rfl rfl rfl (fun d member => .inl ⟨inbox ▸ List.mem_cons_of_mem _ member, ?_⟩)
          once.2 (by simp [asking]) ?_
        · exact fun client => once.1 (List.mem_filterMap.mpr ⟨d, member, client⟩)
        · have tied := linked.tied x
          rw [asking] at tied
          simpa [State.setClient, Tied, routed] using tied
    -- A MASTER_PUT changes the map only.
    · obtain ⟨m, arrived, _, type, _, _⟩ := delivery.request _ request
      rw [kind] at type
      simp only [arrived, Master.handle, type, Option.map_some, nobody, State.answer, hear,
        Option.some.injEq] at taken
      subst taken
      exact linked.ofMaster inbox

/-- The master goes on with its next connection, if it can route what the clients ask for. -/
theorem Linked.take_isSome (linked : Linked deliver l s a) (delivery : Delivery deliver keep)
    (routable : ∀ x r, s.client x = .asking r → Master.Routable l.ports.length r.key.toInt)
    (waiting : s.inbox ≠ []) : (s.stepTake deliver).isSome := by
  obtain ⟨c, rest, inbox⟩ := List.exists_cons_of_ne_nil waiting
  rcases linked.inbox c (by simp [inbox]) with ⟨x, r, rfl, asking⟩ | ⟨_, request, kind⟩
  · obtain ⟨m, arrived, _, type, key, _⟩ := delivery.request _ r.routeMessage_isRequest
    replace type : m.type = .get := type
    replace key : m.key = r.key := key
    have known := Master.route_of_registered linked.registered l.nonempty (routable x r asking)
    rw [List.getElem?_eq_getElem (Master.shardIndex_lt l.nonempty (routable x r asking))] at known
    simp [State.stepTake, inbox, arrived, Master.handle, type, key, known]
  · obtain ⟨m, arrived, _, type, _, _⟩ := delivery.request _ request
    rw [kind] at type
    simp [State.stepTake, inbox, arrived, Master.handle, type]

/-! ## The shards -/

omit [DecidableEq T] in
/-- One shard goes on, with its queue, and no client. -/
theorem Linked.ofShard (linked : Linked deliver l s a) {q : Process T}
    (db : q.shard.db = (s.process port).shard.db) (queue : ∀ c ∈ q.queue, ToShard s a port c)
    (queueOnce : (q.queue.filterMap Connection.client).Nodup)
    (round : ∀ round, q.round = some round → InRound deliver s a port round) :
    Linked deliver l (s.setProcess port q) a := by
  refine ⟨linked.history, linked.registered, linked.route, fun p member => ?_, linked.tied, linked.inbox,
    linked.inboxOnce, fun p => ?_, fun p => ?_, fun p => ?_⟩
  all_goals by_cases same : p = port
  · subst same
    rw [State.setProcess_self, db]
    exact linked.live p member
  · rw [State.setProcess_of_ne _ same]
    exact linked.live p member
  · subst same
    rw [State.setProcess_self]
    exact queue
  · rw [State.setProcess_of_ne _ same]
    exact linked.queue p
  · subst same
    rwa [State.setProcess_self]
  · rw [State.setProcess_of_ne _ same]
    exact linked.queueOnce p
  · subst same
    rw [State.setProcess_self]
    exact fun r now => (round r now).frame fun _ _ _ _ => ⟨rfl, rfl⟩
  · rw [State.setProcess_of_ne _ same]
    exact fun r now => (linked.round p r now).frame fun _ _ _ _ => ⟨rfl, rfl⟩

theorem Linked.connect (linked : Linked deliver l s a) (taken : s.stepConnect l x = some t) :
    Linked deliver l t a := by
  unfold State.stepConnect at taken
  split at taken
  next r port routed =>
    have tied := linked.tied x
    rw [routed] at tied
    obtain ⟨pending, route⟩ := tied
    rw [if_pos (linked.of_route route)] at taken
    obtain rfl := Option.some.inj taken
    have fresh : ∀ p, ∀ c ∈ (s.process p).queue, c.client ≠ some x := by
      intro p c member client
      obtain ⟨q, sent, _⟩ := linked.sent member client
      cases routed.symm.trans sent
    -- First the client has sent its request, then the connection is there.
    have moved : Linked deliver l (s.setClient x (.sent r port)) a :=
      linked.ofClient (x := x) (fun y other => Function.update_of_ne other ..) (fun _ _ => rfl)
        linked.history rfl rfl rfl
        (fun c member => .inl ⟨member, fun client => by
          obtain ⟨q, asking⟩ := linked.asking member client
          cases routed.symm.trans asking⟩)
        linked.inboxOnce (by simp [routed]) (by simpa [State.setClient, Tied] using route)
    let q : Process T := { s.process port with queue := (s.process port).queue ++ [⟨some x, r.message⟩] }
    have same : q.shard.db = ((s.setClient x (.sent r port)).process port).shard.db := rfl
    refine moved.ofShard same (fun c member => ?_) ?_
      fun round here => moved.round port round here
    · rcases List.mem_append.mp member with old | new
      · exact moved.queue port c old
      · rw [List.mem_singleton.mp new]
        exact ⟨x, r, rfl, Function.update_self .., pending⟩
    · rw [List.filterMap_append, List.nodup_append]
      refine ⟨linked.queueOnce port, by simp, fun y old z new => ?_⟩
      obtain ⟨c, member, client⟩ := List.mem_filterMap.mp old
      obtain rfl : z = x := by simpa using new
      rintro rfl
      exact fresh port c member client
  next => cases taken

/-- A request at the shard of its key, and the same request served at once. -/
theorem run_of_receive (delivery : Delivery deliver keep) {object : Cluster} {r : Request}
    (routed : object.master.route r.key.toInt = some port)
    (told : deliver { port_ := some port, type_ := some .reply } =
      some { port_ := some port, type_ := some .reply })
    {shard held : Shard} (live : object.shardAt port = some held) (same : held.db = shard.db) :
    ∃ m reply masterPut after held', deliver r.message = some m ∧
      (shard.receive m).2 = ⟨some reply, masterPut⟩ ∧
      (∀ e, masterPut = some e → e.1.IsRequest ∧ e.1.type = .masterPut) ∧
      object.run deliver r = some (after, Cluster.outcome deliver reply) ∧
      (∀ k, after.master.route k = object.master.route k) ∧
      after.shardAt = Function.update object.shardAt port (some held') ∧
      held'.db = (shard.receive m).1.db := by
  obtain ⟨m, arrived, request, type, key, value⟩ := delivery.request _ r.message_isRequest
  cases r with
  | put k v =>
    replace type : m.type = .put := type
    replace key : m.key = k := key
    replace value : m.value = keep k v.string := value
    have acked : Cluster.outcome deliver (generateMessage true) = ⟨0, some (generateMessage true)⟩ := by
      rw [Cluster.outcome, delivery.acknowledged]
      rfl
    have ran := Cluster.run_put (k := k) (v := v) delivery routed told live
    rw [← acked] at ran
    refine ⟨m, generateMessage true, some ({ m with type_ := some .masterPut }, m.keyText), _,
      held.store k (keep k v.string), arrived, by simp [Shard.receive, type], ?_, ran, fun _ => rfl, rfl, ?_⟩
    · intro e told
      obtain rfl := Option.some.inj told
      exact ⟨request.retyped .masterPut, rfl⟩
    · have plain := request.cStr_value
      rw [value] at plain
      simp only [Shard.store, Shard.receive, type, Msg.keyText, key, value, plain, same]
  | get k =>
    replace type : m.type = .get := type
    replace key : m.key = k := key
    have found : held.find (charKey k) = shard.find (charKey k) := by
      rw [Shard.find, same, Shard.find]
    refine ⟨m, Cluster.getReply (shard.find (charKey k)), none, object, held, arrived, ?_, by simp, ?_,
      fun _ => rfl, ?_, ?_⟩
    · simp only [Shard.receive, type, Cluster.getReply, Shard.find, Msg.charText, key, charKey,
        Int8.toInt_toInt32]
    · rw [Cluster.run_get (k := k) delivery routed told live, found]
    · rw [← live, Function.update_eq_self]
    · simp only [Shard.receive, type, same]

/-- When a shard receives a request, the request takes effect. -/
theorem Linked.receive (linked : Linked deliver l s a) (delivery : Delivery deliver keep)
    (told : ∀ p ∈ l.ports, deliver { port_ := some p, type_ := some .reply } =
      some { port_ := some p, type_ := some .reply })
    (taken : s.stepReceive deliver port = some t) :
    ∃ x b, (serial T deliver l).next a (.effect x) = some b ∧ Linked deliver l t b := by
  unfold State.stepReceive at taken
  split at taken
  next c rest free queue =>
    obtain ⟨x, r, rfl, sent, pending⟩ := linked.queue port c (by simp [queue])
    have route := linked.member sent
    have inside := linked.of_route route
    obtain ⟨held, live, db⟩ := linked.live port inside
    obtain ⟨m, reply, masterPut, after, held', arrived, round, puts, ran, routes, shards, db'⟩ :=
      run_of_receive delivery ((linked.route _).trans route) (told port inside) live db
    simp only [arrived, round, Option.some.injEq] at taken
    subst taken
    have once := linked.queueOnce port
    rw [queue, List.filterMap_cons_some (f := Connection.client) (b := x) rfl, List.nodup_cons] at once
    have next : (serial T deliver l).next a (.effect x) = some { a with
        object := after
        pending := Function.update a.pending x (.done (Cluster.outcome deliver reply))
        log := a.log ++ [(x, r, Cluster.outcome deliver reply)] } := by
      simp only [Object.atomic, Object.nextAtomic, pending, ran, Option.map_some]
    refine ⟨x, _, next, ?_⟩
    have others : ∀ y, y ≠ x →
        Function.update a.pending x (.done (Cluster.outcome deliver reply)) y = a.pending y :=
      fun y other => Function.update_of_ne other ..
    refine ⟨linked.history, linked.registered, fun k => (routes k).trans (linked.route k), fun p member => ?_,
      fun y => ?_, linked.inbox, linked.inboxOnce, fun p d member => ?_, fun p => ?_, fun p round here => ?_⟩
    · rw [shards]
      by_cases here : p = port
      · subst here
        exact ⟨held', Function.update_self .., by rw [db', State.setProcess_self]⟩
      · rw [Function.update_of_ne here, State.setProcess_of_ne _ here]
        exact linked.live p member
    · by_cases same : y = x
      · subst same
        show Tied s.master.route (s.client y) _
        rw [sent]
        exact route
      · simp only [others y same]
        exact linked.tied y
    -- The requests that still wait are of other clients.
    · have waiting : d ∈ (s.process p).queue ∧ d.client ≠ some x := by
        by_cases here : p = port
        · subst here
          rw [State.setProcess_self] at member
          refine ⟨by simp [queue, show d ∈ rest from member], fun client => once.1 ?_⟩
          exact List.mem_filterMap.mpr ⟨d, member, client⟩
        · rw [State.setProcess_of_ne _ here] at member
          refine ⟨member, fun client => here ?_⟩
          obtain ⟨q, elsewhere, _⟩ := linked.sent member client
          rw [sent] at elsewhere
          exact (Client.sent.inj elsewhere).2.symm
      refine (linked.queue p d waiting.1).frame fun y client => ⟨rfl, others y ?_⟩
      rintro rfl
      exact waiting.2 client
    · by_cases here : p = port
      · subst here
        rw [State.setProcess_self]
        exact once.2
      · rw [State.setProcess_of_ne _ here]
        exact linked.queueOnce p
    · by_cases same : p = port
      · subst same
        rw [State.setProcess_self] at here
        obtain rfl := Option.some.inj here
        refine ⟨fun n answer => ⟨x, r, rfl, sent, ?_⟩, fun e put => puts e put⟩
        obtain rfl := Option.some.inj answer
        exact Function.update_self ..
      · rw [State.setProcess_of_ne _ same] at here
        refine (linked.round p round here).frame fun y n answer client => ⟨rfl, others y ?_⟩
        rintro rfl
        obtain ⟨_, _, done⟩ := linked.replied here answer client
        cases pending.symm.trans done
  next => cases taken

theorem Linked.reply (linked : Linked deliver l s a) (taken : s.stepReply deliver port = some t) :
    Linked deliver l t a := by
  unfold State.stepReply at taken
  split at taken
  next client m masterPut here =>
    obtain rfl := Option.some.inj taken
    obtain ⟨x, r, client, sent, done⟩ := (linked.round port _ here).reply m rfl
    dsimp only at client
    subst client
    -- First the shard has sent its reply, then the client has it.
    have moved : Linked deliver l (s.setProcess port { s.process port with
        round := some ⟨some x, ⟨none, masterPut⟩⟩ }) a := by
      refine linked.ofShard rfl (linked.queue port) (linked.queueOnce port) fun round now => ?_
      obtain rfl := Option.some.inj now
      exact ⟨nofun, (linked.round port _ here).masterPut⟩
    have concluded : Client.conclude deliver m (s.client x) = .ended (Cluster.outcome deliver m) := by
      rw [sent]
      rfl
    have others : ∀ y, y ≠ x → Function.update s.client x (Client.conclude deliver m (s.client x)) y =
        s.client y := fun y other => Function.update_of_ne other ..
    refine ⟨moved.history, moved.registered, moved.route, moved.live, fun y => ?_, fun c member => ?_,
      moved.inboxOnce, fun p c member => ?_, moved.queueOnce, fun p round now => ?_⟩
    · by_cases same : y = x
      · subst same
        show Tied s.master.route (Function.update s.client y (Client.conclude deliver m (s.client y)) y) _
        rw [Function.update_self, concluded]
        exact done
      · have tied := linked.tied y
        rwa [← others y same] at tied
    · refine (moved.inbox c member).frame fun y client => others y ?_
      rintro rfl
      obtain ⟨q, asking⟩ := linked.asking member client
      cases sent.symm.trans asking
    · refine (moved.queue p c member).frame fun y client => ⟨others y ?_, rfl⟩
      rintro rfl
      obtain ⟨q, _, called⟩ := moved.sent member client
      cases done.symm.trans called
    · refine (moved.round p round now).frame fun y n answer client => ⟨others y ?_, rfl⟩
      rintro rfl
      obtain ⟨q, elsewhere, _⟩ := moved.replied now answer client
      obtain rfl : p = port := (Client.sent.inj (elsewhere.symm.trans sent)).2
      change ((s.setProcess p _).process p).round = _ at now
      rw [State.setProcess_self] at now
      obtain rfl := Option.some.inj now
      cases answer
  next => cases taken

omit [DecidableEq T] in
/-- MASTER_PUTs are on their way. -/
theorem Linked.tell (linked : Linked deliver l s a) {more : List (Connection T)}
    (puts : ∀ c ∈ more, c.client = none ∧ c.message.IsRequest ∧ c.message.type = .masterPut) :
    Linked deliver l { s with inbox := s.inbox ++ more } a where
  history := linked.history
  registered := linked.registered
  route := linked.route
  live := linked.live
  tied := linked.tied
  inbox c member := (List.mem_append.mp member).elim (linked.inbox c) fun new => .inr (puts c new)
  inboxOnce := by
    have silent : more.filterMap Connection.client = [] :=
      List.filterMap_eq_nil_iff.mpr fun c member => (puts c member).1
    rw [List.filterMap_append, silent, List.append_nil]
    exact linked.inboxOnce
  queue := linked.queue
  queueOnce := linked.queueOnce
  round p round here := (linked.round p round here).frame fun _ _ _ _ => ⟨rfl, rfl⟩

omit [DecidableEq T] in
theorem Linked.finish (linked : Linked deliver l s a) (taken : s.stepFinish port = some t) :
    Linked deliver l t a := by
  unfold State.stepFinish at taken
  split at taken
  next client masterPut here =>
    obtain rfl := Option.some.inj taken
    have db : ((s.process port).shard.finish ⟨none, masterPut⟩).db = (s.process port).shard.db := by
      rw [Shard.finish]
      split <;> rfl
    have moved : Linked deliver l (s.setProcess port { s.process port with
        shard := (s.process port).shard.finish ⟨none, masterPut⟩, round := none }) a := by
      refine linked.ofShard db (linked.queue port) (linked.queueOnce port) fun round none => ?_
      cases none
    refine moved.tell fun c member => ?_
    obtain ⟨e, put, rfl⟩ := List.mem_map.mp member
    exact ⟨rfl, (linked.round port _ here).masterPut e (Option.mem_toList.mp put)⟩
  next => cases taken

theorem Linked.next (linked : Linked deliver l s a) (delivery : Delivery deliver keep)
    (told : ∀ p ∈ l.ports, deliver { port_ := some p, type_ := some .reply } =
      some { port_ := some p, type_ := some .reply })
    {action : Action T} (taken : (clients T deliver l).next s action = some t) :
    ∃ labels b, (serial T deliver l).run a labels = some b ∧ Linked deliver l t b := by
  have one : ∀ {label b}, (serial T deliver l).next a label = some b → Linked deliver l t b →
      ∃ labels b, (serial T deliver l).run a labels = some b ∧ Linked deliver l t b := by
    intro label b next linked
    exact ⟨[label], b, by simp [System.run, next], linked⟩
  cases action with
  | start x r =>
    obtain ⟨b, next, linked⟩ := linked.start taken
    exact one next linked
  | take => exact ⟨[], a, rfl, linked.take delivery told taken⟩
  | connect x => exact ⟨[], a, rfl, linked.connect taken⟩
  | receive port =>
    obtain ⟨x, b, next, linked⟩ := linked.receive delivery told taken
    exact one next linked
  | reply port => exact ⟨[], a, rfl, linked.reply taken⟩
  | finish port => exact ⟨[], a, rfl, linked.finish taken⟩
  | exit x =>
    obtain ⟨b, next, linked⟩ := linked.exit taken
    exact one next linked

theorem exists_linked (delivery : Delivery deliver keep)
    (told : ∀ p ∈ l.ports, deliver { port_ := some p, type_ := some .reply } =
      some { port_ := some p, type_ := some .reply })
    (reachable : (clients T deliver l).Reachable System.Always s) :
    ∃ a, (serial T deliver l).Reachable System.Always a ∧ Linked deliver l s a := by
  refine reachable.invariant (I := fun s => ∃ a, (serial T deliver l).Reachable System.Always a ∧
    Linked deliver l s a) ?_ ?_
  · rintro s rfl
    exact ⟨_, .start rfl, linked_init⟩
  · rintro s action t ⟨a, reached, linked⟩ _ taken
    obtain ⟨labels, b, ran, linked⟩ := linked.next delivery told taken
    exact ⟨b, reached.run ran, linked⟩

end Link

/-! ## What the clients see -/

section Clients

variable {l : Layout} {s : State T} {a : Serial T}

theorem exists_serial (reachable : (clients T wireDeliver l).Reachable System.Always s) :
    ∃ a, (serial T wireDeliver l).Reachable System.Always a ∧ Linked wireDeliver l s a :=
  exists_linked delivery_wire (fun p member => wireDeliver_port (l.nonzero p member) .reply) reachable

/-- Whatever the order of the steps, the clients exit as if they had been served one after another,
each between its start and its exit, and the databases are those behind the requests served. -/
theorem clients_linearizable (reachable : (clients T wireDeliver l).Reachable System.Always s) :
    ∃ a, (serial T wireDeliver l).Reachable System.Always a ∧ a.history = s.history ∧
      ∀ p ∈ l.ports, ∃ shard, a.object.shardAt p = some shard ∧ shard.db = (s.process p).shard.db := by
  obtain ⟨a, reached, linked⟩ := exists_serial reachable
  exact ⟨a, reached, linked.history, linked.live⟩

/-- Two clients at one shard: the GET is sent behind the PUT, and returns first. -/
def crossed : List (Action Bool) :=
  [.start false (.put 5 letterA), .start true (.get 5), .take, .take,
   .connect false, .connect true, .receive 25001, .reply 25001, .finish 25001, .receive 25001,
   .reply 25001, .exit true, .take, .exit false]

def crossedEnd : State Bool :=
  ((clients Bool wireDeliver .single).run { master := Layout.single.fresh.master } crossed).get
    (by decide)

theorem clients_linearizable_crossed :
    crossedEnd.history =
        [.called false (.put 5 letterA), .called true (.get 5),
          .returned true ⟨0, some { generateMessage true with value_ := some ⟨[97], by decide⟩ }⟩,
          .returned false ⟨0, some (generateMessage true)⟩] ∧
      ∃ a, (serial Bool wireDeliver .single).Reachable System.Always a ∧
        a.history = crossedEnd.history ∧ ∀ p ∈ Layout.single.ports, ∃ shard,
          a.object.shardAt p = some shard ∧ shard.db = (crossedEnd.process p).shard.db :=
  ⟨by decide, clients_linearizable (.run (.start rfl) (Option.some_get _).symm)⟩

/-- What has been served is answered by the history in front of it. -/
theorem served_log (reached : (serial T wireDeliver l).Reachable System.Always a) :
    Served l (a.log.map fun e => e.2.1) a.object ∧
      ∀ before x r o after, a.log = before ++ (x, r, o) :: after →
        o = answer l.ports.length (before.map fun e => e.2.1) r := by
  refine Object.atomic_invariant (I := fun object log => Served l (log.map fun e => e.2.1) object ∧
    ∀ before x r o after, log = before ++ (x, r, o) :: after →
      o = answer l.ports.length (before.map fun e => e.2.1) r) ⟨l.fresh_served, fun before => ?_⟩ ?_ reached
  · intro x r o after split
    simp at split
  · rintro object log x r object' o ⟨served, answered⟩ ran
    have routable : Master.Routable l.ports.length r.key.toInt := by
      by_contra negative
      rw [served.run_of_not_routable negative] at ran
      cases ran
    obtain ⟨after, ran', served'⟩ := served.run routable
    obtain ⟨rfl, rfl⟩ := Prod.mk.inj (Option.some.inj (ran.symm.trans ran'))
    refine ⟨by rwa [List.map_append], fun before y q p after split => ?_⟩
    -- The entry is the last one, or it was there before.
    rcases List.eq_nil_or_concat after with rfl | ⟨front, last, rfl⟩
    · obtain ⟨rfl, same⟩ := List.append_inj' split rfl
      cases same
      rfl
    · rw [List.concat_eq_append, ← List.cons_append, ← List.append_assoc] at split
      exact answered before y q p front (List.append_inj' split rfl).1

/-- A request that the way over the wire and through `char` leaves as it is, for a key that the master
of `n` servers routes. -/
def Plain (n : Nat) : Request → Prop
  | .put k v => Master.Routable n k.toInt ∧ v.string ≠ default
  | .get k => Master.Routable n k.toInt ∧ charKey k = k ∧ k ≠ 0

instance (n : Nat) : DecidablePred (Plain n)
  | .put _ _ => inferInstanceAs (Decidable (_ ∧ ¬_ = _))
  | .get _ => inferInstanceAs (Decidable (_ ∧ _))

theorem Plain.routable {n : Nat} {r : Request} (plain : Plain n r) :
    Master.Routable n r.key.toInt := by
  cases r with
  | put k v => exact plain.1
  | get k => exact plain.1

/-- What has been served, or waits to be served, has been called. -/
theorem called_of_mem (reached : (serial T wireDeliver l).Reachable System.Always a) {x : T}
    {r : Request} (inside : r ∈ Object.entriesOf x (a.log.map fun e => (e.1, e.2.1)) ++
      (a.pending x).calls) : .called x r ∈ a.history := by
  rw [← (Object.recorded reached x).calls] at inside
  obtain ⟨event, there, same⟩ := List.mem_filterMap.mp (Object.mem_entriesOf.mp inside)
  cases event with
  | called => cases same; exact there
  | returned => cases same

theorem getMatches_of_plain {n : Nat} {before : List Request} {k : Int32}
    (plain : ∀ r ∈ before, Plain n r) (get : Plain n (.get k)) : GetMatches n before k := by
  obtain ⟨_, same, nonzero⟩ := get
  unfold GetMatches
  rw [same]
  split
  next v last =>
    obtain ⟨r, member, written⟩ := List.exists_of_findSome?_eq_some last
    refine ⟨?_, nonzero, last, rfl⟩
    cases r with
    | get => cases written
    | put j w =>
      obtain ⟨_, same⟩ := Option.ite_none_right_eq_some.mp written
      obtain rfl := Option.some.inj same
      exact (plain _ (List.mem_reverse.mp member)).2
  next none =>
    intro w some
    rw [none] at some
    cases some

/-- For plain requests the cluster is a map: in the order in which they have taken effect, every PUT
succeeds and every GET is answered from the last PUT of its key. The master goes on as long as
something waits for it. -/
theorem linearizable_map (reachable : (clients T wireDeliver l).Reachable System.Always s)
    (plain : ∀ x r, .called x r ∈ s.history → Plain l.ports.length r) :
    (s.inbox ≠ [] → (s.stepTake wireDeliver).isSome) ∧
    ∃ a, (serial T wireDeliver l).Reachable System.Always a ∧ a.history = s.history ∧
      ∀ before x r o after, a.log = before ++ (x, r, o) :: after →
        match r with
        | .put _ _ => o.exit = 0
        | .get k => GetAnswered (lastPut k (before.map fun e => e.2.1)) o := by
  obtain ⟨a, reached, linked⟩ := exists_serial reachable
  refine ⟨fun waiting => ?_, a, reached, linked.history, fun before x r o after split => ?_⟩
  -- A question waits to be served.
  · refine linked.take_isSome delivery_wire (fun x r asking => (plain x r ?_).routable) waiting
    have pending := linked.tied x
    rw [asking] at pending
    replace pending : a.pending x = .called r := pending
    rw [← linked.history]
    exact called_of_mem reached (List.mem_append_right _ (by simp [pending, Object.Pending.calls]))
  · have called : ∀ e ∈ a.log, Plain l.ports.length e.2.1 := by
      intro e member
      refine plain e.1 _ (linked.history ▸ called_of_mem reached (List.mem_append_left _ ?_))
      exact Object.mem_entriesOf.mpr (List.mem_map.mpr ⟨e, member, rfl⟩)
    obtain rfl := (served_log reached).2 before x r o after split
    cases r with
    | put k v => rfl
    | get k =>
      refine (getMatches_iff _ _ k).mpr (getMatches_of_plain (fun q member => ?_) ?_)
      · obtain ⟨e, inside, rfl⟩ := List.mem_map.mp member
        exact called e (by simp [split, inside])
      · exact called (x, .get k, answer l.ports.length (before.map fun e => e.2.1) (.get k))
          (by simp [split])

theorem linearizable_map_crossed :
    (∀ x r, .called x r ∈ crossedEnd.history → Plain 1 r) ∧
      (crossedEnd.inbox ≠ [] → (crossedEnd.stepTake wireDeliver).isSome) ∧
      ∃ a, (serial Bool wireDeliver .single).Reachable System.Always a ∧
        a.history = crossedEnd.history ∧ ∀ before x r o after, a.log = before ++ (x, r, o) :: after →
          match r with
          | .put _ _ => o.exit = 0
          | .get k => GetAnswered (lastPut k (before.map fun e => e.2.1)) o := by
  have plain : ∀ x r, .called x r ∈ crossedEnd.history → Plain 1 r := by
    have all : ∀ r ∈ crossedEnd.history.filterMap fun e => e.called?.map Prod.snd, Plain 1 r := by decide
    exact fun x r member => all r (List.mem_filterMap.mpr ⟨_, member, rfl⟩)
  exact ⟨plain, linearizable_map (.run (.start rfl) (Option.some_get _).symm) plain⟩

end Clients

end CloudLab.Sharding.Clients
