import CloudLab.Sharding.Membership

/-!
# Acknowledged writes and joins

A shard acknowledges a PUT before the master hears of it, and a client keeps the port it
was given, so a join in between can delete the key or leave it where nobody looks for it.
Where joins and PUTs keep out of each other's way, no acknowledged write is lost.
-/
namespace CloudLab.Sharding.Concurrent

open Library Library.Wire

/-! ## Steps that keep out of each other's way -/

def Client.port? : Client → Option Int32
  | .routed _ port => some port
  | _ => none

/-- No PUT waits for a shard or is in its hands, and no MASTER_PUT waits for the master. -/
def Settled (s : State) : Prop :=
  (∀ p ∈ s.servers, (∀ c ∈ (s.process p).queue, c.message.type ≠ .put) ∧
    ∀ r ∈ (s.process p).round, r.pending.masterPut = none) ∧
  ∀ c ∈ s.inbox, c.message.type ≠ .masterPut

/-- The clients that hold a port keep it when one server more is registered. -/
def RoutesKept (s : State) : Prop :=
  ∀ k ∈ s.started, (s.client k).port?.isSome = true →
    k.toInt % (s.master.numServers + 1) = k.toInt % s.master.numServers

/-- The master takes up a join only when it has heard of every PUT and no port that a
client holds is out of date by it; a client sends no PUT to a shard that the master is
about to send a REORG. -/
def Undisturbed (s : State) : Action → Prop
  | .take => ∀ c ∈ s.inbox.head?, c.message.type = .server → Settled s ∧ RoutesKept s
  | .put k => ∀ port ∈ (s.client k).port?, ∀ m ∈ sentTo port s.left, m.type ≠ .reorg
  | _ => True

instance (s : State) : Decidable (Settled s) := inferInstanceAs (Decidable (_ ∧ _))

instance (s : State) : Decidable (RoutesKept s) := List.decidableBAll ..

instance (s : State) : DecidablePred (Undisturbed s)
  | .take => inferInstanceAs
      (Decidable (∀ c ∈ s.inbox.head?, c.message.type = .server → Settled s ∧ RoutesKept s))
  | .put k => inferInstanceAs
      (Decidable (∀ port ∈ (s.client k).port?, ∀ m ∈ sentTo port s.left, m.type ≠ .reorg))
  | .ask _ _ | .announce _ | .listen _ | .forward | .receive _ | .reply _ | .finish _ =>
    .isTrue trivial

/-! ## Where the values are -/

inductive OnWay (s : State) (k : Int32) : Prop
  | queued {p : Int32} {c : Connection} (member : c ∈ (s.process p).queue)
      (kind : c.message.type = .put) (key : c.message.key = k)
  | inRound {p : Int32} {r : Round} {m : Msg} {text : Bytes} (round : (s.process p).round = some r)
      (masterPut : r.pending.masterPut = some (m, text)) (key : m.key = k)
  | inInbox {c : Connection} (member : c ∈ s.inbox) (kind : c.message.type = .masterPut)
      (key : c.message.key = k)

/-- The master has heard of the key, or will. -/
def Told (s : State) (k : Int32) : Prop :=
  (s.master.kvMap.find? k.toInt).isSome = true ∨ OnWay s k

/-- The shard behind its round, the connections that wait for it and the messages that the
master is about to send it. -/
def Process.settle (q : Process) (more : List Msg) : Shard :=
  (q.queue.map Connection.message ++ more).foldl Shard.handle q.finished

def settled (s : State) (p : Int32) : Shard := (s.process p).settle (sentTo p s.left)

structure Safe (s : State) : Prop where
  routes : ∀ k v port, s.client k = .routed v port → s.master.route k.toInt = some port
  kept : ∀ k v, Carried s k v → ∃ port, s.master.route k.toInt = some port ∧
    (settled s port).find k = some v.string
  told : ∀ k v, Carried s k v → Told s k

section

variable {s t : State}

theorem Safe.frame (safe : Safe s) (route : ∀ x, t.master.route x = s.master.route x)
    (routed : ∀ k v port, t.client k = .routed v port → s.client k = .routed v port ∨
      s.master.route k.toInt = some port)
    (carried : ∀ k v, Carried t k v → Carried s k v) (same : ∀ p, settled t p = settled s p)
    (told : ∀ k, Told s k → Told t k) : Safe t where
  routes k v port holds := by
    rw [route]
    exact (routed k v port holds).elim (safe.routes k v port) id
  kept k v sent := by
    obtain ⟨port, routed, found⟩ := safe.kept k v (carried k v sent)
    exact ⟨port, by rwa [route], by rwa [same]⟩
  told k v sent := told k (safe.told k v (carried k v sent))

/-! ## The master will hear of every key -/

theorem queue_setProcess {port : Int32} {q : Process} {p : Int32} {c : Connection}
    (keeps : ∀ c ∈ (s.process port).queue, c ∈ q.queue) (member : c ∈ (s.process p).queue) :
    c ∈ ((s.setProcess port q).process p).queue := by
  rw [s.setProcess_process]
  split
  next here => exact keeps c (here ▸ member)
  next => exact member

theorem Told.of_queued {a : Action} (step : Step s a t) {p : Int32} {c : Connection}
    (member : c ∈ (s.process p).queue) (kind : c.message.type = .put) : Told t c.message.key := by
  have connected : ∀ port d, c ∈ ((s.connect port d).process p).queue := fun port d =>
    queue_setProcess (fun c => List.mem_append_left _) member
  cases step with
  | ask | refused | announce | exit => exact Or.inr (.queued member kind rfl)
  | put routed up => exact Or.inr (.queued (connected _ _) kind rfl)
  | forward left up => exact Or.inr (.queued (connected _ _) kind rfl)
  | listen | finish =>
    exact Or.inr (.queued (queue_setProcess (fun _ member => member) member) kind rfl)
  | take =>
    exact Or.inr (.queued (p := p) member kind rfl)
  | reply =>
    exact Or.inr (.queued (p := p) (queue_setProcess (fun _ member => member) member) kind rfl)
  -- Either this PUT is received, and its MASTER_PUT is in the round, or it goes on waiting.
  | @receive port d rest free queue =>
    by_cases here : p = port
    · subst here
      rw [queue] at member
      rcases List.mem_cons.mp member with rfl | later
      · have told : ((s.process p).shard.receive c.message).2.masterPut =
            some ({ c.message with type_ := some .masterPut }, c.message.keyText) := by
          simp only [Shard.receive, kind]
        refine Or.inr (.inRound (p := p)
          (r := ⟨c.client, ((s.process p).shard.receive c.message).2⟩) ?_ told rfl)
        simp [s.setProcess_process]
      · refine Or.inr (.queued (p := p) ?_ kind rfl)
        simpa [s.setProcess_process] using later
    · refine Or.inr (.queued (p := p) ?_ kind rfl)
      simpa [s.setProcess_process, here] using member

theorem Told.of_round {a : Action} (traffic : Traffic s) (step : Step s a t) {p : Int32}
    {r : Round} {m : Msg} {text : Bytes} (round : (s.process p).round = some r)
    (masterPut : r.pending.masterPut = some (m, text)) : Told t m.key := by
  have moved : ∀ port q, (p = port → q.round = (s.process port).round) →
      ((s.setProcess port q).process p).round = some r := by
    intro port q same
    rw [s.setProcess_process]
    split
    next here => rw [same here, ← here, round]
    next => exact round
  cases step with
  | ask | refused | announce | exit => exact Or.inr (.inRound round masterPut rfl)
  | put | forward | listen =>
    exact Or.inr (.inRound (p := p) (moved _ _ fun _ => rfl) masterPut rfl)
  | take =>
    exact Or.inr (.inRound (p := p) round masterPut rfl)
  -- A shard in the middle of a round receives nothing.
  | @receive port d rest free queue =>
    refine Or.inr (.inRound (p := p) (moved port _ fun here => ?_) masterPut rfl)
    subst here
    rw [round] at free
    cases free
  -- The reply leaves the MASTER_PUT in the round.
  | @reply port client answer told running =>
    by_cases here : p = port
    · subst here
      obtain rfl := Option.some.inj (round.symm.trans running)
      refine Or.inr (.inRound (p := p) (r := ⟨client, ⟨none, told⟩⟩) ?_ masterPut rfl)
      exact (congrArg Process.round (s.setProcess_process p p _)).trans (by rw [if_pos rfl])
    · exact Or.inr (.inRound (p := p) (moved port _ fun same => absurd same here) masterPut rfl)
  -- The MASTER_PUT goes from the round into the inbox.
  | @finish port client told running =>
    by_cases here : p = port
    · subst here
      obtain rfl := Option.some.inj (round.symm.trans running)
      have kind := (traffic.process p).round _ round
      obtain rfl : told = some (m, text) := masterPut
      refine Or.inr (.inInbox (c := ⟨none, m⟩) (List.mem_append_right _ (by simp)) ?_ rfl)
      cases kind
      rfl
    · exact Or.inr (.inRound (p := p) (moved port _ fun same => absurd same here) masterPut rfl)

theorem Told.of_inbox {a : Action} (traffic : Traffic s) (step : Step s a t) {c : Connection}
    (member : c ∈ s.inbox) (kind : c.message.type = .masterPut) : Told t c.message.key := by
  cases step with
  | ask | announce | finish =>
    exact Or.inr (.inInbox (List.mem_append_left _ member) kind rfl)
  | put | refused | listen | forward | exit | receive => exact Or.inr (.inInbox member kind rfl)
  | reply =>
    exact Or.inr (.inInbox (c := c) member kind rfl)
  | @take d rest master sends idle inbox handled =>
    rw [inbox] at member
    -- Either the master takes up this message, or it goes on waiting.
    rcases List.mem_cons.mp member with rfl | later
    · refine Or.inl ?_
      have origin := traffic.inbox c (by simp [inbox])
      cases origin with
      | ask | server => cases kind
      | @masterPut k v sent =>
        obtain ⟨rfl, rfl⟩ := Prod.mk.inj (Option.some.inj (handle_masterPut .. ▸ handled))
        change ((s.master.kvMap.insert k.toInt v.string).find? k.toInt).isSome = true
        rw [StdMap.find?_insert, if_pos rfl]
        rfl
    · exact Or.inr (.inInbox later kind rfl)

/-- In every run: nothing that is on its way to the master gets lost. -/
theorem Told.step {a : Action} (traffic : Traffic s) (grows : Grows s t) (step : Step s a t)
    {k : Int32} (told : Told s k) : Told t k := by
  rcases told with held | way
  · obtain ⟨w, held⟩ := Option.isSome_iff_exists.mp held
    exact Or.inl (Option.isSome_iff_exists.mpr ⟨w, grows.entries _ _ held⟩)
  · cases way with
    | queued member kind key => exact key ▸ .of_queued step member kind
    | inRound round masterPut key => exact key ▸ .of_round traffic step round masterPut
    | inInbox member kind key => exact key ▸ .of_inbox traffic step member kind

/-! ## Steps of shards and of the master's round move no value -/

theorem settled_congr (left : t.left = s.left) {port : Int32} {q : Process}
    (process : t.process = (s.setProcess port q).process)
    (same : ∀ more, q.settle more = (s.process port).settle more) (p : Int32) :
    settled t p = settled s p := by
  rw [settled, settled, left, process, s.setProcess_process]
  split
  next here =>
    subst here
    exact same _
  next => rfl

theorem Process.settle_receive (q : Process) {c : Connection} {rest : List Connection}
    (free : q.round = none) (queue : q.queue = c :: rest) (more : List Msg) :
    Process.settle { q with
      queue := rest
      shard := (q.shard.receive c.message).1
      round := some ⟨c.client, (q.shard.receive c.message).2⟩ } more = q.settle more := by
  simp only [settle, finished, free, queue, List.map_cons, List.cons_append, List.foldl_cons]
  rfl

theorem settled_forward {port : Int32} {m : Msg} {rest : List (Int32 × Msg)}
    (left : s.left = (port, m) :: rest) (p : Int32) :
    settled { s.connect port ⟨none, m⟩ with left := rest } p = settled s p := by
  simp only [settled, State.connect, State.setProcess_process, left]
  by_cases here : p = port
  · subst here
    simp [Process.settle, Process.finished, sentTo]
  · simp [here, sentTo, Ne.symm here]

/-! ## A PUT -/

/-- Two shards that differ at one key go on to do so while no message is about it. -/
theorem find_foldl_reorgPut {a b : Shard} {k : Int32} {v : WireString} {ms : List Msg}
    (others : ∀ m ∈ ms, m.type = .reorgPut ∧ m.key ≠ k)
    (differ : ∀ j, a.find j = if j = k then some v else b.find j) (j : Int32) :
    (ms.foldl Shard.handle a).find j =
      if j = k then some v else (ms.foldl Shard.handle b).find j := by
  induction ms generalizing a b with
  | nil => exact differ j
  | cons m ms ih =>
    -- The first message stores another key in both.
    obtain ⟨kind, other⟩ := others m (by simp)
    refine ih (fun n member => others n (by simp [member])) fun i => ?_
    rw [Shard.handle_reorgPut kind, Shard.handle_reorgPut kind, Shard.find_store,
      Shard.find_store, differ]
    by_cases here : i = m.key
    · subst here
      simp [other]
    · simp [here]

theorem handle_putMessage (s : Shard) (k : Int32) (v : Argument) :
    s.handle (putMessage k v) = s.store k v.string := by
  rw [Shard.handle_put rfl]
  exact congrArg (s.store k) (WireString.cStr_eq_self v.plain)

theorem settle_connect (q : Process) {k : Int32} {v : Argument} {more : List Msg}
    (others : ∀ m ∈ more, m.type = .reorgPut ∧ m.key ≠ k) (j : Int32) :
    (Process.settle { q with queue := q.queue ++ [⟨some k, putMessage k v⟩] } more).find j =
      if j = k then some v.string else (q.settle more).find j := by
  simp only [Process.settle, Process.finished, List.map_append, List.foldl_append, List.map_cons,
    List.map_nil, List.foldl_cons, List.foldl_nil, handle_putMessage]
  exact find_foldl_reorgPut others (fun i => Shard.find_store _ i k v.string) j

theorem settled_put {k : Int32} {v : Argument} {port : Int32}
    (others : ∀ m ∈ sentTo port s.left, m.type = .reorgPut ∧ m.key ≠ k) (p j : Int32) :
    (settled ((s.connect port ⟨some k, putMessage k v⟩).setClient k (.sent v)) p).find j =
      if p = port ∧ j = k then some v.string else (settled s p).find j := by
  change (Process.settle ((s.setProcess port _).process p) (sentTo p s.left)).find j = _
  rw [s.setProcess_process]
  by_cases here : p = port
  · subst here
    rw [if_pos rfl, settle_connect _ others j]
    simp [settled]
  · simp [here, settled]

/-- Without a REORG in front of it the shard is sent nothing about a key that was never put. -/
theorem others_of_undisturbed (traffic : Traffic s) {k : Int32} {v : Argument} {port : Int32}
    (routed : s.client k = .routed v port) (undisturbed : Undisturbed s (.put k)) :
    ∀ m ∈ sentTo port s.left, m.type = .reorgPut ∧ m.key ≠ k := by
  intro m member
  have calm := undisturbed port (by simp [routed, Client.port?]) m member
  obtain ⟨e, inside, rfl⟩ := List.mem_map.mp member
  have kind := traffic.left e (List.mem_filter.mp inside).1
  generalize e.2 = m at kind calm
  cases kind with
  | reorg => exact absurd rfl calm
  | @reorgPut j w held =>
    refine ⟨rfl, ?_⟩
    have key : (Master.reorgPutMessage j.toInt w).key = j := Int32.ofInt_toInt j
    rw [key]
    rintro rfl
    obtain ⟨i, u, same, -, carried⟩ := traffic.entries _ w held
    obtain rfl := Int32.toInt_inj.mp same
    simp [Carried, routed] at carried

theorem Safe.of_put (safe : Safe s) (traffic : Traffic s) {k : Int32} {v : Argument}
    {port : Int32} (routed : s.client k = .routed v port) (undisturbed : Undisturbed s (.put k))
    (told : ∀ j, Told s j → Told ((s.connect port ⟨some k, putMessage k v⟩).setClient k (.sent v)) j) :
    Safe ((s.connect port ⟨some k, putMessage k v⟩).setClient k (.sent v)) := by
  have settled := fun p j => settled_put (v := v) (others_of_undisturbed traffic routed undisturbed) p j
  refine ⟨fun j w p holds => ?_, fun j w sent => ?_, fun j w sent => ?_⟩
  -- Routes: the client of `k` holds none any more.
  · by_cases here : j = k
    · subst here
      have now : ((s.connect port ⟨some j, putMessage j v⟩).setClient j (.sent v)).client j =
          .sent v := Function.update_self ..
      rw [now] at holds
      cases holds
    · exact safe.routes j w p ((Function.update_of_ne here ..).symm.trans holds)
  -- Kept: the new value is the last to reach its key.
  · rcases (carried_put routed).mp sent with old | ⟨rfl, rfl⟩
    · obtain ⟨p, route, found⟩ := safe.kept j w old
      have other : j ≠ k := by
        rintro rfl
        simp [Carried, routed] at old
      exact ⟨p, route, by rw [settled, if_neg fun both => other both.2, found]⟩
    · exact ⟨port, safe.routes j w port routed, by rw [settled, if_pos ⟨rfl, rfl⟩]⟩
  -- Told: the new PUT waits for its shard.
  · rcases (carried_put routed).mp sent with old | ⟨rfl, rfl⟩
    · exact told j (safe.told j w old)
    · refine Or.inr (.queued (p := port) (c := ⟨some j, putMessage j w⟩) ?_ rfl rfl)
      change _ ∈ ((s.setProcess port _).process port).queue
      rw [s.setProcess_process, if_pos rfl]
      exact List.mem_append_right _ (List.mem_singleton_self _)

/-! ## A join -/

theorem Settled.not_onWay {ports : List Int32} (membership : Membership s ports)
    (still : Settled s) (k : Int32) : ¬OnWay s k := by
  obtain ⟨shards, inbox⟩ := still
  intro way
  cases way with
  | @queued p c member kind key =>
    have server : p ∈ s.servers := membership.member fun same => by simp [same] at member
    exact (shards p server).1 c member kind
  | @inRound p r m text round masterPut key =>
    have server : p ∈ s.servers := membership.member fun same => by simp [same] at round
    rw [(shards p server).2 r round] at masterPut
    cases masterPut
  | inInbox member kind key => exact inbox _ member kind

theorem Traffic.known (traffic : Traffic s) (clients : Clients s) : s.master.Known where
  keys x w held := by
    obtain ⟨k, _, same, _⟩ := traffic.entries x w held
    exact ⟨k, same⟩
  nonneg x w held := by
    obtain ⟨k, v, rfl, _, carried⟩ := traffic.entries x w held
    exact clients.nonneg_of_ne carried.ne_idle
  plain x w held := by
    obtain ⟨k, v, _, rfl, _⟩ := traffic.entries x w held
    exact v.plain

theorem Traffic.find_of_told (traffic : Traffic s) {k : Int32} {v : Argument}
    (carried : Carried s k v) (told : Told s k) (still : ¬OnWay s k) :
    s.master.kvMap.find? k.toInt = some v.string := by
  rcases told with held | way
  · obtain ⟨w, held⟩ := Option.isSome_iff_exists.mp held
    obtain ⟨j, u, same, rfl, other⟩ := traffic.entries _ w held
    obtain rfl := Int32.toInt_inj.mp same
    rw [held, carried.unique other]
  · exact absurd way still

theorem owner_append {ports : List Int32} (nonempty : 0 < ports.length) (port : Int32) {x : Int}
    (nonneg : 0 ≤ x) (same : x % (ports.length + 1) = x % ports.length) :
    Master.owner (ports ++ [port]) x = Master.owner ports x := by
  have before := Master.shardIndex_cast ports.length nonneg
  have after := Master.shardIndex_cast (ports ++ [port]).length nonneg
  have inside := Master.shardIndex_lt nonempty (Master.routable_of_nonneg ports.length nonneg)
  -- The remainders agree, and so do the indices.
  have index : Master.shardIndex (ports ++ [port]).length x =
      Master.shardIndex ports.length x := by
    rw [List.length_append, List.length_singleton] at after ⊢
    push_cast at after
    omega
  rw [Master.owner, Master.owner, index, List.getElem?_append_left inside]

/-- The messages of a join put every entry of the master's map on its shard. -/
theorem find_redistribution {m : Master} {ports : List Int32} (registered : m.Registered ports)
    (distinct : ports.Nodup) (nonempty : 0 < ports.length) (known : m.Known)
    {puts : List (Int32 × Msg)} (all : m.reorgPutMessages = some puts) {q : Process}
    (tracked : q.finished.Tracked) {k : Int32} {w : WireString}
    (held : m.kvMap.find? k.toInt = some w) :
    (q.settle (sentTo (Master.owner ports k.toInt) (m.reorgMessages ++ puts))).find k = some w := by
  have nonneg := known.nonneg _ _ held
  have inside := Master.shardIndex_lt nonempty (Master.routable_of_nonneg ports.length nonneg)
  have owner : Master.owner ports k.toInt = ports[Master.shardIndex ports.length k.toInt] :=
    (Master.owner_eq_iff distinct nonneg inside).mpr rfl
  rw [owner, Process.settle, List.foldl_append]
  exact (Master.foldl_redistribution registered distinct known all inside
    (Shard.foldl_handle_tracked tracked _) _ w).mpr ⟨_, rfl, held, rfl⟩

theorem Safe.of_server (safe : Safe s) (sound : Sound s) {port : Int32} {rest : List Connection}
    (inbox : s.inbox = ⟨none, serverMessage port⟩ :: rest) {master : Master} {sends : Sends}
    (handled : s.master.handle (serverMessage port) = some (master, sends))
    (undisturbed : Undisturbed s .take) :
    Safe { s with master := master, left := sends.messages, inbox := rest } := by
  obtain ⟨clients, traffic, ports, membership⟩ := sound
  obtain ⟨still, keeps⟩ := undisturbed ⟨none, serverMessage port⟩ (by simp [inbox]) rfl
  obtain ⟨registered, many, distinct, -, -⟩ := membership.of_server inbox []
  have count := membership.registered.count
  have size := membership.many
  -- There are three servers at least, so there is a redistribution.
  have guard : (s.master.register port).numServers ≥ 3 := by
    simp only [Master.register]
    omega
  rw [Master.handle_server, if_pos guard] at handled
  obtain ⟨puts, all, same⟩ := Option.map_eq_some_iff.mp handled
  obtain ⟨rfl, rfl⟩ := Prod.mk.inj same
  have known := (traffic.known clients).register port
  have nonempty : 0 < (ports ++ [port]).length := by omega
  -- Nothing is on its way, so what was told is in the map.
  have heard : ∀ k v, Carried s k v → s.master.kvMap.find? k.toInt = some v.string :=
    fun k v carried => traffic.find_of_told carried (safe.told k v carried)
      (still.not_onWay membership k)
  refine ⟨fun k v p routed => ?_, fun k v carried => ?_, fun k v carried => ?_⟩
  -- Routes: the condition on the remainders keeps the owner.
  · have routed : s.client k = .routed v p := routed
    have busy : s.client k ≠ .idle := by simp [routed]
    have nonneg := clients.nonneg_of_ne busy
    have index := keeps k (clients.started_of_ne busy) (by simp [routed, Client.port?])
    rw [count] at index
    rw [Master.route_of_known registered nonempty nonneg,
      owner_append (by omega) port nonneg index,
      ← Master.route_of_known membership.registered (by omega) nonneg]
    exact safe.routes k v p routed
  -- Kept: the redistribution puts the value on its new shard.
  · have held := heard k v carried
    refine ⟨_, Master.route_of_known registered nonempty (known.nonneg _ _ held), ?_⟩
    exact find_redistribution registered (List.Nodup.of_append_left distinct) nonempty known all
      (traffic.process _).tracked held
  -- Told: it is in the map.
  · exact Or.inl (Option.isSome_iff_exists.mpr ⟨_, heard k v carried⟩)

/-! ## Every step -/

theorem Client.of_learn {c : Client} {m : Msg} {w : Argument} {p : Int32}
    (holds : c.learn m = .routed w p) : c = .routed w p ∨ m.port = p := by
  cases c with
  | asking v => exact Or.inr (Client.routed.inj holds).2
  | _ => exact Or.inl holds

theorem Client.of_conclude {c : Client} {m : Msg} {w : Argument} {p : Int32}
    (holds : c.conclude m = .routed w p) : c = .routed w p := by
  cases c with
  | sent v =>
    simp only [conclude] at holds
    split at holds <;> cases holds
  | _ => exact holds

theorem routed_learn {k j : Int32} {port p : Int32} {w : Argument}
    (route : s.master.route k.toInt = some port)
    (holds : (s.answer Client.learn (some k)
      (some { port_ := some port, type_ := some .reply })).client j = .routed w p) :
    s.client j = .routed w p ∨ s.master.route j.toInt = some p := by
  rcases hear_or s.client Client.learn (some k)
      (some { port_ := some port, type_ := some .reply }) j with same | ⟨here, m, reply, learned⟩
  · exact Or.inl (same.symm.trans holds)
  · obtain rfl := Option.some.inj here
    obtain rfl := Option.some.inj reply
    replace holds := learned.symm.trans holds
    refine (Client.of_learn holds).imp_right fun told => ?_
    rw [route, ← told]
    rfl

theorem routed_conclude {client : Option Int32} {m : Msg} {j p : Int32} {w : Argument}
    (holds : (s.answer Client.conclude client (some m)).client j = .routed w p) :
    s.client j = .routed w p := by
  rcases hear_or s.client Client.conclude client (some m) j with same | ⟨_, n, _, concluded⟩
  · exact same.symm.trans holds
  · exact Client.of_conclude (concluded.symm.trans holds)

theorem Safe.step {a : Action} (safe : Safe s) (sound : Sound s) (undisturbed : Undisturbed s a)
    (step : Step s a t) : Safe t := by
  have grows := sound.traffic.grows sound.clients step
  have told := fun k (before : Told s k) => before.step sound.traffic grows step
  have routes : ∀ x, s.master.route x = s.master.route x := fun _ => rfl
  cases step with
  -- A client that asks has no port yet.
  | @ask k v nonneg fresh =>
    refine safe.frame routes (fun j w port holds => Or.inl ?_)
      (fun j w => (carried_ask sound.clients fresh).mp) (fun p => rfl) told
    by_cases here : j = k
    · subst here
      have now : (s.setClient j (.asking v)).client j = .asking v := Function.update_self ..
      rw [now] at holds
      cases holds
    · exact (Function.update_of_ne here ..).symm.trans holds
  -- The one step that stores a new value.
  | put routed up => exact safe.of_put sound.traffic routed undisturbed told
  | @refused k v port routed =>
    refine safe.frame routes (fun j w port holds => Or.inl ?_)
      (fun j w => (carried_refused routed).mp) (fun p => rfl) told
    by_cases here : j = k
    · subst here
      have now : (s.setClient j .failed).client j = .failed := Function.update_self ..
      rw [now] at holds
      cases holds
    · exact (Function.update_of_ne here ..).symm.trans holds
  | announce | exit =>
    exact safe.frame routes (fun _ _ _ => Or.inl) (fun _ _ carried => carried) (fun p => rfl) told
  | @listen port member =>
    exact safe.frame routes (fun _ _ _ => Or.inl) (fun _ _ carried => carried)
      (settled_congr (q := { s.process port with listening := true }) rfl rfl fun more => rfl) told
  -- The master learns a key, answers a client or takes up a join.
  | @take c rest master sends idle inbox handled =>
    have kind := sound.traffic.inbox c (by simp [inbox])
    cases kind with
    | ask k v =>
      obtain ⟨port, routed, same⟩ := Option.map_eq_some_iff.mp (handle_route .. ▸ handled)
      obtain ⟨rfl, rfl⟩ := Prod.mk.inj same
      refine safe.frame routes (fun j w p holds => routed_learn routed holds)
        (fun j w carried => ?_) (fun p => ?_) told
      · exact (carried_learn (s := s) (c := some k)
          (r := some { port_ := some port, type_ := some .reply })).mp carried
      · rw [settled, settled, idle]
        rfl
    | server port =>
      obtain ⟨-, silent, -⟩ := of_handle_server handled
      rw [silent]
      exact safe.of_server sound inbox handled undisturbed
    | @masterPut k v sent =>
      obtain ⟨rfl, rfl⟩ := Prod.mk.inj (Option.some.inj (handle_masterPut .. ▸ handled))
      exact safe.frame routes (fun _ _ _ => Or.inl) (fun _ _ carried => carried)
        (fun p => by rw [settled, settled, idle]; rfl) told
  -- From here on messages only move closer to where they are settled.
  | forward left up =>
    exact safe.frame routes (fun _ _ _ => Or.inl) (fun _ _ carried => carried)
      (settled_forward left) told
  | @receive port c rest free queue =>
    exact safe.frame routes (fun _ _ _ => Or.inl) (fun _ _ carried => carried)
      (settled_congr rfl rfl (Process.settle_receive _ free queue)) told
  | @reply port client m masterPut round =>
    have kind := (sound.traffic.process port).round _ round
    -- The client ends with exit code 0.
    have fine : m.status ≠ 0 := by
      rw [kind.fine rfl]
      decide
    refine safe.frame (fun _ => rfl) (fun j w p holds => Or.inl ?_)
      (fun j w => (carried_conclude fine).mp) (settled_congr rfl
        (q := { s.process port with round := some ⟨client, ⟨none, masterPut⟩⟩ })
        rfl fun more => ?_) told
    · exact routed_conclude (s := s.setProcess port { s.process port with
        round := some ⟨client, ⟨none, masterPut⟩⟩ }) holds
    · simp only [Process.settle, Process.finished, round]
      rfl
  | @finish port client masterPut round =>
    refine safe.frame routes (fun _ _ _ => Or.inl) (fun _ _ carried => carried)
      (settled_congr (q := { s.process port with
        shard := (s.process port).shard.finish ⟨none, masterPut⟩, round := none }) rfl rfl
        fun more => ?_) told
    simp only [Process.settle, Process.finished, round]

end

/-! ## Runs -/

theorem safe_start (l : Layout) : Safe (start l) where
  routes k v port routed := by cases routed
  kept k v carried := by rcases carried with sent | acked <;> contradiction
  told k v carried := by rcases carried with sent | acked <;> contradiction

theorem safe_of_reachable {l : Layout} (many : 3 ≤ l.ports.length) {s : State}
    (reachable : (system l).Reachable Undisturbed s) : Sound s ∧ Safe s := by
  refine reachable.invariant (I := fun s => Sound s ∧ Safe s) (fun s initial => ?_)
    fun s a t held undisturbed taken => ?_
  · obtain rfl : s = start l := initial
    exact ⟨sound_start many, safe_start l⟩
  · obtain ⟨sound, safe⟩ := held
    have step := step_of_next taken
    exact ⟨sound.step step, safe.step sound undisturbed step⟩

/-- In every run whose joins and PUTs keep out of each other's way, every acknowledged
write is in the database of its shard as soon as everything is quiet. -/
theorem acked_kept (l : Layout) (many : 3 ≤ l.ports.length) {s : State}
    (reachable : (system l).Reachable Undisturbed s) (quiet : Quiescent s) : Kept s := by
  obtain ⟨sound, safe⟩ := safe_of_reachable many reachable
  obtain ⟨ports, membership⟩ := sound.membership
  intro k v acked
  obtain ⟨port, route, found⟩ := safe.kept k v (Or.inr acked)
  refine ⟨port, route, ?_⟩
  -- In a quiet state the shard is settled already.
  have idle : (s.process port).queue = [] ∧ (s.process port).round = none := by
    by_cases member : port ∈ s.servers
    · exact (quiet.servers port member).2
    · rw [membership.absent port member]
      exact ⟨rfl, rfl⟩
  rw [settled, quiet.sent, Process.settle, Process.finished, idle.1, idle.2] at found
  exact found

def threeShards : Layout where
  ports := [25001, 25002, 25003]
  nonempty := by decide
  distinct := by decide
  nonzero := by decide

/-- A fourth server joins behind the PUT of 5; the client of 12 has its port before the
join and sends its PUT behind the REORG of that shard. -/
def joined : List Action :=
  [.ask 5 letterA, .take, .put 5, .receive 25003, .reply 25003, .finish 25003, .take,
   .ask 12 letterA, .take, .announce 25004, .listen 25004, .take, .forward, .put 12,
   .forward, .forward, .forward, .forward, .receive 25001, .finish 25001,
   .receive 25001, .reply 25001, .finish 25001, .receive 25002, .finish 25002,
   .receive 25002, .finish 25002, .receive 25003, .finish 25003, .receive 25004, .finish 25004,
   .take]

def joinedEnd : State :=
  (((system threeShards).guarded Undisturbed).run (start threeShards) joined).get (by decide)

theorem acked_kept_joined :
    (joinedEnd.client 5 = .acked letterA ∧ joinedEnd.client 12 = .acked letterA) ∧
      Kept joinedEnd :=
  ⟨by decide, acked_kept threeShards (by decide) (.guarded (.start rfl) (Option.some_get _).symm)
    (by decide)⟩

/-- The join is taken up between the shard's reply and its MASTER_PUT. -/
def overtaken : List Action :=
  [.ask 5 letterA, .take, .put 5, .receive 25003, .reply 25003, .announce 25004, .listen 25004,
   .take, .finish 25003, .forward, .forward, .forward, .forward, .receive 25001, .finish 25001,
   .receive 25002, .finish 25002, .receive 25003, .finish 25003, .receive 25004, .finish 25004,
   .take]

theorem not_kept_overtaken :
    ¬∀ l : Layout, 3 ≤ l.ports.length → ∀ s, (system l).Reachable System.Always s →
      Quiescent s → Kept s := by
  intro keeps
  have kept := keeps threeShards (by decide)
    (((system threeShards).run (start threeShards) overtaken).get (by decide))
    (.run (.start rfl) (Option.some_get _).symm) (by decide)
  obtain ⟨port, route, found⟩ := kept 5 letterA (by decide)
  have lost : ∀ port ∈ ((((system threeShards).run (start threeShards) overtaken).get
      (by decide)).master.route (Int32.toInt 5)),
      ((((system threeShards).run (start threeShards) overtaken).get
        (by decide)).process port).shard.find 5 = none := by decide
  rw [lost port route] at found
  cases found

end CloudLab.Sharding.Concurrent
