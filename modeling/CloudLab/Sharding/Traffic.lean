import CloudLab.Sharding.Concurrent

/-!
# The messages under way

What holds in every run of the processes of `Concurrent`, whatever the order of their
steps: which messages there are, what the master's map holds, and that every key of a
database is listed by the time a round ends.
-/
namespace CloudLab.Sharding.Concurrent

open Library Library.Wire

def masterPutMessage (k : Int32) (v : Argument) : Msg :=
  { putMessage k v with type_ := some .masterPut }

def reorgMessage : Msg := { type_ := some .reorg }

/-- The client of `k` has sent its PUT of `v`. -/
def Carried (s : State) (k : Int32) (v : Argument) : Prop :=
  s.client k = .sent v ∨ s.client k = .acked v

inductive ToMaster (s : State) : Connection → Prop
  | ask (k : Int32) (v : Argument) : ToMaster s ⟨some k, routeMessage k v⟩
  | server (port : Int32) : ToMaster s ⟨none, serverMessage port⟩
  | masterPut {k : Int32} {v : Argument} (carried : Carried s k v) :
      ToMaster s ⟨none, masterPutMessage k v⟩

inductive ToShard (s : State) : Connection → Prop
  | put {k : Int32} {v : Argument} (carried : Carried s k v) :
      ToShard s ⟨some k, putMessage k v⟩
  | reorg : ToShard s ⟨none, reorgMessage⟩
  | reorgPut {k : Int32} {w : WireString} (held : s.master.kvMap.find? k.toInt = some w) :
      ToShard s ⟨none, Master.reorgPutMessage k.toInt w⟩

inductive InRound (s : State) : Round → Prop
  | put {k : Int32} {v : Argument} (carried : Carried s k v) {reply : Option Msg}
      (fine : ∀ m ∈ reply, m = generateMessage true) :
      InRound s ⟨some k, ⟨reply, some (masterPutMessage k v, stdToString k.toInt)⟩⟩
  | other : InRound s ⟨none, {}⟩

/-! ## The rounds of master and shard on these messages -/

theorem handle_route (m : Master) (k : Int32) (v : Argument) :
    m.handle (routeMessage k v) = (m.route k.toInt).map fun port =>
      (m, { reply := some { port_ := some port, type_ := some .reply } }) := rfl

theorem handle_masterPut (m : Master) (k : Int32) (v : Argument) :
    m.handle (masterPutMessage k v) =
      some ({ m with kvMap := m.kvMap.insert k.toInt v.string }, {}) := rfl

theorem of_handle_server {m master : Master} {port : Int32} {sends : Sends}
    (handled : m.handle (serverMessage port) = some (master, sends)) :
    master = m.register port ∧ sends.reply = none ∧ ∀ e ∈ sends.messages,
      e.2 = reorgMessage ∨
        ∃ x w, m.kvMap.find? x = some w ∧ e.2 = Master.reorgPutMessage x w := by
  rw [Master.handle_server] at handled
  split at handled
  -- From the third server on there is a redistribution.
  · obtain ⟨puts, all, same⟩ := Option.map_eq_some_iff.mp handled
    obtain ⟨rfl, rfl⟩ := Prod.mk.inj same
    refine ⟨rfl, rfl, fun e member => ?_⟩
    rcases List.mem_append.mp member with reorg | put
    · obtain ⟨_, _, rfl⟩ := List.mem_map.mp reorg
      exact Or.inl rfl
    · have put : (e.1, e.2) ∈ puts := put
      obtain ⟨x, w, held, _, same⟩ := Master.mem_reorgPutMessages all put
      exact Or.inr ⟨x, w, held, same⟩
  · obtain ⟨rfl, rfl⟩ := Prod.mk.inj (Option.some.inj handled)
    exact ⟨rfl, rfl, by simp⟩

theorem receive_put (s : Shard) (k : Int32) (v : Argument) : (s.receive (putMessage k v)).2 =
    ⟨some (generateMessage true), some (masterPutMessage k v, stdToString k.toInt)⟩ := rfl

theorem InRound.receive {s : State} {c : Connection} (kind : ToShard s c) (shard : Shard) :
    InRound s ⟨c.client, (shard.receive c.message).2⟩ := by
  cases kind with
  | put carried =>
    rw [receive_put]
    exact .put carried fun m same => (Option.some.inj same).symm
  | reorg => exact .other
  | reorgPut held => exact .other

/-! ## What a step leaves alone -/

namespace State

theorem setProcess_process (s : State) (p port : Int32) (q : Process) :
    (s.setProcess port q).process p = if p = port then q else s.process p :=
  Function.update_apply ..

end State

/-! ## The invariant -/

/-- The shard at the end of its round. -/
def Process.finished (q : Process) : Shard :=
  match q.round with
  | none => q.shard
  | some r => q.shard.finish r.pending

structure ProcessOk (s : State) (q : Process) : Prop where
  queue : ∀ c ∈ q.queue, ToShard s c
  round : ∀ r, q.round = some r → InRound s r
  tracked : q.finished.Tracked

structure Traffic (s : State) : Prop where
  entries : ∀ x w, s.master.kvMap.find? x = some w →
    ∃ k v, Int32.toInt k = x ∧ w = v.string ∧ Carried s k v
  inbox : ∀ c ∈ s.inbox, ToMaster s c
  process : ∀ p, ProcessOk s (s.process p)
  left : ∀ e ∈ s.left, ToShard s ⟨none, e.2⟩

/-- What has been sent stays sent, and what is in the master's map stays there. -/
structure Grows (s t : State) : Prop where
  carried : ∀ k v, Carried s k v → Carried t k v
  entries : ∀ x w, s.master.kvMap.find? x = some w → t.master.kvMap.find? x = some w

section

variable {s t : State}

theorem ToMaster.mono (grows : Grows s t) {c : Connection} (kind : ToMaster s c) :
    ToMaster t c := by
  cases kind with
  | ask k v => exact .ask k v
  | server port => exact .server port
  | masterPut carried => exact .masterPut (grows.carried _ _ carried)

theorem ToShard.mono (grows : Grows s t) {c : Connection} (kind : ToShard s c) : ToShard t c := by
  cases kind with
  | put carried => exact .put (grows.carried _ _ carried)
  | reorg => exact .reorg
  | reorgPut held => exact .reorgPut (grows.entries _ _ held)

theorem InRound.mono (grows : Grows s t) {r : Round} (kind : InRound s r) : InRound t r := by
  cases kind with
  | put carried fine => exact .put (grows.carried _ _ carried) fine
  | other => exact .other

theorem ProcessOk.mono (grows : Grows s t) {q : Process} (ok : ProcessOk s q) : ProcessOk t q where
  queue c member := (ok.queue c member).mono grows
  round r running := (ok.round r running).mono grows
  tracked := ok.tracked

/-- A step only has to account for the messages that are new with it. -/
theorem Traffic.grow (traffic : Traffic s) (grows : Grows s t)
    (entries : ∀ x w, t.master.kvMap.find? x = some w → s.master.kvMap.find? x = some w ∨
      ∃ k v, Int32.toInt k = x ∧ w = v.string ∧ Carried t k v)
    (inbox : ∀ c ∈ t.inbox, c ∈ s.inbox ∨ ToMaster t c)
    (process : ∀ p, t.process p = s.process p ∨ ProcessOk t (t.process p))
    (left : ∀ e ∈ t.left, e ∈ s.left ∨ ToShard t ⟨none, e.2⟩) : Traffic t where
  entries x w held := by
    rcases entries x w held with old | new
    · obtain ⟨k, v, key, value, carried⟩ := traffic.entries x w old
      exact ⟨k, v, key, value, grows.carried k v carried⟩
    · exact new
  inbox c member := (inbox c member).elim (fun old => (traffic.inbox c old).mono grows) id
  process p := (process p).elim (fun same => same ▸ (traffic.process p).mono grows) id
  left e member := (left e member).elim (fun old => (traffic.left e old).mono grows) id

/-- A step that leaves the master, its inbox and what it has left to send alone. -/
theorem Traffic.grow_process (traffic : Traffic s) (grows : Grows s t)
    (master : t.master = s.master) (inbox : t.inbox = s.inbox) (left : t.left = s.left)
    (process : ∀ p, t.process p = s.process p ∨ ProcessOk t (t.process p)) : Traffic t :=
  traffic.grow grows (fun x w held => Or.inl (by rwa [master] at held))
    (fun c member => Or.inl (by rwa [inbox] at member)) process
    fun e member => Or.inl (by rwa [left] at member)

end

/-! ## Clients -/

structure Clients (s : State) : Prop where
  unstarted : ∀ k, k ∉ s.started → s.client k = .idle
  nonneg : ∀ k ∈ s.started, 0 ≤ k.toInt

section

variable {s t : State} {k : Int32} {v : Argument}

theorem Clients.started_of_ne (clients : Clients s) (busy : s.client k ≠ .idle) : k ∈ s.started :=
  by_contra fun absent => busy (clients.unstarted k absent)

theorem Clients.nonneg_of_ne (clients : Clients s) (busy : s.client k ≠ .idle) : 0 ≤ k.toInt :=
  clients.nonneg k (clients.started_of_ne busy)

theorem Carried.ne_idle (carried : Carried s k v) : s.client k ≠ .idle := by
  rcases carried with sent | acked
  · simp [sent]
  · simp [acked]

theorem Carried.unique {w : Argument} (carried : Carried s k v) (other : Carried s k w) : v = w := by
  rcases carried with h | h <;> rcases other with h' | h' <;> simp_all

theorem carried_setClient {j : Int32} {w : Argument} {c : Client}
    (before : ∀ w, ¬Carried s k w) (after : ∀ w, c ≠ .sent w ∧ c ≠ .acked w) :
    Carried (s.setClient k c) j w ↔ Carried s j w := by
  by_cases here : j = k
  -- Neither before nor behind the step has this client sent its PUT.
  · subst here
    have new : (s.setClient j c).client j = c := Function.update_self ..
    have fresh := before w
    simp [Carried, new, after w] at fresh ⊢
    exact fresh
  · have old : (s.setClient k c).client j = s.client j := Function.update_of_ne here ..
    rw [Carried, old, Carried]

theorem carried_learn {c : Option Int32} {r : Option Msg} :
    Carried (s.answer Client.learn c r) k v ↔ Carried s k v := by
  rcases hear_or s.client Client.learn c r k with same | ⟨_, m, _, learned⟩
  · simp only [Carried, State.answer, same]
  · simp only [Carried, State.answer, learned]
    cases s.client k <;> simp [Client.learn]

/-- The reply of a shard whose PUT went through ends the client with exit code 0. -/
theorem carried_conclude {client : Option Int32} {m : Msg} (fine : m.status ≠ 0) :
    Carried (s.answer Client.conclude client (some m)) k v ↔ Carried s k v := by
  rcases hear_or s.client Client.conclude client (some m) k with same | ⟨_, _, same, concluded⟩
  · simp only [Carried, State.answer, same]
  · obtain rfl := Option.some.inj same
    simp only [Carried, State.answer, concluded]
    cases s.client k <;> simp [Client.conclude, fine]

theorem Clients.answer (clients : Clients s) {f : Msg → Client → Client}
    (keeps : ∀ m, f m .idle = .idle) (client : Option Int32) (reply : Option Msg) :
    Clients (s.answer f client reply) where
  unstarted k absent := by
    have idle := clients.unstarted k absent
    rcases hear_or s.client f client reply k with same | ⟨_, m, _, learned⟩
    · exact same.trans idle
    · rw [idle, keeps] at learned
      exact learned
  nonneg := clients.nonneg

theorem Clients.setClient (clients : Clients s) (busy : s.client k ≠ .idle) (c : Client) :
    Clients (s.setClient k c) where
  unstarted j absent := by
    have other : j ≠ k := by
      rintro rfl
      exact absent (clients.started_of_ne busy)
    exact (Function.update_of_ne other ..).trans (clients.unstarted j absent)
  nonneg := clients.nonneg

theorem Clients.step {a : Action} (clients : Clients s) (step : Step s a t) : Clients t := by
  cases step with
  | ask nonneg fresh =>
    refine ⟨fun j absent => ?_, fun j member => ?_⟩
    · obtain ⟨other, absent⟩ := not_or.mp (mt List.mem_cons.mpr absent)
      exact (Function.update_of_ne other ..).trans (clients.unstarted j absent)
    · rcases List.mem_cons.mp member with rfl | old
      · exact nonneg
      · exact clients.nonneg j old
  | @put k v port routed up =>
    have moved := clients.setClient (k := k) (by simp [routed]) (.sent v)
    exact ⟨moved.unstarted, clients.nonneg⟩
  | @refused k v port routed => exact clients.setClient (k := k) (by simp [routed]) .failed
  | @take c rest master sends idle inbox handled =>
    have answered := clients.answer (f := Client.learn) (fun _ => rfl) c.client sends.reply
    exact ⟨answered.unstarted, answered.nonneg⟩
  | @reply port client m masterPut round =>
    have moved : Clients (s.setProcess port { s.process port with
        round := some ⟨client, ⟨none, masterPut⟩⟩ }) := ⟨clients.unstarted, clients.nonneg⟩
    exact moved.answer (fun _ => rfl) client (some m)
  | announce | listen | forward | exit | receive | finish =>
    exact ⟨clients.unstarted, clients.nonneg⟩

/-! ## Every step sends only such messages -/

theorem carried_ask (clients : Clients s) (fresh : k ∉ s.started) {j : Int32} {w : Argument} :
    Carried (s.setClient k (.asking v)) j w ↔ Carried s j w := by
  refine carried_setClient (fun w carried => ?_) (by simp)
  exact fresh (clients.started_of_ne carried.ne_idle)

theorem carried_put {port : Int32} (routed : s.client k = .routed v port) {j : Int32}
    {w : Argument} :
    Carried (s.setClient k (.sent v)) j w ↔ Carried s j w ∨ (j = k ∧ w = v) := by
  by_cases here : j = k
  · subst here
    have new : (s.setClient j (.sent v)).client j = .sent v := Function.update_self ..
    simp [Carried, new, routed, eq_comm]
  · have old : (s.setClient k (.sent v)).client j = s.client j := Function.update_of_ne here ..
    simp [Carried, old, here]

theorem carried_refused {port : Int32} (routed : s.client k = .routed v port) {j : Int32}
    {w : Argument} : Carried (s.setClient k .failed) j w ↔ Carried s j w :=
  carried_setClient (by simp [Carried, routed]) (by simp)

/-- One process changes, and the messages it gets or has in hand are such messages. -/
theorem setProcess_ok {port : Int32} {q : Process} (ok : ProcessOk t q)
    (process : t.process = (s.setProcess port q).process) (p : Int32) :
    t.process p = s.process p ∨ ProcessOk t (t.process p) := by
  rw [process, s.setProcess_process]
  split
  · exact Or.inr ok
  · exact Or.inl rfl

theorem ProcessOk.connect {q : Process} (ok : ProcessOk t q) {c : Connection} (kind : ToShard t c) :
    ProcessOk t { q with queue := q.queue ++ [c] } where
  queue d member := (List.mem_append.mp member).elim (ok.queue d)
    fun last => List.mem_singleton.mp last ▸ kind
  round := ok.round
  tracked := ok.tracked

theorem ProcessOk.receive {q : Process} (ok : ProcessOk t q) {c : Connection}
    {rest : List Connection} (free : q.round = none) (queue : q.queue = c :: rest) :
    ProcessOk t { q with
      queue := rest
      shard := (q.shard.receive c.message).1
      round := some ⟨c.client, (q.shard.receive c.message).2⟩ } where
  queue d member := ok.queue d (by simp [queue, member])
  round r running := by
    obtain rfl := Option.some.inj running
    exact .receive (ok.queue c (by simp [queue])) _
  tracked := by
    have before : q.shard.Tracked := by simpa [Process.finished, free] using ok.tracked
    exact Shard.handle_tracked before c.message

theorem InRound.fine {r : Round} (kind : InRound s r) {m : Msg} (reply : r.pending.reply = some m) :
    m = generateMessage true := by
  cases kind with
  | put carried fine => exact fine m reply
  | other => cases reply

theorem InRound.replied {client : Option Int32} {reply : Option Msg}
    {masterPut : Option (Msg × Bytes)} (kind : InRound s ⟨client, ⟨reply, masterPut⟩⟩) :
    InRound s ⟨client, ⟨none, masterPut⟩⟩ := by
  cases kind with
  | put carried fine => exact .put carried (by simp)
  | other => exact .other

theorem InRound.masterPut {client : Option Int32} {reply : Option Msg} {p : Msg × Bytes}
    (kind : InRound s ⟨client, ⟨reply, some p⟩⟩) : ToMaster s ⟨none, p.1⟩ := by
  cases kind with
  | put carried fine => exact .masterPut carried

end

section

variable {s t : State}

theorem mem_or_of_mem_append {P : Connection → Prop} {xs : List Connection} {c d : Connection}
    (member : c ∈ xs ++ [d]) (new : P d) : c ∈ xs ∨ P c := by
  rcases List.mem_append.mp member with old | last
  · exact Or.inl old
  · rw [List.mem_singleton.mp last]
    exact Or.inr new

theorem grows_insert {m : Master} {k : Int32} {v : Argument} {x : Int} {w : WireString}
    (held : m.kvMap.find? x = some w) : (m.kvMap.insert k.toInt v.string).find? x = some w := by
  rw [StdMap.find?_insert]
  split
  next same =>
    subst same
    rw [held, Option.getD_some]
  next => exact held

theorem Traffic.grows {a : Action} (clients : Clients s) (traffic : Traffic s) (step : Step s a t) :
    Grows s t := by
  have kept : ∀ x w, s.master.kvMap.find? x = some w → s.master.kvMap.find? x = some w :=
    fun _ _ held => held
  -- Only a PUT carries more, and only a MASTER_PUT changes the map.
  cases step with
  | ask nonneg fresh => exact ⟨fun j w => (carried_ask clients fresh).mpr, kept⟩
  | put routed up => exact ⟨fun j w old => (carried_put routed).mpr (Or.inl old), kept⟩
  | refused routed => exact ⟨fun j w => (carried_refused routed).mpr, kept⟩
  | @take c rest master sends idle inbox handled =>
    refine ⟨fun j w => carried_learn.mpr, ?_⟩
    have kind := traffic.inbox c (by simp [inbox])
    -- What the master does depends on who sent the message.
    cases kind with
    | ask k v =>
      obtain ⟨port, routed, same⟩ := Option.map_eq_some_iff.mp (handle_route .. ▸ handled)
      obtain ⟨rfl, rfl⟩ := Prod.mk.inj same
      exact kept
    | server port =>
      obtain ⟨rfl, -, -⟩ := of_handle_server handled
      exact kept
    | masterPut sent =>
      obtain ⟨rfl, rfl⟩ := Prod.mk.inj (Option.some.inj (handle_masterPut .. ▸ handled))
      exact fun x w held => grows_insert held
  | @reply port client m masterPut round =>
    have kind := (traffic.process port).round _ round
    -- A shard that answers at all answers with success.
    have fine : m.status ≠ 0 := by
      rw [kind.fine rfl]
      decide
    exact ⟨fun j w old => (carried_conclude fine).mpr old, kept⟩
  | announce | listen | forward | exit | receive | finish =>
    exact ⟨fun _ _ carried => carried, kept⟩

theorem Traffic.step {a : Action} (clients : Clients s) (traffic : Traffic s) (step : Step s a t) :
    Traffic t := by
  have grows := traffic.grows clients step
  cases step with
  -- New in the inbox: the route request.
  | @ask k v nonneg fresh =>
    exact traffic.grow grows (fun _ _ held => Or.inl held)
      (fun c member => mem_or_of_mem_append member (.ask k v)) (fun p => Or.inl rfl)
      fun e member => Or.inl member
  -- New in the queue of the shard: the PUT that is carried from now on.
  | @put k v port routed up =>
    exact traffic.grow_process grows rfl rfl rfl
      (setProcess_ok (((traffic.process port).mono grows).connect
        (.put ((carried_put routed).mpr (Or.inr ⟨rfl, rfl⟩)))) rfl)
  | @announce port fresh =>
    exact traffic.grow grows (fun _ _ held => Or.inl held)
      (fun c member => mem_or_of_mem_append member (.server port)) (fun p => Or.inl rfl)
      fun e member => Or.inl member
  | refused | exit => exact traffic.grow_process grows rfl rfl rfl fun p => Or.inl rfl
  | @listen port member =>
    obtain ⟨queue, round, tracked⟩ := (traffic.process port).mono grows
    exact traffic.grow_process grows rfl rfl rfl (setProcess_ok
      (q := { s.process port with listening := true }) ⟨queue, round, tracked⟩ rfl)
  -- What is left in the inbox was there before; what is new depends on the message.
  | @take c rest master sends idle inbox handled =>
    have waiting : ∀ d ∈ rest, d ∈ s.inbox := fun d member => by simp [inbox, member]
    have kind := traffic.inbox c (by simp [inbox])
    cases kind with
    | ask k v =>
      obtain ⟨port, routed, same⟩ := Option.map_eq_some_iff.mp (handle_route .. ▸ handled)
      obtain ⟨rfl, rfl⟩ := Prod.mk.inj same
      exact traffic.grow grows (fun _ _ held => Or.inl held)
        (fun d member => Or.inl (waiting d member)) (fun _ => Or.inl rfl) (by simp)
    | server port =>
      obtain ⟨rfl, -, messages⟩ := of_handle_server handled
      refine traffic.grow grows (fun _ _ held => Or.inl held)
        (fun d member => Or.inl (waiting d member)) (fun _ => Or.inl rfl) fun e member => ?_
      refine Or.inr ?_
      -- A redistribution sends entries of the map only.
      rcases messages e member with reorg | ⟨x, w, held, put⟩
      · exact reorg ▸ .reorg
      · obtain ⟨k, v, rfl, -, -⟩ := traffic.entries x w held
        exact put ▸ .reorgPut held
    | @masterPut k v sent =>
      obtain ⟨rfl, rfl⟩ := Prod.mk.inj (Option.some.inj (handle_masterPut .. ▸ handled))
      refine traffic.grow grows (fun x w held => ?_)
        (fun d member => Or.inl (waiting d member)) (fun _ => Or.inl rfl) (by simp)
      -- An entry that is there already stays; a new one is the value that was carried.
      rw [StdMap.find?_insert] at held
      split at held
      next same =>
        subst same
        cases before : s.master.kvMap.find? k.toInt with
        | some old =>
          rw [before, Option.getD_some] at held
          exact Or.inl held
        | none =>
          rw [before, Option.getD_none] at held
          exact Or.inr ⟨k, v, rfl, (Option.some.inj held).symm, grows.carried k v sent⟩
      next => exact Or.inl held
  -- A message moves from the round of the master to the queue of a shard.
  | @forward port m rest left up =>
    have kind := traffic.left (port, m) (by simp [left])
    refine traffic.grow grows (fun _ _ held => Or.inl held) (fun c member => Or.inl member)
      (setProcess_ok (((traffic.process port).connect kind).mono grows) rfl)
      fun e member => Or.inl ?_
    rw [left]
    exact List.mem_cons_of_mem _ member
  | @receive port c rest free queue =>
    exact traffic.grow_process grows rfl rfl rfl
      (setProcess_ok (((traffic.process port).receive free queue).mono grows) rfl)
  | @reply port client m masterPut round =>
    have ok := (traffic.process port).mono grows
    refine traffic.grow_process grows rfl rfl rfl (setProcess_ok
      (q := { s.process port with round := some ⟨client, ⟨none, masterPut⟩⟩ })
      ⟨ok.queue, ?_, ?_⟩ rfl)
    -- What is left of the round is its MASTER_PUT.
    · rintro r running
      obtain rfl := Option.some.inj running
      exact (ok.round _ round).replied
    · have tracked := ok.tracked
      rwa [Process.finished, round] at tracked
  | @finish port client masterPut round =>
    have ok := (traffic.process port).mono grows
    refine traffic.grow grows (fun _ _ held => Or.inl held) (fun c member => ?_)
      (setProcess_ok (q := { s.process port with
          shard := (s.process port).shard.finish ⟨none, masterPut⟩, round := none })
        ⟨ok.queue, by simp, ?_⟩ rfl) fun e member => Or.inl member
    -- The MASTER_PUT of the round goes into the inbox.
    · rcases List.mem_append.mp member with old | new
      · exact Or.inl old
      · obtain ⟨p, told, rfl⟩ := List.mem_map.mp new
        obtain rfl := Option.mem_toList.mp told
        exact Or.inr (ok.round _ round).masterPut
    · have tracked := ok.tracked
      rwa [Process.finished, round] at tracked

end

end CloudLab.Sharding.Concurrent
