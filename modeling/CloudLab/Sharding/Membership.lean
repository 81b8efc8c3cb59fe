import CloudLab.Sharding.Traffic

/-!
# The servers of a run

In every run the master has registered distinct ports of servers that have announced
themselves, and only servers have a process.
-/
namespace CloudLab.Sharding.Concurrent

open Library Library.Wire

/-- The ports of the SERVER messages under way. -/
def joining (inbox : List Connection) : List Int32 :=
  inbox.filterMap fun c => if c.message.type = .server then some c.message.port else none

structure Membership (s : State) (ports : List Int32) : Prop where
  registered : s.master.Registered ports
  many : 3 ≤ ports.length
  distinct : (ports ++ joining s.inbox).Nodup
  listed : ∀ p ∈ ports ++ joining s.inbox, p ∈ s.servers
  absent : ∀ p, p ∉ s.servers → s.process p = {}

section

variable {s t : State} {ports : List Int32}

theorem joining_append (xs ys : List Connection) : joining (xs ++ ys) = joining xs ++ joining ys :=
  List.filterMap_append

theorem joining_of_ne {c : Connection} {rest : List Connection} (kind : c.message.type ≠ .server) :
    joining (c :: rest) = joining rest := by
  simp [joining, kind]

theorem Membership.setProcess (membership : Membership s ports) {port : Int32} {q : Process}
    (member : port ∈ s.servers) (p : Int32) (absent : p ∉ s.servers) :
    (s.setProcess port q).process p = {} := by
  have other : p ≠ port := fun same => absent (same ▸ member)
  rw [s.setProcess_process, if_neg other]
  exact membership.absent p absent

/-- A process that has anything to do is one of the servers. -/
theorem Membership.member (membership : Membership s ports) {p : Int32}
    (busy : s.process p ≠ {}) : p ∈ s.servers :=
  by_contra fun absent => busy (membership.absent p absent)

/-- A step that leaves the master alone and brings no SERVER message. -/
theorem Membership.frame (membership : Membership s ports) (master : t.master = s.master)
    (inbox : joining t.inbox = joining s.inbox) (servers : t.servers = s.servers)
    (absent : ∀ p, p ∉ s.servers → t.process p = {}) : Membership t ports where
  registered := master ▸ membership.registered
  many := membership.many
  distinct := inbox ▸ membership.distinct
  listed := inbox ▸ servers ▸ membership.listed
  absent p out := absent p (servers ▸ out)

theorem Membership.of_server (membership : Membership s ports) {port : Int32}
    {rest : List Connection} (inbox : s.inbox = ⟨none, serverMessage port⟩ :: rest)
    (messages : List (Int32 × Msg)) :
    Membership { s with master := s.master.register port, left := messages, inbox := rest }
      (ports ++ [port]) := by
  have joined : ports ++ joining s.inbox = ports ++ [port] ++ joining rest := by
    rw [inbox, List.append_assoc]
    rfl
  exact {
    registered := Master.registered_register membership.registered port
    many := by
      rw [List.length_append]
      exact Nat.le_add_right_of_le membership.many
    distinct := joined ▸ membership.distinct
    listed := joined ▸ membership.listed
    absent := membership.absent }

/-- The messages of clients and shards bring no SERVER message. -/
theorem joining_snoc (xs : List Connection) {c : Connection} (kind : c.message.type ≠ .server) :
    joining (xs ++ [c]) = joining xs := by
  rw [joining_append, joining_of_ne kind]
  exact List.append_nil _

theorem InRound.joining_append {client : Option Int32} {reply : Option Msg}
    {masterPut : Option (Msg × Bytes)} (kind : InRound s ⟨client, ⟨reply, masterPut⟩⟩)
    (xs : List Connection) :
    joining (xs ++ masterPut.toList.map fun p => ⟨none, p.1⟩) = joining xs := by
  cases kind with
  | put carried fine => exact joining_snoc xs (c := ⟨none, masterPutMessage _ _⟩) (by simp [
      masterPutMessage, Msg.type])
  | other => simp

theorem Membership.step {a : Action} (traffic : Traffic s) (membership : Membership s ports)
    (step : Step s a t) : ∃ ports, Membership t ports := by
  have busy : ∀ {port}, (s.process port).listening = true → port ∈ s.servers := fun up =>
    membership.member fun same => by simp [same] at up
  have running : ∀ {port r}, (s.process port).round = some r → port ∈ s.servers := fun round =>
    membership.member fun same => by simp [same] at round
  -- Only announcing a server and taking up its message touch the ports.
  cases step with
  | @ask k v nonneg fresh =>
    exact ⟨ports, membership.frame rfl (joining_snoc _ (by simp [routeMessage,
      Request.routeMessage, Msg.type])) rfl membership.absent⟩
  | put routed up => exact ⟨ports, membership.frame rfl rfl rfl (membership.setProcess (busy up))⟩
  | refused | exit => exact ⟨ports, membership.frame rfl rfl rfl membership.absent⟩
  | @announce port fresh =>
    -- The new server is neither registered nor about to be.
    have unlisted : port ∉ ports ++ joining s.inbox := fun member =>
      fresh (membership.listed port member)
    have joined : ports ++ joining (s.inbox ++ [⟨none, serverMessage port⟩]) =
        ports ++ joining s.inbox ++ [port] := by
      rw [joining_append, List.append_assoc]
      rfl
    refine ⟨ports, membership.registered, membership.many, ?_, ?_, ?_⟩
    · change (ports ++ joining (s.inbox ++ [_])).Nodup
      rw [joined]
      exact List.Nodup.append membership.distinct (List.nodup_singleton port)
        (List.disjoint_singleton.mpr unlisted)
    · change ∀ p ∈ ports ++ joining (s.inbox ++ [_]), p ∈ port :: s.servers
      rw [joined]
      intro p member
      rcases List.mem_append.mp member with old | last
      · exact List.mem_cons_of_mem _ (membership.listed p old)
      · rw [List.mem_singleton.mp last]
        exact List.mem_cons_self
    · exact fun p absent => membership.absent p fun member => absent (List.mem_cons_of_mem _ member)
  | listen member => exact ⟨ports, membership.frame rfl rfl rfl (membership.setProcess member)⟩
  -- A SERVER message moves its port from the inbox to the registered ones.
  | @take c rest master sends idle inbox handled =>
    have kind := traffic.inbox c (by simp [inbox])
    cases kind with
    | ask k v =>
      obtain ⟨port, routed, same⟩ := Option.map_eq_some_iff.mp (handle_route .. ▸ handled)
      obtain ⟨rfl, rfl⟩ := Prod.mk.inj same
      exact ⟨ports, membership.frame rfl (inbox ▸ rfl) rfl membership.absent⟩
    | server port =>
      obtain ⟨rfl, silent, -⟩ := of_handle_server handled
      rw [silent]
      exact ⟨_, membership.of_server inbox sends.messages⟩
    | masterPut sent =>
      obtain ⟨rfl, rfl⟩ := Prod.mk.inj (Option.some.inj (handle_masterPut .. ▸ handled))
      have joined : joining s.inbox = joining rest := by
        rw [inbox]
        rfl
      obtain ⟨registered, many, distinct, listed, absent⟩ := membership
      rw [joined] at distinct listed
      exact ⟨ports, registered.learned _, many, distinct, listed, absent⟩
  | @forward port m rest left up =>
    exact ⟨ports, membership.frame rfl rfl rfl (membership.setProcess (busy up))⟩
  | @receive port c rest free queue =>
    exact ⟨ports, membership.frame rfl rfl rfl (membership.setProcess
      (membership.member fun same => by simp [same] at queue))⟩
  | @reply port client m masterPut round =>
    exact ⟨ports, membership.frame rfl rfl rfl (membership.setProcess (running round))⟩
  | @finish port client masterPut round =>
    exact ⟨ports, membership.frame rfl (((traffic.process port).round _ round).joining_append _)
      rfl (membership.setProcess (running round))⟩

end

/-! ## Every run -/

/-- What holds of every state, whatever the order of the steps. -/
structure Sound (s : State) : Prop where
  clients : Clients s
  traffic : Traffic s
  membership : ∃ ports, Membership s ports

theorem sound_start {l : Layout} (many : 3 ≤ l.ports.length) : Sound (start l) where
  clients := ⟨fun _ _ => rfl, by simp [start]⟩
  traffic := {
    entries x w held := by
      have empty : l.fresh.master.kvMap = ∅ := l.fresh_kvMap
      simp [start, empty] at held
    inbox := by simp [start]
    process p := ⟨by simp [start], by simp [start], Shard.tracked_empty⟩
    left := by simp [start] }
  membership := ⟨l.ports, {
    registered := l.fresh_registered
    many := many
    distinct := by simpa [start, joining] using l.distinct
    listed := by simp [start, joining]
    absent p out := by
      have unlisted : p ∉ l.ports := out
      simp [start, unlisted] }⟩

theorem Sound.step {s t : State} {a : Action} (sound : Sound s) (step : Step s a t) : Sound t := by
  obtain ⟨clients, traffic, ports, membership⟩ := sound
  exact ⟨clients.step step, traffic.step clients step, membership.step traffic step⟩

theorem sound_of_reachable {l : Layout} (many : 3 ≤ l.ports.length) {allowed : State → Action → Prop}
    {s : State} (reachable : (system l).Reachable allowed s) : Sound s :=
  reachable.invariant (fun _ initial => initial ▸ sound_start many)
    fun _ _ _ sound _ taken => sound.step (step_of_next taken)

end CloudLab.Sharding.Concurrent
