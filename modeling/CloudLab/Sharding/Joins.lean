import CloudLab.Sharding.Delivery
import CloudLab.Sharding.Redistribution

/-!
# Joins and PUTs, one at a time

Servers join and clients put keys, each to its end before the next begins, and
messages decode to what was sent. From the third server on a join redistributes, and
what it leaves behind depends on the master's map only; the second join moves
nothing.
-/
namespace CloudLab.Sharding

open Library Library.Wire

inductive Event where
  | join (port : Int32)
  | put (key : Int32) (value : Argument)
  deriving DecidableEq

def joins (events : List Event) : List Int32 :=
  events.filterMap fun
    | .join port => some port
    | .put _ _ => none

def putKeys (events : List Event) : List Int32 :=
  events.filterMap fun
    | .join _ => none
    | .put key _ => some key

theorem joins_append (xs ys : List Event) : joins (xs ++ ys) = joins xs ++ joins ys :=
  List.filterMap_append

theorem putKeys_append (xs ys : List Event) : putKeys (xs ++ ys) = putKeys xs ++ putKeys ys :=
  List.filterMap_append

/-- The cluster, and the keys whose PUT was acknowledged, latest first. -/
structure Session where
  cluster : Cluster := {}
  acked : List Int32 := []

namespace Session

def step (s : Session) : Event → Option Session
  | .join port => (s.cluster.join some port).map fun c => { s with cluster := c }
  | .put key value => (s.cluster.run some (.put key value)).map fun r =>
      ⟨r.1, if r.2.exit = 0 then key :: s.acked else s.acked⟩

def play (s : Session) (events : List Event) : Option Session := events.foldlM step s

@[simp] theorem play_nil (s : Session) : s.play [] = some s := rfl

theorem play_cons (s : Session) (e : Event) (events : List Event) :
    s.play (e :: events) = (s.step e).bind fun s => s.play events := rfl

theorem play_append (s : Session) (xs ys : List Event) :
    s.play (xs ++ ys) = (s.play xs).bind fun s => s.play ys := List.foldlM_append

theorem step_of_play {s s₁ s₂ : Session} {xs : List Event} {e : Event} (played : s.play xs = some s₁)
    (further : s.play (xs ++ [e]) = some s₂) : s₁.step e = some s₂ := by
  rw [play_append, played, Option.bind_some, play_cons] at further
  simpa using further

/-- What holds between two events: the ports registered so far are those of the running
shards, and the master knows of every acknowledged key. -/
structure Sound (ports : List Int32) (s : Session) : Prop where
  registered : s.cluster.master.Registered ports
  distinct : ports.Nodup
  known : s.cluster.master.Known
  live : ∀ p ∈ ports, ∃ t, s.cluster.shardAt p = some t ∧ t.Tracked
  others : ∀ p, p ∉ ports → s.cluster.shardAt p = none
  acked : ∀ k ∈ s.acked, 0 ≤ k.toInt ∧ (s.cluster.master.kvMap.find? k.toInt).isSome = true

theorem sound_empty : Sound [] {} where
  registered := Master.registered_empty
  distinct := .nil
  known := Master.known_empty
  live p member := by cases member
  others p _ := rfl
  acked k member := by cases member

variable {ports : List Int32} {s : Session}

/-! ## PUT -/

theorem Sound.put (sound : Sound ports s) (nonempty : 0 < ports.length) {k : Int32}
    (nonneg : 0 ≤ k.toInt) (v : Argument) :
    ∃ t, s.cluster.shardAt (Master.owner ports k.toInt) = some t ∧
      s.step (.put k v) = some
        { cluster :=
            { master := { s.cluster.master with
                kvMap := s.cluster.master.kvMap.insert k.toInt v.string }
              shardAt := Function.update s.cluster.shardAt (Master.owner ports k.toInt)
                (some (t.store k v.string)) }
          acked := k :: s.acked } ∧
      t.Tracked := by
  have routed := Master.route_of_known sound.registered nonempty nonneg
  obtain ⟨t, live, tracked⟩ := sound.live _ (Master.owner_mem nonempty nonneg)
  refine ⟨t, live, ?_, tracked⟩
  rw [step, Cluster.run_put delivery_ideal routed rfl live]
  rfl

theorem Sound.step_put (sound : Sound ports s) (nonempty : 0 < ports.length) {k : Int32}
    (nonneg : 0 ≤ k.toInt) (v : Argument) :
    ∃ s', s.step (.put k v) = some s' ∧ Sound ports s' ∧ s'.acked = k :: s.acked := by
  obtain ⟨t, live, stepped, tracked⟩ := sound.put nonempty nonneg v
  refine ⟨_, stepped, ?_, rfl⟩
  refine ⟨sound.registered.learned _, sound.distinct, sound.known.insert nonneg v.plain, ?_, ?_, ?_⟩
  -- One shard is written to, and goes on listing what it holds.
  · intro p member
    by_cases here : p = Master.owner ports k.toInt
    · subst here
      exact ⟨t.store k v.string, by simp, Shard.store_tracked tracked _ _⟩
    · simpa [Function.update_of_ne here] using sound.live p member
  · intro p absent
    have other : p ≠ Master.owner ports k.toInt := by
      rintro rfl
      rw [sound.others _ absent] at live
      cases live
    simpa [Function.update_of_ne other] using sound.others p absent
  -- What the master knew it still knows.
  · intro j member
    simp only [StdMap.find?_insert]
    rcases List.mem_cons.mp member with rfl | old
    · simp [nonneg]
    · refine ⟨(sound.acked j old).1, ?_⟩
      split
      · rfl
      · exact (sound.acked j old).2

/-! ## Join -/

/-- A message for every port, each handled before the next is sent. -/
theorem sendAll_ideal (c : Cluster) (messages : List (Int32 × Msg))
    (live : ∀ e ∈ messages, (c.shardAt e.1).isSome = true) :
    c.sendAll some messages = some { c with
      shardAt := fun p => (c.shardAt p).map fun t => (sentTo p messages).foldl Shard.handle t } := by
  induction messages generalizing c with
  | nil => simp [Cluster.sendAll, sentTo]
  | cons e rest ih =>
    obtain ⟨port, m⟩ := e
    obtain ⟨t, alive⟩ := Option.isSome_iff_exists.mp (live (port, m) (by simp))
    rw [Cluster.sendAll, Cluster.toShard, alive, Option.map_some, Option.bind_some, ih]
    · congr 2
      funext p
      by_cases here : p = port
      · subst here
        simp [alive, sentTo]
      · simp [Function.update_of_ne here, sentTo, Ne.symm here]
    · intro f member
      have alive' := live f (by simp [member])
      by_cases here : f.1 = port
      · simp [here]
      · simpa [Function.update_of_ne here] using alive'

/-- The second server is only registered. -/
theorem join_small (s : Session) (port : Int32) (few : s.cluster.master.numServers + 1 < 3) :
    s.step (.join port) = some
      { s with cluster := ⟨s.cluster.master.register port,
                Function.update s.cluster.shardAt port (some {})⟩ } := by
  have guard : ¬(s.cluster.master.register port).numServers ≥ 3 := by
    simp only [Master.register]
    omega
  simp [step, Cluster.join, Cluster.toMaster, Master.handle_server, guard, Cluster.sendAll]

theorem sound_register (sound : Sound ports s) {port : Int32} (fresh : port ∉ ports)
    {shardAt : Int32 → Option Shard}
    (live : ∀ p ∈ ports ++ [port], ∃ t, shardAt p = some t ∧ t.Tracked)
    (others : ∀ p, p ∉ ports ++ [port] → shardAt p = none) :
    Sound (ports ++ [port]) { s with cluster := ⟨s.cluster.master.register port, shardAt⟩ } where
  registered := Master.registered_register sound.registered port
  distinct := by
    rw [List.nodup_append]
    exact ⟨sound.distinct, by simp, fun p member q last => by
      rintro rfl
      exact fresh (List.mem_singleton.mp last ▸ member)⟩
  known := sound.known.register port
  live := live
  others := others
  acked := sound.acked

/-- The shards with the new one, before the master has heard of it. -/
theorem Sound.live_fresh (sound : Sound ports s) (port : Int32) :
    ∀ p ∈ ports ++ [port],
      ∃ t, Function.update s.cluster.shardAt port (some {}) p = some t ∧ t.Tracked := by
  intro p member
  by_cases here : p = port
  · subst here
    exact ⟨{}, by simp, Shard.tracked_empty⟩
  · simp only [Function.update_of_ne here]
    rcases List.mem_append.mp member with old | last
    · exact sound.live p old
    · exact absurd (List.mem_singleton.mp last) here

theorem Sound.others_fresh (sound : Sound ports s) (port : Int32) :
    ∀ p, p ∉ ports ++ [port] → Function.update s.cluster.shardAt port (some {}) p = none := by
  intro p absent
  simp only [List.mem_append, List.mem_singleton, not_or] at absent
  simpa [Function.update_of_ne absent.2] using sound.others p absent.1

/-- From the third server on every shard, the new one included, is sent its part of the
master's map. -/
theorem Sound.join_sends (sound : Sound ports s) (port : Int32) (many : 3 ≤ ports.length + 1) :
    ∃ puts, (s.cluster.master.register port).reorgPutMessages = some puts ∧
      s.step (.join port) = some { s with cluster := ⟨s.cluster.master.register port, fun p =>
        (Function.update s.cluster.shardAt port (some {}) p).map fun t =>
          (sentTo p ((s.cluster.master.register port).reorgMessages ++ puts)).foldl
            Shard.handle t⟩ } := by
  have registered := Master.registered_register sound.registered port
  have known := sound.known.register port
  have size : 0 < (ports ++ [port]).length := by simp
  have guard : (s.cluster.master.register port).numServers ≥ 3 := by
    simp only [Master.register, sound.registered.count]
    omega
  have all := Master.reorgPutMessages_of_known registered size known
  refine ⟨_, all, ?_⟩
  -- Whomever the master sends a message is one of the servers.
  have reached : ∀ e ∈ (s.cluster.master.register port).reorgMessages ++
      (s.cluster.master.register port).kvMap.entries.map (fun e =>
        (Master.owner (ports ++ [port]) e.1, Master.reorgPutMessage e.1 e.2)),
      (Function.update s.cluster.shardAt port (some {}) e.1).isSome = true := by
    intro e member
    have listed : e.1 ∈ ports ++ [port] := by
      rcases List.mem_append.mp member with reorg | put
      · obtain ⟨entry, inside, rfl⟩ := List.mem_map.mp reorg
        exact Master.port_of_mem_entries registered inside
      · obtain ⟨entry, inside, rfl⟩ := List.mem_map.mp put
        exact Master.owner_mem size
          (known.nonneg _ _ ((StdMap.mem_entries_iff _ _ _).mp inside))
    obtain ⟨t, alive, _⟩ := sound.live_fresh port e.1 listed
    rw [alive]
    rfl
  have sent := sendAll_ideal
    ⟨s.cluster.master.register port, Function.update s.cluster.shardAt port (some {})⟩ _ reached
  have handled : s.cluster.master.handle (serverMessage port) =
      some (s.cluster.master.register port,
        { messages := (s.cluster.master.register port).reorgMessages ++
            (s.cluster.master.register port).kvMap.entries.map fun e =>
              (Master.owner (ports ++ [port]) e.1, Master.reorgPutMessage e.1 e.2) }) := by
    rw [Master.handle_server, if_pos guard, all]
    rfl
  simp only [step, Cluster.join, Cluster.toMaster, handled, Option.bind_some, sent,
    Option.map_some]

theorem Sound.step_join (sound : Sound ports s) {port : Int32} (fresh : port ∉ ports) :
    ∃ s', s.step (.join port) = some s' ∧ Sound (ports ++ [port]) s' ∧ s'.acked = s.acked := by
  -- With a redistribution, or without one.
  by_cases many : 3 ≤ ports.length + 1
  · obtain ⟨puts, _, stepped⟩ := sound.join_sends port many
    refine ⟨_, stepped, sound_register sound fresh (fun p member => ?_) (fun p absent => ?_), rfl⟩
    · obtain ⟨t, alive, tracked⟩ := sound.live_fresh port p member
      exact ⟨_, by rw [alive, Option.map_some], Shard.foldl_handle_tracked tracked _⟩
    · rw [sound.others_fresh port p absent, Option.map_none]
  · have few : s.cluster.master.numServers + 1 < 3 := by
      rw [sound.registered.count]
      omega
    exact ⟨_, join_small s port few,
      sound_register sound fresh (sound.live_fresh port) (sound.others_fresh port), rfl⟩

/-! ## Runs -/

theorem Sound.play (sound : Sound ports s) (events : List Event)
    (starts : 0 < ports.length ∨ putKeys events = [])
    (distinct : (ports ++ joins events).Nodup) (nonneg : ∀ k ∈ putKeys events, 0 ≤ k.toInt) :
    ∃ s', s.play events = some s' ∧ Sound (ports ++ joins events) s' ∧
      s'.acked = (putKeys events).reverse ++ s.acked := by
  -- On the events that are left; ports and session go along.
  induction events generalizing ports s with
  | nil => exact ⟨s, rfl, by simpa [joins] using sound, by simp [putKeys]⟩
  | cons e events ih =>
    cases e with
    | join port =>
      have fresh : port ∉ ports := by
        intro member
        have apart := (List.nodup_append.mp distinct).2.2 port member port (by simp [joins])
        exact apart rfl
      obtain ⟨s₁, first, sound₁, acked₁⟩ := sound.step_join fresh
      obtain ⟨s₂, rest, sound₂, acked₂⟩ := ih sound₁ (by simp)
        (by simpa [joins] using distinct) nonneg
      exact ⟨s₂, by rw [play_cons, first, Option.bind_some, rest], by simpa [joins] using sound₂,
        by rw [acked₂, acked₁]; rfl⟩
    | put k v =>
      have nonempty : 0 < ports.length := by simpa [putKeys] using starts
      obtain ⟨s₁, first, sound₁, acked₁⟩ := sound.step_put nonempty (nonneg k (by simp [putKeys])) v
      obtain ⟨s₂, rest, sound₂, acked₂⟩ := ih sound₁ (Or.inl nonempty) distinct
        (fun j member => nonneg j (by simp [putKeys] at member ⊢; exact Or.inr member))
      exact ⟨s₂, by rw [play_cons, first, Option.bind_some, rest], sound₂,
        by rw [acked₂, acked₁]; simp [putKeys]⟩

end Session

end CloudLab.Sharding
