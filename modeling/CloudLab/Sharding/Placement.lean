import CloudLab.Sharding.Joins

/-!
# Where the keys are after joins

From the third join on the shards partition the master's map. Between the first and
the second join there is one shard, and a key it holds stays reachable through the
second join only if it is even.
-/
namespace CloudLab.Sharding

open Library Library.Wire

/-- A run that begins with the first server: ports are distinct, keys not negative. -/
structure Scenario where
  first : Int32
  rest : List Event
  distinct : (first :: joins rest).Nodup
  nonneg : ∀ k ∈ putKeys rest, 0 ≤ k.toInt

namespace Scenario

def events (sc : Scenario) : List Event := .join sc.first :: sc.rest

theorem joins_events (sc : Scenario) : joins sc.events = sc.first :: joins sc.rest := rfl

/-- Every run of a scenario goes through, up to any of its events. -/
theorem play (sc : Scenario) {before after : List Event} (split : sc.rest = before ++ after) :
    ∃ s, Session.play {} (.join sc.first :: before) = some s ∧
      Session.Sound (sc.first :: joins before) s ∧ s.acked = (putKeys before).reverse := by
  have distinct := sc.distinct
  have nonneg := sc.nonneg
  rw [split] at distinct nonneg
  rw [joins_append] at distinct
  rw [putKeys_append] at nonneg
  have front := distinct.sublist
    (List.Sublist.cons_cons sc.first (List.sublist_append_left (joins before) (joins after)))
  obtain ⟨s₁, first, sound₁, acked₁⟩ :=
    Session.sound_empty.step_join (List.not_mem_nil (a := sc.first))
  obtain ⟨s₂, rest, sound₂, acked₂⟩ := sound₁.play before (Or.inl (by simp))
    (by simpa using front) (fun k member => nonneg k (List.mem_append_left _ member))
  exact ⟨s₂, by rw [Session.play_cons, first, Option.bind_some, rest], by simpa using sound₂,
    by rw [acked₂, acked₁, List.append_nil]⟩

theorem fresh (sc : Scenario) {before after : List Event} {port : Int32}
    (split : sc.rest = before ++ .join port :: after) : port ∉ sc.first :: joins before := by
  have distinct := sc.distinct
  rw [split, joins_append, ← List.cons_append, List.nodup_append] at distinct
  exact fun member => distinct.2.2 port member port (by simp [joins]) rfl

end Scenario

/-! ## The partition -/

/-- Shard `i` of `n` holds the entries of the master's map with `k mod n + 1 = i`, and
every key the master knows is on the shard it routes to and on no other. -/
structure Partition (n : Nat) (c : Cluster) : Prop where
  servers : c.master.numServers = n
  shards : ∀ i : Int, 1 ≤ i → i ≤ n → ∃ port t, c.master.serverPortMap.find? i = some port ∧
    c.shardAt port = some t ∧ ∀ b w, t.db b = some w ↔
      ∃ k, b = stdToString k ∧ c.master.kvMap.find? k = some w ∧ k % n + 1 = i
  placed : ∀ k v, c.master.kvMap.find? k = some v → ∃ port, c.master.route k = some port ∧
    ∀ q t, c.shardAt q = some t → ((t.db (stdToString k)).isSome = true ↔ q = port)

namespace Session

variable {ports : List Int32} {s : Session}

/-- The contents of the shards after a join that redistributes. -/
theorem Sound.contents (sound : Sound ports s) {port : Int32} (fresh : port ∉ ports)
    (many : 3 ≤ ports.length + 1) {s' : Session} (stepped : s.step (.join port) = some s') :
    s'.cluster.master.kvMap = s.cluster.master.kvMap ∧
    ∀ i (bound : i < (ports ++ [port]).length), ∃ t,
      s'.cluster.shardAt (ports ++ [port])[i] = some t ∧
      ∀ b w, t.db b = some w ↔ ∃ k, b = stdToString k ∧
        s.cluster.master.kvMap.find? k = some w ∧
        Master.shardIndex (ports ++ [port]).length k = i := by
  obtain ⟨puts, all, sends⟩ := sound.join_sends port many
  obtain rfl := Option.some.inj (stepped.symm.trans sends)
  refine ⟨rfl, fun i bound => ?_⟩
  obtain ⟨t, alive, tracked⟩ := sound.live_fresh port _ (List.getElem_mem bound)
  have registered := Master.registered_register sound.registered port
  have distinct := (sound_register sound fresh (sound.live_fresh port)
    (sound.others_fresh port)).distinct
  refine ⟨(sentTo (ports ++ [port])[i] ((s.cluster.master.register port).reorgMessages ++
    puts)).foldl Shard.handle t, by simp only [alive, Option.map_some], fun b w => ?_⟩
  exact Master.foldl_redistribution registered distinct (sound.known.register port) all bound
    tracked b w

theorem Sound.partition (sound : Sound ports s) {port : Int32} (fresh : port ∉ ports)
    (many : 3 ≤ ports.length + 1) {s' : Session} (stepped : s.step (.join port) = some s') :
    Partition (ports.length + 1) s'.cluster := by
  obtain ⟨s₁, stepped₁, sound₁, _⟩ := sound.step_join fresh
  obtain rfl := Option.some.inj (stepped₁.symm.trans stepped)
  obtain ⟨same, contents⟩ := sound.contents fresh many stepped
  have size : (ports ++ [port]).length = ports.length + 1 := by simp
  have known := sound.known
  rw [← same] at contents
  refine ⟨by rw [sound₁.registered.count, size], fun i low high => ?_, fun k v held => ?_⟩
  -- Servers are counted from 1, shards from 0.
  · obtain ⟨j, rfl⟩ : ∃ j : Nat, i = (j + 1 : Nat) := ⟨i.toNat - 1, by omega⟩
    have bound : j < (ports ++ [port]).length := by omega
    obtain ⟨t, alive, holds⟩ := contents j bound
    refine ⟨_, t, ?_, alive, fun b w => ?_⟩
    · rw [sound₁.registered.lookup, List.getElem?_eq_getElem bound]
    · rw [holds]
      refine exists_congr fun k => and_congr_right fun _ => and_congr_right fun held => ?_
      have index := Master.shardIndex_cast (ports.length + 1) (known.nonneg k w (same ▸ held))
      rw [size]
      omega
  · have nonneg := known.nonneg k v (same ▸ held)
    refine ⟨_, Master.route_of_known sound₁.registered (by omega) nonneg, fun q t alive => ?_⟩
    -- Only registered ports have a shard.
    have member : q ∈ ports ++ [port] := by
      by_contra absent
      rw [sound₁.others q absent] at alive
      cases alive
    obtain ⟨i, bound, rfl⟩ := List.mem_iff_getElem.mp member
    obtain ⟨t', alive', holds⟩ := contents i bound
    obtain rfl := Option.some.inj (alive.symm.trans alive')
    rw [@eq_comm _ (ports ++ [port])[i], Master.owner_eq_iff sound₁.distinct nonneg bound,
      Option.isSome_iff_exists]
    constructor
    · rintro ⟨w, stored⟩
      obtain ⟨j, text, _, index⟩ := (holds _ w).mp stored
      rwa [stdToString_injective text]
    · intro index
      exact ⟨v, (holds _ v).mpr ⟨k, rfl, held, index⟩⟩

end Session

/-- After every join from the third on the shards are a partition of the master's map. -/
theorem redistribution_partitions (sc : Scenario) (before : List Event) (port : Int32)
    (last : sc.rest = before ++ [.join port]) (three : 3 ≤ (joins sc.events).length) :
    ∃ s, Session.play {} sc.events = some s ∧ Partition (joins sc.events).length s.cluster := by
  have count : joins sc.events = (sc.first :: joins before) ++ [port] := by
    rw [Scenario.joins_events, last, joins_append]
    rfl
  have fresh := sc.fresh last
  obtain ⟨s, played, sound, _⟩ := sc.play last
  obtain ⟨s', stepped, _, _⟩ := sound.step_join fresh
  -- The run up to the last join is sound, and the join partitions the shards.
  refine ⟨s', ?_, ?_⟩
  · rw [Scenario.events, last, ← List.cons_append, Session.play_append, played, Option.bind_some,
      Session.play_cons, stepped, Option.bind_some, Session.play_nil]
  · rw [count] at three ⊢
    simpa using sound.partition fresh (by simpa using three) stepped

def Scenario.three : Scenario where
  first := 25001
  rest := [.put 5 (letter 97 (by decide)), .join 25002, .put 4 (letter 98 (by decide)), .join 25003]
  distinct := by decide
  nonneg := by decide

theorem redistribution_partitions_three :
    ∃ s, Session.play {} Scenario.three.events = some s ∧
      Partition (joins Scenario.three.events).length s.cluster :=
  redistribution_partitions Scenario.three
    [.put 5 (letter 97 (by decide)), .join 25002, .put 4 (letter 98 (by decide))] 25003 rfl
    (by decide)

/-! ## Keys that stay reachable -/

/-- Every key with an acknowledged PUT is in the database of the shard it is routed to. -/
def KeysReachable (s : Session) : Prop :=
  ∀ k ∈ s.acked, ∃ port t, s.cluster.master.route k.toInt = some port ∧
    s.cluster.shardAt port = some t ∧ (t.find k).isSome = true

namespace Session

variable {ports : List Int32} {s : Session}

theorem Sound.reachable_put (sound : Sound ports s) (nonempty : 0 < ports.length) {k : Int32}
    (nonneg : 0 ≤ k.toInt) (v : Argument) {s' : Session} (stepped : s.step (.put k v) = some s')
    (reachable : KeysReachable s) : KeysReachable s' := by
  obtain ⟨t, live, stepped', _⟩ := sound.put nonempty nonneg v
  obtain rfl := Option.some.inj (stepped.symm.trans stepped')
  have routed := Master.route_of_known sound.registered nonempty nonneg
  intro j member
  -- The key itself, and the others on this shard and on another one.
  rcases List.mem_cons.mp member with rfl | old
  · exact ⟨_, _, routed, Function.update_self .., by simp [Shard.find_store]⟩
  · obtain ⟨port, u, route, alive, found⟩ := reachable j old
    by_cases here : port = Master.owner ports k.toInt
    · subst here
      obtain rfl := Option.some.inj (alive.symm.trans live)
      refine ⟨_, _, route, Function.update_self .., ?_⟩
      rw [Shard.find_store]
      split
      · rfl
      · exact found
    · exact ⟨port, u, route, by simpa [Function.update_of_ne here] using alive, found⟩

/-- The second join moves no key, so the odd keys are looked for on the new shard. -/
theorem Sound.reachable_second (sound : Sound ports s) (one : ports.length = 1) {port : Int32}
    (fresh : port ∉ ports) {s' : Session} (stepped : s.step (.join port) = some s')
    (reachable : KeysReachable s) :
    KeysReachable s' ↔ ∀ k ∈ s.acked, k.toInt % 2 = 0 := by
  have few : s.cluster.master.numServers + 1 < 3 := by
    rw [sound.registered.count]
    omega
  obtain rfl := Option.some.inj (stepped.symm.trans (join_small s port few))
  have registered := Master.registered_register sound.registered port
  obtain ⟨first, rfl⟩ := List.length_eq_one_iff.mp one
  have other : first ≠ port := by simpa [eq_comm] using fresh
  constructor
  -- An odd key is looked for on the new shard, which is empty.
  · intro after k member
    by_contra odd
    have nonneg := (sound.acked k member).1
    have route := Master.route_of_known registered (by simp) nonneg
    have index := Master.shardIndex_cast 2 nonneg
    have second : Master.shardIndex 2 k.toInt = 1 := by omega
    obtain ⟨p, t, routed, alive, found⟩ := after k member
    rw [show Master.owner ([first] ++ [port]) k.toInt = port by simp [Master.owner, second]] at route
    obtain rfl := Option.some.inj (routed.symm.trans route)
    simp only [Function.update_self] at alive
    obtain rfl := Option.some.inj alive
    simp at found
  -- An even key stays with the first shard.
  · intro even k member
    have nonneg := (sound.acked k member).1
    obtain ⟨p, t, routed, alive, found⟩ := reachable k member
    have before := Master.route_of_known sound.registered (by simp) nonneg
    have zero : Master.shardIndex 1 k.toInt = 0 := by
      have index := Master.shardIndex_cast 1 nonneg
      omega
    rw [show Master.owner [first] k.toInt = first by simp [Master.owner, zero]] at before
    obtain rfl := Option.some.inj (routed.symm.trans before)
    have index := Master.shardIndex_cast 2 nonneg
    have same : Master.shardIndex 2 k.toInt = 0 := by
      have := even k member
      omega
    refine ⟨p, t, ?_, by simpa [Function.update_of_ne other] using alive, found⟩
    rw [Master.route_of_known registered (by simp) nonneg]
    simp [Master.owner, same]

theorem Sound.reachable_later (sound : Sound ports s) {port : Int32} (fresh : port ∉ ports)
    (many : 3 ≤ ports.length + 1) {s' : Session} (stepped : s.step (.join port) = some s') :
    KeysReachable s' := by
  have parted := sound.partition fresh many stepped
  obtain ⟨s₁, stepped₁, sound₁, _⟩ := sound.step_join fresh
  obtain rfl := Option.some.inj (stepped₁.symm.trans stepped)
  intro k member
  obtain ⟨nonneg, known⟩ := sound₁.acked k member
  obtain ⟨v, held⟩ := Option.isSome_iff_exists.mp known
  obtain ⟨p, routed, only⟩ := parted.placed _ v held
  have listed : p ∈ ports ++ [port] := by
    rw [Master.route_of_known sound₁.registered (by simp) nonneg] at routed
    exact Option.some.inj routed ▸ Master.owner_mem (by simp) nonneg
  obtain ⟨t, alive, _⟩ := sound₁.live p listed
  exact ⟨p, t, routed, alive, (only p t alive).mpr rfl⟩

end Session

/-- Keys put while there is one server are even if another one joins. -/
def EvenBeforeSecond (events : List Event) : Prop :=
  ∀ before port after, events = before ++ .join port :: after → (joins before).length = 1 →
    ∀ k ∈ putKeys before, k.toInt % 2 = 0

namespace Scenario

/-- Up to any of its events: reachable exactly when the second join found even keys. -/
theorem reachable_of_even (sc : Scenario) (even : EvenBeforeSecond sc.events)
    {before : List Event} : ∀ {after : List Event}, sc.rest = before ++ after →
    ∃ s, Session.play {} (.join sc.first :: before) = some s ∧ KeysReachable s := by
  -- On the number of events; each step is a PUT or a join.
  induction before using List.reverseRecOn with
  | nil =>
    intro after split
    obtain ⟨s, played, _, acked⟩ := sc.play split
    refine ⟨s, played, fun k member => ?_⟩
    rw [acked] at member
    cases member
  | append_singleton before e ih =>
    intro after split
    rw [List.append_assoc, List.singleton_append] at split
    obtain ⟨s, played, reachable⟩ := ih split
    obtain ⟨s₁, played₁, sound, acked⟩ := sc.play split
    obtain rfl := Option.some.inj (played₁.symm.trans played)
    have further : sc.rest = (before ++ [e]) ++ after := by simpa using split
    obtain ⟨s', played', _, _⟩ := sc.play further
    have stepped := Session.step_of_play played played'
    refine ⟨s', played', ?_⟩
    cases e with
    | put k v =>
      have nonneg := sc.nonneg k (by rw [split, putKeys_append]; simp [putKeys])
      exact sound.reachable_put (by simp) nonneg v stepped reachable
    | join port =>
      have fresh := sc.fresh split
      -- A join redistributes from the third server on; the second is the exception.
      by_cases many : 3 ≤ (sc.first :: joins before).length + 1
      · exact sound.reachable_later fresh many stepped
      · have none : joins before = [] := List.eq_nil_of_length_eq_zero (by
          rw [List.length_cons] at many
          omega)
        refine (sound.reachable_second (by simp [none]) fresh stepped reachable).mpr ?_
        intro k member
        apply even (.join sc.first :: before) port after (by rw [events, split]; rfl)
        · change (sc.first :: joins before).length = 1
          simp [none]
        · change k ∈ putKeys before
          simpa [acked] using member

end Scenario

/-- Every acknowledged key is reachable in every quiescent state of a scenario exactly
when no odd key was put before the second server joined. -/
theorem keysReachable_iff (sc : Scenario) :
    (∀ before after, sc.events = before ++ after →
      ∃ s, Session.play {} before = some s ∧ KeysReachable s) ↔ EvenBeforeSecond sc.events := by
  constructor
  · intro always before port after split one k member
    -- One server has joined, and it was the first event.
    obtain ⟨b, rfl⟩ : ∃ b, before = .join sc.first :: b := by
      cases before with
      | nil => simp [joins] at one
      | cons e b => exact ⟨b, by rw [(List.cons.inj split).1]⟩
    have rest : sc.rest = b ++ .join port :: after := (List.cons.inj split).2
    obtain ⟨s, played, reachable⟩ := always _ _ split
    obtain ⟨s', played', reachable'⟩ := always (.join sc.first :: (b ++ [.join port])) after
      (by rw [split]; simp)
    obtain ⟨s₁, played₁, sound, acked⟩ := sc.play rest
    obtain rfl := Option.some.inj (played₁.symm.trans played)
    have stepped := Session.step_of_play played played'
    exact (sound.reachable_second one (sc.fresh rest) stepped reachable).mp reachable' k
      (by rw [acked]; simpa [putKeys] using member)
  · intro even before after split
    cases before with
    | nil => exact ⟨{}, rfl, fun k member => by cases member⟩
    | cons e b =>
      obtain ⟨rfl, rest⟩ := List.cons.inj split
      exact sc.reachable_of_even even rest

def Scenario.oddKey : Scenario where
  first := 25001
  rest := [.put 1 (letter 97 (by decide)), .join 25002]
  distinct := by decide
  nonneg := by decide

/-- The second join leaves the odd key 1 behind on the first shard. -/
theorem not_keysReachable_odd :
    ¬∀ before after, Scenario.oddKey.events = before ++ after →
      ∃ s, Session.play {} before = some s ∧ KeysReachable s := by
  intro always
  obtain ⟨s, played, reachable⟩ := always Scenario.oddKey.events [] (by simp)
  have missing : ((Session.play {} Scenario.oddKey.events).all fun s =>
      decide (1 ∈ s.acked) && (s.cluster.master.route 1).all fun port =>
        (s.cluster.shardAt port).all fun t => (t.find 1).isNone) = true := by decide
  rw [played] at missing
  simp only [Option.all_some, Bool.and_eq_true, decide_eq_true_eq] at missing
  obtain ⟨port, t, routed, alive, found⟩ := reachable 1 missing.1
  have nothing := missing.2
  rw [show Int32.toInt 1 = 1 from rfl] at routed
  rw [routed, Option.all_some, alive, Option.all_some] at nothing
  rw [Option.isNone_iff_eq_none.mp nothing] at found
  cases found

end CloudLab.Sharding
