import CloudLab.Sharding.Master
import CloudLab.Library.Transition

/-!
# Which keys the master can route (`task2/source/master_server.cpp`)

Requests and the redistribution take the remainder of a key by `num_servers`. It is a number only
if a server has registered, and in C++ it has the sign of the key; then the number of the shard is
0 or less, and the map holds nothing under it: `serves_iff`.
-/
namespace CloudLab.Sharding.Master

open Library Library.Wire

/-- The rounds of `main`, one for each message that came in. -/
def system : System Master Msg where
  init m := m = {}
  next m msg := (m.handle msg).map Prod.fst

/-- The remainder is defined, and one more is the number of a registered server. -/
structure Routes (m : Master) (key : Int) : Prop where
  divisor : m.numServers ≠ 0
  low : 1 ≤ key.tmod m.numServers + 1
  high : key.tmod m.numServers + 1 ≤ m.numServers
  found : ∃ port, m.serverPortMap.find? (key.tmod m.numServers + 1) = some port

/-- Every key that the round looks up is routed. -/
def Serves (m : Master) (msg : Msg) : Prop :=
  match msg.type with
  | .get | .put => m.Routes msg.key.toInt
  | .server => (m.register msg.port).numServers ≥ 3 →
      ∀ key value, m.kvMap.find? key = some value → (m.register msg.port).Routes key
  | .masterPut | .reply | .reorg | .reorgPut => True

def NonnegOrMultiple (n : Nat) (key : Int) : Prop := 0 ≤ key ∨ (n : Int) ∣ key

/-- A server is there, and no key has a negative remainder. -/
def Covered (m : Master) (msg : Msg) : Prop :=
  match msg.type with
  | .get | .put => 0 < m.numServers ∧ NonnegOrMultiple m.numServers msg.key.toInt
  | .server => m.numServers + 1 ≥ 3 →
      ∀ key value, m.kvMap.find? key = some value → NonnegOrMultiple (m.numServers + 1) key
  | .masterPut | .reply | .reorg | .reorgPut => True

/-! ## Remainders -/

theorem routable_iff (n : Nat) (key : Int) : Routable n key ↔ NonnegOrMultiple n key := by
  constructor
  · intro routable
    by_cases nonneg : 0 ≤ key
    · exact Or.inl nonneg
    -- The remainder of a negative key is not positive either.
    · right
      have opposite : 0 ≤ (-key).tmod n := Int.tmod_nonneg _ (by omega)
      rw [Int.neg_tmod] at opposite
      unfold Routable at routable
      exact Int.dvd_of_tmod_eq_zero (by omega)
  · rintro (nonneg | multiple)
    · exact routable_of_nonneg n nonneg
    · exact (Int.tmod_eq_zero_of_dvd multiple).ge

variable {m : Master} {ports : List Int32}

theorem routes_iff (registered : m.Registered ports) (key : Int) :
    m.Routes key ↔ 0 < m.numServers ∧ NonnegOrMultiple m.numServers key := by
  rw [← routable_iff]
  constructor
  · intro routes
    have low := routes.low
    exact ⟨Nat.pos_of_ne_zero routes.divisor, by unfold Routable; omega⟩
  · rintro ⟨positive, routable⟩
    have less := Int.tmod_lt_of_pos key (b := m.numServers) (by omega)
    have nonneg : 0 ≤ key.tmod m.numServers := routable
    have found := route_of_registered registered (by rw [← registered.count]; exact positive)
      (by rw [← registered.count]; exact routable)
    have index := shardIndex_lt positive routable
    rw [registered.count] at index
    rw [route, if_neg (by omega), List.getElem?_eq_getElem index] at found
    exact ⟨by omega, by omega, by omega, _, found⟩

/-- A key that is routed is looked up without undefined behaviour, and no other one. -/
theorem route_isSome_iff (registered : m.Registered ports) (key : Int) :
    (m.route key).isSome ↔ m.Routes key := by
  constructor
  · intro routed
    rw [routes_iff registered, ← routable_iff]
    constructor
    · by_contra zero
      rw [route, if_pos (by omega)] at routed
      cases routed
    · by_contra negative
      rw [route_of_not_routable registered (by rwa [← registered.count])] at routed
      cases routed
  · intro routes
    obtain ⟨port, found⟩ := routes.found
    rw [route, if_neg routes.divisor, found]
    rfl

/-! ## Rounds -/

theorem reorgPutMessages_isSome_iff (registered : m.Registered ports) :
    m.reorgPutMessages.isSome ↔ ∀ key value, m.kvMap.find? key = some value → m.Routes key := by
  rw [reorgPutMessages, mapM_isSome_iff]
  constructor
  · intro all key value found
    have sent := all (key, value) ((m.kvMap.mem_entries_iff key value).mpr found)
    rw [Option.isSome_map, route_isSome_iff registered] at sent
    exact sent
  · rintro all ⟨key, value⟩ member
    rw [Option.isSome_map, route_isSome_iff registered]
    exact all key value ((m.kvMap.mem_entries_iff key value).mp member)

/-- A round is defined exactly when all that it looks up is there. -/
theorem handle_isSome_iff (registered : m.Registered ports) (msg : Msg) :
    (m.handle msg).isSome ↔ m.Serves msg := by
  have more := registered_register registered msg.port
  unfold handle Serves
  cases msg.type with
  | get | put =>
    dsimp only
    rw [Option.isSome_map, route_isSome_iff registered]
  | server =>
    dsimp only
    by_cases three : (m.register msg.port).numServers ≥ 3
    · rw [if_pos three, Option.isSome_map, reorgPutMessages_isSome_iff more]
      exact ⟨fun all _ => all, fun all => all three⟩
    · rw [if_neg three]
      exact iff_of_true rfl fun enough => absurd enough three
  | masterPut | reply | reorg | reorgPut => simp

theorem serves_iff_covered (registered : m.Registered ports) (msg : Msg) :
    m.Serves msg ↔ m.Covered msg := by
  have more := registered_register registered msg.port
  unfold Serves Covered
  cases msg.type with
  | get | put => exact routes_iff registered _
  | server =>
    apply forall_congr'
    intro three
    apply forall_congr'
    intro key
    apply forall_congr'
    intro value
    apply forall_congr'
    intro found
    rw [routes_iff more]
    exact ⟨fun routes => routes.2, fun covered => ⟨by simp [register], covered⟩⟩
  | masterPut | reply | reorg | reorgPut => rfl

/-- The port map always holds the servers `1 … num_servers`. -/
theorem registered_of_reachable (reachable : system.Reachable System.Always m) :
    ∃ ports, m.Registered ports := by
  apply reachable.invariant
  · rintro _ rfl
    exact ⟨[], registered_empty⟩
  · rintro m msg m' ⟨ports, registered⟩ _ taken
    obtain ⟨⟨_, sends⟩, handled, rfl⟩ := Option.map_eq_some_iff.mp taken
    have more := registered_register registered msg.port
    unfold handle at handled
    cases kind : msg.type with
    | masterPut =>
      rw [kind] at handled
      cases handled
      exact ⟨ports, registered.learned _⟩
    | server =>
      rw [kind] at handled
      dsimp only at handled
      split at handled
      · obtain ⟨_, _, same⟩ := Option.map_eq_some_iff.mp handled
        cases same
        exact ⟨_, more⟩
      · cases handled
        exact ⟨_, more⟩
    | get | put =>
      rw [kind] at handled
      obtain ⟨_, _, same⟩ := Option.map_eq_some_iff.mp handled
      cases same
      exact ⟨ports, registered⟩
    | reply | reorg | reorgPut =>
      rw [kind] at handled
      cases handled
      exact ⟨ports, registered⟩

/-- In every state the rounds that look up no missing server are those for which a server is there
and no key has a negative remainder; and they are the ones without undefined behaviour. -/
theorem serves_iff (reachable : system.Reachable System.Always m) (msg : Msg) :
    (m.Serves msg ↔ m.Covered msg) ∧ ((m.handle msg).isSome ↔ m.Serves msg) := by
  obtain ⟨ports, registered⟩ := registered_of_reachable reachable
  exact ⟨serves_iff_covered registered msg, handle_isSome_iff registered msg⟩

/-! ## Three servers -/

def getMessage (key : Int32) : Msg := { type_ := some .get, key_ := some key }

def threeServers : List Msg := [serverMessage 40, serverMessage 41, serverMessage 42]

theorem reachable_threeServers :
    ∃ m, system.Reachable System.Always m ∧ m.numServers = 3 := by
  obtain ⟨m, ran⟩ : ∃ m, system.run {} threeServers = some m :=
    Option.isSome_iff_exists.mp (by decide)
  have count : ∀ m ∈ system.run {} threeServers, m.numServers = 3 := by decide
  exact ⟨m, System.Reachable.run (.start rfl) ran, count m ran⟩

theorem serves_four : ∃ m, system.Reachable System.Always m ∧ m.numServers = 3 ∧
    m.Serves (getMessage 4) := by
  obtain ⟨m, reachable, count⟩ := reachable_threeServers
  have covered : m.Covered (getMessage 4) := by
    constructor
    · rw [count]
      decide
    · left
      decide
  exact ⟨m, reachable, count, (serves_iff reachable (getMessage 4)).1.mpr covered⟩

theorem not_serves_negative : ¬∀ m msg, system.Reachable System.Always m → m.Serves msg := by
  intro all
  obtain ⟨m, reachable, count⟩ := reachable_threeServers
  have routes : m.Routes (-1) := all m (getMessage (-1)) reachable
  have low := routes.low
  rw [count] at low
  revert low
  decide

end CloudLab.Sharding.Master
