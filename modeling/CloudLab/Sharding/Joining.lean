import CloudLab.Sharding.Master
import CloudLab.Library.Transition

/-!
# Servers that join one after the other (`task2/source/server.cpp`, `master_server.cpp`)

A server connects to the master, sends SERVER, closes, and only then binds and listens on its
own port. The master accepts one connection at a time; from the third SERVER message on it
connects to every registered port, and exits when one of these calls fails: because nobody
listens there yet, or because it has no descriptor left, for it closes neither the connections
it accepts nor those of a REORG. Messages decode to what was sent.
-/
namespace CloudLab.Sharding.Joining

open Library

structure State where
  master : Master := {}
  /-- How many descriptors the master has open. -/
  opened : Nat
  /-- What the master has left to send in its round. -/
  left : List (Int32 × Msg) := []
  /-- The master has exited, or hangs in `read_n` behind a failed `accept`. -/
  stopped : Bool := false
  /-- The connections to the master that it has not accepted yet. -/
  inbox : List Msg := []
  /-- The servers that have sent SERVER, and those that listen. -/
  announced : List Int32 := []
  listening : List Int32 := []
  deriving DecidableEq

inductive Action where
  | announce (port : Int32)
  | listen (port : Int32)
  /-- A client or a shard sends the master a message. -/
  | message (m : Msg)
  /-- The master accepts the next connection. -/
  | take
  /-- The master connects to the next port and sends the next message of its round. -/
  | forward

variable (limit : Nat)

namespace State

def stepAnnounce (s : State) (port : Int32) : Option State :=
  if port ∈ s.announced then none
  else some { s with announced := port :: s.announced, inbox := s.inbox ++ [serverMessage port] }

def stepListen (s : State) (port : Int32) : Option State :=
  if port ∈ s.announced ∧ port ∉ s.listening then some { s with listening := port :: s.listening }
  else none

def stepMessage (s : State) (m : Msg) : Option State :=
  if m.type = .server then none else some { s with inbox := s.inbox ++ [m] }

def stepTake (s : State) : Option State :=
  match s.left, s.inbox with
  | [], m :: rest =>
    if s.opened < limit then
      (s.master.handle m).map fun r =>
        { s with master := r.1, opened := s.opened + 1, left := r.2.messages, inbox := rest }
    else some { s with stopped := true }
  | _, _ => none

/-- A REORG leaves its connection open, a REORG_PUT closes it. -/
def stepForward (s : State) : Option State :=
  match s.left with
  | (port, m) :: rest =>
    if s.opened < limit ∧ port ∈ s.listening then
      some { s with opened := if m.type = .reorg then s.opened + 1 else s.opened, left := rest }
    else some { s with stopped := true }
  | [] => none

end State

/-- The master starts with its three standard descriptors and the port it listens on. -/
def start : State := { opened := 4 }

def system : System State Action where
  init s := s = start
  next s a :=
    if s.stopped then none
    else match a with
      | .announce port => s.stepAnnounce port
      | .listen port => s.stepListen port
      | .message m => s.stepMessage m
      | .take => s.stepTake limit
      | .forward => s.stepForward limit

/-- The master has not stopped, and every call it has left to make in its round succeeds. -/
def Serving (s : State) : Prop :=
  s.stopped = false ∧ ∃ t, (system limit).run s (List.replicate s.left.length .forward) = some t ∧
    t.left = [] ∧ t.stopped = false

/-! ## When joins are safe -/

/-- The registered ports. -/
def ports (m : Master) : List Int32 := m.serverPortMap.entries.map Prod.snd

/-- What a redistribution by this master needs: listeners on all registered ports, and a
descriptor for each REORG and one more for the REORG_PUTs. -/
def RedistributionReady (s : State) (m : Master) : Prop :=
  3 ≤ m.numServers → (∀ port ∈ ports m, port ∈ s.listening) ∧
    s.opened + 1 + (ports m).length + (if m.kvMap.entries = [] then 0 else 1) ≤ limit

/-- The steps after which nothing can fail: the master takes up a message while it has a
descriptor for the connection, and a SERVER message while it can redistribute. -/
def Ready (s : State) : Action → Prop
  | .take => s.opened < limit ∧
      ∀ m ∈ s.inbox.head?, m.type = .server → RedistributionReady limit s (s.master.register m.port)
  | _ => True

instance (s : State) (m : Master) : Decidable (RedistributionReady limit s m) :=
  inferInstanceAs (Decidable (_ → _))

instance (s : State) : DecidablePred (Ready limit s)
  | .take => inferInstanceAs (Decidable (_ ∧ _))
  | .announce _ | .listen _ | .message _ | .forward => .isTrue trivial

/-- The descriptors that the rest of a round takes: one more for each REORG, and one at a time
for the others. -/
def needed (left : List (Int32 × Msg)) : Nat :=
  left.countP (fun e => e.2.type = .reorg) + if left.all (fun e => e.2.type = .reorg) then 0 else 1

/-- Whom the round still has to reach listens, and there are descriptors enough for it. -/
structure Safe (s : State) : Prop where
  alive : s.stopped = false
  listens : ∀ e ∈ s.left, e.1 ∈ s.listening
  room : s.opened + needed s.left ≤ limit

theorem needed_cons_reorg {e : Int32 × Msg} (rest : List (Int32 × Msg)) (kind : e.2.type = .reorg) :
    needed (e :: rest) = needed rest + 1 := by
  simp only [needed, List.countP_cons, List.all_cons, kind, decide_true, Bool.true_and, ite_true]
  omega

theorem needed_of_ne_reorg {left : List (Int32 × Msg)} (kinds : ∀ e ∈ left, e.2.type ≠ .reorg) :
    needed left = if left = [] then 0 else 1 := by
  have none : left.countP (fun e => e.2.type = .reorg) = 0 := by
    rw [List.countP_eq_zero]
    intro e member
    simpa using kinds e member
  rcases left with _ | ⟨e, rest⟩
  · rfl
  · have first := kinds e (by simp)
    simp [needed, none, first]

/-- A REORG is sent in front of everything else in its round. -/
theorem needed_append_reorg {xs ys : List (Int32 × Msg)} (kinds : ∀ e ∈ xs, e.2.type = .reorg) :
    needed (xs ++ ys) = xs.length + needed ys := by
  induction xs with
  | nil => simp
  | cons e xs ih =>
    rw [List.cons_append, needed_cons_reorg _ (kinds e (by simp)),
      ih fun f member => kinds f (by simp [member]), List.length_cons]
    omega

theorem needed_cons_pos (e : Int32 × Msg) (rest : List (Int32 × Msg)) : 0 < needed (e :: rest) := by
  by_cases kind : e.2.type = .reorg
  · rw [needed_cons_reorg rest kind]
    omega
  · simp [needed, kind]

theorem needed_le_cons (e : Int32 × Msg) (rest : List (Int32 × Msg)) :
    needed rest ≤ needed (e :: rest) := by
  by_cases kind : e.2.type = .reorg
  · rw [needed_cons_reorg rest kind]
    omega
  · simp only [needed, List.countP_cons, List.all_cons, kind, decide_false, Bool.false_and,
      Bool.false_eq_true, ite_false]
    split <;> omega

/-! ## One step -/

theorem mem_ports {m : Master} {i : Int} {port : Int32}
    (registered : m.serverPortMap.find? i = some port) : port ∈ ports m :=
  List.mem_map.mpr ⟨(i, port), (m.serverPortMap.mem_entries_iff i port).mpr registered, rfl⟩

/-- What a redistribution has to reach and what it takes, by its messages. -/
theorem redistribution_messages {m : Master} {puts : List (Int32 × Msg)}
    (all : m.reorgPutMessages = some puts) :
    (∀ e ∈ m.reorgMessages ++ puts, e.1 ∈ ports m) ∧
      needed (m.reorgMessages ++ puts) ≤
        (ports m).length + if m.kvMap.entries = [] then 0 else 1 := by
  constructor
  · intro e member
    -- All of them go to registered ports.
    rcases List.mem_append.mp member with reorg | put
    · obtain ⟨entry, known, rfl⟩ := List.mem_map.mp reorg
      exact List.mem_map.mpr ⟨entry, known, rfl⟩
    · obtain ⟨k, v, _, routed, _⟩ := Master.mem_reorgPutMessages all put
      unfold Master.route at routed
      split at routed
      · cases routed
      · exact mem_ports routed
  -- One descriptor for each REORG, and one for the REORG_PUTs in turn.
  · have reorgs : ∀ e ∈ m.reorgMessages, e.2.type = .reorg := by
      intro e member
      obtain ⟨entry, _, rfl⟩ := List.mem_map.mp member
      rfl
    have others : ∀ e ∈ puts, e.2.type ≠ .reorg := by
      intro e member
      obtain ⟨k, v, _, _, same⟩ := Master.mem_reorgPutMessages all member
      rw [same]
      exact nofun
    have count : m.reorgMessages.length = (ports m).length := by
      simp [Master.reorgMessages, ports]
    rw [needed_append_reorg reorgs, needed_of_ne_reorg others, count]
    by_cases empty : m.kvMap.entries = []
    -- Without entries there is nothing to put.
    · have none : puts = [] := by
        rw [Master.reorgPutMessages, empty] at all
        simpa using all.symm
      simp [none]
    · rw [if_neg empty]
      split <;> omega

variable {limit}

theorem Safe.take {s : State} {m : Msg} {rest : List Msg} {r : Master × Sends} (safe : Safe limit s)
    (inbox : s.inbox = m :: rest) (ready : Ready limit s .take)
    (handled : s.master.handle m = some r) :
    Safe limit { s with master := r.1, opened := s.opened + 1, left := r.2.messages, inbox := rest } := by
  obtain ⟨free, joins⟩ := ready
  -- Most messages start no round.
  have quiet : r.2.messages = [] →
      Safe limit { s with
        master := r.1, opened := s.opened + 1, left := r.2.messages, inbox := rest } := by
    intro none
    refine ⟨safe.alive, ?_, ?_⟩
    · simp [none]
    · rw [none]
      exact free
  unfold Master.handle at handled
  split at handled
  · cases handled
    exact quiet rfl
  -- A SERVER message does, from the third server on.
  next kind =>
    split at handled
    next many =>
      obtain ⟨puts, all, rfl⟩ := Option.map_eq_some_iff.mp handled
      obtain ⟨listens, room⟩ := joins m (by simp [inbox]) kind many
      obtain ⟨reached, takes⟩ := redistribution_messages all
      refine ⟨safe.alive, fun e member => listens e.1 (reached e member), ?_⟩
      dsimp only
      omega
    next =>
      cases handled
      exact quiet rfl
  · obtain ⟨port, _, rfl⟩ := Option.map_eq_some_iff.mp handled
    exact quiet rfl
  · obtain ⟨port, _, rfl⟩ := Option.map_eq_some_iff.mp handled
    exact quiet rfl
  all_goals
    cases handled
    exact quiet rfl

/-- The next connection of the round succeeds. -/
theorem Safe.forward {s : State} {e : Int32 × Msg} {rest : List (Int32 × Msg)} (safe : Safe limit s)
    (left : s.left = e :: rest) : ∃ t, s.stepForward limit = some t ∧ t.left = rest ∧ Safe limit t := by
  obtain ⟨port, m⟩ := e
  have listens := safe.listens
  have room := safe.room
  rw [left] at listens room
  have positive := needed_cons_pos (port, m) rest
  -- The port listens and a descriptor is free, so the call succeeds.
  have up : s.opened < limit ∧ port ∈ s.listening := ⟨by omega, listens (port, m) (by simp)⟩
  have forwarded : s.stepForward limit = some { s with
      opened := if m.type = .reorg then s.opened + 1 else s.opened, left := rest } := by
    simp only [State.stepForward, left]
    exact if_pos up
  refine ⟨_, forwarded, rfl, safe.alive, ?_, ?_⟩
  · exact fun e member => listens e (by simp [member])
  · dsimp only
    split
    next kind =>
      rw [needed_cons_reorg rest kind] at room
      omega
    next =>
      have less := needed_le_cons (port, m) rest
      omega

theorem Safe.step {s t : State} {a : Action} (safe : Safe limit s) (ready : Ready limit s a)
    (taken : (system limit).next s a = some t) : Safe limit t := by
  simp only [system, safe.alive, Bool.false_eq_true, ite_false] at taken
  cases a with
  | announce port =>
    simp only [State.stepAnnounce] at taken
    split at taken
    · cases taken
    · cases taken
      exact ⟨safe.alive, safe.listens, safe.room⟩
  | listen port =>
    -- Whoever listened goes on listening.
    obtain ⟨_, same⟩ := Option.ite_none_right_eq_some.mp taken
    cases same
    exact ⟨safe.alive, fun e member => List.mem_cons_of_mem _ (safe.listens e member), safe.room⟩
  | message m =>
    simp only [State.stepMessage] at taken
    split at taken
    · cases taken
    · cases taken
      exact ⟨safe.alive, safe.listens, safe.room⟩
  | take =>
    simp only [State.stepTake] at taken
    split at taken
    next m rest idle inbox =>
      rw [if_pos ready.1] at taken
      obtain ⟨r, handled, rfl⟩ := Option.map_eq_some_iff.mp taken
      exact safe.take inbox ready handled
    · cases taken
  | forward =>
    rcases left : s.left with _ | ⟨e, rest⟩
    · simp [State.stepForward, left] at taken
    · obtain ⟨u, forwarded, _, safe'⟩ := safe.forward left
      rw [forwarded] at taken
      cases taken
      exact safe'

/-- From a safe state the master comes to the end of its round. -/
theorem Safe.serving {s : State} (safe : Safe limit s) : Serving limit s := by
  refine ⟨safe.alive, ?_⟩
  generalize rest : s.left = left
  -- On what is left of the round.
  induction left generalizing s with
  | nil => exact ⟨s, rfl, rest, safe.alive⟩
  | cons e left ih =>
    obtain ⟨u, forwarded, less, safe'⟩ := safe.forward rest
    obtain ⟨t, ran, done, alive⟩ := ih safe' less
    refine ⟨t, ?_, done, alive⟩
    have next : (system limit).next s .forward = some u := by
      simp [system, safe.alive, forwarded]
    simpa [System.run, List.replicate_succ, next] using ran

/-- In every run in which the master takes up a SERVER message only while all that it then
connects to listen, and never without the descriptors it needs, it goes on serving. -/
theorem serving_of_ready (room : 4 ≤ limit) {s : State}
    (reachable : (system limit).Reachable (Ready limit) s) : Serving limit s := by
  have safe : Safe limit s := by
    apply reachable.invariant
    · rintro _ rfl
      exact ⟨rfl, nofun, room⟩
    · intro s a t safe ready taken
      exact safe.step ready taken
  exact safe.serving

/-! ## Two runs -/

/-- Three servers join, each listening before the master takes up a message. -/
def orderly : List Action :=
  [.announce 25001, .listen 25001, .announce 25002, .listen 25002, .announce 25003, .listen 25003,
    .take, .take, .take]

/-- The third server has not come to `bind` when the master takes up its message. -/
def hasty : List Action :=
  [.announce 25001, .listen 25001, .announce 25002, .listen 25002, .announce 25003,
    .take, .take, .take, .forward, .forward]

theorem serving_of_ready_orderly :
    ∃ s, (system 1024).Reachable (Ready 1024) s ∧ s.master.numServers = 3 ∧ Serving 1024 s := by
  obtain ⟨s, ran⟩ : ∃ s, ((system 1024).guarded (Ready 1024)).run start orderly = some s :=
    Option.isSome_iff_exists.mp (by decide)
  have reachable := System.Reachable.guarded (.start rfl) ran
  have joined : (((system 1024).guarded (Ready 1024)).run start orderly).map
      (·.master.numServers) = some 3 := by decide
  rw [ran] at joined
  exact ⟨s, reachable, Option.some.inj joined, serving_of_ready (by decide) reachable⟩

/-- The master exits when it connects to a server that does not listen yet. -/
theorem not_serving_hasty :
    ∃ s, (system 1024).Reachable System.Always s ∧ ¬Serving 1024 s := by
  obtain ⟨s, ran⟩ : ∃ s, (system 1024).run start (hasty ++ [.forward]) = some s :=
    Option.isSome_iff_exists.mp (by decide)
  refine ⟨s, System.Reachable.run (.start rfl) ran, ?_⟩
  have exited : ((system 1024).run start (hasty ++ [.forward])).map (·.stopped) = some true := by
    decide
  rw [ran] at exited
  intro serving
  rw [Option.map_some, serving.1] at exited
  cases exited

end CloudLab.Sharding.Joining
