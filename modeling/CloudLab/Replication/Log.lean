import CloudLab.Replication.Message
import CloudLab.Library.Maps
import CloudLab.Library.Transition

/-!
# Replication behind the join phase (`task3/source/server.cpp`)

The leader takes one client message at a time. A PUT is sent to the followers one by
one, each in a connection of its own, then stored, then answered; a follower accepts
the connections to its port in order and applies what they carry. `begun` and `finished`
are the PUTs the leader has taken up and stored, kept for the statements only.
-/
namespace CloudLab.Replication

open Library Library.Wire

abbrev Database := Store Bytes WireString

/-- `db->Put(rocksdb::WriteOptions(), key().c_str(), value().c_str())` -/
def putOperation (db : Database) (m : Operation) : Database := db.put m.key.cStr.bytes m.value.cStr

def constructAppendEntryMessage (m : ClientMsg) : AppendEntriesRequest where
  term_ := some 1
  leaderID_ := some 1
  prevLogIndex_ := some 1
  prevLogTerm_ := some 1
  entries := [{ id_ := some m.id, type_ := some m.type, key_ := some m.key, value_ := some m.value }]
  leaderCommit_ := some 1

def handleGet (db : Database) (m : ClientMsg) : ServerResponse :=
  match db m.key.cStr.bytes with
  | some value => { id_ := some m.id, status_ := some .ok, value_ := some value }
  | none => { id_ := some m.id, status_ := some .noKey }

/-- The loop over `req.entries` of a follower. -/
def applyEntries (db : Database) (entries : List Entry) : Database :=
  entries.foldl (fun db entry => if entry.type = .put then putOperation db entry else db) db

/-- The ports of all servers and the leader's own. -/
structure Config where
  allPorts : List UInt16
  myPort : UInt16
  distinct : allPorts.Nodup

inductive LeaderPc where
  | accepting
  /-- The loop over `allPorts`, with the ports that are left. -/
  | sending (m : ClientMsg) (left : List UInt16)
  | storing (m : ClientMsg)
  | replying (m : ClientMsg)
  deriving DecidableEq

structure State where
  leader : LeaderPc
  leaderDb : Database
  /-- The connections to a follower that it has not accepted yet. -/
  queue : UInt16 → List Incoming
  db : UInt16 → Database
  replies : List ServerResponse
  begun : List ClientMsg
  finished : List ClientMsg

inductive Action where
  /-- A client's message reaches the leader. -/
  | request (m : ClientMsg)
  | leader
  /-- The follower accepts the next connection and applies it. -/
  | follower (port : UInt16)

variable (config : Config)

def stepRequest (s : State) (m : ClientMsg) : Option State :=
  match s.leader with
  | .accepting =>
    match m.type with
    | .put => some { s with leader := .sending m config.allPorts, begun := s.begun ++ [m] }
    | .get | .directGet => some { s with replies := s.replies ++ [handleGet s.leaderDb m] }
  | _ => none

def stepLeader (s : State) : Option State :=
  match s.leader with
  | .accepting => none
  | .sending m [] => some { s with leader := .storing m }
  | .sending m (port :: left) =>
    if port = config.myPort then some { s with leader := .sending m left }
    else some { s with
      leader := .sending m left
      queue := Function.update s.queue port
        (s.queue port ++ [.appendEntries (constructAppendEntryMessage m)]) }
  | .storing m =>
    some { s with leader := .replying m, leaderDb := putOperation s.leaderDb m
                  finished := s.finished ++ [m] }
  | .replying m =>
    some { s with leader := .accepting
                  replies := s.replies ++ [{ id_ := some m.id, status_ := some .ok }] }

def stepFollower (s : State) (port : UInt16) : Option State :=
  if port ∈ config.allPorts ∧ port ≠ config.myPort then
    match s.queue port with
    | [] => none
    | connection :: rest =>
      some { s with
        queue := Function.update s.queue port rest
        db := Function.update s.db port (applyEntries (s.db port) connection.asRequest.entries) }
  else none

/-- All past the join phase, with equal databases; joins that nobody accepted may be
left over. -/
def replication (initial : Database) : System State Action where
  init s := s.leader = .accepting ∧ s.leaderDb = initial ∧ (∀ p, s.db p = initial) ∧
    (∀ p, ∀ c ∈ s.queue p, ∃ m, c = .join m) ∧ s.begun = [] ∧ s.finished = []
  next s
    | .request m => stepRequest config s m
    | .leader => stepLeader config s
    | .follower port => stepFollower config s port

/-! ## The invariant -/

def applyAll (db : Database) (puts : List ClientMsg) : Database := puts.foldl putOperation db

/-- The entry of a PUT, as the followers get it. -/
def logEntry (m : ClientMsg) : Entry :=
  { id_ := some m.id, type_ := some m.type, key_ := some m.key, value_ := some m.value }

theorem putOperation_logEntry (db : Database) (m : ClientMsg) :
    putOperation db (logEntry m) = putOperation db m := rfl

theorem applyEntries_logEntries (db : Database) (puts : List ClientMsg)
    (kinds : ∀ m ∈ puts, m.type = .put) : applyEntries db (puts.map logEntry) = applyAll db puts := by
  induction puts generalizing db with
  | nil => rfl
  | cons m puts ih =>
    have kind : (logEntry m).type = .put := kinds m (by simp)
    have rest := ih (putOperation db m) fun n member => kinds n (by simp [member])
    rw [← putOperation_logEntry] at rest
    simpa [applyEntries, applyAll, kind, putOperation_logEntry] using rest

/-- The PUT in progress, for a follower it has not been sent to. -/
def unsent (s : State) (port : UInt16) : List ClientMsg :=
  match s.leader with
  | .sending m left => if port ∈ left then [m] else []
  | _ => []

/-- The PUT in progress, until the leader has stored it. -/
def unstored (s : State) : List ClientMsg :=
  match s.leader with
  | .sending m _ | .storing m => [m]
  | _ => []

/-- The PUTs a follower has applied, and those on their way to it. -/
structure FollowerTied (initial : Database) (s : State) (port : UInt16)
    (done waiting : List ClientMsg) : Prop where
  begun : s.begun = done ++ waiting ++ unsent s port
  applied : s.db port = applyAll initial done
  queued : (s.queue port).flatMap (fun c => c.asRequest.entries) = waiting.map logEntry

structure Tied (initial : Database) (s : State) : Prop where
  kinds : ∀ m ∈ s.begun, m.type = .put
  progress : s.begun = s.finished ++ unstored s
  stored : s.leaderDb = applyAll initial s.finished
  ports : ∀ m left, s.leader = .sending m left → left.Nodup
  followers : ∀ p ∈ config.allPorts, p ≠ config.myPort →
    ∃ done waiting, FollowerTied initial s p done waiting

variable {config} {initial : Database} {s t : State}

theorem tied_init (start : (replication config initial).init s) : Tied config initial s := by
  obtain ⟨accepting, leaderDb, dbs, joins, begun, finished⟩ := start
  refine ⟨by simp [begun], by simp [begun, finished, unstored, accepting],
    by simp [leaderDb, finished, applyAll], by simp [accepting], fun p _ _ => ⟨[], [], ?_, ?_, ?_⟩⟩
  · simp [begun, unsent, accepting]
  · simp [dbs, applyAll]
  · rw [List.map_nil, List.flatMap_eq_nil_iff]
    intro c member
    obtain ⟨m, rfl⟩ := joins p c member
    exact Incoming.entries_join m

/-- A step that brings no connection and tells nobody of a PUT leaves the followers as they
are. -/
theorem Tied.followers_of_same (tied : Tied config initial s) (begun : t.begun = s.begun)
    (db : t.db = s.db) (queue : t.queue = s.queue)
    (same : ∀ p, p ≠ config.myPort → unsent t p = unsent s p) :
    ∀ p ∈ config.allPorts, p ≠ config.myPort →
      ∃ done waiting, FollowerTied initial t p done waiting := by
  intro p member other
  obtain ⟨done, waiting, begun', applied, queued⟩ := tied.followers p member other
  refine ⟨done, waiting, ?_, ?_, ?_⟩
  · rw [begun, same p other, begun']
  · rw [db, applied]
  · rw [queue, queued]

theorem tied_request (tied : Tied config initial s) {m : ClientMsg}
    (taken : stepRequest config s m = some t) : Tied config initial t := by
  unfold stepRequest at taken
  split at taken
  next accepting =>
    have idle : ∀ p, unsent s p = [] := by simp [unsent, accepting]
    have settled : s.begun = s.finished := by simpa [unstored, accepting] using tied.progress
    split at taken
    -- A PUT is begun: nobody has been sent it yet.
    next kind =>
      obtain rfl := Option.some.inj taken
      refine ⟨?_, by simp [settled, unstored], tied.stored, ?_, fun p member other => ?_⟩
      · intro n member
        rcases List.mem_append.mp member with old | new
        · exact tied.kinds n old
        · rwa [List.mem_singleton.mp new]
      · intro n left sending
        cases sending
        exact config.distinct
      · obtain ⟨done, waiting, begun, applied, queued⟩ := tied.followers p member other
        have sent : s.begun = done ++ waiting := by simpa [idle] using begun
        exact ⟨done, waiting, by simp [sent, unsent, member], applied, queued⟩
    -- Any other request leaves followers and log alone.
    all_goals
      obtain rfl := Option.some.inj taken
      exact ⟨tied.kinds, tied.progress, tied.stored, tied.ports,
        tied.followers_of_same rfl rfl rfl fun p other => rfl⟩
  · cases taken

theorem tied_leader (tied : Tied config initial s) (taken : stepLeader config s = some t) :
    Tied config initial t := by
  unfold stepLeader at taken
  split at taken
  · cases taken
  -- The loop over the ports is done, and the PUT is to be stored.
  next m sending =>
    obtain rfl := Option.some.inj taken
    refine ⟨tied.kinds, by simpa [unstored, sending] using tied.progress, tied.stored, by simp,
      tied.followers_of_same rfl rfl rfl fun p other => ?_⟩
    simp [unsent, sending]
  next m port left sending =>
    have distinct := List.nodup_cons.mp (tied.ports m _ sending)
    split at taken
    -- The leader's own port is passed over.
    next own =>
      obtain rfl := Option.some.inj taken
      refine ⟨tied.kinds, by simpa [unstored, sending] using tied.progress, tied.stored, ?_,
        tied.followers_of_same rfl rfl rfl fun p other => ?_⟩
      · rintro n rest same
        cases same
        exact distinct.2
      · have elsewhere : p ≠ port := own ▸ other
        simp [unsent, sending, elsewhere]
    -- The entry goes into the queue of one follower.
    next =>
      obtain rfl := Option.some.inj taken
      refine ⟨tied.kinds, by simpa [unstored, sending] using tied.progress, tied.stored, ?_,
        fun p member other => ?_⟩
      · rintro n rest same
        cases same
        exact distinct.2
      · obtain ⟨done, waiting, begun, applied, queued⟩ := tied.followers p member other
        by_cases here : p = port
        · subst here
          refine ⟨done, waiting ++ [m], ?_, applied, ?_⟩
          · simpa [unsent, sending, distinct.1] using begun
          · simp only [Function.update_self]
            rw [List.flatMap_append, queued, List.map_append]
            rfl
        · exact ⟨done, waiting, by simpa [unsent, sending, here] using begun, applied,
            by simpa [Function.update_of_ne here] using queued⟩
  -- The leader stores the PUT itself.
  next m storing =>
    obtain rfl := Option.some.inj taken
    have progress : s.begun = s.finished ++ [m] := by
      simpa [unstored, storing] using tied.progress
    refine ⟨tied.kinds, by simp [unstored, progress], by simp [tied.stored, applyAll], by simp,
      tied.followers_of_same rfl rfl rfl fun p other => ?_⟩
    simp [unsent, storing]
  next m replying =>
    obtain rfl := Option.some.inj taken
    refine ⟨tied.kinds, by simpa [unstored, replying] using tied.progress, tied.stored, by simp,
      tied.followers_of_same rfl rfl rfl fun p other => ?_⟩
    simp [unsent, replying]

/-- A follower moves the entries of the first connection from what waits to what is
done; a join moves nothing. -/
theorem tied_follower (tied : Tied config initial s) {port : UInt16}
    (taken : stepFollower config s port = some t) : Tied config initial t := by
  unfold stepFollower at taken
  split at taken
  next =>
    split at taken
    · cases taken
    next connection rest queue =>
      obtain rfl := Option.some.inj taken
      refine ⟨tied.kinds, tied.progress, tied.stored, tied.ports, fun p member other => ?_⟩
      obtain ⟨done, waiting, begun, applied, queued⟩ := tied.followers p member other
      by_cases here : p = port
      · subst here
        rw [queue, List.flatMap_cons, eq_comm, List.map_eq_append_iff] at queued
        -- The entries of the first connection are the first of those that wait.
        obtain ⟨now, later, rfl, first, others⟩ := queued
        have kinds : ∀ m ∈ now, m.type = .put := fun m inside =>
          tied.kinds m (by simp [begun, inside])
        refine ⟨done ++ now, later, ?_, ?_, ?_⟩
        · have same : s.begun = done ++ now ++ later ++ unsent s p := by simpa using begun
          exact same
        · simp only [Function.update_self]
          rw [← first, applyEntries_logEntries _ _ kinds, applied, applyAll, applyAll, applyAll,
            List.foldl_append]
        · simpa using others.symm
      · exact ⟨done, waiting, begun, by simpa [Function.update_of_ne here] using applied,
          by simpa [Function.update_of_ne here] using queued⟩
  · cases taken

theorem tied_of_reachable (reachable : (replication config initial).Reachable System.Always s) :
    Tied config initial s := by
  refine reachable.invariant (fun _ => tied_init) ?_
  intro s action t tied _ taken
  cases action with
  | request m => exact tied_request tied taken
  | leader => exact tied_leader tied taken
  | follower port => exact tied_follower tied taken

/-- In every state a follower has applied a prefix of the PUTs the leader has begun, the
leader exactly those it has stored; between two requests a follower whose queue is empty
agrees with the leader. -/
theorem replication_correct (config : Config) (initial : Database) (s : State)
    (reachable : (replication config initial).Reachable System.Always s) :
    (∀ p ∈ config.allPorts, p ≠ config.myPort →
      ∃ done, done <+: s.begun ∧ s.db p = applyAll initial done) ∧
    s.leaderDb = applyAll initial s.finished ∧
    (s.leader = .accepting → ∀ p ∈ config.allPorts, p ≠ config.myPort → s.queue p = [] →
      s.db p = s.leaderDb) := by
  have tied := tied_of_reachable reachable
  refine ⟨fun p member other => ?_, tied.stored, fun accepting p member other empty => ?_⟩
  · obtain ⟨done, waiting, begun, applied, _⟩ := tied.followers p member other
    exact ⟨done, ⟨waiting ++ unsent s p, by simp [begun]⟩, applied⟩
  · obtain ⟨done, waiting, begun, applied, queued⟩ := tied.followers p member other
    -- Between two requests nothing is unsent, and with an empty queue nothing waits.
    have progress := tied.progress
    simp only [unstored, accepting, List.append_nil] at progress
    rw [empty, List.flatMap_nil, eq_comm, List.map_eq_nil_iff] at queued
    simp only [queued, unsent, accepting, List.append_nil] at begun
    rw [applied, tied.stored, ← progress, begun]

/-- Three servers; one follower still has a join in its queue. -/
def threeServers : Config := ⟨[1025, 1026, 1027], 1025, by decide⟩

def threeStart : State where
  leader := .accepting
  leaderDb := Store.empty
  queue p := if p = 1026 then [.join { id_ := some 2, status_ := some .ok }] else []
  db _ := Store.empty
  replies := []
  begun := []
  finished := []

def onePut : ClientMsg :=
  { id_ := some 7, type_ := some .put, key_ := some ⟨[49], by decide⟩, value_ := some ⟨[97], by decide⟩ }

/-- The first follower has applied the PUT, the second has not been sent it. -/
def threeMiddle : State :=
  ((replication threeServers Store.empty).run threeStart
    [.request onePut, .leader, .leader, .follower 1026, .follower 1026]).get (by decide)

theorem replication_correct_three :
    (∀ p ∈ threeServers.allPorts, p ≠ threeServers.myPort →
      ∃ done, done <+: threeMiddle.begun ∧ threeMiddle.db p = applyAll Store.empty done) ∧
    threeMiddle.leaderDb = applyAll Store.empty threeMiddle.finished ∧
    (threeMiddle.leader = .accepting → ∀ p ∈ threeServers.allPorts, p ≠ threeServers.myPort →
      threeMiddle.queue p = [] → threeMiddle.db p = threeMiddle.leaderDb) := by
  refine replication_correct threeServers Store.empty threeMiddle (.run (.start (s := threeStart) ?_)
    (Option.some_get _).symm)
  refine ⟨rfl, rfl, fun _ => rfl, fun p c member => ?_, rfl, rfl⟩
  simp only [threeStart] at member
  split at member
  · exact ⟨_, List.mem_singleton.mp member⟩
  · cases member

end CloudLab.Replication
