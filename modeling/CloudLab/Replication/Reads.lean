import CloudLab.Replication.ClientPort

/-!
# Reads and failures behind the join phase (`task3/source/server.cpp`)

The servers of `Log` once more, with what they answer: the leader to any request, a follower to a
DIRECT_GET on its client port, at any time. A `connect` of the leader may fail, and so may each
`db->Put`; only that of the leader is looked at. So a server may miss a PUT. A follower decodes the
entry that was encoded; `samePair_iff` says of which requests that is so.

`answers_consistent`: every answer is that of the PUTs that the leader had begun at some time but
for those that the server missed, and the answers of one server never go back. `db_settled`: a
server to which nothing is on its way has all PUTs but those that it missed.
-/
namespace CloudLab.Replication.Reads

open Library Library.Wire

/-- A PUT, and how many the leader had begun before it. The source does not count them. -/
abbrev Numbered := ClientMsg × Nat

/-- A connection to the port of a server. -/
inductive Connection where
  | join (m : ServerResponse)
  | entry (put : Numbered)

def Connection.incoming : Connection → Incoming
  | .join m => .join m
  | .entry put => .appendEntries (constructAppendEntryMessage put.1)

def Connection.puts : Connection → List Numbered
  | .join _ => []
  | .entry put => [put]

inductive LeaderPc where
  | accepting
  /-- The loop over `allPorts`, with the ports that are left. -/
  | sending (put : Numbered) (left : List UInt16)
  | storing (put : Numbered)
  | replying (put : Numbered) (status : Status)

inductive Event where
  /-- The answer to a PUT. -/
  | replied (put : Numbered) (response : ServerResponse)
  /-- The answer of a server to a GET, and the PUTs that its database had taken. -/
  | answered (server : UInt16) (m : ClientMsg) (response : ServerResponse) (seen : List Numbered)

/-- The database of each server, the leader's at its own port. What has been begun, taken and missed
is kept for the statements only, as are the events. -/
structure State where
  leader : LeaderPc
  db : UInt16 → Database
  queue : UInt16 → List Connection
  begun : List ClientMsg
  taken : UInt16 → List Numbered
  missed : UInt16 → List Numbered
  events : List Event

inductive Action where
  /-- A client's message reaches the leader. -/
  | request (m : ClientMsg)
  /-- The leader goes on, and its `connect` or `db->Put` succeeds or not. -/
  | leader (ok : Bool)
  /-- The follower accepts the next connection, which carries one entry at most, and applies it
  as it was encoded. -/
  | follower (port : UInt16) (ok : Bool)
  /-- A client's message reaches a follower. -/
  | ask (port : UInt16) (m : ClientMsg)

variable (c : Cluster)

/-- `handle_get` -/
def State.answer (s : State) (port : UInt16) (m : ClientMsg) : State :=
  { s with events := s.events ++ [.answered port m (handleGet (s.db port) m) (s.taken port)] }

/-- A server misses a PUT. -/
def State.miss (s : State) (port : UInt16) (puts : List Numbered) : State :=
  { s with missed := Function.update s.missed port (s.missed port ++ puts) }

def stepRequest (s : State) (m : ClientMsg) : Option State :=
  match s.leader with
  | .accepting =>
    match m.type with
    | .put => some { s with
        leader := .sending (m, s.begun.length) c.allPorts
        begun := s.begun ++ [m] }
    | .get | .directGet => some (s.answer c.myPort m)
  | _ => none

def stepLeader (s : State) (ok : Bool) : Option State :=
  match s.leader with
  | .accepting => none
  | .sending put [] => some { s with leader := .storing put }
  | .sending put (port :: left) =>
    let next := { s with leader := .sending put left }
    if port = c.myPort then some next
    else if ok then
      some { next with queue := Function.update s.queue port (s.queue port ++ [.entry put]) }
    else some (next.miss port [put])
  | .storing put =>
    if ok then
      some { s with
        leader := .replying put .ok
        db := Function.update s.db c.myPort (putOperation (s.db c.myPort) put.1)
        taken := Function.update s.taken c.myPort (s.taken c.myPort ++ [put]) }
    else some (State.miss { s with leader := .replying put .error } c.myPort [put])
  | .replying put status =>
    some { s with
      leader := .accepting
      events := s.events ++ [.replied put { id_ := some put.1.id, status_ := some status }] }

def stepFollower (s : State) (port : UInt16) (ok : Bool) : Option State :=
  if port ∈ c.allPorts ∧ port ≠ c.myPort then
    match s.queue port with
    | [] => none
    | connection :: rest =>
      let next := { s with queue := Function.update s.queue port rest }
      if ok then
        some { next with
          db := Function.update s.db port (applyEntries (s.db port) connection.incoming.asRequest.entries)
          taken := Function.update s.taken port (s.taken port ++ connection.puts) }
      else some (next.miss port connection.puts)
  else none

/-- One round of `follower_thread_func`. -/
def stepAsk (s : State) (port : UInt16) (m : ClientMsg) : Option State :=
  if port ∈ c.allPorts ∧ port ≠ c.myPort then
    some (if m.type = .directGet then s.answer port m else s)
  else none

/-- All past the join phase, with equal databases; joins that nobody accepted may be left over. -/
def servers (initial : Database) : System State Action where
  init s := s.leader = .accepting ∧ (∀ p, s.db p = initial) ∧
    (∀ p, ∀ connection ∈ s.queue p, ∃ m, connection = .join m) ∧ s.begun = [] ∧ (∀ p, s.taken p = []) ∧
      (∀ p, s.missed p = []) ∧ s.events = []
  next s
    | .request m => stepRequest c s m
    | .leader ok => stepLeader c s ok
    | .follower port ok => stepFollower c s port ok
    | .ask port m => stepAsk c s port m

/-! ## What every server has -/

def applyPuts (initial : Database) (puts : List Numbered) : Database :=
  applyAll initial (puts.map Prod.fst)

/-- The PUTs on their way to a server. -/
def State.waiting (s : State) (port : UInt16) : List Numbered := (s.queue port).flatMap Connection.puts

/-- The PUT in progress, for a server that it has not come to. -/
def due (s : State) (port : UInt16) : List Numbered :=
  match s.leader with
  | .sending put left => if port ∈ left ∨ port = c.myPort then [put] else []
  | .storing put => if port = c.myPort then [put] else []
  | _ => []

/-- What has come to a server is what it has taken and what is on its way, but for what it missed. -/
structure Come (begun : List Numbered) (due got missed : List Numbered) : Prop where
  front : ∃ front, begun = front ++ due ∧ (∀ put ∈ missed, put ∈ front) ∧
    got = front.filter fun put => put ∉ missed

structure Tied (initial : Database) (s : State) : Prop where
  kinds : ∀ m ∈ s.begun, m.type = .put
  ports : ∀ put left, s.leader = .sending put left → left.Nodup
  own : s.waiting c.myPort = []
  db : ∀ p ∈ c.allPorts, s.db p = applyPuts initial (s.taken p)
  come : ∀ p ∈ c.allPorts, Come s.begun.zipIdx (due c s p) (s.taken p ++ s.waiting p) (s.missed p)

section Come

variable {begun late got front back missed : List Numbered} {put : Numbered}

theorem nodup_zipIdx (puts : List ClientMsg) : puts.zipIdx.Nodup := by
  refine List.Nodup.of_map Prod.snd ?_
  rw [List.zipIdx_map_snd]
  exact List.nodup_range'

/-- Once it is begun, a PUT is due. -/
theorem Come.begin (come : Come begun [] got missed) : Come (begun ++ [put]) [put] got missed := by
  obtain ⟨front, split, early, got⟩ := come.front
  exact ⟨front, by rw [split, List.append_nil], early, got⟩

/-- The PUT in progress comes. -/
theorem Come.arrive (come : Come begun [put] got missed) (nodup : begun.Nodup) :
    Come begun [] (got ++ [put]) missed := by
  obtain ⟨front, split, early, rfl⟩ := come.front
  have fresh : put ∉ missed := fun member => by
    rw [split, List.nodup_append] at nodup
    exact nodup.2.2 put (early put member) put (List.mem_singleton_self put) rfl
  refine ⟨front ++ [put], by rw [split, List.append_nil], fun other member => ?_, ?_⟩
  · exact List.mem_append_left _ (early other member)
  · rw [List.filter_append, List.filter_singleton, decide_eq_true fresh]
    rfl

/-- PUTs that would have come are missed. -/
theorem Come.miss {now : List Numbered} (come : Come begun late (front ++ now ++ back) missed)
    (nodup : begun.Nodup) : Come begun late (front ++ back) (missed ++ now) := by
  obtain ⟨all, split, early, same⟩ := come.front
  refine ⟨all, split, fun put member => ?_, ?_⟩
  · rcases List.mem_append.mp member with member | member
    · exact early put member
    · have inside : put ∈ front ++ now ++ back := by simp [member]
      exact List.mem_of_mem_filter (same ▸ inside)
  · have once : (front ++ now ++ back).Nodup := by
      rw [split] at nodup
      exact same ▸ nodup.of_append_left.filter _
    have apart : ∀ put ∈ front ++ back, put ∉ now := by
      intro put member again
      rw [List.append_assoc, List.nodup_append, List.nodup_append] at once
      rcases List.mem_append.mp member with member | member
      · exact once.2.2 put member put (List.mem_append_left _ again) rfl
      · exact once.2.1.2.2 put again put member rfl
    calc front ++ back = (front ++ now ++ back).filter fun put => put ∉ now := by
          rw [List.filter_append, List.filter_append, List.filter_eq_self.mpr, List.filter_eq_nil_iff.mpr,
            List.append_nil, List.filter_eq_self.mpr]
          · exact fun put member => decide_eq_true (apart put (List.mem_append_right _ member))
          · exact fun put member => by simp [member]
          · exact fun put member => decide_eq_true (apart put (List.mem_append_left _ member))
      _ = all.filter fun put => put ∉ missed ++ now := by
          rw [same, List.filter_filter]
          refine List.filter_congr fun put _ => ?_
          simp only [List.mem_append, not_or, Bool.decide_and]
          exact Bool.and_comm _ _

end Come

/-! ## The steps -/

section Tied

variable {c} {initial : Database} {s t : State} {p port : UInt16}

theorem applyPuts_append (initial : Database) (puts more : List Numbered) :
    applyPuts initial (puts ++ more) = applyAll (applyPuts initial puts) (more.map Prod.fst) := by
  rw [applyPuts, List.map_append, applyAll, List.foldl_append]
  rfl

theorem tied_init (start : (servers c initial).init s) : Tied c initial s := by
  obtain ⟨accepting, dbs, joins, begun, taken, missed, _⟩ := start
  have none : ∀ p, s.waiting p = [] := by
    intro p
    refine List.flatMap_eq_nil_iff.mpr fun connection member => ?_
    obtain ⟨m, rfl⟩ := joins p connection member
    rfl
  refine ⟨by simp [begun], by simp [accepting], none _, fun p _ => ?_, fun p _ => ?_⟩
  · rw [dbs, taken]
    rfl
  · refine ⟨[], ?_, ?_, ?_⟩ <;> simp [begun, due, accepting, missed, taken, none]

/-- What says nothing of a server leaves it as it is. -/
theorem Tied.come_of_same (tied : Tied c initial s) (member : p ∈ c.allPorts) (begun : t.begun = s.begun)
    (taken : t.taken p = s.taken p) (waiting : t.waiting p = s.waiting p)
    (missed : t.missed p = s.missed p) (same : due c t p = due c s p) :
    Come t.begun.zipIdx (due c t p) (t.taken p ++ t.waiting p) (t.missed p) := by
  rw [begun, same, taken, waiting, missed]
  exact tied.come p member

theorem tied_answer (tied : Tied c initial s) (m : ClientMsg) : Tied c initial (s.answer p m) :=
  ⟨tied.kinds, tied.ports, tied.own, tied.db, tied.come⟩

theorem tied_request (tied : Tied c initial s) {m : ClientMsg} (taken : stepRequest c s m = some t) :
    Tied c initial t := by
  unfold stepRequest at taken
  split at taken
  next accepting =>
    split at taken
    -- A PUT is begun: it has come to nobody yet.
    next kind =>
      obtain rfl := Option.some.inj taken
      refine ⟨fun n member => ?_, ?_, tied.own, tied.db, fun p member => ?_⟩
      · rcases List.mem_append.mp member with old | new
        · exact tied.kinds n old
        · rwa [List.mem_singleton.mp new]
      · intro put left sending
        cases sending
        exact c.distinct
      · have come := tied.come p member
        rw [due, accepting] at come
        have begun : Come _ [(m, s.begun.length)] _ _ := come.begin
        simpa [due, member, List.zipIdx_append, State.waiting] using begun
    all_goals
      obtain rfl := Option.some.inj taken
      exact tied_answer tied m
  · cases taken

theorem tied_leader (tied : Tied c initial s) {ok : Bool} (taken : stepLeader c s ok = some t) :
    Tied c initial t := by
  unfold stepLeader at taken
  split at taken
  · cases taken
  -- The loop over the ports is done, and the PUT is to be stored.
  next put sending =>
    obtain rfl := Option.some.inj taken
    refine ⟨tied.kinds, by simp, tied.own, tied.db, fun p member => ?_⟩
    exact tied.come_of_same member rfl rfl rfl rfl (by simp [due, sending])
  next put port left sending =>
    have distinct := List.nodup_cons.mp (tied.ports put _ sending)
    have ports : ∀ other rest, LeaderPc.sending put left = .sending other rest → rest.Nodup := by
      rintro other rest same
      cases same
      exact distinct.2
    -- Nothing changes for a server other than the one whose turn it is.
    have others : ∀ p, p ≠ port → ∀ t : State, t.leader = .sending put left → due c t p = due c s p := by
      intro p other t next
      simp [due, sending, next, other]
    dsimp only at taken
    split at taken
    -- The leader's own port is passed over.
    next own =>
      obtain rfl := Option.some.inj taken
      refine ⟨tied.kinds, ports, tied.own, tied.db, fun p member => ?_⟩
      exact tied.come_of_same member rfl rfl rfl rfl (by simp [due, sending, own, or_comm])
    next other =>
      have arrives : port ∈ c.allPorts →
          Come s.begun.zipIdx [] (s.taken port ++ s.waiting port ++ [put]) (s.missed port) := by
        intro member
        have come := tied.come port member
        simp only [due, sending, List.mem_cons_self, true_or, if_true] at come
        exact come.arrive (nodup_zipIdx _)
      have passed : ∀ t : State, t.leader = .sending put left → due c t port = [] := by
        intro t next
        simp [due, next, distinct.1, other]
      split at taken
      -- The entry is on its way.
      next =>
        obtain rfl := Option.some.inj taken
        have waiting : ∀ p, p ≠ port → State.waiting { s with
            leader := .sending put left
            queue := Function.update s.queue port (s.queue port ++ [.entry put]) } p = s.waiting p := by
          intro p away
          simp [State.waiting, Function.update_of_ne away]
        refine ⟨tied.kinds, ports, ?_, tied.db, fun p member => ?_⟩
        · rw [waiting _ (Ne.symm other)]
          exact tied.own
        · by_cases here : p = port
          · subst here
            rw [passed _ rfl]
            simpa [State.waiting, Connection.puts] using arrives member
          · exact tied.come_of_same member rfl rfl (waiting p here) rfl (others p here _ rfl)
      -- The connection fails.
      next =>
        obtain rfl := Option.some.inj taken
        refine ⟨tied.kinds, ports, tied.own, tied.db, fun p member => ?_⟩
        by_cases here : p = port
        · subst here
          rw [passed _ rfl]
          have come := arrives member
          rw [← List.append_nil (_ ++ [put])] at come
          simpa [State.miss, State.waiting] using come.miss (nodup_zipIdx _)
        · exact tied.come_of_same member rfl rfl rfl (Function.update_of_ne here ..) (others p here _ rfl)
  -- The leader stores the PUT itself, or fails to.
  next put storing =>
    have come := tied.come c.myPort c.member
    simp only [due, storing, if_true, tied.own] at come
    have arrives := come.arrive (nodup_zipIdx _)
    rw [List.append_nil] at arrives
    split at taken
    next =>
      obtain rfl := Option.some.inj taken
      refine ⟨tied.kinds, by simp, tied.own, fun p member => ?_, fun p member => ?_⟩
      · by_cases here : p = c.myPort
        · subst here
          simp [tied.db _ member, applyPuts_append, applyAll]
        · simp only [Function.update_of_ne here]
          exact tied.db p member
      · by_cases here : p = c.myPort
        · subst here
          have own : State.waiting { s with
              leader := .replying put .ok
              db := Function.update s.db c.myPort (putOperation (s.db c.myPort) put.1)
              taken := Function.update s.taken c.myPort (s.taken c.myPort ++ [put]) } c.myPort = [] := tied.own
          rw [own]
          simpa [due] using arrives
        · exact tied.come_of_same member rfl (Function.update_of_ne here ..) rfl rfl
            (by simp [due, storing, here])
    next =>
      obtain rfl := Option.some.inj taken
      refine ⟨tied.kinds, by simp [State.miss], tied.own, tied.db, fun p member => ?_⟩
      by_cases here : p = c.myPort
      · subst here
        have own : State.waiting (State.miss { s with leader := .replying put .error } c.myPort [put])
            c.myPort = [] := tied.own
        rw [← List.append_nil (_ ++ [put])] at arrives
        have missed := arrives.miss (nodup_zipIdx _)
        rw [own]
        simpa [due, State.miss] using missed
      · exact tied.come_of_same member rfl rfl rfl (Function.update_of_ne here ..)
          (by simp [due, storing, here, State.miss])
  next put status replying =>
    obtain rfl := Option.some.inj taken
    refine ⟨tied.kinds, by simp, tied.own, tied.db, fun p member => ?_⟩
    exact tied.come_of_same member rfl rfl rfl rfl (by simp [due, replying])

/-- What a connection does to the database of a follower. -/
theorem Tied.applyEntries (tied : Tied c initial s) (member : p ∈ c.allPorts) {connection : Connection}
    {rest : List Connection} (queue : s.queue p = connection :: rest) :
    applyEntries (s.db p) connection.incoming.asRequest.entries =
      applyPuts initial (s.taken p ++ connection.puts) := by
  rw [applyPuts_append, ← tied.db p member]
  cases connection with
  | join m =>
    rw [Connection.incoming, Incoming.entries_join]
    rfl
  | entry put =>
    obtain ⟨front, split, _, same⟩ := (tied.come p member).front
    have inside : put ∈ s.taken p ++ s.waiting p := by simp [State.waiting, queue, Connection.puts]
    rw [same] at inside
    have begun : put ∈ s.begun.zipIdx := split ▸ List.mem_append_left _ (List.mem_of_mem_filter inside)
    refine applyEntries_logEntries (s.db p) [put.1] fun m member => ?_
    rw [List.mem_singleton.mp member]
    exact tied.kinds put.1 (List.fst_mem_of_mem_zipIdx begun)

theorem tied_follower (tied : Tied c initial s) {ok : Bool} (taken : stepFollower c s port ok = some t) :
    Tied c initial t := by
  unfold stepFollower at taken
  split at taken
  next follower =>
    split at taken
    · cases taken
    next connection rest queue =>
      have waiting : s.waiting port = connection.puts ++ rest.flatMap Connection.puts := by
        rw [State.waiting, queue, List.flatMap_cons]
      dsimp only at taken
      split at taken
      -- The entries of the connection are taken.
      next =>
        obtain rfl := Option.some.inj taken
        refine ⟨tied.kinds, tied.ports, ?_, fun p member => ?_, fun p member => ?_⟩
        · simpa [State.waiting, Function.update_of_ne (Ne.symm follower.2)] using tied.own
        · by_cases here : p = port
          · subst here
            simpa using tied.applyEntries member queue
          · simpa [Function.update_of_ne here] using tied.db p member
        · by_cases here : p = port
          · subst here
            have come := tied.come p member
            rw [waiting, ← List.append_assoc] at come
            simpa [State.waiting, due] using come
          · refine tied.come_of_same member rfl (Function.update_of_ne here ..) ?_ rfl rfl
            simp [State.waiting, Function.update_of_ne here]
      -- They are missed.
      next =>
        obtain rfl := Option.some.inj taken
        refine ⟨tied.kinds, tied.ports, ?_, tied.db, fun p member => ?_⟩
        · simpa [State.waiting, State.miss, Function.update_of_ne (Ne.symm follower.2)] using tied.own
        · by_cases here : p = port
          · subst here
            have come := tied.come p member
            rw [waiting, ← List.append_assoc] at come
            simpa [State.waiting, State.miss, due] using come.miss (nodup_zipIdx _)
          · refine tied.come_of_same member rfl rfl ?_ (Function.update_of_ne here ..) rfl
            simp [State.waiting, State.miss, Function.update_of_ne here]
  · cases taken

theorem tied_ask (tied : Tied c initial s) {m : ClientMsg} (taken : stepAsk c s port m = some t) :
    Tied c initial t := by
  obtain ⟨_, taken⟩ := Option.ite_none_right_eq_some.mp taken
  obtain rfl := Option.some.inj taken
  split
  · exact tied_answer tied m
  · exact tied

theorem tied_step (tied : Tied c initial s) {action : Action}
    (taken : (servers c initial).next s action = some t) : Tied c initial t := by
  cases action with
  | request m => exact tied_request tied taken
  | leader ok => exact tied_leader tied taken
  | follower port ok => exact tied_follower tied taken
  | ask port m => exact tied_ask tied taken

theorem Tied.taken_sublist (tied : Tied c initial s) (member : p ∈ c.allPorts) :
    (s.taken p).Sublist s.begun.zipIdx := by
  obtain ⟨front, split, _, same⟩ := (tied.come p member).front
  rw [split]
  refine .trans (List.sublist_append_left _ (s.waiting p)) (.trans ?_ (List.sublist_append_left front _))
  exact same ▸ List.filter_sublist

/-- Between two requests a server to which nothing is on its way has what it did not miss. -/
theorem Tied.taken_eq (tied : Tied c initial s) (accepting : s.leader = .accepting) (member : p ∈ c.allPorts)
    (nothing : s.waiting p = []) : s.taken p = s.begun.zipIdx.filter fun put => put ∉ s.missed p := by
  obtain ⟨front, split, _, same⟩ := (tied.come p member).front
  rw [due, accepting, List.append_nil] at split
  rwa [nothing, List.append_nil, ← split] at same

end Tied

/-! ## The answers -/

/-- The answer to a PUT says whether the leader has it or missed it; the answer to a GET is that of
the PUTs begun up to some point, but for those that the server missed. -/
def Explained (initial : Database) (s : State) : Event → Prop
  | .replied put response =>
    put ∈ s.begun.zipIdx ∧ ∃ status, response = { id_ := some put.1.id, status_ := some status } ∧
      (status = .ok ∧ put ∉ s.missed c.myPort ∨ status = .error ∧ put ∈ s.missed c.myPort)
  | .answered p m response seen =>
    (∃ front, front <+: s.begun.zipIdx ∧ seen = front.filter fun put => put ∉ s.missed p) ∧
      response = handleGet (applyPuts initial seen) m

/-- What an answer says of the PUTs begun when it was given. -/
def Grounded (initial : Database) (begun : List ClientMsg) : Event → Prop
  | .replied put response =>
    put ∈ begun.zipIdx ∧ ∃ status, (status = .ok ∨ status = .error) ∧
      response = { id_ := some put.1.id, status_ := some status }
  | .answered p m response seen =>
    p ∈ c.allPorts ∧ seen.Sublist begun.zipIdx ∧ response = handleGet (applyPuts initial seen) m

/-- The leader has answered ERROR. -/
def Refused (events : List Event) (put : Numbered) : Prop :=
  ∃ response, Event.replied put response ∈ events ∧ response.status_ = some .error

/-- What an answer to a GET has to do with an earlier answer. Those of one server only go on, and the
leader has seen whatever it acknowledged, and whatever any server has seen, unless it refused it. -/
def Later (events : List Event) : Event → Event → Prop
  | .answered p _ _ seen, .answered q _ _ seen' =>
    (p = q → seen <+: seen') ∧ (q = c.myPort → ∀ put ∈ seen, put ∈ seen' ∨ Refused events put)
  | .replied put response, .answered q _ _ seen =>
    q = c.myPort → response.status_ = some .ok → put ∈ seen
  | _, .replied _ _ => True

structure Told (initial : Database) (s : State) : Prop where
  grounded : ∀ e ∈ s.events, Grounded c initial s.begun e
  ordered : s.events.Pairwise (Later c s.events)
  kept : ∀ p m response seen, Event.answered p m response seen ∈ s.events → seen <+: s.taken p
  stored : ∀ put response, Event.replied put response ∈ s.events →
    (response.status_ = some .ok → put ∈ s.taken c.myPort) ∧
      (response.status_ = some .error → put ∈ s.missed c.myPort)
  refused : ∀ put ∈ s.missed c.myPort, Refused s.events put ∨ s.leader = .replying put .error
  replying : ∀ put status, s.leader = .replying put status →
    put ∈ s.begun.zipIdx ∧ (status = .ok ∧ put ∈ s.taken c.myPort ∨
      status = .error ∧ put ∈ s.missed c.myPort)

section Told

variable {c} {initial : Database} {s t : State} {p port : UInt16} {begun more : List ClientMsg}
  {events : List Event} {e : Event}

theorem Grounded.mono (grounded : Grounded c initial begun e) :
    Grounded c initial (begun ++ more) e := by
  have front : begun.zipIdx.Sublist (begun ++ more).zipIdx := by
    rw [List.zipIdx_append]
    exact List.sublist_append_left _ _
  cases e with
  | replied put response => exact ⟨front.subset grounded.1, grounded.2⟩
  | answered p m response seen => exact ⟨grounded.1, grounded.2.1.trans front, grounded.2.2⟩

theorem Refused.mono {put : Numbered} (refused : Refused events put) : Refused (events ++ [e]) put := by
  obtain ⟨response, member, status⟩ := refused
  exact ⟨response, List.mem_append_left _ member, status⟩

theorem Later.mono {first second : Event} (later : Later c events first second) :
    Later c (events ++ [e]) first second := by
  rcases first with _ | ⟨p, m, r, seen⟩ <;> rcases second with _ | ⟨q, m', r', seen'⟩
  case answered.answered =>
    exact ⟨later.1, fun leader put member => (later.2 leader put member).imp_right Refused.mono⟩
  all_goals exact later

/-- A step behind which nothing is answered. -/
theorem Told.quiet (told : Told c initial s) (events : t.events = s.events) (begun : s.begun <+: t.begun)
    (taken : ∀ p, s.taken p <+: t.taken p)
    (missed : s.missed c.myPort <+: t.missed c.myPort)
    (failed : ∀ put ∈ t.missed c.myPort, put ∈ s.missed c.myPort ∨ t.leader = .replying put .error)
    (leader : t.leader = s.leader ∨ ∀ put, s.leader ≠ .replying put .error)
    (replying : ∀ put status, t.leader = .replying put status →
      put ∈ t.begun.zipIdx ∧ (status = .ok ∧ put ∈ t.taken c.myPort ∨
        status = .error ∧ put ∈ t.missed c.myPort)) :
    Told c initial t := by
  obtain ⟨more, begun⟩ := begun
  refine ⟨fun e member => ?_, ?_, fun p m r seen member => ?_, fun put r member => ?_, fun put member => ?_,
    replying⟩
  · rw [← begun]
    exact (told.grounded e (events ▸ member)).mono
  · rw [events]
    exact told.ordered
  · exact (told.kept p m r seen (events ▸ member)).trans (taken p)
  · have stored := told.stored put r (events ▸ member)
    exact ⟨fun ok => (taken c.myPort).subset (stored.1 ok), fun error => missed.subset (stored.2 error)⟩
  · rw [events]
    rcases failed put member with before | now
    · refine (told.refused put before).imp_right fun same => ?_
      rcases leader with still | never
      · rw [still, same]
      · exact absurd same (never put)
    · exact .inr now

/-- A server answers a GET, the leader only between two requests. -/
theorem Told.answer (told : Told c initial s) (tied : Tied c initial s) (member : p ∈ c.allPorts)
    (idle : p = c.myPort → s.leader = .accepting) (m : ClientMsg) : Told c initial (s.answer p m) := by
  have later : ∀ e ∈ s.events, Later c s.events e (.answered p m (handleGet (s.db p) m) (s.taken p)) := by
    intro e before
    rcases e with ⟨put, response⟩ | ⟨q, n, response, seen⟩
    · rintro rfl ok
      exact (told.stored put response before).1 ok
    · refine ⟨fun same => same ▸ told.kept q n response seen before, ?_⟩
      rintro rfl put inside
      -- Whatever has been begun has come to the leader.
      have all := tied.taken_eq (idle rfl) member tied.own
      have begun := (told.grounded _ before).2.1.subset inside
      by_cases gone : put ∈ s.missed c.myPort
      · refine .inr ((told.refused put gone).resolve_right fun replying => ?_)
        rw [idle rfl] at replying
        cases replying
      · rw [all, List.mem_filter]
        exact .inl ⟨begun, decide_eq_true gone⟩
  refine ⟨fun e inside => ?_, ?_, fun q n r seen inside => ?_, fun put r inside => ?_,
    fun put gone => (told.refused put gone).imp_left Refused.mono, told.replying⟩
  · rcases List.mem_append.mp inside with before | now
    · exact told.grounded e before
    · rw [List.mem_singleton.mp now]
      exact ⟨member, tied.taken_sublist member, by rw [tied.db p member]⟩
  · refine List.pairwise_append.mpr ⟨told.ordered.imp Later.mono, List.pairwise_singleton .., ?_⟩
    intro e before now this
    rw [List.mem_singleton.mp this]
    exact (later e before).mono
  · rcases List.mem_append.mp inside with before | now
    · exact told.kept q n r seen before
    · cases List.mem_singleton.mp now
      exact List.prefix_rfl
  · rcases List.mem_append.mp inside with before | now
    · exact told.stored put r before
    · cases List.mem_singleton.mp now

theorem told_init (start : (servers c initial).init s) : Told c initial s := by
  obtain ⟨accepting, _, _, _, _, missed, events⟩ := start
  constructor <;> simp [events, missed, accepting]

theorem told_request (told : Told c initial s) (tied : Tied c initial s) {m : ClientMsg}
    (taken : stepRequest c s m = some t) : Told c initial t := by
  unfold stepRequest at taken
  split at taken
  next accepting =>
    split at taken
    next kind =>
      obtain rfl := Option.some.inj taken
      refine told.quiet rfl (List.prefix_append ..) (fun p => List.prefix_rfl) List.prefix_rfl (fun put => .inl) (.inr ?_) ?_
      · simp [accepting]
      · simp
    all_goals
      obtain rfl := Option.some.inj taken
      exact told.answer tied c.member (fun _ => accepting) m
  · cases taken

theorem told_leader (told : Told c initial s) (tied : Tied c initial s) {ok : Bool}
    (taken : stepLeader c s ok = some t) : Told c initial t := by
  unfold stepLeader at taken
  split at taken
  · cases taken
  next put sending =>
    obtain rfl := Option.some.inj taken
    exact told.quiet rfl List.prefix_rfl (fun p => List.prefix_rfl) List.prefix_rfl (fun put => .inl)
      (.inr (by simp [sending])) (by simp)
  next put port left sending =>
    dsimp only at taken
    split at taken
    next =>
      obtain rfl := Option.some.inj taken
      exact told.quiet rfl List.prefix_rfl (fun p => List.prefix_rfl) List.prefix_rfl (fun put => .inl)
        (.inr (by simp [sending])) (by simp)
    next other =>
      split at taken
      next =>
        obtain rfl := Option.some.inj taken
        exact told.quiet rfl List.prefix_rfl (fun p => List.prefix_rfl) List.prefix_rfl (fun put => .inl)
          (.inr (by simp [sending])) (by simp)
      next =>
        obtain rfl := Option.some.inj taken
        have same : (s.miss port [put]).missed c.myPort = s.missed c.myPort :=
          Function.update_of_ne (Ne.symm other) ..
        exact told.quiet rfl List.prefix_rfl (fun p => List.prefix_rfl) (same ▸ List.prefix_rfl)
          (fun put member => .inl (same ▸ member)) (.inr (by simp [sending])) (by simp [State.miss])
  -- The leader has the PUT, or misses it.
  next put storing =>
    obtain ⟨front, split, _⟩ := (tied.come c.myPort c.member).front
    simp only [due, storing, if_true] at split
    have begun : put ∈ s.begun.zipIdx := by simp [split]
    split at taken
    next =>
      obtain rfl := Option.some.inj taken
      refine told.quiet rfl List.prefix_rfl (fun p => ?_) List.prefix_rfl (fun put => .inl)
        (.inr (by simp [storing])) ?_
      · by_cases here : p = c.myPort
        · simp [here]
        · simp [Function.update_of_ne here]
      · rintro other status same
        cases same
        exact ⟨begun, .inl ⟨rfl, by simp⟩⟩
    next =>
      obtain rfl := Option.some.inj taken
      refine told.quiet rfl List.prefix_rfl (fun p => List.prefix_rfl) (by simp [State.miss])
        (fun other member => ?_) (.inr (by simp [storing])) ?_
      · simp only [State.miss, Function.update_self, List.mem_append, List.mem_singleton] at member ⊢
        exact member.imp_right fun same => by rw [same]
      · rintro other status same
        cases same
        exact ⟨begun, .inr ⟨rfl, by simp [State.miss]⟩⟩
  -- The answer to the PUT.
  next put status replying =>
    obtain rfl := Option.some.inj taken
    obtain ⟨begun, outcome⟩ := told.replying put status replying
    refine ⟨fun e inside => ?_, ?_, fun p m r seen inside => ?_, fun other r inside => ?_,
      fun other gone => .inl ?_, by simp⟩
    · rcases List.mem_append.mp inside with before | now
      · exact told.grounded e before
      · rw [List.mem_singleton.mp now]
        exact ⟨begun, status, outcome.imp And.left And.left, rfl⟩
    · refine List.pairwise_append.mpr ⟨told.ordered.imp Later.mono, List.pairwise_singleton .., ?_⟩
      intro e before now this
      rw [List.mem_singleton.mp this]
      cases e <;> trivial
    · rcases List.mem_append.mp inside with before | now
      · exact told.kept p m r seen before
      · cases List.mem_singleton.mp now
    · rcases List.mem_append.mp inside with before | now
      · exact told.stored other r before
      · cases List.mem_singleton.mp now
        rcases outcome with ⟨rfl, stored⟩ | ⟨rfl, missed⟩
        · exact ⟨fun _ => stored, nofun⟩
        · exact ⟨nofun, fun _ => missed⟩
    · rcases told.refused other gone with before | now
      · exact before.mono
      · rw [replying] at now
        cases now
        exact ⟨_, List.mem_append_right _ (List.mem_singleton_self _), rfl⟩

theorem told_follower (told : Told c initial s) {ok : Bool} (taken : stepFollower c s port ok = some t) :
    Told c initial t := by
  unfold stepFollower at taken
  split at taken
  next follower =>
    split at taken
    · cases taken
    next connection rest queue =>
      dsimp only at taken
      split at taken
      next =>
        obtain rfl := Option.some.inj taken
        have more : ∀ p, s.taken p <+: Function.update s.taken port (s.taken port ++ connection.puts) p := by
          intro p
          by_cases here : p = port
          · simp [here]
          · simp [Function.update_of_ne here]
        refine told.quiet rfl List.prefix_rfl more List.prefix_rfl (fun put => .inl) (.inl rfl)
          fun put status replying => ?_
        obtain ⟨begun, outcome⟩ := told.replying put status replying
        exact ⟨begun, outcome.imp_left fun stored => ⟨stored.1, (more _).subset stored.2⟩⟩
      next =>
        obtain rfl := Option.some.inj taken
        have same : (State.miss { s with queue := Function.update s.queue port rest } port
            connection.puts).missed c.myPort = s.missed c.myPort :=
          Function.update_of_ne (Ne.symm follower.2) ..
        refine told.quiet rfl List.prefix_rfl (fun p => List.prefix_rfl) (same ▸ List.prefix_rfl)
          (fun put member => .inl (same ▸ member)) (.inl rfl) ?_
        rw [same]
        exact told.replying
  · cases taken

theorem told_ask (told : Told c initial s) (tied : Tied c initial s) {m : ClientMsg}
    (taken : stepAsk c s port m = some t) : Told c initial t := by
  obtain ⟨follower, taken⟩ := Option.ite_none_right_eq_some.mp taken
  obtain rfl := Option.some.inj taken
  split
  · exact told.answer tied follower.1 (fun leader => absurd leader follower.2) m
  · exact told

theorem reachable_told (reachable : (servers c initial).Reachable System.Always s) :
    Tied c initial s ∧ Told c initial s := by
  refine reachable.invariant (I := fun s => Tied c initial s ∧ Told c initial s)
    (fun s start => ⟨tied_init start, told_init start⟩) ?_
  rintro s action t ⟨tied, told⟩ _ taken
  refine ⟨tied_step tied taken, ?_⟩
  cases action with
  | request m => exact told_request told tied taken
  | leader ok => exact told_leader told tied taken
  | follower port ok => exact told_follower told taken
  | ask port m => exact told_ask told tied taken

/-- What a server has taken it did not miss. -/
theorem Tied.taken_not_missed (tied : Tied c initial s) (member : p ∈ c.allPorts) {put : Numbered}
    (taken : put ∈ s.taken p) : put ∉ s.missed p := by
  obtain ⟨front, _, _, same⟩ := (tied.come p member).front
  have come : put ∈ s.taken p ++ s.waiting p := List.mem_append_left _ taken
  rw [same] at come
  exact of_decide_eq_true (List.mem_filter.mp come).2

/-- What a server has missed by now does not change what its earlier answers are explained by. -/
theorem Told.explained (told : Told c initial s) (tied : Tied c initial s) (member : e ∈ s.events) :
    Explained c initial s e := by
  have grounded := told.grounded e member
  cases e with
  | replied put response =>
    obtain ⟨begun, status, outcome, rfl⟩ := grounded
    have stored := told.stored put _ member
    refine ⟨begun, status, rfl, ?_⟩
    rcases outcome with rfl | rfl
    · exact .inl ⟨rfl, tied.taken_not_missed c.member (stored.1 rfl)⟩
    · exact .inr ⟨rfl, stored.2 rfl⟩
  | answered p m response seen =>
    obtain ⟨server, _, response⟩ := grounded
    obtain ⟨come, split, _, same⟩ := (tied.come p server).front
    have within : seen <+: come.filter fun put => put ∉ s.missed p :=
      same ▸ (told.kept p m _ seen member).trans (List.prefix_append _ _)
    obtain ⟨front, early, seen⟩ := List.prefix_filter_iff.mp within
    refine ⟨⟨front, early.trans ?_, seen⟩, response⟩
    rw [split]
    exact List.prefix_append come _

end Told

/-- Whatever fails and in whatever order things happen, every answer has its place: it is that of
the PUTs begun up to some point, but for those that its server missed; no server goes back behind
an answer of its own, and the leader goes back behind no answer of any server, but for PUTs that it
refused. -/
theorem answers_consistent (c : Cluster) (initial : Database) (s : State)
    (reachable : (servers c initial).Reachable System.Always s) :
    (∀ e ∈ s.events, Explained c initial s e) ∧ s.events.Pairwise (Later c s.events) := by
  obtain ⟨tied, told⟩ := reachable_told reachable
  exact ⟨fun e member => told.explained tied member, told.ordered⟩

def start : State where
  leader := .accepting
  db _ := Store.empty
  queue _ := []
  begun := []
  taken _ := []
  missed _ := []
  events := []

theorem init_start (c : Cluster) : (servers c Store.empty).init start := by
  simp [servers, start]

/-- The connection to the first follower fails; the second one answers before the leader has stored
the PUT. -/
def oneMissed : State :=
  ((servers .three Store.empty).run start
    [.request onePut, .leader true, .leader false, .leader true, .follower 31002 true,
      .ask 31002 { onePut with type_ := some .directGet }, .leader true, .leader true, .leader true,
      .request { onePut with type_ := some .get }]).get (by decide)

theorem reachable_oneMissed : (servers .three Store.empty).Reachable System.Always oneMissed :=
  .run (.start (init_start _)) (Option.some_get _).symm

theorem answers_consistent_oneMissed :
    (∀ e ∈ oneMissed.events, Explained .three Store.empty oneMissed e) ∧
      oneMissed.events.Pairwise (Later .three oneMissed.events) :=
  answers_consistent .three Store.empty oneMissed reachable_oneMissed

/-- Between two requests a server to which nothing is on its way has all PUTs that it did not miss, in
the order in which they were begun; the leader missed those that it refused. -/
theorem db_settled (c : Cluster) (initial : Database) (s : State)
    (reachable : (servers c initial).Reachable System.Always s) (accepting : s.leader = .accepting) :
    (∀ p ∈ c.allPorts, s.waiting p = [] →
      s.db p = applyPuts initial (s.begun.zipIdx.filter fun put => put ∉ s.missed p)) ∧
    s.waiting c.myPort = [] ∧ ∀ put, put ∈ s.missed c.myPort ↔ Refused s.events put := by
  obtain ⟨tied, told⟩ := reachable_told reachable
  refine ⟨fun p member nothing => ?_, tied.own, fun put => ⟨fun gone => ?_, ?_⟩⟩
  · rw [tied.db p member, tied.taken_eq accepting member nothing]
  · refine (told.refused put gone).resolve_right fun replying => ?_
    rw [accepting] at replying
    cases replying
  · rintro ⟨response, member, error⟩
    exact (told.stored put response member).2 error

theorem db_settled_oneMissed :
    (∀ p ∈ Cluster.three.allPorts, oneMissed.waiting p = [] → oneMissed.db p =
      applyPuts Store.empty (oneMissed.begun.zipIdx.filter fun put => put ∉ oneMissed.missed p)) ∧
    oneMissed.waiting Cluster.three.myPort = [] ∧
      ∀ put, put ∈ oneMissed.missed Cluster.three.myPort ↔ Refused oneMissed.events put :=
  db_settled .three Store.empty oneMissed reachable_oneMissed rfl

end CloudLab.Replication.Reads
