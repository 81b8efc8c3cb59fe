import CloudLab.Replication.Codec
import CloudLab.Replication.Log

/-!
# The client port (`task3/source/server.cpp`)

One round of the leader's loop and of `follower_thread_func`: accept a connection, receive
one frame, parse the C string in it and handle the message. Every connection to another
server may fail, and so may each `send` on it and the leader's own `db->Put`; `Net` says
which of them do, and `Sigpipe` which of the failures end the process.

The parser of the protocol buffer library is a parameter. `badInput_iff` is about connections
that carry anything at all, under any parser; `answered_iff` is about requests, under a parser
that reads whole messages and the fields in front of a cut.
-/
namespace CloudLab.Replication

open Library Library.Wire CloudLab.Transport

/-- The ports of all servers; `myPort` is `allPorts[my_server_id]`. -/
structure Cluster extends Config where
  member : myPort ∈ allPorts

def Cluster.followers (c : Cluster) : List UInt16 := c.allPorts.filter (· ≠ c.myPort)

/-- Every server but one is a follower. -/
theorem Cluster.length_followers (c : Cluster) :
    c.followers.length + 1 = c.allPorts.length := by
  have erased := c.distinct.erase_eq_filter c.myPort
  have shorter := List.length_erase_of_mem c.member
  have some := List.length_pos_of_mem c.member
  have same : c.followers = c.allPorts.erase c.myPort := by
    rw [erased]
    apply List.filter_congr
    intro port _
    rw [Bool.eq_iff_iff]
    simp
  rw [same, shorter]
  omega

/-- What the calls of one round return. -/
structure Net where
  /-- `send` on the accepted connection. -/
  client : Nat → SendChoice
  connects : UInt16 → Bool
  peer : UInt16 → Nat → SendChoice
  /-- `db->Put(..).ok()` -/
  put : Bool

/-- Which failures of `send` raise SIGPIPE: those on a connection whose other end is gone. No
handler is installed, so the signal ends the process. -/
structure Sigpipe where
  client : Bool
  peer : UInt16 → Bool

def Sigpipe.never : Sigpipe := ⟨false, fun _ => false⟩

/-- How `send` behaves on the descriptor `connect_socket` returns: on -1 it always fails. -/
def connectSocket (net : Net) (port : UInt16) : Nat → SendChoice :=
  if net.connects port then net.peer port else fun _ => .error

/-- `sendWrapper` on a serialized message. -/
def sendWrapper (fd : Nat → SendChoice) (buffer : Bytes) : Sent :=
  secureSend fd 0 (constructMessage buffer)

/-- What a round leaves behind: the database, what the connections to the other servers
came to, and the message for the accepted connection. -/
structure Round where
  db : Database
  entries : List (UInt16 × Sent)
  response : Option ServerResponse

/-- A `send` of the message on this connection fails and raises SIGPIPE. -/
def breaks (raised : Bool) (fd : Nat → SendChoice) (buffer : Bytes) : Bool :=
  raised && (sendWrapper fd buffer).result.isNone

/-- A `send` of the round raises SIGPIPE. On the descriptor -1 it fails without one. -/
def Round.killed (net : Net) (sig : Sigpipe) (r : Round) : Bool :=
  (r.entries.any fun e => net.connects e.1 && sig.peer e.1 && e.2.result.isNone) ||
    r.response.any fun resp => breaks sig.client net.client resp.serializeToString

/-- The bytes that reach the client. -/
def Round.wire (net : Net) (r : Round) : Bytes :=
  match r.response with
  | some resp => (sendWrapper net.client resp.serializeToString).wire
  | none => []

/-- The loop over `allPorts` of a PUT. -/
def sendEntries (c : Cluster) (net : Net) (m : ClientMsg) : List (UInt16 × Sent) :=
  c.followers.map fun port =>
    (port, sendWrapper (connectSocket net port) (constructAppendEntryMessage m).serializeToString)

def leaderHandle (c : Cluster) (net : Net) (db : Database) (m : ClientMsg) : Round :=
  match m.type with
  | .put =>
    { db := if net.put then putOperation db m else db
      entries := sendEntries c net m
      -- The results of the loop are not looked at.
      response := some { id_ := some m.id, status_ := some (if net.put then .ok else .error) } }
  | .get | .directGet => { db := db, entries := [], response := some (handleGet db m) }

/-- "unexpected message type" is printed and nothing is sent. -/
def followerHandle (db : Database) (m : ClientMsg) : Round :=
  match m.type with
  | .directGet => { db := db, entries := [], response := some (handleGet db m) }
  | .put | .get => { db := db, entries := [], response := none }

inductive Role where
  | leader
  | follower
  deriving DecidableEq

def Role.handle (role : Role) (c : Cluster) (net : Net) (db : Database) (m : ClientMsg) : Round :=
  match role with
  | .leader => leaderHandle c net db m
  | .follower => followerHandle db m

section

variable (parse : Bytes → Parsed ClientMsg)

/-- `m.ParseFromString(res.second.get())`: no result for a null pointer, which ends the
process; whether the parse succeeds is not looked at. -/
def parseReceived (res : Nat × Option Bytes) : Option ClientMsg :=
  res.2.map fun buf => (parse (cStr buf)).message

/-- What a round comes to on what `secure_recv` returned; no result if the process ends. -/
def Role.serve (role : Role) (c : Cluster) (net : Net) (sig : Sigpipe) (db : Database)
    (res : Nat × Option Bytes) : Option Round :=
  (parseReceived parse res).bind fun m =>
    let round := role.handle c net db m
    if round.killed net sig then none else some round

/-- One round on a connection that carries `stream` and is then closed. -/
def Role.round (role : Role) (choice : Nat → RecvChoice) (fuel : Nat) (c : Cluster) (net : Net)
    (sig : Sigpipe) (db : Database) (stream : Bytes) : Option (Option Round) :=
  (secureRecv choice fuel ⟨stream, 0⟩).map fun r => role.serve parse c net sig db r.1

/-- A round depends on the frames of the connection only. -/
theorem Role.round_eq (role : Role) (schedule : RecvSchedule) (c : Cluster) (net : Net)
    (sig : Sigpipe) (db : Database) (stream : Bytes) :
    ∃ enough, ∀ fuel, enough ≤ fuel → role.round parse schedule.choice fuel c net sig db stream =
      some (role.serve parse c net sig db (received (frames stream))) := by
  obtain ⟨enough, fd', _, result⟩ := secureRecv_frames schedule ⟨stream, 0⟩
  refine ⟨enough, fun fuel more => ?_⟩
  rw [Role.round, result fuel more, Option.map_some]

/-- The bytes begin with a complete frame whose payload is a `client_msg` with all its
required fields. -/
def Decodes (stream : Bytes) : Prop :=
  ∃ payload rest, frames stream = payload :: rest ∧ (parse payload).ok = true

/-- The server is back in its loop, and unless the bytes decode, nothing has come of them. -/
def BadInputHarmless (db : Database) (stream : Bytes) (result : Option Round) : Prop :=
  ∃ round, result = some round ∧
    (¬Decodes parse stream → round.db = db ∧ ∀ e ∈ round.entries, e.2.wire = [])

/-- The message read from the C string of a payload. -/
def readRequest (payload : Bytes) : ClientMsg := (parse (cStr payload)).message

end

/-! ## Broken pipes -/

/-- No connection to a follower breaks under the entry of a PUT. -/
def EntriesUnbroken (c : Cluster) (net : Net) (sig : Sigpipe) (m : ClientMsg) : Prop :=
  ∀ port ∈ c.followers, net.connects port = true →
    breaks (sig.peer port) (net.peer port) (constructAppendEntryMessage m).serializeToString = false

/-- No connection breaks that a server sends on for `m`. -/
@[mk_iff] structure Unbroken (role : Role) (c : Cluster) (net : Net) (sig : Sigpipe) (db : Database)
    (m : ClientMsg) : Prop where
  entries : role = .leader → m.type = .put → EntriesUnbroken c net sig m
  stored : role = .leader → m.type = .put → breaks sig.client net.client
    (ServerResponse.serializeToString
      { id_ := some m.id, status_ := some (if net.put then .ok else .error) }) = false
  found : m.type = .directGet ∨ role = .leader ∧ m.type = .get →
    breaks sig.client net.client (handleGet db m).serializeToString = false

theorem killed_entries_iff (c : Cluster) (net : Net) (sig : Sigpipe) (m : ClientMsg) :
    ((sendEntries c net m).any
      fun e => net.connects e.1 && sig.peer e.1 && e.2.result.isNone) = false ↔
        EntriesUnbroken c net sig m := by
  simp only [List.any_eq_false, sendEntries, List.forall_mem_map, EntriesUnbroken, breaks]
  refine forall₂_congr fun port _ => ?_
  cases up : net.connects port <;> simp [connectSocket, up, Option.isSome_iff_ne_none]

/-- A round is finished exactly if no connection breaks. -/
theorem killed_handle_iff (role : Role) (c : Cluster) (net : Net) (sig : Sigpipe) (db : Database)
    (m : ClientMsg) :
    (role.handle c net db m).killed net sig = false ↔ Unbroken role c net sig db m := by
  rw [unbroken_iff]
  cases role with
  | leader =>
    cases kind : m.type with
    | put =>
      have entries := killed_entries_iff c net sig m
      simp [Role.handle, leaderHandle, kind, Round.killed, entries]
    | get => simp [Role.handle, leaderHandle, kind, Round.killed]
    | directGet => simp [Role.handle, leaderHandle, kind, Round.killed]
  | follower =>
    cases kind : m.type <;> simp [Role.handle, followerHandle, kind, Round.killed]

theorem unbroken_never (role : Role) (c : Cluster) (net : Net) (db : Database) (m : ClientMsg) :
    Unbroken role c net .never db m := by
  simp [unbroken_iff, EntriesUnbroken, breaks, Sigpipe.never]

/-- A served message is handled to the end, or the process is gone. -/
theorem Role.serve_eq (parse : Bytes → Parsed ClientMsg) (role : Role) (c : Cluster) (net : Net)
    (sig : Sigpipe) (db : Database) (payload : Bytes) (rest : List Bytes) (round : Round) :
    role.serve parse c net sig db (received (payload :: rest)) = some round ↔
      Unbroken role c net sig db (readRequest parse payload) ∧
        role.handle c net db (readRequest parse payload) = round := by
  rw [← killed_handle_iff]
  change (if (role.handle c net db (readRequest parse payload)).killed net sig then none
    else some (role.handle c net db (readRequest parse payload))) = some round ↔ _
  cases (role.handle c net db (readRequest parse payload)).killed net sig <;> simp

/-! ## Anything at all -/

/-- A PUT of `m` that leaves no trace: no follower takes a byte of it, and the database does
not take it or holds it already. -/
def NoTrace (c : Cluster) (net : Net) (db : Database) (m : ClientMsg) : Prop :=
  (∀ port ∈ c.followers, net.connects port = true → net.peer port 0 = .error) ∧
    (net.put = false ∨ db m.key.cStr.bytes = some m.value.cStr)

theorem constructMessage_ne_nil (payload : Bytes) : constructMessage payload ≠ [] := by
  simp [constructMessage, convertIntToByteArray, storeWord]

theorem connectSocket_silent_iff (net : Net) (port : UInt16) :
    connectSocket net port 0 = .error ↔ (net.connects port = true → net.peer port 0 = .error) := by
  cases up : net.connects port <;> simp [connectSocket, up]

theorem putOperation_eq_self_iff (db : Database) (m : ClientMsg) :
    putOperation db m = db ↔ db m.key.cStr.bytes = some m.value.cStr := by
  constructor
  · intro same
    rw [← congrFun same m.key.cStr.bytes, putOperation, Store.put_apply, if_pos rfl]
  · intro held
    funext k
    rw [putOperation, Store.put_apply]
    split
    next same => rw [same, held]
    next => rfl

/-- What a PUT of the leader does to database and followers. -/
theorem leaderHandle_put_harmless_iff {c : Cluster} {net : Net} {db : Database} {m : ClientMsg}
    (kind : m.type = .put) :
    ((leaderHandle c net db m).db = db ∧ ∀ e ∈ (leaderHandle c net db m).entries, e.2.wire = []) ↔
      NoTrace c net db m := by
  have silent : (∀ e ∈ sendEntries c net m, e.2.wire = []) ↔
      ∀ port ∈ c.followers, net.connects port = true → net.peer port 0 = .error := by
    simp only [sendEntries, List.forall_mem_map, sendWrapper,
      secureSend_silent_iff _ _ (constructMessage_ne_nil _), connectSocket_silent_iff]
  have stored : (if net.put then putOperation db m else db) = db ↔
      (net.put = false ∨ db m.key.cStr.bytes = some m.value.cStr) := by
    cases net.put <;> simp [putOperation_eq_self_iff]
  simp only [leaderHandle, kind, NoTrace]
  rw [silent, stored, and_comm]

/-- Which payloads a server handles as it should, with all connections in order. -/
theorem harmless_handle_iff {role : Role} {c : Cluster} {net : Net} {db : Database} {m : ClientMsg} :
    ((role.handle c net db m).db = db ∧ ∀ e ∈ (role.handle c net db m).entries, e.2.wire = []) ↔
      (role = .follower ∨ m.type ≠ .put ∨ NoTrace c net db m) := by
  cases role with
  | follower => cases kind : m.type <;> simp [Role.handle, followerHandle, kind]
  | leader =>
    cases kind : m.type with
    | put =>
      have harmless := @leaderHandle_put_harmless_iff c net db m kind
      simpa [Role.handle] using harmless
    | get => simp [Role.handle, leaderHandle, kind]
    | directGet => simp [Role.handle, leaderHandle, kind]

/-- A connection is handled as it should be exactly when it carries a complete frame, nothing
that is sent for it raises SIGPIPE, and, at the leader, the payload decodes, or is not read as
a PUT, or its PUT leaves no trace. -/
theorem badInput_iff (parse : Bytes → Parsed ClientMsg) (role : Role) (schedule : RecvSchedule)
    (c : Cluster) (net : Net) (sig : Sigpipe) (db : Database) (stream : Bytes) :
    ∃ enough result, (∀ fuel, enough ≤ fuel →
        role.round parse schedule.choice fuel c net sig db stream = some result) ∧
      (BadInputHarmless parse db stream result ↔
        ∃ payload rest, frames stream = payload :: rest ∧
          Unbroken role c net sig db (readRequest parse payload) ∧
          (role = .follower ∨ Decodes parse stream ∨ (readRequest parse payload).type ≠ .put ∨
            NoTrace c net db (readRequest parse payload))) := by
  obtain ⟨enough, round⟩ := role.round_eq parse schedule c net sig db stream
  refine ⟨enough, _, round, ?_⟩
  rcases whole : frames stream with _ | ⟨payload, rest⟩
  -- Nothing complete was received: the null pointer ends the process.
  · simp [BadInputHarmless, received, Role.serve, parseReceived]
  -- The round is that of `readRequest`, whichever way the payload was decoded.
  · constructor
    · rintro ⟨_, served, harmless⟩
      obtain ⟨unbroken, rfl⟩ := (role.serve_eq parse c net sig db payload rest _).mp served
      refine ⟨payload, rest, rfl, unbroken, ?_⟩
      by_cases decodes : Decodes parse stream
      · exact Or.inr (Or.inl decodes)
      · rcases harmless_handle_iff.mp (harmless decodes) with follower | other
        · exact Or.inl follower
        · exact Or.inr (Or.inr other)
    · rintro ⟨_, _, same, unbroken, holds⟩
      obtain ⟨rfl, rfl⟩ := List.cons.inj same
      refine ⟨_, (role.serve_eq parse c net sig db payload rest _).mpr ⟨unbroken, rfl⟩, ?_⟩
      intro refused
      apply harmless_handle_iff.mpr
      rcases holds with follower | decodes | other
      · exact Or.inl follower
      · exact absurd decodes refused
      · exact Or.inr other

/-- Three servers, the first of them the leader. -/
def Cluster.three : Cluster where
  allPorts := [31000, 31001, 31002]
  myPort := 31000
  distinct := by decide
  member := by decide

/-- Every call succeeds, one byte at a time. -/
def Net.healthy : Net where
  client _ := .accept 0
  connects _ := true
  peer _ _ := .accept 0
  put := true

/-- The client is gone when the first `send` has taken a byte. -/
def Net.gone : Net := { Net.healthy with client := fun call => if call = 0 then .accept 0 else .error }

def Sigpipe.always : Sigpipe := ⟨true, fun _ => true⟩

/-- A connection that is closed at once ends the leader; a payload without id and type, just
the key "k", is stored as a PUT; and the GET of a client that closes ends a server, the frame
around it being complete and its payload decoding. -/
theorem not_badInputHarmless_untyped :
    (∃ enough, (∀ fuel, enough ≤ fuel → Role.leader.round Operation.parseFromString
          bytewise.choice fuel .three .healthy .never Store.empty [] = some none) ∧
      ¬BadInputHarmless Operation.parseFromString Store.empty [] none) ∧
    (∃ enough result, (∀ fuel, enough ≤ fuel → Role.leader.round Operation.parseFromString
          bytewise.choice fuel .three .healthy .never Store.empty [0, 0, 0, 3, 26, 1, 107] =
            some result) ∧
      ¬BadInputHarmless Operation.parseFromString Store.empty [0, 0, 0, 3, 26, 1, 107] result) ∧
    ∃ enough, (∀ fuel, enough ≤ fuel → Role.leader.round Operation.parseFromString
          bytewise.choice fuel .three .gone .always (Store.empty.put [107] (WireString.ofBytes [118]))
            [0, 0, 0, 7, 8, 1, 16, 2, 26, 1, 107] = some none) ∧
      Decodes Operation.parseFromString [0, 0, 0, 7, 8, 1, 16, 2, 26, 1, 107] ∧
      ¬BadInputHarmless Operation.parseFromString
        (Store.empty.put [107] (WireString.ofBytes [118])) [0, 0, 0, 7, 8, 1, 16, 2, 26, 1, 107]
          none := by
  have dead : ∀ db stream, ¬BadInputHarmless Operation.parseFromString db stream none := by
    rintro db stream ⟨_, back, _⟩
    cases back
  refine ⟨?_, ?_, ?_⟩
  · obtain ⟨enough, round⟩ := Role.leader.round_eq Operation.parseFromString bytewise .three
      .healthy .never Store.empty []
    exact ⟨enough, round, dead _ _⟩
  · obtain ⟨enough, round⟩ := Role.leader.round_eq Operation.parseFromString bytewise .three
      .healthy .never Store.empty [0, 0, 0, 3, 26, 1, 107]
    refine ⟨enough, _, round, ?_⟩
    -- The frame is complete and holds no type, so it is read as a PUT.
    have framed : frames [0, 0, 0, 3, 26, 1, 107] = [[26, 1, 107]] := by decide
    have read : readRequest Operation.parseFromString [26, 1, 107] =
        { key_ := some (WireString.ofBytes [107]) } := by decide
    have refused : ¬Decodes Operation.parseFromString [0, 0, 0, 3, 26, 1, 107] := by
      rintro ⟨payload, rest, whole, ok⟩
      rw [framed, List.cons.injEq] at whole
      rw [← whole.1] at ok
      revert ok
      decide
    rw [framed]
    rintro ⟨_, back, unchanged⟩
    obtain ⟨_, rfl⟩ := (Role.leader.serve_eq _ _ _ _ _ _ _ _).mp back
    have stored := congrFun (unchanged refused).1 [107]
    rw [read] at stored
    revert stored
    decide
  · obtain ⟨enough, round⟩ := Role.leader.round_eq Operation.parseFromString bytewise .three .gone
      .always (Store.empty.put [107] (WireString.ofBytes [118]))
      [0, 0, 0, 7, 8, 1, 16, 2, 26, 1, 107]
    have framed : frames [0, 0, 0, 7, 8, 1, 16, 2, 26, 1, 107] = [[8, 1, 16, 2, 26, 1, 107]] := by
      decide
    have decoded : (Operation.parseFromString [8, 1, 16, 2, 26, 1, 107]).ok = true := by decide
    refine ⟨enough, ?_, ⟨_, [], framed, decoded⟩, dead _ _⟩
    -- The second `send` of the response fails.
    have killed : (Role.leader.handle .three .gone (Store.empty.put [107] (WireString.ofBytes [118]))
        (readRequest Operation.parseFromString [8, 1, 16, 2, 26, 1, 107])).killed .gone .always =
          true := by decide
    intro fuel more
    rw [round fuel more, framed]
    simp only [Role.serve, parseReceived, received, Option.map_some, Option.bind_some]
    exact congrArg some (if_pos killed)

/-! ## One request, one response -/

/-- The response to a GET that finds this under the key. -/
def answer (i : Int32) : Option WireString → ServerResponse
  | some value => { id_ := some i, status_ := some .ok, value_ := some value }
  | none => { id_ := some i, status_ := some .noKey }

theorem handleGet_eq (db : Database) (m : ClientMsg) :
    handleGet db m = answer m.id (db m.key.cStr.bytes) := by
  unfold handleGet answer
  cases db m.key.cStr.bytes <;> rfl

theorem answer_injective (i : Int32) : Function.Injective (answer i) := by
  intro x y same
  cases x <;> cases y <;> simp_all [answer]

/-- A client message with its required fields. -/
def request (i : Int32) (t : OperationType) (k : WireString) (v : Option WireString) : ClientMsg :=
  ⟨some i, some t, some k, v⟩

/-- On the connection went one response, with the request's id; that of a follower says what
its database holds under the key of a DIRECT_GET, and refuses every other request. -/
def Answered (role : Role) (net : Net) (db : Database) (i : Int32) (t : OperationType)
    (k : WireString) (result : Option Round) : Prop :=
  ∃ round resp, result = some round ∧ round.wire net = constructMessage resp.serializeToString ∧
    resp.id_ = some i ∧
    (role = .follower → round.db = db ∧
      if t = .directGet then resp = answer i (db k.bytes)
      else resp.status_ = some .error ∨ resp.status_ = some .notLeader)

section

variable {parse : Bytes → Parsed ClientMsg} (reads : Operation.schema.Reads parse)
include reads

/-- A lost id is read as 0, and is lost only if it is. -/
theorem readRequest_id (i : Int32) (t : OperationType) (k : WireString) (v : Option WireString) :
    (readRequest parse (request i t k v).serializeToString).id = i := by
  obtain ⟨left, read, leftOf⟩ := Operation.parse_request reads i t k v
  rw [readRequest, request, read]
  by_cases known : i = 0
  · rw [if_pos known] at leftOf ⊢
    rw [known]
    exact Operation.foldl_merge_id leftOf
  · rw [if_neg known] at leftOf ⊢
    have kept : ∀ m, (left.foldl Operation.merge m).id = m.id := fun m =>
      congrArg (·.getD 0) (Operation.foldl_merge_high (Operation.number_of_leftOf leftOf) m).1
    rw [kept]
    split <;> rfl

theorem readRequest_type (i : Int32) (t : OperationType) (k : WireString) (v : Option WireString) :
    (readRequest parse (request i t k v).serializeToString).type = if i = 0 then .put else t := by
  obtain ⟨left, read, leftOf⟩ := Operation.parse_request reads i t k v
  rw [readRequest, request, read]
  by_cases known : i = 0
  · rw [if_pos known] at leftOf
    rw [if_pos known, if_pos known]
    exact congrArg (·.getD .put) (Operation.foldl_merge_first leftOf)
  · rw [if_neg known] at leftOf
    rw [if_neg known, if_neg known]
    have kept : ∀ m, (left.foldl Operation.merge m).type = m.type := fun m =>
      congrArg (·.getD .put) (Operation.foldl_merge_high (Operation.number_of_leftOf leftOf) m).2
    rw [kept]
    split <;> rfl

/-- A key without a zero byte is looked up as it is. -/
theorem readRequest_key {i : Int32} (known : i ≠ 0) (t : OperationType) {k : WireString}
    (free : ZeroFree k.bytes) (v : Option WireString) :
    (readRequest parse (request i t k v).serializeToString).key.cStr.bytes = k.bytes := by
  obtain ⟨left, read, leftOf⟩ := Operation.parse_request reads i t k v
  rw [readRequest, request, read, if_neg known]
  rw [if_neg known] at leftOf
  by_cases survives : (Payload.bytes k.bytes).Survives
  -- The value may be cut, the key is there.
  · rw [if_pos survives] at leftOf ⊢
    have kept := Operation.foldl_merge_value leftOf
      ⟨some i, some t, some k, v.filter fun v => (Payload.bytes v.bytes).Survives⟩
    rw [Operation.key, kept]
    exact congrArg WireString.bytes (WireString.cStr_eq_self free)
  -- A zero-free key that does not survive is empty, and so is what is left of it.
  · have empty : k.bytes = [] := by
      by_contra nonempty
      exact survives ⟨nonempty, free⟩
    rw [if_neg survives, empty] at leftOf
    rw [if_neg survives, empty]
    exact Operation.foldl_merge_empty leftOf rfl

end

theorem ServerResponse.constructMessage_injective {r r' : ServerResponse}
    (same : constructMessage r.serializeToString = constructMessage r'.serializeToString) :
    r = r' := by
  have framed := frames_constructMessage r.length_serialize_lt
  rw [same, frames_constructMessage r'.length_serialize_lt, List.cons.injEq] at framed
  have parsed := ServerResponse.schema.parse_serialize r
  rw [← ServerResponse.serializeToString, ← framed.1, ServerResponse.serializeToString,
    ServerResponse.schema.parse_serialize] at parsed
  exact (congrArg Parsed.message parsed).symm

theorem Round.wire_eq {net : Net} (limits : SendSchedule) (whole : net.client = limits.choice)
    (r : Round) :
    r.wire net = match r.response with
      | some resp => constructMessage resp.serializeToString
      | none => [] := by
  unfold Round.wire
  cases r.response with
  | none => rfl
  | some resp =>
    change (secureSend net.client 0 _).wire = _
    rw [whole, (secureSend_wire limits _ _).1]

/-- In terms of the response the round left. -/
theorem answered_some_iff {role : Role} {net : Net} (limits : SendSchedule)
    (whole : net.client = limits.choice) {db : Database} {i : Int32} {t : OperationType}
    {k : WireString} {round : Round} :
    Answered role net db i t k (some round) ↔ ∃ resp, round.response = some resp ∧
      resp.id_ = some i ∧ (role = .follower → round.db = db ∧
        if t = .directGet then resp = answer i (db k.bytes)
        else resp.status_ = some .error ∨ resp.status_ = some .notLeader) := by
  constructor
  · rintro ⟨_, resp, same, sent, holds⟩
    obtain rfl := Option.some.inj same
    rw [Round.wire_eq limits whole] at sent
    cases left : round.response with
    -- Nothing was sent, but a response is never empty.
    | none =>
      rw [left] at sent
      exact absurd sent.symm (constructMessage_ne_nil _)
    -- What was sent determines the response.
    | some r =>
      rw [left] at sent
      obtain rfl := ServerResponse.constructMessage_injective sent
      exact ⟨r, rfl, holds⟩
  · rintro ⟨resp, left, holds⟩
    refine ⟨round, resp, rfl, ?_, holds⟩
    rw [Round.wire_eq limits whole, left]

/-- The leader answers every message, with the id it read. -/
theorem leaderHandle_response (c : Cluster) (net : Net) (db : Database) (m : ClientMsg) :
    ∃ resp, (leaderHandle c net db m).response = some resp ∧ resp.id_ = some m.id := by
  cases kind : m.type with
  | put => simp [leaderHandle, kind]
  | get => cases found : db m.key.cStr.bytes <;> simp [leaderHandle, kind, handleGet, found]
  | directGet => cases found : db m.key.cStr.bytes <;> simp [leaderHandle, kind, handleGet, found]

/-- A follower answers nothing but a DIRECT_GET. -/
theorem followerHandle_silent (db : Database) {m : ClientMsg} (other : m.type ≠ .directGet) :
    (followerHandle db m).response = none := by
  cases kind : m.type with
  | put => simp [followerHandle, kind]
  | get => simp [followerHandle, kind]
  | directGet => exact absurd kind other

/-- On a connection that takes all that is sent, the round of a leader ends unless a connection
to a follower breaks under the entry of a PUT; that of a follower always ends. -/
theorem unbroken_of_limits (role : Role) (c : Cluster) (net : Net) (limits : SendSchedule)
    (whole : net.client = limits.choice) (sig : Sigpipe) (db : Database) (m : ClientMsg) :
    Unbroken role c net sig db m ↔
      (role = .leader → m.type = .put → EntriesUnbroken c net sig m) := by
  have sent : ∀ buffer, breaks sig.client net.client buffer = false := by
    intro buffer
    rw [breaks, sendWrapper, whole, (secureSend_wire limits _ _).2]
    simp
  simp [unbroken_iff, sent]

/-- In terms of what is read, a follower answers as it should exactly a DIRECT_GET that finds
under the key that is read what is under the key of the request. -/
theorem answered_follower_iff {net : Net} (limits : SendSchedule) (whole : net.client = limits.choice)
    {db : Database} {i : Int32} {t : OperationType} {k : WireString} {m : ClientMsg}
    (id : m.id = i) (type : m.type = if i = 0 then .put else t) :
    Answered .follower net db i t k (some (followerHandle db m)) ↔
      t = .directGet ∧ i ≠ 0 ∧ db m.key.cStr.bytes = db k.bytes := by
  rw [answered_some_iff limits whole]
  by_cases known : i = 0
  -- The type is lost with the id, and what is read is a PUT.
  · rw [if_pos known] at type
    rw [followerHandle_silent db (by rw [type]; decide)]
    simp [known]
  · rw [if_neg known] at type
    cases t with
    | put => rw [followerHandle_silent db (by rw [type]; decide)]; simp
    | get => rw [followerHandle_silent db (by rw [type]; decide)]; simp
    | directGet =>
      simp only [followerHandle, type, Option.some.injEq, exists_eq_left', handleGet_eq, id,
        ite_true, true_and, (answer_injective i).eq_iff, ne_eq, known, not_false_eq_true,
        forall_const, and_iff_right_iff_imp]
      intro _
      cases db m.key.cStr.bytes <;> rfl

/-- The leader answers every request, unless a connection to a follower breaks under the entry of
a PUT, which a request with id 0 is taken for. A follower answers as it should exactly a
DIRECT_GET whose id is not 0 and whose key has no zero byte, or is read as one under which the
database holds the same. -/
theorem answered_iff {parse : Bytes → Parsed ClientMsg} (reads : Operation.schema.Reads parse)
    (role : Role) (schedule : RecvSchedule) (limits : SendSchedule) (c : Cluster) (net : Net)
    (sig : Sigpipe) (db : Database) (i : Int32) (t : OperationType) (k : WireString)
    (v : Option WireString) :
    ∃ enough result, (∀ fuel, enough ≤ fuel →
        role.round parse schedule.choice fuel c { net with client := limits.choice } sig db
          (constructMessage (request i t k v).serializeToString) = some result) ∧
      (Answered role { net with client := limits.choice } db i t k result ↔
        match role with
        | .leader => t = .put ∨ i = 0 →
            EntriesUnbroken c net sig (readRequest parse (request i t k v).serializeToString)
        | .follower => t = .directGet ∧ i ≠ 0 ∧ (ZeroFree k.bytes ∨
            db (readRequest parse (request i t k v).serializeToString).key.cStr.bytes =
              db k.bytes)) := by
  obtain ⟨enough, round⟩ := role.round_eq parse schedule c { net with client := limits.choice } sig db
    (constructMessage (request i t k v).serializeToString)
  refine ⟨enough, _, round, ?_⟩
  rw [frames_constructMessage (request i t k v).length_serialize_lt]
  have served := role.serve_eq parse c { net with client := limits.choice } sig db
    (request i t k v).serializeToString []
  have ends := unbroken_of_limits role c { net with client := limits.choice } limits rfl sig db
    (readRequest parse (request i t k v).serializeToString)
  have id := readRequest_id reads i t k v
  have type := readRequest_type reads i t k v
  have key := fun known free => @readRequest_key _ reads i known t k free v
  generalize readRequest parse (request i t k v).serializeToString = m at *
  cases role with
  | leader =>
    have kind : m.type = .put ↔ t = .put ∨ i = 0 := by
      rw [type]
      split
      next zero => simp [zero]
      next known => simp [known]
    simp only [forall_const, kind] at ends
    constructor
    · rintro ⟨r, resp, same, _⟩
      exact ends.mp ((served r).mp same).1
    · intro unbroken
      rw [(served _).mpr ⟨ends.mpr unbroken, rfl⟩, answered_some_iff limits rfl]
      obtain ⟨resp, left, same⟩ := leaderHandle_response c { net with client := limits.choice } db m
      exact ⟨resp, left, by rw [same, id], by simp⟩
  | follower =>
    have unbroken := ends.mpr (by simp)
    rw [(served _).mpr ⟨unbroken, rfl⟩]
    change Answered .follower _ db i t k (some (followerHandle db m)) ↔ _
    rw [answered_follower_iff limits rfl id type]
    constructor
    · rintro ⟨directGet, known, same⟩
      exact ⟨directGet, known, Or.inr same⟩
    · rintro ⟨directGet, known, free | same⟩
      · exact ⟨directGet, known, by rw [key known free]⟩
      · exact ⟨directGet, known, same⟩

/-- A follower gives the value of "k" for the DIRECT_GET of it. -/
theorem answered_iff_directGet : ∃ enough result, (∀ fuel, enough ≤ fuel →
      Role.follower.round Operation.parseFromString bytewise.choice fuel .three
        { Net.healthy with client := SendSchedule.choice fun _ => 0 } .always
        (Store.empty.put [107] (WireString.ofBytes [118]))
        (constructMessage (request 1 .directGet (WireString.ofBytes [107]) none).serializeToString) =
          some result) ∧
    Answered .follower { Net.healthy with client := SendSchedule.choice fun _ => 0 }
      (Store.empty.put [107] (WireString.ofBytes [118])) 1 .directGet (WireString.ofBytes [107])
      result := by
  obtain ⟨enough, result, round, answered⟩ := answered_iff Operation.reads_parseFromString .follower
    bytewise (fun _ => 0) .three .healthy .always (Store.empty.put [107] (WireString.ofBytes [118]))
    1 .directGet (WireString.ofBytes [107]) none
  exact ⟨enough, result, round, answered.mpr ⟨rfl, by decide, Or.inl (by decide)⟩⟩

/-- A follower does not answer the GET of a key. -/
theorem not_answered_get : ∃ enough result, (∀ fuel, enough ≤ fuel →
      Role.follower.round Operation.parseFromString bytewise.choice fuel .three .healthy .never
        Store.empty (constructMessage
          (request 1 .get (WireString.ofBytes [107]) none).serializeToString) = some result) ∧
    ¬Answered .follower .healthy Store.empty 1 .get (WireString.ofBytes [107]) result := by
  obtain ⟨enough, round⟩ := Role.follower.round_eq Operation.parseFromString bytewise .three
    .healthy .never Store.empty
    (constructMessage (request 1 .get (WireString.ofBytes [107]) none).serializeToString)
  refine ⟨enough, _, round, ?_⟩
  rw [frames_constructMessage (request 1 .get (WireString.ofBytes [107]) none).length_serialize_lt]
  rintro ⟨r, resp, same, answered⟩
  have type := readRequest_type Operation.reads_parseFromString 1 .get (WireString.ofBytes [107]) none
  obtain ⟨_, rfl⟩ := (Role.follower.serve_eq _ _ _ _ _ _ _ _).mp same
  have silent : (Role.follower.handle .three .healthy Store.empty
      (readRequest Operation.parseFromString
        (request 1 .get (WireString.ofBytes [107]) none).serializeToString)).response = none :=
    followerHandle_silent Store.empty (by rw [type]; decide)
  -- Nothing is on the connection, and a response is never empty.
  have nothing := answered.1
  rw [Round.wire_eq (fun _ => 0) rfl, silent] at nothing
  exact constructMessage_ne_nil _ nothing.symm

end CloudLab.Replication
