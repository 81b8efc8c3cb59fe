import CloudLab.Replication.ClientPort

/-!
# Client runs against the leader (`task3/source/client.cpp`)

A run of the client sends one request and prints what it makes of the one response. Key and
value of the command line pass two encodings and two C-string parses on their way to the
database, and the value the same on its way back. The parser is the one that keeps every
completely read field. They pass unchanged, with one exception:
an empty key ends the C string that the leader parses, in front of the value
(`foldl_apply_eq`). `runsMatch_iff` is what that means for a sequence of runs.
-/
namespace CloudLab.Replication

open Library Library.Wire CloudLab.Transport

/-- A string of the command line: a C string, and shorter than this (`ARG_MAX` is far less),
so that a message of two of them can be written. -/
structure Argument where
  string : WireString
  plain : ZeroFree string.bytes
  short : string.bytes.length < 2 ^ 30 - 16

namespace Argument

def empty : Argument := ⟨default, by simp, by decide⟩

theorem ext {a b : Argument} (same : a.string = b.string) : a = b := by
  cases a
  cases b
  cases same
  rfl

instance : DecidableEq Argument := fun a b =>
  decidable_of_iff (a.string = b.string) ⟨ext, fun same => same ▸ rfl⟩

theorem bytes_injective {a b : Argument} (same : a.string.bytes = b.string.bytes) : a = b :=
  ext (WireString.ext same)

theorem bytes_eq_nil_iff (a : Argument) : a.string.bytes = [] ↔ a = empty :=
  ⟨fun nil => bytes_injective nil, fun same => by rw [same]; rfl⟩

@[simp] theorem cStr_string (a : Argument) : a.string.cStr = a.string :=
  WireString.cStr_eq_self a.plain

end Argument

inductive Run where
  | put (key value : Argument)
  | get (key : Argument)
  deriving DecidableEq

/-- The message of a run, with `req.set_id(1)`. -/
def Run.message : Run → ClientMsg
  | .put key value => request 1 .put key.string (some value.string)
  | .get key => request 1 .get key.string none

/-- The exit code and what a GET prints. -/
structure Result where
  exit : Nat
  printed : Option Bytes
  deriving DecidableEq

/-- The end of `main` of the client, behind `secure_recv`; no result for a null pointer. -/
def Run.result (run : Run) (res : Nat × Option Bytes) : Option Result :=
  res.2.map fun buf =>
    let resp := (ServerResponse.parseFromString (cStr buf)).message
    let ret := if res.1 = 0 then 4 else 0
    { exit :=
        match resp.status with
        | .notLeader => 2
        | .noKey => 3
        | .ok | .error => ret
      printed :=
        match run with
        | .put _ _ => none
        | .get _ => some (resp.value.cStr.bytes ++ [10]) }

/-- How the two connections of a run behave: the leader's and the client's `recv`, the
client's `send`; and the leader's round. -/
structure Channel where
  leader : RecvSchedule
  client : RecvSchedule
  request : SendSchedule
  response : SendSchedule
  connects : UInt16 → Bool
  peer : UInt16 → Nat → SendChoice

/-- The database takes every PUT. -/
def Channel.net (ch : Channel) : Net := ⟨ch.response.choice, ch.connects, ch.peer, true⟩

/-- One run of the client against the leader: the leader's database behind it and the result.
The outer `Option` is the fuel of the loops, the inner one the end of a process. A follower that
is gone makes a `send` fail, without a SIGPIPE. -/
def runClient (c : Cluster) (fuel : Nat) (db : Database) (ch : Channel) (run : Run) :
    Option (Option (Database × Result)) :=
  (Role.leader.round Operation.parseFromString ch.leader.choice fuel c ch.net .never db
    (sendWrapper ch.request.choice run.message.serializeToString).wire).bind fun
    | none => some none
    | some round =>
      (secureRecv ch.client.choice fuel ⟨round.wire ch.net, 0⟩).map fun r =>
        (run.result r.1).map fun result => (round.db, result)

def runClients (c : Cluster) (fuel : Nat) (db : Database) :
    List (Channel × Run) → Option (Option (Database × List Result))
  | [] => some (some (db, []))
  | (ch, run) :: rest =>
    (runClient c fuel db ch run).bind fun
      | none => some none
      | some (db, result) =>
        (runClients c fuel db rest).map fun r => r.map fun (db, results) => (db, result :: results)

/-! ## What the client makes of a response -/

/-- A response with an id keeps its status, and a value that is not empty and has no zero
byte. -/
theorem parse_cStr_response {i : Int32} (known : i ≠ 0) (s : Status) (v : Option WireString) :
    (ServerResponse.parseFromString
        (cStr (ServerResponse.serializeToString ⟨some i, some s, v⟩))).message =
      ⟨some i, some s, v.filter fun v => (Payload.bytes v.bytes).Survives⟩ := by
  have status : (Payload.varint s.number).Survives := by
    cases s <;> simp [Payload.Survives, Status.number]
  rw [ServerResponse.parseFromString, ServerResponse.serializeToString,
    ServerResponse.schema.parse_cStr_message fun _ _ _ => rfl]
  rcases v with _ | v
  · simp [ServerResponse.schema, ServerResponse.fields, known, status]
  · by_cases value : (Payload.bytes v.bytes).Survives <;>
      simp [ServerResponse.schema, ServerResponse.fields, known, status, value, Option.filter_some]

theorem serialize_response_ne_nil (i : Int32) (s : Option Status) (v : Option WireString) :
    ServerResponse.serializeToString ⟨some i, s, v⟩ ≠ [] := by
  have first : ServerResponse.fields ⟨some i, s, v⟩ =
      ⟨1, int32 i⟩ :: (ServerResponse.fields ⟨some i, s, v⟩).tail := rfl
  rw [ServerResponse.serializeToString, Schema.serializeToString]
  change encodeAll (ServerResponse.fields ⟨some i, s, v⟩) ≠ []
  rw [first, encodeAll_cons]
  exact List.append_ne_nil_of_left_ne_nil (encode_ne_nil _) _

/-- What the client prints of a value. -/
def shown (v : Option WireString) : Bytes :=
  ((v.filter fun v => (Payload.bytes v.bytes).Survives).getD default).cStr.bytes

theorem shown_some {v : WireString} (free : ZeroFree v.bytes) : shown (some v) = v.bytes := by
  by_cases nonempty : v.bytes = []
  · have empty : v = default := WireString.bytes_eq_nil_iff.mp nonempty
    simp [shown, Payload.Survives, Option.filter_some, empty]
  · have survives : (Payload.bytes v.bytes).Survives := ⟨nonempty, free⟩
    simp only [shown, Option.filter_some, survives, decide_true, ite_true, Option.getD_some]
    exact congrArg WireString.bytes (WireString.cStr_eq_self free)

/-- The exit code is decided by the status alone: the response is never an empty frame. -/
theorem result_response (run : Run) {i : Int32} (known : i ≠ 0) (s : Status)
    (v : Option WireString) :
    run.result (received [ServerResponse.serializeToString ⟨some i, some s, v⟩]) =
      some { exit := match s with | .notLeader => 2 | .noKey => 3 | .ok | .error => 0
             printed := match run with
               | .put _ _ => none
               | .get _ => some (shown v ++ [10]) } := by
  have nonempty : (ServerResponse.serializeToString ⟨some i, some s, v⟩).length ≠ 0 := by
    simpa using serialize_response_ne_nil i (some s) v
  simp only [Run.result, received, Option.map_some, parse_cStr_response known, nonempty, ite_false,
    ServerResponse.status, ServerResponse.value, Option.getD_some, shown]

/-! ## What the leader makes of a request -/

/-- What a PUT leaves under its key. -/
def stored (k v : Argument) : WireString := if k = .empty then default else v.string

theorem zeroFree_stored (k v : Argument) : ZeroFree (stored k v).bytes := by
  unfold stored
  split
  · simp
  · exact v.plain

/-- An argument is read as it was written, an empty one because it is absent. -/
theorem survives_iff_ne_empty (a : Argument) :
    (Payload.bytes a.string.bytes).Survives ↔ a ≠ .empty := by
  simp only [Payload.Survives, a.plain, and_true, ne_eq, a.bytes_eq_nil_iff]

/-- What the leader reads of the request of a run. -/
def Run.read (run : Run) : ClientMsg :=
  readRequest Operation.parseFromString run.message.serializeToString

theorem read_put (k v : Argument) :
    (Run.put k v).read.type = .put ∧
      (Run.put k v).read.key.cStr = k.string ∧
      (Run.put k v).read.value.cStr = stored k v := by
  rw [Run.read, readRequest, Run.message, request, Operation.parse_cStr_request, if_neg (by decide)]
  by_cases empty : k = .empty
  -- Neither key nor value is read.
  · rw [if_neg (by simpa [survives_iff_ne_empty] using empty)]
    refine ⟨rfl, ?_, ?_⟩
    · rw [empty]
      exact WireString.cStr_default
    · rw [stored, if_pos empty]
      exact WireString.cStr_default
  · rw [if_pos ((survives_iff_ne_empty k).mpr empty)]
    refine ⟨rfl, k.cStr_string, ?_⟩
    rw [stored, if_neg empty]
    by_cases none : v = .empty
    · rw [none]
      exact WireString.cStr_default
    · have value := (survives_iff_ne_empty v).mpr none
      simp only [Operation.value, Option.filter_some, value, decide_true, ite_true,
        Option.getD_some, Argument.cStr_string]

theorem read_get (k : Argument) :
    (Run.get k).read.type = .get ∧
      (Run.get k).read.key.cStr.bytes = k.string.bytes := by
  have type := readRequest_type Operation.reads_parseFromString 1 .get k.string none
  have key := readRequest_key Operation.reads_parseFromString (i := 1) (by decide) .get k.plain none
  exact ⟨type, key⟩

/-- What a run does to the database. -/
def Run.apply (db : Database) : Run → Database
  | .put k v => db.put k.string.bytes (stored k v)
  | .get _ => db

/-- What comes of a run on this database. -/
def Run.answer (db : Database) : Run → Result
  | .put _ _ => ⟨0, none⟩
  | .get k =>
    match db k.string.bytes with
    | some v => ⟨0, some (shown (some v) ++ [10])⟩
    | none => ⟨3, some [10]⟩

/-- The leader's round, in terms of what the client sent. -/
theorem leaderHandle_run (c : Cluster) (net : Net) (accepts : net.put = true) (db : Database)
    (run : Run) :
    (leaderHandle c net db run.read).db = run.apply db ∧
    ∃ s v, (leaderHandle c net db run.read).response =
        some ⟨some 1, some s, v⟩ ∧
      run.result (received [ServerResponse.serializeToString ⟨some 1, some s, v⟩]) =
        some (run.answer db) := by
  cases run with
  -- A PUT is stored and answered OK.
  | put k v =>
    have id : (Run.put k v).read.id = 1 :=
      readRequest_id Operation.reads_parseFromString 1 .put k.string (some v.string)
    obtain ⟨type, key, value⟩ := read_put k v
    constructor
    · simp only [leaderHandle, type, accepts, ite_true, putOperation, key, value, Run.apply]
    · refine ⟨.ok, none, ?_, result_response _ (by decide) _ _⟩
      simp only [leaderHandle, type, accepts, ite_true]
      exact congrArg (fun i => some (ServerResponse.mk (some i) (some .ok) none)) id
  -- A GET is answered with what the database holds.
  | get k =>
    have id : (Run.get k).read.id = 1 :=
      readRequest_id Operation.reads_parseFromString 1 .get k.string none
    obtain ⟨type, key⟩ := read_get k
    constructor
    · simp only [leaderHandle, type, Run.apply]
    · simp only [leaderHandle, type, handleGet, key, id, Run.answer]
      cases db k.string.bytes with
      | some v => exact ⟨.ok, some v, rfl, result_response _ (by decide) _ _⟩
      | none => exact ⟨.noKey, none, rfl, result_response _ (by decide) _ _⟩

/-- With nothing failing but the followers, a run comes to an end. -/
theorem runClient_eq (c : Cluster) (db : Database) (ch : Channel) (run : Run) :
    ∃ enough, ∀ fuel, enough ≤ fuel →
      runClient c fuel db ch run = some (some (run.apply db, run.answer db)) := by
  obtain ⟨applied, s, v, left, read⟩ := leaderHandle_run c ch.net rfl db run
  obtain ⟨enough, served⟩ := Role.leader.round_eq Operation.parseFromString ch.leader c ch.net .never
    db (constructMessage run.message.serializeToString)
  rw [frames_constructMessage run.message.length_serialize_lt] at served
  have ends := (Role.leader.serve_eq Operation.parseFromString c ch.net .never db
    run.message.serializeToString [] _).mpr ⟨unbroken_never _ _ _ _ _, rfl⟩
  rw [ends] at served
  change ∀ fuel, enough ≤ fuel → _ = some (some (leaderHandle c ch.net db run.read)) at served
  -- The client receives the one frame that the leader sent.
  obtain ⟨enough', fd', _, answered⟩ := secureRecv_frames ch.client
    ⟨(leaderHandle c ch.net db run.read).wire ch.net, 0⟩
  rw [Round.wire_eq ch.response rfl, left] at answered
  simp only [frames_constructMessage (ServerResponse.length_serialize_lt _)] at answered
  refine ⟨max enough enough', fun fuel more => ?_⟩
  rw [runClient, sendWrapper, (secureSend_wire ch.request _ _).1, served fuel (by omega),
    Option.bind_some]
  simp only [@Round.wire_eq ch.net ch.response rfl, left, answered fuel (by omega),
    Option.map_some, read, applied]

/-- What comes of the runs one after the other. -/
def answers (db : Database) : List Run → List Result
  | [] => []
  | run :: rest => run.answer db :: answers (run.apply db) rest

theorem answers_getElem (db : Database) (earlier : List Run) (run : Run) (later : List Run) :
    (answers db (earlier ++ run :: later))[earlier.length]? =
      some (run.answer (earlier.foldl Run.apply db)) := by
  induction earlier generalizing db with
  | nil => rfl
  | cons first earlier ih => exact ih (first.apply db)

theorem runClients_eq (c : Cluster) (db : Database) (steps : List (Channel × Run)) :
    ∃ enough, ∀ fuel, enough ≤ fuel → runClients c fuel db steps =
      some (some ((steps.map Prod.snd).foldl Run.apply db, answers db (steps.map Prod.snd))) := by
  induction steps generalizing db with
  | nil => exact ⟨0, fun _ _ => rfl⟩
  | cons step steps ih =>
    obtain ⟨ch, run⟩ := step
    obtain ⟨enough, first⟩ := runClient_eq c db ch run
    obtain ⟨enough', others⟩ := ih (run.apply db)
    refine ⟨max enough enough', fun fuel more => ?_⟩
    simp [runClients, first fuel (by omega), others fuel (by omega), answers]

/-! ## The sequence of runs as a map -/

def Run.record (m : Argument → Option Argument) : Run → Argument → Option Argument
  | .put k v => Function.update m k (some v)
  | .get _ => m

/-- The value of the latest PUT of a key. -/
def latest (runs : List Run) : Argument → Option Argument := runs.foldl Run.record fun _ => none

/-- What a run should come to. -/
def Right (m : Argument → Option Argument) : Run → Result → Prop
  | .put _ _, r => r.exit = 0
  | .get k, r =>
    match m k with
    | some v => r.exit = 0 ∧ r.printed = some (v.string.bytes ++ [10])
    | none => r.exit = 3

/-- All processes come to their end, and every run has the result it has on a map. -/
def RunsMatch (runs : List Run) (outcome : Option (Database × List Result)) : Prop :=
  ∃ db results, outcome = some (db, results) ∧
    ∀ earlier run later, runs = earlier ++ run :: later →
      ∃ r, results[earlier.length]? = some r ∧ Right (latest earlier) run r

/-- The database is the map, but for the values under the empty key. -/
theorem foldl_apply_eq (runs : List Run) (k : Argument) :
    runs.foldl Run.apply Store.empty k.string.bytes = (latest runs k).map (stored k) := by
  induction runs using List.reverseRecOn with
  | nil => rfl
  | append_singleton runs run ih =>
    rw [List.foldl_concat, latest, List.foldl_concat, ← latest]
    cases run with
    | get _ => exact ih
    | put j v =>
      simp only [Run.apply, Store.put_apply, Run.record]
      -- The latest PUT of this key, or of another one.
      by_cases same : k = j
      · simp [same]
      · have other : k.string.bytes ≠ j.string.bytes := fun h => same (Argument.bytes_injective h)
        rw [if_neg other, Function.update_of_ne same, ih]

theorem right_answer_iff (earlier : List Run) (run : Run) :
    Right (latest earlier) run (run.answer (earlier.foldl Run.apply Store.empty)) ↔
      (run = .get .empty → ∀ v, latest earlier .empty = some v → v = .empty) := by
  cases run with
  | put k v => simp [Right, Run.answer]
  | get k =>
    rw [Right, Run.answer, foldl_apply_eq]
    cases found : latest earlier k with
    | none =>
      simp only [Option.map_none, true_iff]
      rintro same v held
      rw [← Run.get.inj same, found] at held
      cases held
    | some v =>
      simp only [Option.map_some, shown_some (zeroFree_stored k v), true_and, Option.some.injEq,
        List.append_cancel_right_eq, Run.get.injEq]
      by_cases empty : k = .empty
      -- The database holds the empty string, whatever was put.
      · subst empty
        simp only [stored, ite_true, found, Option.some.injEq, forall_const, forall_eq']
        rw [← v.bytes_eq_nil_iff, eq_comm]
        rfl
      · simp [stored, empty]

/-- The runs have the results they have on a map exactly when every GET of the empty key
finds the empty value last put under it, or no PUT of it. -/
theorem runsMatch_iff (c : Cluster) (steps : List (Channel × Run)) :
    ∃ enough outcome,
      (∀ fuel, enough ≤ fuel → runClients c fuel Store.empty steps = some outcome) ∧
      (RunsMatch (steps.map Prod.snd) outcome ↔
        ∀ earlier later, steps.map Prod.snd = earlier ++ .get .empty :: later →
          ∀ v, latest earlier .empty = some v → v = .empty) := by
  obtain ⟨enough, ends⟩ := runClients_eq c Store.empty steps
  refine ⟨enough, _, ends, ?_⟩
  constructor
  · rintro ⟨_, _, same, right⟩ earlier later split
    cases same
    -- The result in question is that of the run behind `earlier`.
    obtain ⟨r, found, holds⟩ := right earlier _ later split
    rw [split, answers_getElem, Option.some.injEq] at found
    rw [← found, right_answer_iff] at holds
    exact holds rfl
  · intro plain
    refine ⟨_, _, rfl, fun earlier run later split => ?_⟩
    refine ⟨run.answer (earlier.foldl Run.apply Store.empty), ?_, ?_⟩
    · rw [split, answers_getElem]
    · rw [right_answer_iff]
      rintro rfl
      exact plain earlier later split

/-- Everything arrives byte by byte. -/
def Channel.bytewise : Channel :=
  ⟨Transport.bytewise, Transport.bytewise, fun _ => 0, fun _ => 0, fun _ => true, fun _ _ => .accept 0⟩

/-- The string "a". -/
def Argument.letterA : Argument where
  string := WireString.ofBytes [97]
  plain := by decide
  short := by decide

/-- PUT "" a, then GET "": the client prints an empty line. -/
theorem not_runsMatch_empty : ∃ enough outcome,
    (∀ fuel, enough ≤ fuel → runClients .three fuel Store.empty
      [(.bytewise, .put .empty .letterA), (.bytewise, .get .empty)] = some outcome) ∧
    ¬RunsMatch [.put .empty .letterA, .get .empty] outcome := by
  obtain ⟨enough, ends⟩ := runClients_eq .three Store.empty
    [(.bytewise, .put .empty .letterA), (.bytewise, .get .empty)]
  refine ⟨enough, _, ends, ?_⟩
  rintro ⟨_, _, same, right⟩
  cases same
  obtain ⟨r, found, holds⟩ := right [.put .empty .letterA] (.get .empty) [] rfl
  cases found
  have empty := (right_answer_iff [.put .empty .letterA] (.get .empty)).mp holds rfl .letterA rfl
  revert empty
  decide

end CloudLab.Replication
