import CloudLab.SingleNode.Message
import CloudLab.Library.Maps
import CloudLab.Transport.Framing

/-!
# The connection handler (`task1/source/server.cpp`)

`client_handler` reads the frames of one connection until `secure_recv` returns an
empty result, and answers on a second connection to the port of the first message.
The loop clears `msg` and receives the next frame, but never parses it: what it works
on is an element of an empty `ops`.
-/
namespace CloudLab.SingleNode

open Library Library.Wire CloudLab.Transport

abbrev Database := Store Bytes WireString

/-- One operation on the database, and the reply that is sent for it. -/
def handleOperation (db : Database) (od : OperationData) : Database × Option ServerReply :=
  match od.type with
  | .put =>
    (db.put (stdToString od.key.toInt) od.value,
      some { success_ := some true, opId_ := some od.opId })
  | .get =>
    let found := db (stdToString od.key.toInt8.toInt)
    (db, some { success_ := some found.isSome, value_ := some (found.getD default)
                opId_ := some od.opId })
  | _ => (db, none)

/-- What has been written to the reply connection. -/
def sendReply (wire : Bytes) : Option ServerReply → Bytes
  | none => wire
  | some reply => wire ++ constructMessage reply.serializeToString

variable (outOfRange : Option OperationData)

/-- The `for` loop, over the frames that are still to be received. -/
def handlerLoop : ClientMsg → Database → Bytes → List Bytes → Option (Database × Bytes)
  | _, db, wire, [] => some (db, wire)
  | msg, db, wire, payload :: rest =>
    if payload = [] then some (db, wire)
    else
      (msg.clear.ops outOfRange 0).bind fun od =>
        handlerLoop msg.clear (handleOperation db od).1 (sendReply wire (handleOperation db od).2) rest

/-- The database and the bytes sent to the client's port; nothing when the process
stops. -/
def clientHandler (db : Database) : List Bytes → Option (Database × Bytes)
  | [] => some (db, [])
  | payload :: rest =>
    if payload = [] then some (db, [])
    else
      let msg := (ClientMsg.parseFromString (cStr payload)).message
      (msg.ops outOfRange 0).bind fun _ => handlerLoop outOfRange msg db [] rest

/-! ## What the requests ask for -/

/-- A first message that the server decodes as INIT. -/
structure Init where
  payload : Bytes
  od : OperationData
  decodes : ClientMsg.parseFromString (cStr payload) = ⟨true, ⟨[od]⟩⟩
  kind : od.type = .init

/-- A message that decodes to one PUT or GET. -/
structure Request where
  payload : Bytes
  od : OperationData
  decodes : ClientMsg.parseFromString payload = ⟨true, ⟨[od]⟩⟩
  kind : od.type = .put ∨ od.type = .get

abbrev KeyMap := Store Int32 WireString

def execute (map : KeyMap) (od : OperationData) : KeyMap :=
  if od.type = .put then map.put od.key od.value else map

/-- The reply to an operation on a map. -/
def Answers (map : KeyMap) (od : OperationData) (reply : ServerReply) : Prop :=
  if od.type = .put then reply.success = true
  else reply.success = (map od.key).isSome ∧ ∀ v, map od.key = some v → reply.value = v

/-- One reply for each operation, in order. -/
def AnswersAll : KeyMap → List OperationData → List ServerReply → Prop
  | _, [], [] => True
  | map, od :: ods, reply :: replies => Answers map od reply ∧ AnswersAll (execute map od) ods replies
  | _, _, _ => False

def Represents (db : Database) (map : KeyMap) : Prop := ∀ k : Int32, db (stdToString k.toInt) = map k

/-- The session as the client sees it: its frames decode to the replies of a map, and the
database ends as that map. -/
def SessionMatches (db : Database) (init : Init) (requests : List Request) : Prop :=
  ∃ db' wire replies,
    clientHandler outOfRange db (init.payload :: requests.map Request.payload) = some (db', wire) ∧
    (frames wire).map ServerReply.schema.parseFromString = replies.map (Parsed.mk true) ∧
    ∀ map, Represents db map →
      AnswersAll map (requests.map Request.od) replies ∧
        Represents db' ((requests.map Request.od).foldl execute map)

/-! ## What the handler does -/

variable {outOfRange} in
theorem handlerLoop_cons {db : Database} {wire payload : Bytes} {rest : List Bytes}
    (nonempty : payload ≠ []) (msg : ClientMsg) :
    handlerLoop outOfRange msg db wire (payload :: rest) =
      outOfRange.bind fun od =>
        handlerLoop outOfRange {} (handleOperation db od).1
          (sendReply wire (handleOperation db od).2) rest := by
  simp [handlerLoop, nonempty, ClientMsg.clear, ClientMsg.ops]

theorem Request.payload_ne_nil (r : Request) : r.payload ≠ [] := by
  intro empty
  have decodes := r.decodes
  rw [empty] at decodes
  simp [ClientMsg.parseFromString, scan, scanFuel, ClientMsg.mergeOps] at decodes

theorem Init.payload_ne_nil (init : Init) : init.payload ≠ [] := by
  intro empty
  have decodes := init.decodes
  rw [empty] at decodes
  simp [ClientMsg.parseFromString, scan, scanFuel, ClientMsg.mergeOps] at decodes

theorem clientHandler_init (db : Database) (init : Init) (rest : List Bytes) :
    clientHandler outOfRange db (init.payload :: rest) =
      handlerLoop outOfRange ⟨[init.od]⟩ db [] rest := by
  simp [clientHandler, init.payload_ne_nil, init.decodes, ClientMsg.ops]

/-- Only the number of requests matters, not what they ask for. -/
theorem clientHandler_ignores (db : Database) (init : Init) (xs ys : List Request)
    (same : xs.length = ys.length) :
    clientHandler outOfRange db (init.payload :: xs.map Request.payload) =
      clientHandler outOfRange db (init.payload :: ys.map Request.payload) := by
  -- On both lists at once; every round sees the same element.
  have general : ∀ (xs ys : List Request) (msg : ClientMsg) (db : Database) (wire : Bytes),
      xs.length = ys.length →
      handlerLoop outOfRange msg db wire (xs.map Request.payload) =
        handlerLoop outOfRange msg db wire (ys.map Request.payload) := by
    intro xs
    induction xs with
    | nil =>
      intro ys msg db wire same
      rw [List.eq_nil_of_length_eq_zero same.symm]
    | cons x xs ih =>
      intro ys msg db wire same
      cases ys with
      | nil => cases same
      | cons y ys =>
        rw [List.map_cons, List.map_cons, handlerLoop_cons x.payload_ne_nil,
          handlerLoop_cons y.payload_ne_nil]
        congr 1
        funext od
        exact ih ys {} _ _ (Nat.succ.inj same)
  rw [clientHandler_init, clientHandler_init]
  exact general xs ys ⟨[init.od]⟩ db [] same

/-- The session is that of a map, whatever the access behind the end of `ops` yields,
exactly when nothing follows the INIT. -/
theorem sessionMatches_iff (db : Database) (init : Init) (requests : List Request) :
    (∀ outOfRange, SessionMatches outOfRange db init requests) ↔ requests = [] := by
  constructor
  · intro always
    by_contra nonempty
    -- Where the access stops the process, the first request is not answered.
    obtain ⟨first, rest, rfl⟩ := List.exists_cons_of_ne_nil nonempty
    obtain ⟨db', wire, _, handled, _⟩ := always none
    rw [clientHandler_init, List.map_cons, handlerLoop_cons first.payload_ne_nil] at handled
    cases handled
  · rintro rfl outOfRange
    refine ⟨db, [], [], ?_, rfl, fun map represents => ⟨trivial, represents⟩⟩
    rw [clientHandler_init]
    rfl

/-- A reply that was sent can be decoded. -/
def ServerReply.Complete (r : ServerReply) : Prop :=
  r.opId_.isSome = true ∧ r.success_.isSome = true

/-- The client gets back the replies that were sent. -/
theorem decode_replies {r₁ r₂ : ServerReply} (first : r₁.Complete) (second : r₂.Complete) :
    (frames (constructMessage r₁.serializeToString ++ constructMessage r₂.serializeToString)).map
      ServerReply.schema.parseFromString = [⟨true, r₁⟩, ⟨true, r₂⟩] := by
  have parsed : ∀ r : ServerReply, r.Complete →
      ServerReply.schema.parseFromString r.serializeToString = ⟨true, r⟩ := by
    intro r complete
    have back := ServerReply.schema.parse_serialize r
    rwa [show ServerReply.schema.initialized r = true by
      simp [ServerReply.schema, complete.1, complete.2]] at back
  have both := frames_flatMap_frame [r₁.serializeToString, r₂.serializeToString] (by
    intro payload member
    rcases List.mem_pair.mp member with rfl | rfl
    · exact r₁.length_serialize_lt
    · exact r₂.length_serialize_lt)
  rw [List.flatMap_cons, List.flatMap_cons, List.flatMap_nil, List.append_nil] at both
  rw [constructMessage_eq r₁.length_serialize_lt, constructMessage_eq r₂.length_serialize_lt, both,
    List.map_cons, List.map_cons, List.map_nil, parsed r₁ first, parsed r₂ second]

def Init.standard : Init where
  payload := [66, 6, 8, 8, 56, 164, 238, 1]
  od := { type_ := some .init, port_ := some 30500 }
  decodes := by decide
  kind := rfl

theorem one_byte_short : [(97 : UInt8)].length < Wire.sizeLimit := by decide

def Request.putOne : Request where
  payload := [66, 7, 8, 0, 32, 1, 42, 1, 97]
  od := { type_ := some .put, key_ := some 1, value_ := some ⟨[97], one_byte_short⟩ }
  decodes := by decide
  kind := Or.inl rfl

def Request.getOne : Request where
  payload := [66, 4, 8, 1, 32, 1]
  od := { type_ := some .get, key_ := some 1 }
  decodes := by decide
  kind := Or.inr rfl

/-- No element behind the end of `ops` makes PUT 1 followed by GET 1 right. -/
theorem not_sessionMatches_put_get :
    ¬∃ outOfRange, SessionMatches outOfRange Store.empty Init.standard
      [Request.putOne, Request.getOne] := by
  rintro ⟨outOfRange, db', wire, replies, handled, decoded, meant⟩
  obtain ⟨answers, _⟩ := meant Store.empty fun _ => rfl
  -- Two requests have two replies.
  obtain ⟨r₁, r₂, rfl⟩ : ∃ r₁ r₂, replies = [r₁, r₂] := by
    rcases replies with _ | ⟨r₁, _ | ⟨r₂, _ | ⟨r₃, rest⟩⟩⟩
    · exact answers.elim
    · exact answers.2.elim
    · exact ⟨r₁, r₂, rfl⟩
    · exact answers.2.2.elim
  obtain ⟨first, second, _⟩ := answers
  -- PUT is to succeed, and GET is to return the value.
  have stored : r₁.success = true := first
  have read : r₂.value = ⟨[97], by decide⟩ := second.2 _ (by decide)
  rw [clientHandler_init, List.map_cons, List.map_cons,
    handlerLoop_cons Request.putOne.payload_ne_nil] at handled
  obtain ⟨od, rfl, handled⟩ := Option.bind_eq_some_iff.mp handled
  rw [handlerLoop_cons Request.getOne.payload_ne_nil, Option.bind_some, List.map_nil, handlerLoop,
    Option.some.injEq, Prod.mk.injEq] at handled
  obtain ⟨_, rfl⟩ := handled
  -- Both replies are to the same element: two PUTs, two GETs or none.
  cases kind : od.type with
  | put =>
    have sent : ∀ db : Database, (handleOperation db od).2 =
        some { success_ := some true, opId_ := some od.opId } := by
      intro db
      rw [handleOperation, kind]
    rw [sent, sent, sendReply, sendReply, List.nil_append, decode_replies ⟨rfl, rfl⟩ ⟨rfl, rfl⟩] at decoded
    simp only [List.map_cons, List.cons.injEq, Parsed.mk.injEq] at decoded
    have bytes := congrArg WireString.bytes read
    rw [← decoded.2.1.2] at bytes
    cases bytes
  | get =>
    have kept : (handleOperation Store.empty od).1 = Store.empty := by rw [handleOperation, kind]
    have sent : (handleOperation Store.empty od).2 =
        some { success_ := some false, value_ := some default, opId_ := some od.opId } := by
      rw [handleOperation, kind]
      rfl
    rw [kept, sent, sendReply, sendReply, List.nil_append,
      decode_replies ⟨rfl, rfl⟩ ⟨rfl, rfl⟩] at decoded
    simp only [List.map_cons, List.cons.injEq, Parsed.mk.injEq] at decoded
    rw [← decoded.1.2] at stored
    cases stored
  | _ => simp [handleOperation, kind, sendReply] at decoded

end CloudLab.SingleNode
