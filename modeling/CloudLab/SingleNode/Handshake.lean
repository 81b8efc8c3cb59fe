import CloudLab.Library.Transition

/-!
# The reply channel (`task1/source/client_thread.h`, `server.cpp`)

A client connects to the server and announces the port for the replies; only then does it
create, bind and open the socket there. The worker that has received the announcement connects
to the port once, and serves the requests with whatever descriptor came of it. The INIT message
decodes to what was sent; a client whose `bind` fails exits, so that step is not taken.
-/
namespace CloudLab.SingleNode.Handshake

open Library

/-! ## State -/

/-- How far `connect_to_the_server` has come. -/
inductive Stage where
  | unconnected
  | connected
  | announced
  | created
  | bound
  | listening
  /-- In `accept4`. -/
  | waiting
  | accepted
  /-- The thread has ended; the listening socket stays open. -/
  | finished
  deriving DecidableEq, Repr

def Stage.isBound : Stage → Bool
  | .bound | .listening | .waiting | .accepted | .finished => true
  | _ => false

def Stage.listens : Stage → Bool
  | .listening | .waiting | .accepted | .finished => true
  | _ => false

/-- What a thread of the server is doing. -/
inductive Worker where
  | idle
  /-- In `secure_recv`, on the connection of a client. -/
  | receiving (client : Nat)
  | received (client : Nat) (clientPort : Int32)
  /-- In the loop; `reply` is the client that `client_send_fd` leads to, none where it is -1. -/
  | serving (client : Nat) (reply : Option Nat)
  deriving DecidableEq, Repr

/-- `client_base_addr + thread_id` -/
def replyPort (client : Nat) : Int32 := 30500 + Int32.ofNat client

def htons (port : Int32) : UInt16 := port.toUInt32.toUInt16

structure State (W : Type) where
  clients : Nat → Stage := fun _ => .unconnected
  /-- The port of the INIT message on a connection. -/
  sent : Nat → Option Int32 := fun _ => none
  /-- Whose socket a port is bound to. -/
  owner : UInt16 → Option Nat := fun _ => none
  /-- The workers whose connections a client has not accepted yet. -/
  arrived : Nat → List W := fun _ => []
  /-- The connections that the server has not accepted, and those that no worker has taken. -/
  backlog : List Nat := []
  list : List Nat := []
  workers : W → Worker := fun _ => .idle

/-! ## Steps -/

inductive Action (W : Type) where
  | connect (client : Nat)
  | announce (client : Nat)
  | create (client : Nat)
  /-- The kernel chooses the port where a client binds to port 0. -/
  | bind (client : Nat) (ephemeral : UInt16)
  | listen (client : Nat)
  | wait (client : Nat)
  | accept (client : Nat)
  | finish (client : Nat)
  /-- The server's main thread accepts a connection. -/
  | enqueue
  | take (worker : W)
  | receive (worker : W)
  | connectBack (worker : W)
  | close (worker : W)

variable {W : Type}

namespace State

/-- The port that a client's socket gets. -/
def boundPort (client : Nat) (ephemeral : UInt16) : UInt16 :=
  if htons (replyPort client) = 0 then ephemeral else htons (replyPort client)

/-- `connect_socket`, by whose socket it reaches. -/
def connectSocket (s : State W) (port : Int32) : Option Nat :=
  (s.owner (htons port)).filter fun client => (s.clients client).listens

def move (s : State W) (client : Nat) (stage : Stage) : State W :=
  { s with clients := Function.update s.clients client stage }

variable [DecidableEq W]

def setWorker (s : State W) (worker : W) (now : Worker) : State W :=
  { s with workers := Function.update s.workers worker now }

def next (s : State W) : Action W → Option (State W)
  | .connect client =>
    if s.clients client = .unconnected then
      some { s.move client .connected with backlog := s.backlog ++ [client] }
    else none
  | .announce client =>
    if s.clients client = .connected then
      some { s.move client .announced with
        sent := Function.update s.sent client (some (replyPort client)) }
    else none
  | .create client =>
    if s.clients client = .announced then some (s.move client .created) else none
  | .bind client ephemeral =>
    if s.clients client = .created ∧ boundPort client ephemeral ≠ 0 ∧
        s.owner (boundPort client ephemeral) = none then
      some { s.move client .bound with
        owner := Function.update s.owner (boundPort client ephemeral) (some client) }
    else none
  | .listen client =>
    if s.clients client = .bound then some (s.move client .listening) else none
  | .wait client =>
    if s.clients client = .listening then some (s.move client .waiting) else none
  | .accept client =>
    if s.clients client = .waiting ∧ s.arrived client ≠ [] then
      some { s.move client .accepted with
        arrived := Function.update s.arrived client (s.arrived client).tail }
    else none
  | .finish client =>
    if s.clients client = .accepted then some (s.move client .finished) else none
  | .enqueue =>
    match s.backlog with
    | [] => none
    | client :: rest => some { s with backlog := rest, list := s.list ++ [client] }
  | .take worker =>
    match s.workers worker, s.list with
    | .idle, client :: rest => some { s.setWorker worker (.receiving client) with list := rest }
    | _, _ => none
  | .receive worker =>
    match s.workers worker with
    | .receiving client => (s.sent client).map fun port => s.setWorker worker (.received client port)
    | _ => none
  | .connectBack worker =>
    match s.workers worker with
    | .received client port =>
      match s.connectSocket port with
      | none => some (s.setWorker worker (.serving client none))
      | some reached =>
        some { s.setWorker worker (.serving client (some reached)) with
          arrived := Function.update s.arrived reached (s.arrived reached ++ [worker]) }
    | _ => none
  | .close worker =>
    match s.workers worker with
    | .serving client _ =>
      if s.clients client = .finished then some (s.setWorker worker .idle) else none
    | _ => none

end State

def system (W : Type) [DecidableEq W] : System (State W) (Action W) where
  init s := s = {}
  next := State.next

/-- Replies go to the client that is served, and nobody is served without a reply descriptor
while it waits for the connection. -/
def Established (s : State W) : Prop :=
  (∀ worker client reply, s.workers worker = .serving client reply → reply = some client) ∧
    ∀ worker client, s.workers worker = .serving client none → s.clients client ≠ .waiting

/-- A worker connects back when the client listens, and on the port that it has announced. -/
def Ready (s : State W) : Action W → Prop
  | .connectBack worker =>
    match s.workers worker with
    | .received client port => (s.clients client).listens ∧ htons port ≠ 0
    | _ => True
  | _ => True

/-! ## Announced and bound ports -/

/-- The ports that are known are the clients' own. -/
structure Known (s : State W) : Prop where
  sent : ∀ client port, s.sent client = some port → port = replyPort client
  received : ∀ worker client port, s.workers worker = .received client port →
    port = replyPort client
  owner : ∀ client, (s.clients client).isBound → htons (replyPort client) ≠ 0 →
    s.owner (htons (replyPort client)) = some client
  reply : ∀ worker client reply, s.workers worker = .serving client reply → reply = some client

section Steps

variable [DecidableEq W] {s : State W}

omit [DecidableEq W] in
/-- A client goes on, and binds nothing. -/
theorem Known.move (known : Known s) {client : Nat} {stage : Stage}
    (bound : stage.isBound → (s.clients client).isBound) : Known (s.move client stage) := by
  refine ⟨known.sent, known.received, fun other isBound => ?_, known.reply⟩
  by_cases same : other = client
  · subst same
    simp only [State.move, Function.update_self] at isBound
    exact known.owner other (bound isBound)
  · simp only [State.move, Function.update_of_ne same] at isBound
    exact known.owner other isBound

theorem Known.setWorker (known : Known s) {worker : W} {now : Worker}
    (received : ∀ client port, now = .received client port → port = replyPort client)
    (reply : ∀ client reply, now = .serving client reply → reply = some client) :
    Known (s.setWorker worker now) := by
  refine ⟨known.sent, fun other client port doing => ?_, known.owner, fun other client r doing => ?_⟩
  · by_cases same : other = worker
    · subst same
      simp only [State.setWorker, Function.update_self] at doing
      exact received client port doing
    · simp only [State.setWorker, Function.update_of_ne same] at doing
      exact known.received other client port doing
  · by_cases same : other = worker
    · subst same
      simp only [State.setWorker, Function.update_self] at doing
      exact reply client r doing
    · simp only [State.setWorker, Function.update_of_ne same] at doing
      exact known.reply other client r doing

omit [DecidableEq W] in
/-- A client that listens on the port it has announced is reached there. -/
theorem Known.connectSocket (known : Known s) {client : Nat} (listens : (s.clients client).listens)
    (fixed : htons (replyPort client) ≠ 0) :
    s.connectSocket (replyPort client) = some client := by
  have bound : (s.clients client).isBound := by
    cases stage : s.clients client <;> simp_all [Stage.listens, Stage.isBound]
  simp [State.connectSocket, known.owner client bound fixed, listens]

omit [DecidableEq W] in
theorem Known.bind (known : Known s) {client : Nat} {ephemeral : UInt16}
    (free : s.owner (State.boundPort client ephemeral) = none) :
    Known { s.move client .bound with
      owner := Function.update s.owner (State.boundPort client ephemeral) (some client) } := by
  refine ⟨known.sent, known.received, fun other isBound fixed => ?_, known.reply⟩
  by_cases same : other = client
  · subst same
    simp [State.boundPort, fixed]
  -- The port of another client is taken already.
  · simp only [State.move, Function.update_of_ne same] at isBound
    have owned := known.owner other isBound fixed
    have different : htons (replyPort other) ≠ State.boundPort client ephemeral := by
      intro same
      rw [same, free] at owned
      cases owned
    simp only [Function.update_of_ne different, owned]

theorem Known.step (known : Known s) {t : State W} {a : Action W} (ready : Ready s a)
    (taken : s.next a = some t) : Known t := by
  cases a with
  | connect client =>
    obtain ⟨stage, same⟩ := Option.ite_none_right_eq_some.mp taken
    cases same
    exact ⟨known.sent, known.received, (known.move (by simp [Stage.isBound])).owner, known.reply⟩
  | announce client =>
    obtain ⟨stage, same⟩ := Option.ite_none_right_eq_some.mp taken
    cases same
    refine ⟨fun other port sent => ?_, known.received,
      (known.move (by simp [Stage.isBound])).owner, known.reply⟩
    by_cases own : other = client
    · subst own
      simp only [Function.update_self] at sent
      exact (Option.some.inj sent).symm
    · simp only [Function.update_of_ne own] at sent
      exact known.sent other port sent
  | create client =>
    obtain ⟨stage, same⟩ := Option.ite_none_right_eq_some.mp taken
    cases same
    exact known.move (by simp [Stage.isBound])
  | bind client ephemeral =>
    obtain ⟨⟨stage, nonzero, free⟩, same⟩ := Option.ite_none_right_eq_some.mp taken
    cases same
    exact known.bind free
  | listen client | wait client | finish client =>
    obtain ⟨stage, same⟩ := Option.ite_none_right_eq_some.mp taken
    cases same
    exact known.move (by simp [stage, Stage.isBound])
  | accept client =>
    obtain ⟨⟨stage, pending⟩, same⟩ := Option.ite_none_right_eq_some.mp taken
    cases same
    exact ⟨known.sent, known.received, (known.move (by simp [stage, Stage.isBound])).owner,
      known.reply⟩
  | enqueue =>
    simp only [State.next] at taken
    split at taken
    · cases taken
    · cases taken
      exact ⟨known.sent, known.received, known.owner, known.reply⟩
  | take worker =>
    simp only [State.next] at taken
    split at taken
    next client rest idle list =>
      cases taken
      have kept : Known (s.setWorker worker (.receiving client)) := known.setWorker nofun nofun
      exact ⟨kept.sent, kept.received, kept.owner, kept.reply⟩
    · cases taken
  | receive worker =>
    simp only [State.next] at taken
    split at taken
    next client doing =>
      obtain ⟨port, sent, rfl⟩ := Option.map_eq_some_iff.mp taken
      refine known.setWorker ?_ nofun
      rintro _ _ ⟨⟩
      exact known.sent client port sent
    · cases taken
  | connectBack worker =>
    simp only [State.next, Ready] at taken ready
    split at taken
    next client port doing =>
      simp only [doing] at ready
      obtain rfl := known.received worker client port doing
      rw [known.connectSocket ready.1 ready.2] at taken
      cases taken
      have kept : Known (s.setWorker worker (.serving client (some client))) := by
        refine known.setWorker nofun ?_
        rintro _ _ ⟨⟩
        rfl
      exact ⟨kept.sent, kept.received, kept.owner, kept.reply⟩
    · cases taken
  | close worker =>
    simp only [State.next] at taken
    split at taken
    · obtain ⟨_, same⟩ := Option.ite_none_right_eq_some.mp taken
      cases same
      exact known.setWorker nofun nofun
    · cases taken

end Steps

/-- In every run in which the workers connect back only to clients that listen, every reply
channel is established. -/
theorem established_of_ready {W : Type} [DecidableEq W] {s : State W}
    (reachable : (system W).Reachable Ready s) : Established s := by
  have known : Known s := by
    apply reachable.invariant
    · rintro _ rfl
      exact ⟨nofun, nofun, nofun, nofun⟩
    · intro s a t known ready taken
      exact known.step ready taken
  refine ⟨known.reply, fun worker client doing => ?_⟩
  cases known.reply worker client none doing

/-! ## Two runs -/

instance (s : State W) : DecidablePred (Ready s)
  | .connectBack worker =>
    match doing : s.workers worker with
    | .received client port =>
      decidable_of_iff ((s.clients client).listens ∧ htons port ≠ 0) (by simp only [Ready, doing])
    | .idle | .receiving _ | .serving _ _ => .isTrue (by simp only [Ready, doing])
  | .connect _ | .announce _ | .create _ | .bind _ _ | .listen _ | .wait _ | .accept _ | .finish _
  | .enqueue | .take _ | .receive _ | .close _ => .isTrue trivial

/-- The client is in `accept4` before the worker connects back. -/
def patient : List (Action Unit) :=
  [.connect 0, .announce 0, .enqueue, .take (), .receive (), .create 0, .bind 0 0, .listen 0, .wait 0,
    .connectBack ()]

/-- The worker connects back before the client has created its socket. -/
def hasty : List (Action Unit) :=
  [.connect 0, .announce 0, .enqueue, .take (), .receive (), .connectBack (), .create 0, .bind 0 0,
    .listen 0, .wait 0]

theorem established_of_ready_patient :
    ∃ s, (system Unit).Reachable Ready s ∧ s.workers () = .serving 0 (some 0) ∧ Established s := by
  let run := ((system Unit).guarded Ready).run {} patient
  have defined : run.isSome := by decide
  have serving : ∀ s ∈ run, s.workers () = .serving 0 (some 0) := by decide
  obtain ⟨s, ran⟩ := Option.isSome_iff_exists.mp defined
  have reachable := System.Reachable.guarded (.start rfl) ran
  exact ⟨s, reachable, serving s ran, established_of_ready reachable⟩

/-- The server serves a client that waits for a connection which nobody will make. -/
theorem not_established_hasty :
    ∃ s, (system Unit).Reachable System.Always s ∧ ¬Established s := by
  let run := (system Unit).run {} hasty
  have defined : run.isSome := by decide
  have stuck : ∀ s ∈ run, s.workers () = .serving 0 none ∧ s.clients 0 = .waiting := by decide
  obtain ⟨s, ran⟩ := Option.isSome_iff_exists.mp defined
  obtain ⟨serving, waiting⟩ := stuck s ran
  exact ⟨s, System.Reachable.run (.start rfl) ran, fun established =>
    established.2 () 0 serving waiting⟩

end CloudLab.SingleNode.Handshake
