import CloudLab.Counter.Channel

/-!
# Sessions with the counter server (`task0/server.cpp`, `client.cpp`)

The server takes up one connection after the other. A client sends ADD and SUB in turn and then
TERMINATION, which the server answers with the counter. Here the connections take and return
whole messages and sizes, see `Connection`.
-/
namespace CloudLab.Counter

open Library Library.Wire

/-- One direction of a reliable connection: `send` takes every message whole, and the four bytes
of a size arrive in one `read`. -/
structure Connection where
  sent : Limits
  received : Limits
  takes : ∀ call t a, (frame t a).length ≤ sent call + 1
  sizes : ∀ call, intSize ≤ received call + 1

theorem length_frame_le (_call : Nat) (t : OperationType) (a : Int64) : (frame t a).length ≤ 16 + 1 := by
  have fits := (length_body t a).2
  rw [frame, List.length_append, length_sizeText, intSize]
  omega

theorem intSize_le (_call : Nat) : intSize ≤ 3 + 1 := Nat.le_refl 4

instance : Inhabited Connection := ⟨⟨fun _ => 16, fun _ => 3, length_frame_le, intSize_le⟩⟩

/-- The arguments of a client, and its connection in both directions. -/
structure Session where
  numMessages : Nat
  add : Int32
  sub : Int32
  up : Connection
  down : Connection

/-! ## Client and server -/

/-- The loop of the client, and the message behind it. -/
def Session.messages (s : Session) : List (OperationType × Int64) :=
  (List.range s.numMessages).map (fun i =>
    if i % 2 = 0 then (.add, s.add.toInt64) else (.sub, s.sub.toInt64)) ++ [(.termination, 0)]

/-- What the server keeps of a connection: the counter, the messages it has decoded, and the
bytes it has sent. -/
structure Served where
  number : Int64
  received : List (OperationType × Int64)
  reply : Bytes

/-- The inner loop of the server; the fuel counts its rounds. -/
def serverLoop (received : Limits) (limit : Nat) : Nat → Int64 → ReadEnd → Option Served
  | 0, _, _ => none
  | fuel + 1, number, fd =>
    (recvMsg received fuel fd).bind fun (m, fd) =>
      match m.1 with
      | .add => (serverLoop received limit fuel (number + m.2) fd).map fun r =>
          { r with received := m :: r.received }
      | .sub => (serverLoop received limit fuel (number - m.2) fd).map fun r =>
          { r with received := m :: r.received }
      | .termination => some ⟨number, [m], sendMsg limit .counter number⟩
      | .counter => (serverLoop received limit fuel number fd).map fun r =>
          { r with received := m :: r.received }

/-- What the client prints, and what the server has made of its messages. -/
structure Outcome where
  printed : Int64
  served : Served

/-- One client against the server. -/
def Session.run (fuel : Nat) (number : Int64) (s : Session) : Option Outcome :=
  (serverLoop s.up.received (s.down.sent 0) fuel number
      { stream := sendMsgs s.up.sent 0 s.messages }).bind fun served =>
    (recvMsg s.down.received fuel { stream := served.reply }).map fun (m, _) => ⟨m.2, served⟩

/-- The outer loop of the server. -/
def runSessions (fuel : Nat) : Int64 → List Session → Option (List Outcome)
  | _, [] => some []
  | number, s :: rest =>
    (s.run fuel number).bind fun o =>
      (runSessions fuel o.served.number rest).map fun os => o :: os

/-- What a session adds to the counter. -/
def Session.total (s : Session) : Int :=
  ((s.numMessages + 1) / 2 : Nat) * s.add.toInt - (s.numMessages / 2 : Nat) * s.sub.toInt

/-! ## One session -/

/-- The counter behind messages that are no TERMINATION. -/
def count (number : Int64) (m : OperationType × Int64) : Int64 :=
  match m.1 with
  | .add => number + m.2
  | .sub => number - m.2
  | .termination | .counter => number

/-- The server takes up the messages one by one, up to TERMINATION. -/
theorem serverLoop_messages (c : Connection) (limit : Nat) (a : Int64)
    (ms : List (OperationType × Int64)) (kinds : ∀ m ∈ ms, m.1 ≠ .termination) (number : Int64)
    (sends reads fuel : Nat) (enough : ms.length + 14 ≤ fuel) :
    serverLoop c.received limit fuel number
        { stream := sendMsgs c.sent sends (ms ++ [(.termination, a)]), calls := reads } =
      some ⟨ms.foldl count number, ms ++ [(.termination, a)],
        sendMsg limit .counter (ms.foldl count number)⟩ := by
  induction ms generalizing number sends reads fuel with
  | nil =>
    obtain ⟨fuel, rfl⟩ : ∃ less, fuel = less + 1 := ⟨fuel - 1, by omega⟩
    have fits := (length_body .termination a).2
    have got := recvMsg_frame reads fuel .termination a [] false (c.sizes reads)
      (by simp at enough; omega)
    rw [List.append_nil] at got
    rw [serverLoop, List.nil_append, sendMsgs, sendMsgs, List.append_nil, sendMsg, send,
      List.take_of_length_le (c.takes _ _ _), got]
    rfl
  | cons m ms ih =>
    obtain ⟨fuel, rfl⟩ : ∃ less, fuel = less + 1 := ⟨fuel - 1, by simp at enough; omega⟩
    have fits := (length_body m.1 m.2).2
    have got := recvMsg_frame reads fuel m.1 m.2
      (sendMsgs c.sent (sends + 1) (ms ++ [(.termination, a)])) false (c.sizes reads) (by simp at enough; omega)
    have rest := fun number => ih (fun m member => kinds m (by simp [member])) number (sends + 1)
      (reads + 1 + (body m.1 m.2).length) fuel (by simp at enough; omega)
    have kind := kinds m (by simp)
    rw [serverLoop, List.cons_append, sendMsgs, sendMsg, send,
      List.take_of_length_le (c.takes _ _ _), got, Option.bind_some]
    rcases m with ⟨t, b⟩
    cases t with
    | termination => exact absurd rfl kind
    | add | sub | counter =>
      dsimp only
      rw [rest, Option.map_some, List.foldl_cons]
      rfl

/-- The messages of a client change the counter by its total. -/
theorem foldl_count (s : Session) (number : Int64) :
    ((List.range s.numMessages).map (fun i =>
      if i % 2 = 0 then (OperationType.add, s.add.toInt64) else (.sub, s.sub.toInt64))).foldl count number =
      number + Int64.ofInt s.total := by
  rcases s with ⟨n, a, b, up, down⟩
  simp only [Session.total]
  induction n with
  | zero => simp
  | succ n ih =>
    rw [List.range_succ, List.map_append, List.foldl_append, ih]
    rcases Nat.mod_two_eq_zero_or_one n with even | odd
    -- An ADD, as many as SUBs in front of it.
    · have total : (((n + 1 + 1) / 2 : Nat) : Int) * a.toInt - ((n + 1) / 2 : Nat) * b.toInt =
          ((n + 1) / 2 : Nat) * a.toInt - (n / 2 : Nat) * b.toInt + a.toInt := by
        have more : (n + 1 + 1) / 2 = (n + 1) / 2 + 1 := by omega
        have same : (n + 1) / 2 = n / 2 := by omega
        rw [more, same]
        push_cast
        ring
      rw [total]
      generalize (((n + 1) / 2 : Nat) : Int) * a.toInt - (n / 2 : Nat) * b.toInt = before
      rw [Int64.ofInt_add, Int64.ofInt_int32ToInt, ← Int64.add_assoc]
      simp [even, count]
    -- A SUB.
    · have total : (((n + 1 + 1) / 2 : Nat) : Int) * a.toInt - ((n + 1) / 2 : Nat) * b.toInt =
          ((n + 1) / 2 : Nat) * a.toInt - (n / 2 : Nat) * b.toInt - b.toInt := by
        have same : (n + 1 + 1) / 2 = (n + 1) / 2 := by omega
        have more : (n + 1) / 2 = n / 2 + 1 := by omega
        rw [same, more]
        push_cast
        ring
      rw [total]
      generalize (((n + 1) / 2 : Nat) : Int) * a.toInt - (n / 2 : Nat) * b.toInt = before
      rw [Int64.ofInt_sub, Int64.ofInt_int32ToInt, Int64.sub_eq_add_neg, ← Int64.add_assoc,
        ← Int64.sub_eq_add_neg]
      simp [odd, count]

theorem Session.run_eq (s : Session) (number : Int64) {fuel : Nat}
    (enough : s.numMessages + 14 ≤ fuel) :
    ∃ reply, s.run fuel number =
      some ⟨number + Int64.ofInt s.total, number + Int64.ofInt s.total, s.messages, reply⟩ := by
  have fits := (length_body .counter (number + Int64.ofInt s.total)).2
  have kinds : ∀ m ∈ (List.range s.numMessages).map (fun i =>
      if i % 2 = 0 then (OperationType.add, s.add.toInt64) else (.sub, s.sub.toInt64)),
      m.1 ≠ .termination := by
    intro m member
    obtain ⟨i, _, rfl⟩ := List.mem_map.mp member
    split <;> simp
  have served := serverLoop_messages s.up (s.down.sent 0) 0 _ kinds number 0 0 fuel (by simpa using enough)
  have answered := recvMsg_frame 0 fuel .counter (number + Int64.ofInt s.total) [] false
    (s.down.sizes 0) (by omega)
  rw [List.append_nil] at answered
  rw [foldl_count, sendMsg, send, List.take_of_length_le (s.down.takes _ _ _)] at served
  refine ⟨frame .counter (number + Int64.ofInt s.total), ?_⟩
  rw [Session.run, Session.messages, served, Option.bind_some, answered]
  rfl

/-! ## All sessions -/

theorem runSessions_eq (sessions : List Session) (number : Int64) {fuel : Nat}
    (enough : ∀ s ∈ sessions, s.numMessages + 14 ≤ fuel) :
    ∃ outcomes, runSessions fuel number sessions = some outcomes ∧
      ∀ i s, sessions[i]? = some s → ∃ o, outcomes[i]? = some o ∧
        o.printed = number + Int64.ofInt ((sessions.take (i + 1)).map Session.total).sum ∧
        o.served.received = s.messages := by
  induction sessions generalizing number with
  | nil => exact ⟨[], rfl, by simp⟩
  | cons s rest ih =>
    obtain ⟨reply, ran⟩ := s.run_eq number (enough s (by simp))
    obtain ⟨outcomes, all, each⟩ := ih (number + Int64.ofInt s.total) fun r member =>
      enough r (by simp [member])
    refine ⟨_, by rw [runSessions, ran, Option.bind_some, all, Option.map_some], ?_⟩
    intro i r at_
    cases i with
    | zero =>
      obtain rfl := Option.some.inj at_
      exact ⟨_, rfl, by simp, rfl⟩
    | succ i =>
      obtain ⟨o, found, printed, received⟩ := each i r at_
      refine ⟨o, found, ?_, received⟩
      rw [printed, List.take_succ_cons, List.map_cons, List.sum_cons, Int64.ofInt_add, Int64.add_assoc]

/-- Whatever the sessions, client `i` prints the sum of the first `i + 1` totals, modulo 2^64, and
the server has decoded all messages to what was sent. -/
theorem counter_sums (sessions : List Session) : ∃ enough, ∀ fuel, enough ≤ fuel →
    ∃ outcomes, runSessions fuel 0 sessions = some outcomes ∧
      ∀ i s, sessions[i]? = some s → ∃ o, outcomes[i]? = some o ∧
        o.printed = Int64.ofInt ((sessions.take (i + 1)).map Session.total).sum ∧
        o.served.received = s.messages := by
  refine ⟨(sessions.map fun s => s.numMessages + 14).sum, fun fuel enough => ?_⟩
  have each : ∀ s ∈ sessions, s.numMessages + 14 ≤ fuel := fun s member =>
    Nat.le_trans (List.le_sum_of_mem (List.mem_map.mpr ⟨s, member, rfl⟩)) enough
  obtain ⟨outcomes, all, right⟩ := runSessions_eq sessions 0 each
  refine ⟨outcomes, all, fun i s at_ => ?_⟩
  obtain ⟨o, found, printed, received⟩ := right i s at_
  exact ⟨o, found, by rw [printed, Int64.zero_add], received⟩

end CloudLab.Counter
