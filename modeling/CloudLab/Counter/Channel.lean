import CloudLab.Counter.Message
import CloudLab.Library.Numerals

/-!
# `recv_msg` and `send_msg` (`task0/utils.cpp`)

A message goes out as its size in four decimal digits and its encoding, in one call of `send`.
The receiver reads the size with one call of `read` and the rest byte by byte. Neither looks at
how much a call took or returned, except for the single bytes: `survives_iff_whole`.
-/
namespace CloudLab.Counter

open Library Library.Wire

/-! ## Sockets -/

/-- How many bytes, from one up, each call takes or returns at most. -/
abbrev Limits := Nat → Nat

/-- What has still to be read, whether the peer closes the connection behind it, and how many
calls have been made. -/
structure ReadEnd where
  stream : Bytes
  closed : Bool := false
  calls : Nat := 0
  deriving DecidableEq

/-- With nothing to read the call blocks, or returns 0 if the connection is closed. -/
def read (limits : Limits) (fd : ReadEnd) (n : Nat) : Option (Bytes × ReadEnd) :=
  if fd.stream = [] ∧ fd.closed = false then none
  else
    let count := min n (limits fd.calls + 1)
    some (fd.stream.take count, { fd with stream := fd.stream.drop count, calls := fd.calls + 1 })

/-- What one call of `send` takes of its data. -/
def send (limit : Nat) (data : Bytes) : Bytes := data.take (limit + 1)

/-! ## Messages -/

def intSize : Nat := 4

/-- The size in decimal digits, behind as many zeros as are missing. -/
def sizeText (n : Nat) : Bytes :=
  List.replicate (intSize - (decimalDigits n).length) 48 ++ decimalDigits n

def body (t : OperationType) (a : Int64) : Bytes :=
  Message.serializeToString { type_ := some t, argument_ := some a }

def frame (t : OperationType) (a : Int64) : Bytes := sizeText (body t a).length ++ body t a

/-- What has gone out behind `send_msg`; it returns 0 in any case. -/
def sendMsg (limit : Nat) (t : OperationType) (a : Int64) : Bytes := send limit (frame t a)

/-- The loop of `recv_msg`; the fuel counts its iterations. It does not end when `read` goes on
returning 0. -/
def recvLoop (limits : Limits) (payloadSize : Int) :
    Nat → ReadEnd → Bytes → Nat → Int → Option (Bytes × ReadEnd)
  | 0, _, _, _, _ => none
  | fuel + 1, fd, buffer, i, bytesRead =>
    (read limits fd 1).bind fun (bs, fd) =>
      let buffer := match bs with
        | b :: _ => buffer.set i b
        | [] => buffer
      let bytesRead := bytesRead + bs.length
      if bytesRead < payloadSize then recvLoop limits payloadSize fuel fd buffer (i + 1) bytesRead
      else some (buffer, fd)

/-- `recv_msg`, by what it stores; none where it does not return, because `read` blocks, the loop
does not end or `std::string` throws on a negative size. -/
def recvMsg (limits : Limits) (fuel : Nat) (fd : ReadEnd) :
    Option ((OperationType × Int64) × ReadEnd) :=
  (read limits fd intSize).bind fun (header, fd) =>
    let sizeBuffer := header ++ List.replicate (intSize - header.length) 0
    let payloadSize := atoi (cStr sizeBuffer)
    if payloadSize < 0 then none
    else
      (recvLoop limits payloadSize fuel fd (List.replicate payloadSize.toNat 0) 0 0).map
        fun (buffer, fd) =>
          let m := (Message.parseFromString buffer).message
          ((m.type, m.argument), fd)

/-- `recv_msg` called `count` times on one connection. -/
def recvMsgs (limits : Limits) (fuel : Nat) :
    Nat → ReadEnd → Option (List (OperationType × Int64) × ReadEnd)
  | 0, fd => some ([], fd)
  | count + 1, fd =>
    (recvMsg limits fuel fd).bind fun (m, fd) =>
      (recvMsgs limits fuel count fd).map fun (ms, fd) => (m :: ms, fd)

/-- What the calls of `send_msg` leave on the connection; `sends` counts them. -/
def sendMsgs (limits : Limits) : Nat → List (OperationType × Int64) → Bytes
  | _, [] => []
  | sends, (t, a) :: ms => sendMsg (limits sends) t a ++ sendMsgs limits (sends + 1) ms

example : frame .sub 300 = [48, 48, 48, 53, 8, 2, 16, 172, 2] := by decide

/-- The receiver gets exactly the messages that were sent, and nothing is left behind them. -/
def Survives (sent received : Limits) (ms : List (OperationType × Int64)) : Prop :=
  ∃ enough, ∀ fuel, enough ≤ fuel → ∃ fd,
    recvMsgs received fuel ms.length { stream := sendMsgs sent 0 ms } = some (ms, fd) ∧ fd.stream = []

/-- Every `send` takes its whole message and every size arrives in one `read`, from the calls
`sends` and `reads` on. -/
def Whole (sent received : Limits) : Nat → Nat → List (OperationType × Int64) → Prop
  | _, _, [] => True
  | sends, reads, (t, a) :: ms =>
    (frame t a).length ≤ sent sends + 1 ∧ intSize ≤ received reads + 1 ∧
      Whole sent received (sends + 1) (reads + 1 + (body t a).length) ms

/-! ## The size -/

theorem length_body (t : OperationType) (a : Int64) :
    4 ≤ (body t a).length ∧ (body t a).length ≤ 13 := Message.length_serialize t a

/-- The text of a size is read back. -/
theorem atoi_sizeText (n : Nat) : atoi (cStr (sizeText n)) = n := by
  have digits : ∀ d ∈ sizeText n, isDigit d = true := by
    intro d member
    rcases List.mem_append.mp member with zero | digit
    · rw [List.eq_of_mem_replicate zero]
      rfl
    · exact isDigit_of_mem_decimalDigits digit
  have free : ZeroFree (sizeText n) := by
    rintro d member rfl
    exact absurd (digits 0 member) (by decide)
  rw [cStr_eq_self free, atoi_digits digits, sizeText, digitsValue_zeros, digitsValue_decimalDigits]

theorem length_sizeText (t : OperationType) (a : Int64) :
    (sizeText (body t a).length).length = intSize := by
  obtain ⟨low, high⟩ := length_body t a
  generalize (body t a).length = n at low high
  interval_cases n <;> decide

/-- The first two of the four digits are zeros. -/
theorem atoi_cut (t : OperationType) (a : Int64) {k : Nat} (cut : k < intSize) :
    0 ≤ atoi (cStr ((sizeText (body t a).length).take k ++ List.replicate (intSize - k) 0)) ∧
      atoi (cStr ((sizeText (body t a).length).take k ++ List.replicate (intSize - k) 0)) ≤ 1 := by
  obtain ⟨low, high⟩ := length_body t a
  generalize (body t a).length = n at low high
  revert k
  interval_cases n <;> decide

/-! ## One message -/

/-- The loop reads the rest of a payload that is there. -/
theorem recvLoop_stream (limits : Limits) (closed : Bool) (todo behind : Bytes) (nonempty : todo ≠ [])
    (received : Bytes) (calls fuel : Nat) (enough : todo.length ≤ fuel) :
    recvLoop limits (received.length + todo.length : Nat) fuel ⟨todo ++ behind, closed, calls⟩
      (received ++ List.replicate todo.length 0) received.length received.length =
        some (received ++ todo, ⟨behind, closed, calls + todo.length⟩) := by
  induction todo generalizing received calls fuel with
  | nil => exact absurd rfl nonempty
  | cons b todo ih =>
    obtain ⟨fuel, rfl⟩ : ∃ less, fuel = less + 1 := ⟨fuel - 1, by simp at enough; omega⟩
    have stored : (received ++ List.replicate (b :: todo).length 0).set received.length b =
        received ++ [b] ++ List.replicate todo.length 0 := by
      simp [List.replicate_succ]
    have count : (received.length : Int) + ([b] : Bytes).length = (received ++ [b]).length := by simp
    rw [recvLoop, read, if_neg (by simp), Option.bind_some]
    simp only [Nat.min_eq_left (Nat.le_add_left 1 _), List.cons_append, List.take_succ_cons,
      List.take_zero, List.drop_succ_cons, List.drop_zero]
    rw [stored, count]
    rcases todo with _ | ⟨c, rest⟩
    · simp
    · rw [if_pos (by simp)]
      have again := ih (by simp) (received ++ [b]) (calls + 1) fuel (by simpa using enough)
      have length : (received ++ [b]).length = received.length + 1 := by simp
      have size : (received ++ [b]).length + (c :: rest).length =
          received.length + (b :: c :: rest).length := by
        simp
        omega
      rw [size, length] at again
      rw [length, again]
      simp
      omega

/-- The loop does not end in front of the payload's last byte: `read` blocks, or goes on
returning 0 where the connection is closed. -/
theorem recvLoop_missing (limits : Limits) (payloadSize : Int) (closed : Bool) (stream buffer : Bytes)
    (calls fuel i : Nat) (bytesRead : Int) (missing : bytesRead + stream.length < payloadSize) :
    recvLoop limits payloadSize fuel ⟨stream, closed, calls⟩ buffer i bytesRead = none := by
  induction fuel generalizing stream buffer calls i bytesRead with
  | zero => rfl
  | succ fuel ih =>
    rw [recvLoop, read]
    split
    · rfl
    · rw [Option.bind_some]
      simp only [Nat.min_eq_left (Nat.le_add_left 1 _)]
      rcases stream with _ | ⟨b, stream⟩
      · simp only [List.length_nil, Nat.cast_zero] at missing
        simp only [List.take_nil, List.drop_nil, List.length_nil, Nat.cast_zero]
        rw [if_pos (by omega)]
        exact ih _ _ _ _ _ (by simpa using missing)
      · simp only [List.length_cons, Nat.cast_add, Nat.cast_one] at missing
        simp only [List.take_succ_cons, List.take_zero, List.drop_succ_cons, List.drop_zero,
          List.length_singleton, Nat.cast_one]
        rw [if_pos (by omega)]
        exact ih _ _ _ _ _ (by omega)

/-- The buffer keeps its size. -/
theorem length_recvLoop {limits : Limits} {payloadSize bytesRead : Int} {fuel i : Nat}
    {fd fd' : ReadEnd} {buffer buffer' : Bytes}
    (ended : recvLoop limits payloadSize fuel fd buffer i bytesRead = some (buffer', fd')) :
    buffer'.length = buffer.length := by
  induction fuel generalizing fd buffer i bytesRead with
  | zero => cases ended
  | succ fuel ih =>
    obtain ⟨⟨bs, next⟩, _, ended⟩ := Option.bind_eq_some_iff.mp ended
    have stored : (match bs with
        | b :: _ => buffer.set i b
        | [] => buffer).length = buffer.length := by
      cases bs <;> simp
    dsimp only at ended
    split at ended
    · rw [ih ended, stored]
    · cases ended
      exact stored

theorem recvMsg_frame {limits : Limits} (calls fuel : Nat) (t : OperationType) (a : Int64)
    (behind : Bytes) (closed : Bool) (whole : intSize ≤ limits calls + 1)
    (enough : (body t a).length ≤ fuel) :
    recvMsg limits fuel ⟨frame t a ++ behind, closed, calls⟩ =
      some ((t, a), ⟨behind, closed, calls + 1 + (body t a).length⟩) := by
  have size := length_sizeText t a
  have positive : body t a ≠ [] := List.ne_nil_of_length_pos (by have := (length_body t a).1; omega)
  have header : read limits ⟨frame t a ++ behind, closed, calls⟩ intSize =
      some (sizeText (body t a).length, ⟨body t a ++ behind, closed, calls + 1⟩) := by
    rw [read, if_neg (by simp [frame, positive])]
    dsimp only
    rw [Nat.min_eq_left whole, frame, List.append_assoc, ← size, List.take_left, List.drop_left]
  have loop := recvLoop_stream limits closed (body t a) behind positive [] (calls + 1) fuel enough
  simp only [List.length_nil, Nat.zero_add, List.nil_append, Nat.cast_zero] at loop
  rw [recvMsg, header, Option.bind_some]
  simp only [size, Nat.sub_self, List.replicate_zero, List.append_nil, atoi_sizeText, Int.toNat_natCast]
  rw [if_neg (by omega), loop, Option.map_some]
  simp [body, Message.parse_serializeToString, Message.type, Message.argument]

/-- Where `send` does not take a whole message or `read` not return a whole size, nothing comes
out but messages of type ADD. -/
theorem recvMsg_cut {limits : Limits} {limit calls fuel : Nat} {t : OperationType} {a : Int64}
    {m : (OperationType × Int64) × ReadEnd}
    (cut : ¬(frame t a).length ≤ limit + 1 ∨ ¬intSize ≤ limits calls + 1)
    (returned : recvMsg limits fuel ⟨sendMsg limit t a, false, calls⟩ = some m) : m.1.1 = .add := by
  have size := length_sizeText t a
  obtain ⟨⟨header, next⟩, got, returned⟩ := Option.bind_eq_some_iff.mp returned
  obtain ⟨open_, got⟩ := Option.ite_none_left_eq_some.mp got
  simp only [Option.some.injEq, Prod.mk.injEq, sendMsg, send, List.take_take] at got
  obtain ⟨rfl, rfl⟩ := got
  dsimp only at returned
  obtain ⟨_, returned⟩ := Option.ite_none_left_eq_some.mp returned
  obtain ⟨⟨buffer, after⟩, loop, rfl⟩ := Option.map_eq_some_iff.mp returned
  have length := length_recvLoop loop
  rw [List.length_replicate] at length
  apply Message.type_of_short
  dsimp only
  by_cases short : min (min intSize (limits calls + 1)) (limit + 1) < intSize
  -- A part of the size: the payload is read as one byte at most.
  · have part : (frame t a).take (min (min intSize (limits calls + 1)) (limit + 1)) =
        (sizeText (body t a).length).take (min (min intSize (limits calls + 1)) (limit + 1)) := by
      rw [frame, List.take_append_of_le_length (by omega)]
    have count : ((frame t a).take (min (min intSize (limits calls + 1)) (limit + 1))).length =
        min (min intSize (limits calls + 1)) (limit + 1) := by
      rw [part, List.length_take, size]
      omega
    have bounds := atoi_cut t a short
    rw [count, part] at length
    omega
  -- The whole size: then the payload is incomplete, and the loop waits.
  · exfalso
    have sent : limit + 1 < (frame t a).length := by omega
    have all : min (min intSize (limits calls + 1)) (limit + 1) = intSize := by omega
    have header : (frame t a).take intSize = sizeText (body t a).length := by
      rw [frame, ← size, List.take_left]
    have total : (frame t a).length = intSize + (body t a).length := by
      rw [frame, List.length_append, size]
    rw [all, header, size, Nat.sub_self, List.replicate_zero, List.append_nil, atoi_sizeText] at loop
    rw [recvLoop_missing] at loop
    · cases loop
    · simp only [List.length_drop, List.length_take]
      omega

/-! ## All messages -/

variable {sent received : Limits}

/-- The calls of `read` behind the messages. -/
def readsBehind (reads : Nat) (ms : List (OperationType × Int64)) : Nat :=
  ms.foldl (fun reads m => reads + 1 + (body m.1 m.2).length) reads

theorem sendMsgs_append (sends : Nat) (xs ys : List (OperationType × Int64)) :
    sendMsgs sent sends (xs ++ ys) = sendMsgs sent sends xs ++ sendMsgs sent (sends + xs.length) ys := by
  induction xs generalizing sends with
  | nil => rfl
  | cons m xs ih =>
    rw [List.cons_append, sendMsgs, sendMsgs, ih, List.append_assoc, List.length_cons]
    congr 3
    omega

/-- Messages in front of everything else that arrive whole are received. -/
theorem recvMsgs_front {sends reads fuel : Nat} {front : List (OperationType × Int64)}
    (whole : Whole sent received sends reads front) (enough : 13 ≤ fuel) (count : Nat)
    (behind : Bytes) :
    recvMsgs received fuel (front.length + count)
        { stream := sendMsgs sent sends front ++ behind, calls := reads } =
      (recvMsgs received fuel count { stream := behind, calls := readsBehind reads front }).map
        fun r => (front ++ r.1, r.2) := by
  induction front generalizing sends reads with
  | nil => simp [sendMsgs, readsBehind]
  | cons m front ih =>
    obtain ⟨taken, header, whole⟩ := whole
    have fits := (length_body m.1 m.2).2
    rw [show (m :: front).length + count = front.length + count + 1 by simp; omega, recvMsgs, sendMsgs,
      sendMsg, send, List.take_of_length_le taken, List.append_assoc,
      recvMsg_frame _ _ m.1 m.2 _ _ header (by omega), Option.bind_some]
    dsimp only
    rw [ih whole, Option.map_map]
    rfl

theorem survives_of_whole {ms : List (OperationType × Int64)} (whole : Whole sent received 0 0 ms) :
    Survives sent received ms := by
  refine ⟨13, fun fuel enough => ⟨{ stream := [], calls := readsBehind 0 ms }, ?_, rfl⟩⟩
  have all := recvMsgs_front whole enough 0 []
  rw [Nat.add_zero, List.append_nil] at all
  rw [all]
  simp [recvMsgs]

/-- The first message that does not go through whole. -/
theorem exists_cut {sends reads : Nat} {ms : List (OperationType × Int64)}
    (broken : ¬Whole sent received sends reads ms) :
    ∃ front t a, Whole sent received sends reads front ∧
      (¬(frame t a).length ≤ sent (sends + front.length) + 1 ∨
        ¬intSize ≤ received (readsBehind reads front) + 1) := by
  induction ms generalizing sends reads with
  | nil => exact absurd trivial broken
  | cons m ms ih =>
    by_cases here : (frame m.1 m.2).length ≤ sent sends + 1 ∧ intSize ≤ received reads + 1
    · have later : ¬Whole sent received (sends + 1) (reads + 1 + (body m.1 m.2).length) ms :=
        fun whole => broken ⟨here.1, here.2, whole⟩
      obtain ⟨front, t, a, whole, cut⟩ := ih later
      refine ⟨m :: front, t, a, ⟨here.1, here.2, whole⟩, ?_⟩
      rwa [List.length_cons, show sends + (front.length + 1) = sends + 1 + front.length by omega]
    · exact ⟨[], m.1, m.2, trivial, not_and_or.mp here⟩

/-- A message of type SUB in the place of one that does not go through whole is lost. -/
theorem not_survives_of_cut (front : List (OperationType × Int64)) (t : OperationType) {a : Int64}
    (whole : Whole sent received 0 0 front)
    (cut : ¬(frame t a).length ≤ sent (0 + front.length) + 1 ∨
      ¬intSize ≤ received (readsBehind 0 front) + 1) :
    ¬Survives sent received (front ++ [(.sub, a)]) := by
  rintro ⟨enough, survives⟩
  obtain ⟨fd, returned, _⟩ := survives (max enough 13) (Nat.le_max_left _ _)
  have same : (frame t a).length = (frame .sub a).length := by
    rw [frame, frame, List.length_append, List.length_append, length_sizeText, length_sizeText, body,
      body, Message.length_serialize_eq t .sub a]
  rw [same] at cut
  rw [List.length_append, sendMsgs_append, recvMsgs_front whole (Nat.le_max_right _ _)] at returned
  obtain ⟨⟨last, _⟩, returned, split⟩ := Option.map_eq_some_iff.mp returned
  obtain ⟨rfl, _⟩ := Prod.mk.inj split |>.imp_left List.append_cancel_left
  -- The last call returns a message of type ADD.
  obtain ⟨m, got, returned⟩ := Option.bind_eq_some_iff.mp returned
  obtain ⟨_, _, same⟩ := Option.map_eq_some_iff.mp returned
  simp only [sendMsgs, List.append_nil] at got
  have type := recvMsg_cut cut got
  simp only [Prod.mk.injEq, List.cons.injEq] at same
  rw [same.1.1] at type
  cases type

/-- The connection gets every list of messages across exactly when, whatever is sent, `send` takes
each message whole and each size arrives in one `read`. -/
theorem survives_iff_whole (sent received : Limits) :
    (∀ ms, Survives sent received ms) ↔ ∀ ms, Whole sent received 0 0 ms := by
  constructor
  · intro survives ms
    by_contra broken
    obtain ⟨front, t, a, whole, cut⟩ := exists_cut broken
    exact not_survives_of_cut front t whole cut (survives _)
  · exact fun whole ms => survives_of_whole (whole ms)

/-- The first `read` returns one byte of the size. -/
theorem not_survives_oneByte :
    ¬Survives (fun _ => 100) (fun call => if call = 0 then 0 else 100) [(.sub, 7)] :=
  not_survives_of_cut [] .sub trivial (Or.inr (by decide))

end CloudLab.Counter
