import CloudLab.Counter.Sessions

/-!
# A connection that breaks (`task0/utils.cpp`, `server.cpp`)

Behind the end of the stream `read` returns 0. Then `recv_msg` reads for ever, or returns 0 with
the empty message, an ADD of 0. It has no other return value, and the server goes on calling it:
`not_recovers`.
-/
namespace CloudLab.Counter

open Library Library.Wire

/-! ## What a call does -/

/-- The return value of `recv_msg`, what it fills in, and whether it wrote behind its buffer. -/
structure Received where
  status : Int32
  operationType : OperationType
  argument : Int64
  overrun : Bool
  deriving DecidableEq

/-- `recvLoop` with a look at where each byte goes. -/
def fillLoop (limits : Limits) (payloadSize : Int) :
    Nat → ReadEnd → Bytes → Nat → Int → Bool → Option ((Bytes × Bool) × ReadEnd)
  | 0, _, _, _, _, _ => none
  | fuel + 1, fd, buffer, i, bytesRead, overrun =>
    (read limits fd 1).bind fun (bs, fd) =>
      let overrun := overrun || (!bs.isEmpty && buffer.length ≤ i)
      let buffer := match bs with
        | b :: _ => buffer.set i b
        | [] => buffer
      let bytesRead := bytesRead + bs.length
      if bytesRead < payloadSize then
        fillLoop limits payloadSize fuel fd buffer (i + 1) bytesRead overrun
      else some ((buffer, overrun), fd)

/-- `recvMsg` with all that a caller can see of it. -/
def recvMsgCall (limits : Limits) (fuel : Nat) (fd : ReadEnd) : Option (Received × ReadEnd) :=
  (read limits fd intSize).bind fun (header, fd) =>
    let sizeBuffer := header ++ List.replicate (intSize - header.length) 0
    let payloadSize := atoi (cStr sizeBuffer)
    if payloadSize < 0 then none
    else
      (fillLoop limits payloadSize fuel fd (List.replicate payloadSize.toNat 0) 0 0 false).map
        fun ((buffer, overrun), fd) =>
          let m := (Message.parseFromString buffer).message
          (⟨0, m.type, m.argument, overrun⟩, fd)

def Received.message (r : Received) : OperationType × Int64 := (r.operationType, r.argument)

theorem fillLoop_buffer (limits : Limits) (payloadSize : Int) (fuel : Nat) (fd : ReadEnd)
    (buffer : Bytes) (i : Nat) (bytesRead : Int) (overrun : Bool) :
    (fillLoop limits payloadSize fuel fd buffer i bytesRead overrun).map
        (fun filled => (filled.1.1, filled.2)) =
      recvLoop limits payloadSize fuel fd buffer i bytesRead := by
  induction fuel generalizing fd buffer i bytesRead overrun with
  | zero => rfl
  | succ fuel ih =>
    rw [fillLoop, recvLoop]
    cases got : read limits fd 1 with
    | none => rfl
    | some taken =>
      rw [Option.bind_some, Option.bind_some]
      dsimp only
      split
      · exact ih _ _ _ _ _
      · rfl

theorem recvMsgCall_message (limits : Limits) (fuel : Nat) (fd : ReadEnd) :
    (recvMsgCall limits fuel fd).map (fun r => (r.1.message, r.2)) = recvMsg limits fuel fd := by
  rw [recvMsgCall, recvMsg]
  cases got : read limits fd intSize with
  | none => rfl
  | some taken =>
    rw [Option.bind_some, Option.bind_some]
    dsimp only
    split
    · rfl
    · rw [← fillLoop_buffer limits _ fuel _ _ 0 0 false, Option.map_map, Option.map_map]
      rfl

/-- The function ends in `return 0`. -/
theorem status_recvMsgCall {limits : Limits} {fuel : Nat} {fd fd' : ReadEnd} {r : Received}
    (returned : recvMsgCall limits fuel fd = some (r, fd')) : r.status = 0 := by
  obtain ⟨taken, _, returned⟩ := Option.bind_eq_some_iff.mp returned
  obtain ⟨_, returned⟩ := Option.ite_none_left_eq_some.mp returned
  obtain ⟨filled, _, same⟩ := Option.map_eq_some_iff.mp returned
  cases same
  rfl

/-! ## More fuel -/

theorem recvLoop_mono {limits : Limits} {payloadSize bytesRead : Int} {fuel i : Nat} {fd : ReadEnd}
    {buffer : Bytes} {result : Bytes × ReadEnd}
    (ended : recvLoop limits payloadSize fuel fd buffer i bytesRead = some result) (more : Nat) :
    recvLoop limits payloadSize (fuel + more) fd buffer i bytesRead = some result := by
  induction fuel generalizing fd buffer i bytesRead with
  | zero => cases ended
  | succ fuel ih =>
    obtain ⟨taken, got, ended⟩ := Option.bind_eq_some_iff.mp ended
    rw [Nat.succ_add, recvLoop, got, Option.bind_some]
    dsimp only at ended ⊢
    split at ended
    next missing => rw [if_pos missing, ih ended]
    next complete => rw [if_neg complete, ended]

theorem recvMsg_mono {limits : Limits} {fuel : Nat} {fd : ReadEnd}
    {result : (OperationType × Int64) × ReadEnd} (returned : recvMsg limits fuel fd = some result)
    (more : Nat) : recvMsg limits (fuel + more) fd = some result := by
  obtain ⟨taken, got, returned⟩ := Option.bind_eq_some_iff.mp returned
  obtain ⟨size, returned⟩ := Option.ite_none_left_eq_some.mp returned
  obtain ⟨filled, loop, same⟩ := Option.map_eq_some_iff.mp returned
  rw [recvMsg, got, Option.bind_some]
  dsimp only at size loop ⊢
  rw [if_neg size, recvLoop_mono loop more, ← same, Option.map_some]

/-! ## The end of the stream -/

/-- With nothing to read and nothing to wait for the loop ends at once. -/
theorem fillLoop_end {limits : Limits} {calls fuel : Nat} {result : (Bytes × Bool) × ReadEnd}
    (ended : fillLoop limits 0 fuel ⟨[], true, calls⟩ [] 0 0 false = some result) :
    result = (([], false), ⟨[], true, calls + 1⟩) := by
  cases fuel with
  | zero => cases ended
  | succ fuel =>
    simp only [fillLoop, read] at ended
    cases ended
    rfl

theorem fillLoop_missing (limits : Limits) {payloadSize : Int} {closed : Bool} {stream buffer : Bytes}
    {calls fuel i : Nat} {bytesRead : Int} {overrun : Bool}
    (missing : bytesRead + stream.length < payloadSize) :
    fillLoop limits payloadSize fuel ⟨stream, closed, calls⟩ buffer i bytesRead overrun = none := by
  have none := fillLoop_buffer limits payloadSize fuel ⟨stream, closed, calls⟩ buffer i bytesRead overrun
  rw [recvLoop_missing _ _ _ _ _ _ _ _ _ missing] at none
  exact Option.map_eq_none_iff.mp none

/-- Where the stream ends within a message, or in front of it, `recv_msg` does not return, or
makes up an ADD of 0. -/
theorem recvMsgCall_part {limits : Limits} {calls fuel k : Nat} {t : OperationType} {a : Int64}
    (sizes : intSize ≤ limits calls + 1) (cut : k < (frame t a).length) {r : Received × ReadEnd}
    (returned : recvMsgCall limits fuel ⟨(frame t a).take k, true, calls⟩ = some r) :
    r = (⟨0, .add, 0, false⟩, ⟨[], true, calls + 2⟩) := by
  have size := length_sizeText t a
  have header : read limits ⟨(frame t a).take k, true, calls⟩ intSize =
      some (((frame t a).take k).take intSize, ⟨((frame t a).take k).drop intSize, true, calls + 1⟩) := by
    simp [read, Nat.min_eq_left sizes]
  rw [recvMsgCall, header, Option.bind_some] at returned
  dsimp only at returned
  obtain ⟨_, returned⟩ := Option.ite_none_left_eq_some.mp returned
  obtain ⟨⟨⟨buffer, overrun⟩, after⟩, loop, rfl⟩ := Option.map_eq_some_iff.mp returned
  by_cases short : k < intSize
  -- A part of the size, which reads as 0 or 1.
  · have part : ((frame t a).take k).take intSize = (sizeText (body t a).length).take k := by
      rw [List.take_take, Nat.min_eq_right short.le, frame, List.take_append_of_le_length (by omega)]
    have none : ((frame t a).take k).drop intSize = [] := by
      rw [List.drop_eq_nil_iff, List.length_take]
      omega
    have count : ((sizeText (body t a).length).take k).length = k := by
      rw [List.length_take, size]
      omega
    obtain ⟨low, high⟩ := atoi_cut t a short
    rw [part, none, count] at loop
    generalize atoi (cStr ((sizeText (body t a).length).take k ++ List.replicate (intSize - k) 0)) = value
      at low high loop
    obtain rfl | rfl : value = 0 ∨ value = 1 := by omega
    · cases fillLoop_end loop
      rfl
    · rw [fillLoop_missing limits (by simp)] at loop
      cases loop
  -- The whole size: the loop waits for the rest of the payload.
  · exfalso
    have all : ((frame t a).take k).take intSize = sizeText (body t a).length := by
      rw [List.take_take, Nat.min_eq_left (by omega), frame, ← size, List.take_left]
    have total : (frame t a).length = intSize + (body t a).length := by
      rw [frame, List.length_append, size]
    rw [all, size, Nat.sub_self, List.replicate_zero, List.append_nil, atoi_sizeText] at loop
    rw [fillLoop_missing] at loop
    · cases loop
    · simp only [List.length_drop, List.length_take]
      omega

theorem recvMsg_part {limits : Limits} {calls fuel k : Nat} {t : OperationType} {a : Int64}
    (sizes : intSize ≤ limits calls + 1) (cut : k < (frame t a).length)
    {m : (OperationType × Int64) × ReadEnd}
    (returned : recvMsg limits fuel ⟨(frame t a).take k, true, calls⟩ = some m) :
    m = ((.add, 0), ⟨[], true, calls + 2⟩) := by
  rw [← recvMsgCall_message] at returned
  obtain ⟨r, called, rfl⟩ := Option.map_eq_some_iff.mp returned
  rw [recvMsgCall_part sizes cut called]
  rfl

/-! ## The server -/

/-- The server never comes out of the inner loop again. -/
theorem serverLoop_part (c : Connection) (limit fuel k calls : Nat) (number : Int64)
    {t : OperationType} {a : Int64} (cut : k < (frame t a).length) :
    serverLoop c.received limit fuel number ⟨(frame t a).take k, true, calls⟩ = none := by
  induction fuel generalizing k calls number with
  | zero => rfl
  | succ fuel ih =>
    rw [serverLoop]
    cases returned : recvMsg c.received fuel ⟨(frame t a).take k, true, calls⟩ with
    | none => rfl
    | some m =>
      rw [recvMsg_part (c.sizes calls) cut returned, Option.bind_some]
      -- Behind the made-up message it is at the end of the stream.
      have again := ih 0 (calls + 2) (number + 0) (Nat.zero_lt_of_lt cut)
      rw [List.take_zero] at again
      simp only [again, Option.map_none]

/-- The messages of a stream, one behind the other. -/
def framesOf (ms : List (OperationType × Int64)) : Bytes := ms.flatMap fun m => frame m.1 m.2

theorem serverLoop_frames (c : Connection) (limit fuel k calls : Nat) (number : Int64)
    {ms : List (OperationType × Int64)} (kinds : ∀ m ∈ ms, m.1 ≠ .termination) {t : OperationType}
    {a : Int64} (cut : k < (frame t a).length) :
    serverLoop c.received limit fuel number ⟨framesOf ms ++ (frame t a).take k, true, calls⟩ = none := by
  induction ms generalizing fuel calls number with
  | nil => exact serverLoop_part c limit fuel k calls number cut
  | cons m ms ih =>
    have rest := fun fuel number calls => ih fuel calls number fun m member => kinds m (by simp [member])
    have kind := kinds m (by simp)
    cases fuel with
    | zero => rfl
    | succ fuel =>
      rw [serverLoop, framesOf, List.flatMap_cons, ← framesOf, List.append_assoc]
      cases returned : recvMsg c.received fuel
          ⟨frame m.1 m.2 ++ (framesOf ms ++ (frame t a).take k), true, calls⟩ with
      | none => rfl
      | some got =>
        -- With more fuel the call returns the message, so it does with this.
        have whole := recvMsg_frame calls (fuel + (body m.1 m.2).length) m.1 m.2
          (framesOf ms ++ (frame t a).take k) true (c.sizes calls) (Nat.le_add_left _ _)
        rw [recvMsg_mono returned] at whole
        obtain rfl := Option.some.inj whole
        rw [Option.bind_some]
        rcases m with ⟨type, argument⟩
        cases type with
        | termination => exact absurd rfl kind
        | add | sub | counter => simp only [rest, Option.map_none]

/-- The first call behind the messages fails without a write behind its buffer, and the server
leaves the inner loop with these messages counted. -/
def Recovers (received : Limits) (limit : Nat) (number : Int64) (ms : List (OperationType × Int64))
    (rest : Bytes) : Prop :=
  ∃ enough, ∀ fuel, enough ≤ fuel →
    (∃ fd fd' r, recvMsgs received fuel ms.length ⟨framesOf ms ++ rest, true, 0⟩ = some (ms, fd) ∧
      recvMsgCall received fuel fd = some (r, fd') ∧ r.status = 1 ∧ r.overrun = false) ∧
    ∃ served, serverLoop received limit fuel number ⟨framesOf ms ++ rest, true, 0⟩ = some served ∧
      served.number = ms.foldl count number

theorem not_recovers_of_status (received : Limits) (limit : Nat) (number : Int64)
    (ms : List (OperationType × Int64)) (rest : Bytes) : ¬Recovers received limit number ms rest := by
  rintro ⟨enough, recovers⟩
  obtain ⟨⟨fd, fd', r, _, called, failed, _⟩, _⟩ := recovers enough (Nat.le_refl _)
  rw [status_recvMsgCall called] at failed
  cases failed

/-- Wherever the stream ends, no failure is reported; and if the sizes in front of the end arrive
in one `read` each, the server stays in the inner loop. -/
theorem not_recovers {ms : List (OperationType × Int64)} (kinds : ∀ m ∈ ms, m.1 ≠ .termination)
    {t : OperationType} {a : Int64} {k : Nat} (cut : k < (frame t a).length) (limit : Nat)
    (number : Int64) :
    (∀ received, ¬Recovers received limit number ms ((frame t a).take k)) ∧
      ∀ (c : Connection) (fuel : Nat), serverLoop c.received limit fuel number
        ⟨framesOf ms ++ (frame t a).take k, true, 0⟩ = none := by
  constructor
  · exact fun received => not_recovers_of_status received limit number ms _
  · exact fun c fuel => serverLoop_frames c limit fuel k 0 number kinds cut

/-- An ADD of 5 and two bytes of the next size. -/
theorem not_recovers_add :
    (∀ received, ¬Recovers received 16 0 [(.add, 5)] ((frame .sub 300).take 2)) ∧
      ∀ (c : Connection) (fuel : Nat), serverLoop c.received 16 fuel 0
        ⟨framesOf [(.add, 5)] ++ (frame .sub 300).take 2, true, 0⟩ = none :=
  not_recovers (by simp) (by decide) 16 0

theorem not_recovers_everywhere :
    ¬∀ (received : Limits) (ms : List (OperationType × Int64)) (t : OperationType) (a : Int64) (k : Nat),
        (∀ m ∈ ms, m.1 ≠ .termination) → k < (frame t a).length →
          Recovers received 16 0 ms ((frame t a).take k) := by
  intro all
  have recovers := all (fun _ => 100) [(.add, 5)] .sub 300 2 (by simp) (by decide)
  exact not_recovers_of_status _ _ _ _ _ recovers

end CloudLab.Counter
