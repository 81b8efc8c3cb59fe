import CloudLab.Sharding.Message
import CloudLab.Transport.Framing

/-!
# From `sendWrapper` to `ParseFromString(res.second.get())`

Every process of task 2 frames the serialized message, and every receiver parses
the C string at the start of the buffer `secure_recv` returns, not the buffer. A
message survives exactly when its encoding holds no zero byte.
-/
namespace CloudLab.Sharding

open Library Library.Wire CloudLab.Transport

def sendWrapper (choice : Nat → SendChoice) (m : Msg) : Sent :=
  secureSend choice 0 (constructMessage m.serializeToString)

/-- What a receiving loop makes of the result of `secure_recv`: nothing when
`res.first == 0`, else `ParseFromString` on the C string at `res.second.get()`. -/
def parseReceived (parse : Bytes → Parsed Msg) : Nat × Option Bytes → Option (Parsed Msg)
  | (_, none) => none
  | (size, some buf) => if size = 0 then none else some (parse (cStr buf))

theorem parseReceived_some (parse : Bytes → Parsed Msg) {size : Nat} (nonempty : size ≠ 0)
    (buf : Bytes) : parseReceived parse (size, some buf) = some (parse (cStr buf)) :=
  if_neg nonempty

/-- The message a receiver works on after `m` was sent to it, with the parser that keeps every
completely read field. -/
def wireDeliver (m : Msg) : Option Msg :=
  (parseReceived Msg.parseFromString
    (received (frames (constructMessage m.serializeToString)))).map (·.message)

theorem frames_sent (m : Msg) :
    frames (constructMessage m.serializeToString) = [m.serializeToString] := by
  have one := frames_flatMap_frame [m.serializeToString]
    (by simpa using m.length_serialize_lt)
  rw [constructMessage_eq m.length_serialize_lt]
  simpa using one

/-- `received (frames …)` is what `secure_recv` returns, whatever the schedules. -/
theorem secureRecv_sendWrapper (schedule : RecvSchedule) (limits : SendSchedule) (m : Msg) :
    ∃ enough fd', ∀ fuel, enough ≤ fuel →
      secureRecv schedule.choice fuel ⟨(sendWrapper limits.choice m).wire, 0⟩ =
        some ((m.serializeToString.length, some m.serializeToString), fd') := by
  obtain ⟨enough, fd', _, result⟩ :=
    secureRecv_frames schedule ⟨(sendWrapper limits.choice m).wire, 0⟩
  refine ⟨enough, fd', fun fuel more => ?_⟩
  rw [result fuel more, sendWrapper, (secureSend_wire limits _ _).1, frames_sent, received]

theorem serialize_ne_nil {m : Msg} (typed : m.type_.isSome = true) : m.serializeToString ≠ [] := by
  obtain ⟨t, ht⟩ := Option.isSome_iff_exists.mp typed
  obtain ⟨rest, first⟩ : ∃ rest, m.fields = ⟨1, .varint t.number⟩ :: rest := by
    simp [Msg.fields, ht]
  rw [Msg.serializeToString_eq, first, encodeAll_cons]
  exact List.append_ne_nil_of_left_ne_nil (encode_ne_nil _) _

/-- Of a typed message the fields in front of the first one with a zero byte arrive. -/
theorem wireDeliver_eq {m : Msg} (typed : m.type_.isSome = true) :
    wireDeliver m =
      some ((m.fields.takeWhile fun f => f.payload.Survives).foldl Msg.merge {}) := by
  have nonempty : m.serializeToString.length ≠ 0 := by
    simpa using serialize_ne_nil typed
  rw [wireDeliver, frames_sent, received, parseReceived_some _ nonempty, Option.map_some]
  exact congrArg some (Msg.schema.parse_cStr_message (fun _ _ _ => rfl) m)

/-! ## Which messages survive -/

/-- No field of the message is encoded with a zero byte. -/
def Msg.Survives (m : Msg) : Prop :=
  (∀ k, m.key_ = some k → k ≠ 0) ∧ (∀ p, m.port_ = some p → p ≠ 0) ∧
    (∀ s, m.status_ = some s → s ≠ 0) ∧
    (∀ v, m.value_ = some v → v.bytes ≠ [] ∧ ZeroFree v.bytes)

theorem survives_type (t : OperationType) : (Payload.varint t.number).Survives := by
  cases t <;> simp [Payload.Survives, OperationType.number]

theorem survives_iff (m : Msg) : Msg.schema.Survives m ↔ m.Survives := by
  constructor
  · intro all
    refine ⟨fun k hk => ?_, fun p hp => ?_, fun s hs => ?_, fun v hv => ?_⟩
    · have field := all ⟨2, int32 k⟩ (by simp [Msg.schema, Msg.fields, hk])
      simpa using field
    · have field := all ⟨4, int32 p⟩ (by simp [Msg.schema, Msg.fields, hp])
      simpa using field
    · have field := all ⟨5, int32 s⟩ (by simp [Msg.schema, Msg.fields, hs])
      simpa using field
    · exact all ⟨3, .bytes v.bytes⟩ (by simp [Msg.schema, Msg.fields, hv])
  · rintro ⟨keys, ports, statuses, values⟩ f member
    rcases Msg.mem_fields member with
      ⟨t, _, rfl⟩ | ⟨k, hk, rfl⟩ | ⟨v, hv, rfl⟩ | ⟨p, hp, rfl⟩ | ⟨s, hs, rfl⟩
    · exact survives_type t
    · simpa using keys k hk
    · exact values v hv
    · simpa using ports p hp
    · simpa using statuses s hs

theorem wireDeliver_of_survives {m : Msg} (typed : m.type_.isSome = true) (survives : m.Survives) :
    wireDeliver m = some m := by
  have all := (survives_iff m).mpr survives
  have whole : m.fields.takeWhile (fun f => f.payload.Survives) = m.fields := by
    apply List.takeWhile_eq_self_iff.mpr
    intro f member
    simpa using all f member
  rw [wireDeliver_eq typed, whole, Msg.foldl_merge_fields]

/-! ## What is left of a request -/

/-- The type always arrives, a key only when it is not zero, and a value only when it is
not empty and no zero key stands in front of it. -/
theorem wireDeliver_request (t : OperationType) (key : Option Int32) (value : Option WireString)
    (plain : ∀ v, value = some v → ZeroFree v.bytes) :
    wireDeliver { type_ := some t, key_ := key, value_ := value } =
      some { type_ := some t
             key_ := key.filter (· ≠ 0)
             value_ := if key = some 0 then none else value.filter (· ≠ default) } := by
  have tag := survives_type t
  rw [wireDeliver_eq rfl]
  congr 1
  -- A zero key ends the message; else the value counts, if there is one.
  rcases value with _ | v
  · rcases key with _ | k
    · simp [Msg.fields, tag]
    · by_cases zero : k = 0 <;> simp [Msg.fields, tag, Option.filter_some, zero]
  · have empty : v = default ↔ ¬(Payload.bytes v.bytes).Survives := by
      simp [Payload.Survives, plain v rfl, WireString.bytes_eq_nil_iff]
    rcases key with _ | k
    · by_cases string : (Payload.bytes v.bytes).Survives <;>
        simp [Msg.fields, tag, Option.filter_some, empty, string]
    · by_cases zero : k = 0 <;> by_cases string : (Payload.bytes v.bytes).Survives <;>
        simp [Msg.fields, tag, Option.filter_some, zero, empty, string]

/-- A typed message passes the transport exactly when key, port and status are absent
or non-zero and the value is absent, or non-empty and zero-free; nothing else is ever
taken for it. -/
theorem transport_survives_iff (schedule : RecvSchedule) (limits : SendSchedule) (m : Msg)
    (typed : m.type_.isSome = true) :
    ∃ enough buf fd', (∀ fuel, enough ≤ fuel →
      secureRecv schedule.choice fuel ⟨(sendWrapper limits.choice m).wire, 0⟩ =
        some ((buf.length, some buf), fd')) ∧
      ((Msg.parseFromString (cStr buf)).ok = true ↔ m.Survives) ∧
      ((Msg.parseFromString (cStr buf)).ok = true →
        (Msg.parseFromString (cStr buf)).message = m) := by
  obtain ⟨enough, fd', result⟩ := secureRecv_sendWrapper schedule limits m
  -- Nothing else can go wrong: the required field is there.
  have ok : (Msg.parseFromString (cStr m.serializeToString)).ok = true ↔ m.Survives := by
    have survives := Msg.schema.parse_cStr_ok_iff m
    simp only [Msg.schema, typed, and_true] at survives
    exact survives.trans (survives_iff m)
  refine ⟨enough, m.serializeToString, fd', result, ok, fun parsed => ?_⟩
  have survives := (survives_iff m).mpr (ok.mp parsed)
  exact congrArg Parsed.message (Msg.schema.parse_cStr_of_survives survives)

theorem transport_survives_iff_put :
    ∃ enough buf fd', (∀ fuel, enough ≤ fuel →
      secureRecv bytewise.choice fuel
          ⟨(sendWrapper (SendSchedule.choice fun _ => 0)
            { type_ := some .put, key_ := some (-7), value_ := some ⟨[65], by decide⟩ }).wire, 0⟩ =
        some ((buf.length, some buf), fd')) ∧
      ((Msg.parseFromString (cStr buf)).ok = true ↔ Msg.Survives
        { type_ := some .put, key_ := some (-7), value_ := some ⟨[65], by decide⟩ }) ∧
      ((Msg.parseFromString (cStr buf)).ok = true → (Msg.parseFromString (cStr buf)).message =
        { type_ := some .put, key_ := some (-7), value_ := some ⟨[65], by decide⟩ }) :=
  transport_survives_iff bytewise (fun _ => 0)
    { type_ := some .put, key_ := some (-7), value_ := some ⟨[65], by decide⟩ } rfl

end CloudLab.Sharding
