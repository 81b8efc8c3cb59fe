import CloudLab.Replication.ClientPort
import CloudLab.Replication.Acknowledged

/-!
# What a follower makes of a log entry (`task3/source/server.cpp`)

The leader applies the message it decoded; a follower applies a copy that was encoded
again, nested in an `AppendEntriesRequest`, cut at its first zero byte and decoded again.
The cut is always inside the entry: a value that is absent at the leader is sent as an
empty one, whose size is a zero byte. The parser keeps every completely read field.
`entries_parse_cStr` says what is left of the entry then, `samePair_iff` when that is the same
key and value.
-/
namespace CloudLab.Replication

open Library Library.Wire CloudLab.Transport

/-- The arguments of `db->Put`. -/
def pair (m : Operation) : WireString × WireString := (m.key.cStr, m.value.cStr)

/-- The arguments of the calls to `db->Put` in a follower's loop over `req.entries`. -/
def passed (entries : List Entry) : List (WireString × WireString) :=
  (entries.filter fun entry => entry.type = .put).map pair

theorem passed_singleton {entry : Entry} (kind : entry.type = .put) :
    passed [entry] = [pair entry] := by
  simp [passed, kind]

/-- The loop makes these calls, in this order. -/
theorem applyEntries_eq_foldl_passed (db : Database) (entries : List Entry) :
    applyEntries db entries = (passed entries).foldl (fun db kv => db.put kv.1.bytes kv.2) db := by
  induction entries generalizing db with
  | nil => rfl
  | cons entry entries ih =>
    by_cases kind : entry.type = .put
    · have rest := ih (putOperation db entry)
      simpa [applyEntries, passed, kind, putOperation, pair] using rest
    · have rest := ih db
      simpa [applyEntries, passed, kind] using rest

/-- `req.ParseFromString(res.second.get())` -/
def parseEntries (res : Nat × Option Bytes) : Option AppendEntriesRequest :=
  res.2.map fun buf => (AppendEntriesRequest.parseFromString (cStr buf)).message

/-! ## The message of one entry -/

/-- The fields in front of the entry. -/
def headFields : List Field :=
  [⟨1, .varint 1⟩, ⟨2, .varint 1⟩, ⟨3, .varint 1⟩, ⟨4, .varint 1⟩]

theorem headFields_valid : ∀ f ∈ headFields, f.Valid := by
  intro f member
  simp only [headFields, List.mem_cons, List.not_mem_nil, or_false] at member
  rcases member with rfl | rfl | rfl | rfl <;> exact ⟨by simp, by simp, by simp [Payload.Valid]⟩

theorem headFields_survive : ∀ f ∈ headFields, f.payload.Survives := by decide

theorem fields_constructAppendEntryMessage (m : ClientMsg) :
    (constructAppendEntryMessage m).fields =
      headFields ++ AppendEntriesRequest.entryField (logEntry m) :: [⟨6, .varint 1⟩] := rfl

theorem serialize_logEntry_ne_nil (m : ClientMsg) : (logEntry m).serializeToString ≠ [] := by
  have first : (logEntry m).fields = ⟨1, int32 m.id⟩ :: (logEntry m).fields.tail := rfl
  rw [Operation.serializeToString, Schema.serializeToString]
  change encodeAll (logEntry m).fields ≠ []
  rw [first, encodeAll_cons]
  exact List.append_ne_nil_of_left_ne_nil (encode_ne_nil _) _

/-- Whenever the message can be written, a reader accepts the size of its entry: what else is
in the message takes 16 bytes then. -/
theorem entryField_valid {m : ClientMsg} (fits : Fits m) :
    (AppendEntriesRequest.entryField (logEntry m)).Valid := by
  have head : (encodeAll headFields).length = 8 := by decide
  have last : (encodeAll [⟨6, .varint 1⟩]).length = 2 := by decide
  have tag : (Field.tag (AppendEntriesRequest.entryField (logEntry m))).length = 1 := by
    simp [Field.tag, AppendEntriesRequest.entryField, Payload.wireType, varint, varintGroups]
  rw [Fits, fields_constructAppendEntryMessage, encodeAll_append, encodeAll_cons,
    List.length_append, List.length_append, head, last, Field.encode, List.length_append, tag] at fits
  simp only [AppendEntriesRequest.entryField, Payload.encode, List.length_append, intMax] at fits
  refine ⟨by simp [AppendEntriesRequest.entryField], by simp [AppendEntriesRequest.entryField], ?_⟩
  show (logEntry m).serializeToString.length < sizeLimit
  -- A size from the limit on takes five bytes, and with them the message is too long.
  by_contra long
  have size := @lt_length_varint 4 (logEntry m).serializeToString.length (by decide)
    (by unfold sizeLimit at long; omega)
  unfold sizeLimit at long
  omega

theorem not_broken_headFields : ∀ f ∈ headFields, ¬AppendEntriesRequest.Broken f := by
  intro f member
  simp only [headFields, List.mem_cons, List.not_mem_nil, or_false] at member
  rcases member with rfl | rfl | rfl | rfl <;> exact id

theorem mergeAll_of_not_broken (r : AppendEntriesRequest) {fs : List Field}
    (whole : ∀ f ∈ fs, ¬AppendEntriesRequest.Broken f) :
    r.mergeAll fs = (fs.foldl AppendEntriesRequest.merge r, true) := by
  induction fs generalizing r with
  | nil => rfl
  | cons f fs ih =>
    rw [AppendEntriesRequest.mergeAll, if_neg (whole f (by simp)),
      ih _ fun g member => whole g (by simp [member]), List.foldl_cons]

/-- Of the message that holds an entry a follower reads just what it would read of the
entry alone. -/
theorem entries_parse_cStr {m : ClientMsg} (fits : Fits m) :
    (AppendEntriesRequest.parseFromString
        (cStr (constructAppendEntryMessage m).serializeToString)).message.entries =
      [(Operation.parseFromString (cStr (logEntry m).serializeToString)).message] := by
  have valid := entryField_valid fits
  rw [serializeToString_of_fits fits, fields_constructAppendEntryMessage]
  by_cases free : ZeroFree (logEntry m).serializeToString
  -- Nothing is cut, and the entry is read back.
  · have all : ∀ f ∈ headFields ++ AppendEntriesRequest.entryField (logEntry m) ::
        [⟨6, .varint 1⟩], f.Valid ∧ f.payload.Survives ∧ ¬AppendEntriesRequest.Broken f := by
      intro f member
      rcases List.mem_append.mp member with head | entry
      · exact ⟨headFields_valid f head, headFields_survive f head, not_broken_headFields f head⟩
      · simp only [List.mem_cons, List.not_mem_nil, or_false] at entry
        rcases entry with rfl | rfl
        · refine ⟨valid, ⟨serialize_logEntry_ne_nil m, free⟩, ?_⟩
          have scanned := scan_encodeAll _ (Operation.schema.valid (logEntry m))
          simp only [AppendEntriesRequest.Broken, AppendEntriesRequest.entryField, not_not]
          exact congrArg Scan.ending scanned
        · exact ⟨⟨by simp, by simp, by simp [Payload.Valid]⟩, by simp [Payload.Survives], id⟩
    have whole := zeroFree_encodeAll (fun f member => (all f member).1)
      fun f member => (all f member).2.1
    have scanned := scan_encodeAll _ fun f member => (all f member).1
    rw [cStr_eq_self whole, cStr_eq_self free, AppendEntriesRequest.parseFromString, scanned,
      mergeAll_of_not_broken {} fun f member => (all f member).2.2]
    rfl
  -- The message ends inside the entry.
  · have cut := cStr_encodeAll_bytes headFields_valid headFields_survive valid free [⟨6, .varint 1⟩]
    have scanned := scan_truncated headFields headFields_valid valid (length_cStr_lt free)
    rw [AppendEntriesRequest.entryField, cut, AppendEntriesRequest.parseFromString, scanned,
      mergeAll_of_not_broken {} not_broken_headFields]
    rfl

/-! ## What the leader reads -/

/-- Key and value, where present, are nonempty and free of zero bytes. -/
structure Operation.Plain (m : Operation) : Prop where
  key : ∀ k, m.key_ = some k → Wire.Plain k.bytes
  value : ∀ v, m.value_ = some v → Wire.Plain v.bytes

theorem Operation.merge_plain {m : Operation} {f : Field} (plain : m.Plain)
    (content : ∀ bs, f.payload = .bytes bs → Wire.Plain bs) : (m.merge f).Plain := by
  unfold Operation.merge
  split
  · exact ⟨plain.key, plain.value⟩
  · split
    · exact ⟨plain.key, plain.value⟩
    · exact plain
  next bs _ payload =>
    refine ⟨?_, plain.value⟩
    rintro k ⟨⟩
    rw [(content bs payload).bytes_ofBytes]
    exact content bs payload
  next bs _ payload =>
    refine ⟨plain.key, ?_⟩
    rintro v ⟨⟩
    rw [(content bs payload).bytes_ofBytes]
    exact content bs payload
  · exact plain

theorem Operation.foldl_merge_plain {m : Operation} {fs : List Field} (plain : m.Plain)
    (content : ∀ f ∈ fs, ∀ bs, f.payload = .bytes bs → Wire.Plain bs) :
    (fs.foldl Operation.merge m).Plain := by
  induction fs generalizing m with
  | nil => exact plain
  | cons f fs ih =>
    rw [List.foldl_cons]
    apply ih
    · exact Operation.merge_plain plain (content f (by simp))
    · exact fun g member => content g (by simp [member])

theorem readRequest_plain (payload : Bytes) :
    (readRequest Operation.parseFromString payload).Plain := by
  rw [readRequest, Operation.parseFromString, Operation.schema.message_eq fun _ _ _ => rfl]
  apply Operation.foldl_merge_plain
  · constructor
    · intro k absent
      cases absent
    · intro v absent
      cases absent
  · exact scan_zeroFree (cStr_zeroFree payload)

theorem Operation.Plain.cStr_value {m : Operation} (plain : m.Plain) : m.value.cStr = m.value := by
  cases value : m.value_ with
  | none => simp [Operation.value, value]
  | some v =>
    simp only [Operation.value, value, Option.getD_some]
    exact WireString.cStr_eq_self (plain.value v value).free

/-! ## The follower's copy -/

/-- What a follower reads of the entry: nothing behind an id of 0; else the key, and the
value, absent if it is empty. -/
theorem parse_logEntry {m : ClientMsg} (plain : m.Plain) {k : WireString} (key : m.key_ = some k) :
    (Operation.parseFromString (cStr (logEntry m).serializeToString)).message =
      if m.id = 0 then {}
      else ⟨some m.id, some m.type, some k, if m.value.bytes = [] then none else some m.value⟩ := by
  have survives : (Payload.bytes k.bytes).Survives :=
    ⟨(plain.key k key).nonempty, (plain.key k key).free⟩
  have same : m.key = k := by simp [Operation.key, key]
  have free : ZeroFree m.value.bytes := by
    rw [← plain.cStr_value]
    exact WireString.zeroFree_cStr _
  have read := Operation.parse_cStr_request m.id m.type k (some m.value)
  rw [if_pos survives, Option.filter_some] at read
  rw [show logEntry m = ⟨some m.id, some m.type, some k, some m.value⟩ by rw [logEntry, same], read]
  by_cases empty : m.value.bytes = []
  · simp [empty, Payload.Survives]
  · simp [empty, free, Payload.Survives]

/-- What is written of the message always fits a frame, and the frame is received whole. -/
theorem receive_entries (schedule : RecvSchedule) (limits : SendSchedule) (m : ClientMsg) :
    ∃ enough, ∀ fuel, enough ≤ fuel →
      (secureRecv schedule.choice fuel ⟨(sendWrapper limits.choice
        (constructAppendEntryMessage m).serializeToString).wire, 0⟩).map
          (fun r => parseEntries r.1) = some (some (AppendEntriesRequest.parseFromString
            (cStr (constructAppendEntryMessage m).serializeToString)).message) := by
  have short : (constructAppendEntryMessage m).serializeToString.length < 2 ^ 32 := by
    unfold AppendEntriesRequest.serializeToString
    split
    next fits => unfold intMax at fits; omega
    next => simp
  obtain ⟨enough, fd', _, result⟩ := secureRecv_frames schedule
    ⟨(sendWrapper limits.choice (constructAppendEntryMessage m).serializeToString).wire, 0⟩
  refine ⟨enough, fun fuel more => ?_⟩
  rw [result fuel more, sendWrapper, (secureSend_wire limits _ _).1, frames_constructMessage short]
  rfl

/-- With every call to `send` and `recv` in order, leader and follower put the same pair for a
request the leader decoded exactly when its id is not 0 and its entry can be written. -/
theorem samePair_iff (schedule : RecvSchedule) (limits : SendSchedule) (payload : Bytes)
    (ok : (Operation.parseFromString (cStr payload)).ok = true)
    (kind : (readRequest Operation.parseFromString payload).type = .put) :
    ∃ enough req, (∀ fuel, enough ≤ fuel →
        (secureRecv schedule.choice fuel ⟨(sendWrapper limits.choice (constructAppendEntryMessage
          (readRequest Operation.parseFromString payload)).serializeToString).wire, 0⟩).map
            (fun r => parseEntries r.1) = some (some req)) ∧
      (passed req.entries = [pair (readRequest Operation.parseFromString payload)] ↔
        (readRequest Operation.parseFromString payload).id ≠ 0 ∧
          Fits (readRequest Operation.parseFromString payload)) := by
  have plain := readRequest_plain payload
  have required := Operation.schema.initialized_of_ok ok
  obtain ⟨k, key⟩ : ∃ k, (readRequest Operation.parseFromString payload).key_ = some k := by
    simp only [Operation.schema, Bool.and_eq_true, Option.isSome_iff_exists] at required
    exact required.2
  -- What the leader read is all that matters from here on.
  generalize readRequest Operation.parseFromString payload = m at *
  obtain ⟨enough, received⟩ := receive_entries schedule limits m
  refine ⟨enough, _, received, ?_⟩
  by_cases fits : Fits m
  · rw [entries_parse_cStr fits, parse_logEntry plain key]
    have same : m.key = k := by simp [Operation.key, key]
    by_cases known : m.id = 0
    -- The follower puts an empty key, and the leader's key is not empty.
    · have nonempty := (plain.key k key).nonempty
      have own : k.cStr = k := WireString.cStr_eq_self (plain.key k key).free
      simp only [known, ite_true, ne_eq, not_true, false_and, iff_false]
      intro equal
      have keys : (default : WireString).cStr = k := by
        have first := congrArg (List.map Prod.fst) equal
        simpa [passed, pair, Operation.type, Operation.key, key, own] using first
      rw [WireString.cStr_default] at keys
      exact nonempty (by rw [← keys]; rfl)
    -- The follower reads the same key, and an absent value for an empty one.
    · have value : (if m.value.bytes = [] then none else some m.value).getD default = m.value := by
        split
        next empty => exact (WireString.bytes_eq_nil_iff.mp empty).symm
        next => rfl
      simp only [known, ite_false, ne_eq, not_false_eq_true, fits, and_self, iff_true]
      rw [passed_singleton, List.singleton_inj, pair, pair, Prod.mk.injEq]
      · constructor
        · rw [same]; rfl
        · exact congrArg WireString.cStr value
      · exact kind
  -- An empty frame holds no entry.
  · have empty : (constructAppendEntryMessage m).serializeToString = [] := if_neg fits
    simp only [fits, and_false, iff_false, empty]
    exact (List.cons_ne_nil _ _).symm

/-- PUT of "k" with the value "v" and the id 1. -/
def payloadKV : Bytes := [8, 1, 16, 1, 26, 1, 107, 34, 1, 118]

theorem samePair_iff_KV :
    ∃ enough req, (∀ fuel, enough ≤ fuel →
        (secureRecv bytewise.choice fuel ⟨(sendWrapper (SendSchedule.choice fun _ => 0)
          (constructAppendEntryMessage
            (readRequest Operation.parseFromString payloadKV)).serializeToString).wire, 0⟩).map
              (fun r => parseEntries r.1) = some (some req)) ∧
      (passed req.entries = [pair (readRequest Operation.parseFromString payloadKV)] ↔
        (readRequest Operation.parseFromString payloadKV).id ≠ 0 ∧
          Fits (readRequest Operation.parseFromString payloadKV)) :=
  samePair_iff bytewise (fun _ => 0) payloadKV (by decide) (by decide)

/-- PUT of "k" whose id, written as 2^32, is read as 0. -/
def payloadId0 : Bytes := [8, 128, 128, 128, 128, 16, 16, 1, 26, 1, 107]

theorem not_samePair_id0 :
    (Operation.parseFromString (cStr payloadId0)).ok = true ∧
    (readRequest Operation.parseFromString payloadId0).type = .put ∧
    ∃ enough req, (∀ fuel, enough ≤ fuel →
        (secureRecv bytewise.choice fuel ⟨(sendWrapper (SendSchedule.choice fun _ => 0)
          (constructAppendEntryMessage
            (readRequest Operation.parseFromString payloadId0)).serializeToString).wire, 0⟩).map
              (fun r => parseEntries r.1) = some (some req)) ∧
      passed req.entries ≠ [pair (readRequest Operation.parseFromString payloadId0)] := by
  have read : readRequest Operation.parseFromString payloadId0 =
      request 0 .put (WireString.ofBytes [107]) none := by decide
  refine ⟨by decide, by rw [read]; rfl, ?_⟩
  obtain ⟨enough, received⟩ :=
    receive_entries bytewise (fun _ => 0) (readRequest Operation.parseFromString payloadId0)
  refine ⟨enough, _, received, ?_⟩
  rw [read]
  have fits : Fits (request 0 .put (WireString.ofBytes [107]) none) := by
    unfold Fits
    decide
  rw [entries_parse_cStr fits]
  decide

end CloudLab.Replication
