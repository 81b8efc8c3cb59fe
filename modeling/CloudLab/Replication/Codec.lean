import CloudLab.Replication.Message
import CloudLab.Library.ZeroFreeInput
import CloudLab.Transport.Framing

/-!
# The messages of task 3 as bytes

Every message is framed by `sendWrapper` and parsed from the C string at the start of the
buffer that `secure_recv` returns. `parse_cStr_request` says what a server makes of a
request, `entries_parse_cStr` what a follower makes of a log entry.
-/
namespace CloudLab.Replication

open Library Library.Wire CloudLab.Transport

/-- The receiver's view of one framed payload. -/
theorem frames_constructMessage {payload : Bytes} (bound : payload.length < 2 ^ 32) :
    frames (constructMessage payload) = [payload] := by
  have one := frames_flatMap_frame [payload] (by simpa using bound)
  rw [constructMessage_eq bound]
  simpa using one

/-! ## `kvs::client_msg` -/

namespace Operation

def serializeToString (m : Operation) : Bytes := schema.serializeToString m

/-- The parser that keeps every completely read field: the assumption on the library wherever no
other parser is named. -/
def parseFromString (bs : Bytes) : Parsed Operation := schema.parseFromString bs

/-- Id and type take 13 bytes at most, tags and sizes of key and value 12. -/
theorem length_serialize_le (m : Operation) : m.serializeToString.length ≤
    25 + (m.key_.map (·.bytes.length)).getD 0 + (m.value_.map (·.bytes.length)).getD 0 := by
  -- Field by field: id, type, key, value.
  have id : (encodeAll (m.id_.map fun i => ⟨1, int32 i⟩).toList).length ≤ 11 := by
    apply length_optional_le
    intro i
    have tag := length_encode_small (f := ⟨1, int32 i⟩) (by simp)
    have body := length_varint_le (signExtend i)
    simp only [int32, Payload.encode] at tag ⊢
    omega
  have type : (encodeAll (m.type_.map fun t => ⟨2, .varint t.number⟩).toList).length ≤ 2 := by
    apply length_optional_le
    intro t
    cases t <;> decide
  have key : (encodeAll (m.key_.map fun k => ⟨3, .bytes k.bytes⟩).toList).length ≤
      6 + (m.key_.map (·.bytes.length)).getD 0 := by
    cases m.key_ with
    | none => simp
    | some k => simpa using length_stringField_small (n := 3) (by decide) k
  have value : (encodeAll (m.value_.map fun v => ⟨4, .bytes v.bytes⟩).toList).length ≤
      6 + (m.value_.map (·.bytes.length)).getD 0 := by
    cases m.value_ with
    | none => simp
    | some v => simpa using length_stringField_small (n := 4) (by decide) v
  simp only [serializeToString, Schema.serializeToString, schema, fields, encodeAll_append,
    List.length_append]
  omega

/-- A key and a value of any length still fit a frame together. -/
theorem length_serialize_lt (m : Operation) : m.serializeToString.length < 2 ^ 32 := by
  have total := m.length_serialize_le
  have short : ∀ o : Option WireString, (o.map (·.bytes.length)).getD 0 < sizeLimit := by
    intro o
    cases o with
    | none => decide
    | some v => exact v.short
  have key := short m.key_
  have value := short m.value_
  unfold sizeLimit at key value
  omega

@[simp] theorem merge_id (m : Operation) (i : Int32) :
    m.merge ⟨1, int32 i⟩ = { m with id_ := some i } := by
  simp [merge, int32]

@[simp] theorem merge_type (m : Operation) (t : OperationType) :
    m.merge ⟨2, .varint t.number⟩ = { m with type_ := some t } := by
  simp [merge]

@[simp] theorem merge_key (m : Operation) (k : WireString) :
    m.merge ⟨3, .bytes k.bytes⟩ = { m with key_ := some k } := by
  simp [merge]

@[simp] theorem merge_value (m : Operation) (v : WireString) :
    m.merge ⟨4, .bytes v.bytes⟩ = { m with value_ := some v } := by
  simp [merge]

theorem reads_parseFromString : schema.Reads parseFromString :=
  schema.reads_parseFromString fun _ _ _ => rfl

theorem survives_type (t : OperationType) : (Payload.varint t.number).Survives := by
  cases t <;> simp [Payload.Survives, OperationType.number]

/-- In front of the first field with a zero byte: behind an id of 0 nothing of a request is
there; the type always is, and the value only behind a key that is. -/
theorem foldl_merge_surviving (i : Int32) (t : OperationType) (k : WireString)
    (v : Option WireString) :
    ((fields ⟨some i, some t, some k, v⟩).takeWhile fun f => f.payload.Survives).foldl merge {} =
      if i = 0 then {}
      else if (Payload.bytes k.bytes).Survives then
        ⟨some i, some t, some k, v.filter fun v => (Payload.bytes v.bytes).Survives⟩
      else ⟨some i, some t, none, none⟩ := by
  have tag := survives_type t
  by_cases zero : i = 0
  · simp [fields, zero]
  -- Id and type are read; what else is read is decided by the key, then by the value.
  · by_cases key : (Payload.bytes k.bytes).Survives
    · rcases v with _ | v
      · simp [fields, zero, tag, key]
      · by_cases value : (Payload.bytes v.bytes).Survives <;>
          simp [fields, zero, tag, key, value, Option.filter_some]
    · simp [fields, zero, tag, key]

/-- The field with the first zero byte is the id, the key or the value. -/
theorem head_dropWhile_surviving {i : Int32} {t : OperationType} {k : WireString}
    {v : Option WireString} {f : Field}
    (first : ((fields ⟨some i, some t, some k, v⟩).dropWhile
      fun f => f.payload.Survives).head? = some f) :
    f = if i = 0 then ⟨1, int32 0⟩
      else if (Payload.bytes k.bytes).Survives then ⟨4, .bytes (v.getD default).bytes⟩
      else ⟨3, .bytes k.bytes⟩ := by
  have tag := survives_type t
  by_cases zero : i = 0
  · simpa [fields, zero, eq_comm] using first
  · by_cases key : (Payload.bytes k.bytes).Survives
    · rcases v with _ | v
      · simp [fields, zero, tag, key] at first
      · by_cases value : (Payload.bytes v.bytes).Survives
        · simp [fields, zero, tag, key, value] at first
        · simpa [fields, zero, tag, key, value, eq_comm] using first
    · simpa [fields, zero, tag, key, eq_comm] using first

theorem parse_cStr_request (i : Int32) (t : OperationType) (k : WireString)
    (v : Option WireString) :
    (parseFromString (cStr (serializeToString ⟨some i, some t, some k, v⟩))).message =
      if i = 0 then {}
      else if (Payload.bytes k.bytes).Survives then
        ⟨some i, some t, some k, v.filter fun v => (Payload.bytes v.bytes).Survives⟩
      else ⟨some i, some t, none, none⟩ := by
  have read := schema.parse_cStr_message (fun _ _ _ => rfl) ⟨some i, some t, some k, v⟩
  rw [parseFromString, serializeToString, read]
  exact foldl_merge_surviving i t k v

/-- Another parser may have something of the field with the zero byte besides. -/
theorem parse_request {parse : Bytes → Parsed Operation} (reads : schema.Reads parse) (i : Int32)
    (t : OperationType) (k : WireString) (v : Option WireString) :
    ∃ left : List Field,
      (parse (cStr (serializeToString ⟨some i, some t, some k, v⟩))).message =
        left.foldl merge (
          if i = 0 then {}
          else if (Payload.bytes k.bytes).Survives then
            ⟨some i, some t, some k, v.filter fun v => (Payload.bytes v.bytes).Survives⟩
          else ⟨some i, some t, none, none⟩) ∧
      ∀ g ∈ left, Schema.LeftOf g (
        if i = 0 then ⟨1, int32 0⟩
        else if (Payload.bytes k.bytes).Survives then ⟨4, .bytes (v.getD default).bytes⟩
        else ⟨3, .bytes k.bytes⟩) := by
  have small : ∀ f ∈ schema.fields ⟨some i, some t, some k, v⟩, f.number < 16 := by
    rcases v with _ | v <;> simp [schema, fields]
  obtain ⟨left, read, cut⟩ := reads.message_cStr ⟨some i, some t, some k, v⟩ small
  refine ⟨left, ?_, fun g member => ?_⟩
  · rw [serializeToString, read]
    exact congrArg (left.foldl merge) (foldl_merge_surviving i t k v)
  · obtain ⟨f, first, leftOf⟩ := cut g member
    rwa [head_dropWhile_surviving first] at leftOf

/-! What is left of a cut field is merged into what was read in front of it. -/

theorem number_of_leftOf {left : List Field} {k : WireString} {bs : Bytes} {p : Prop}
    [Decidable p]
    (leftOf : ∀ g ∈ left, Schema.LeftOf g (if p then ⟨4, .bytes bs⟩ else ⟨3, .bytes k.bytes⟩)) :
    ∀ g ∈ left, 2 < g.number := by
  intro g member
  have number := (leftOf g member).1
  split at number <;> simp [number]

/-- Id and type have the lowest numbers. -/
theorem foldl_merge_high {left : List Field} (high : ∀ g ∈ left, 2 < g.number) (m : Operation) :
    (left.foldl merge m).id_ = m.id_ ∧ (left.foldl merge m).type_ = m.type_ := by
  refine List.foldlRecOn (motive := fun n => n.id_ = m.id_ ∧ n.type_ = m.type_) left merge
    ⟨rfl, rfl⟩ fun n same g member => ?_
  have number := high g member
  unfold merge
  split <;> first | exact same | omega

theorem foldl_merge_value {left : List Field} {bs : Bytes}
    (leftOf : ∀ g ∈ left, Schema.LeftOf g ⟨4, .bytes bs⟩) (m : Operation) :
    (left.foldl merge m).key_ = m.key_ := by
  refine List.foldlRecOn (motive := fun n => n.key_ = m.key_) left merge rfl
    fun n same g member => ?_
  have number : g.number = 4 := (leftOf g member).1
  unfold merge
  split <;> first | exact same | omega

/-- What is left of an id of 0 is 0. -/
theorem foldl_merge_id {left : List Field} (leftOf : ∀ g ∈ left, Schema.LeftOf g ⟨1, int32 0⟩) :
    (left.foldl merge {}).id = 0 := by
  have unset : ({} : Operation).id = 0 := rfl
  refine List.foldlRecOn (motive := fun n => n.id = 0) left merge unset fun n same g member => ?_
  obtain ⟨number, r, small, payload⟩ := leftOf g member
  have zero : r = 0 := Nat.le_zero.mp small
  obtain ⟨_, _⟩ := g
  obtain rfl : _ = 1 := number
  obtain rfl : _ = Payload.varint r := payload
  rw [zero]
  rfl

theorem foldl_merge_first {left : List Field}
    (leftOf : ∀ g ∈ left, Schema.LeftOf g ⟨1, int32 0⟩) : (left.foldl merge {}).type_ = none := by
  have unset : ({} : Operation).type_ = none := rfl
  refine List.foldlRecOn (motive := fun n => n.type_ = none) left merge unset
    fun n same g member => ?_
  have number : g.number = 1 := (leftOf g member).1
  unfold merge
  split <;> first | exact same | omega

/-- What is left of an empty key is empty, up to its first zero byte. -/
theorem foldl_merge_empty {left : List Field} (leftOf : ∀ g ∈ left, Schema.LeftOf g ⟨3, .bytes []⟩)
    {m : Operation} (unset : m.key_ = none) : (left.foldl merge m).key.cStr.bytes = [] := by
  refine List.foldlRecOn (motive := fun n => n.key.cStr.bytes = []) left merge
    (by rw [key, unset]; rfl) fun n same g member => ?_
  obtain ⟨number, part, payload, front⟩ := leftOf g member
  obtain ⟨_, _⟩ := g
  obtain rfl : _ = 3 := number
  obtain rfl : _ = Payload.bytes part := payload
  change (WireString.ofBytes part).cStr.bytes = []
  rw [WireString.ofBytes]
  split
  · exact List.prefix_nil.mp front
  · rfl

end Operation

/-! ## `kvs::server_response` -/

def Status.ofNumber (n : Int32) : Option Status :=
  if n = 1 then some .ok
  else if n = 2 then some .noKey
  else if n = 3 then some .error
  else if n = 4 then some .notLeader
  else none

@[simp] theorem Status.ofNumber_number (s : Status) :
    Status.ofNumber (Int32.ofNat s.number) = some s := by
  cases s <;> rfl

namespace ServerResponse

def id (m : ServerResponse) : Int32 := m.id_.getD 0
def status (m : ServerResponse) : Status := m.status_.getD .ok
def value (m : ServerResponse) : WireString := m.value_.getD default

def merge (m : ServerResponse) (f : Field) : ServerResponse :=
  match f.number, f.payload with
  | 1, .varint n => { m with id_ := some (Int32.ofNat n) }
  | 2, .varint n =>
    match Status.ofNumber (Int32.ofNat n) with
    | some s => { m with status_ := some s }
    | none => m
  | 3, .bytes bs => { m with value_ := some (WireString.ofBytes bs) }
  | _, _ => m

theorem fields_valid (m : ServerResponse) : ∀ f ∈ m.fields, f.Valid := by
  intro f member
  simp only [fields, List.mem_append, Option.mem_toList, Option.map_eq_some_iff] at member
  rcases member with (⟨i, _, rfl⟩ | ⟨s, _, rfl⟩) | ⟨v, _, rfl⟩
  · exact ⟨by simp, by simp, int32_valid i⟩
  · exact ⟨by simp, by simp, by cases s <;> simp [Status.number, Payload.Valid]⟩
  · exact ⟨by simp, by simp, v.short⟩

@[simp] theorem merge_id (m : ServerResponse) (i : Int32) :
    m.merge ⟨1, int32 i⟩ = { m with id_ := some i } := by
  simp [merge, int32]

@[simp] theorem merge_status (m : ServerResponse) (s : Status) :
    m.merge ⟨2, .varint s.number⟩ = { m with status_ := some s } := by
  simp [merge]

@[simp] theorem merge_value (m : ServerResponse) (v : WireString) :
    m.merge ⟨3, .bytes v.bytes⟩ = { m with value_ := some v } := by
  simp [merge]

theorem foldl_merge_fields (m : ServerResponse) : m.fields.foldl merge {} = m := by
  rcases m with ⟨id, status, value⟩
  cases id <;> cases status <;> cases value <;> simp [fields]

def schema : Schema ServerResponse where
  fields := fields
  empty := {}
  merge := merge
  mergeCut m _ _ := m
  initialized m := m.id_.isSome && m.status_.isSome
  valid := fields_valid
  merge_fields := foldl_merge_fields

def serializeToString (m : ServerResponse) : Bytes := schema.serializeToString m

/-- The same parser as for requests. -/
def parseFromString (bs : Bytes) : Parsed ServerResponse := schema.parseFromString bs

theorem length_serialize_lt (m : ServerResponse) : m.serializeToString.length < 2 ^ 32 := by
  have id := length_optional_le (fun i => length_varintField_le 1 (signExtend i)) m.id_
  have status := length_optional_le (fun s => length_varintField_le 2 (Status.number s)) m.status_
  have value := length_optional_le (length_stringField_le 3) m.value_
  simp only [serializeToString, Schema.serializeToString, schema, fields, encodeAll_append,
    List.length_append, sizeLimit, int32] at *
  omega

end ServerResponse

/-! ## `raft::AppendEntriesRequest` -/

/-- `INT_MAX` -/
def intMax : Nat := 2 ^ 31 - 1

namespace AppendEntriesRequest

def entryField (e : Entry) : Field := ⟨5, .bytes e.serializeToString⟩

def fields (r : AppendEntriesRequest) : List Field :=
  (r.term_.map fun n => ⟨1, .varint n.toNat⟩).toList ++
  (r.leaderID_.map fun n => ⟨2, .varint n.toNat⟩).toList ++
  (r.prevLogIndex_.map fun n => ⟨3, .varint n.toNat⟩).toList ++
  (r.prevLogTerm_.map fun n => ⟨4, int64 n⟩).toList ++
  r.entries.map entryField ++
  (r.leaderCommit_.map fun n => ⟨6, .varint n.toNat⟩).toList

/-- `SerializeToString` gives up on a message of more than `INT_MAX` bytes and leaves the
string empty; entries are what makes a message that long. -/
def serializeToString (r : AppendEntriesRequest) : Bytes :=
  if (encodeAll r.fields).length ≤ intMax then encodeAll r.fields else []

/-- All required fields are present, those of the entries included. -/
def initialized (r : AppendEntriesRequest) : Bool :=
  r.term_.isSome && r.leaderID_.isSome && r.prevLogIndex_.isSome && r.prevLogTerm_.isSome &&
    r.leaderCommit_.isSome && r.entries.all Operation.schema.initialized

/-- An entry whose content does not end with a field ends the reading. -/
def Broken (f : Field) : Prop :=
  match f.number, f.payload with
  | 5, .bytes bs => (scan bs).ending ≠ .complete
  | _, _ => False

instance (f : Field) : Decidable (Broken f) := by
  unfold Broken
  split <;> infer_instance

/-- The fields up to the first broken entry, that one included, and whether there is none. -/
def mergeAll (r : AppendEntriesRequest) : List Field → AppendEntriesRequest × Bool
  | [] => (r, true)
  | f :: rest => if Broken f then (r.merge f, false) else (r.merge f).mergeAll rest

def parseFromString (bs : Bytes) : Parsed AppendEntriesRequest :=
  let read := mergeAll {} (scan bs).fields
  match (scan bs).ending with
  | .complete => ⟨read.2 && read.1.initialized, read.1⟩
  | .truncated 5 part => if read.2 then ⟨false, read.1.merge ⟨5, .bytes part⟩⟩ else ⟨false, read.1⟩
  | _ => ⟨false, read.1⟩

end AppendEntriesRequest

end CloudLab.Replication
