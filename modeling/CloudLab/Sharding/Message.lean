import CloudLab.Library.Schema

/-!
# `sockets::msg` of task 2 (`client_message.proto`)
-/
namespace CloudLab.Sharding

open Library Library.Wire

inductive OperationType where
  | put
  | get
  | server
  | reply
  | masterPut
  | reorg
  | reorgPut
  deriving DecidableEq, Repr

def OperationType.number : OperationType → Nat
  | .put => 1
  | .get => 2
  | .server => 3
  | .reply => 4
  | .masterPut => 5
  | .reorg => 6
  | .reorgPut => 7

/-- `msg_OperationType_IsValid` and the cast behind it. -/
def OperationType.ofNumber (n : Int32) : Option OperationType :=
  if n = 1 then some .put
  else if n = 2 then some .get
  else if n = 3 then some .server
  else if n = 4 then some .reply
  else if n = 5 then some .masterPut
  else if n = 6 then some .reorg
  else if n = 7 then some .reorgPut
  else none

@[simp] theorem OperationType.ofNumber_number (t : OperationType) :
    OperationType.ofNumber (Int32.ofNat t.number) = some t := by
  cases t <;> rfl

structure Msg where
  type_ : Option OperationType := none
  key_ : Option Int32 := none
  value_ : Option WireString := none
  port_ : Option Int32 := none
  status_ : Option Int32 := none
  deriving DecidableEq, Repr

namespace Msg

/-! The accessors return the default of an absent field; that of an enumeration is
its first value. -/

def type (m : Msg) : OperationType := m.type_.getD .put
def key (m : Msg) : Int32 := m.key_.getD 0
def value (m : Msg) : WireString := m.value_.getD default
def port (m : Msg) : Int32 := m.port_.getD 0
def status (m : Msg) : Int32 := m.status_.getD 0

def fields (m : Msg) : List Field :=
  (m.type_.map fun t => ⟨1, .varint t.number⟩).toList ++
  (m.key_.map fun k => ⟨2, int32 k⟩).toList ++
  (m.value_.map fun v => ⟨3, .bytes v.bytes⟩).toList ++
  (m.port_.map fun p => ⟨4, int32 p⟩).toList ++
  (m.status_.map fun s => ⟨5, int32 s⟩).toList

/-- Unknown fields, and unknown values of the enumeration, are passed over. -/
def merge (m : Msg) (f : Field) : Msg :=
  match f.number, f.payload with
  | 1, .varint n =>
    match OperationType.ofNumber (Int32.ofNat n) with
    | some t => { m with type_ := some t }
    | none => m
  | 2, .varint n => { m with key_ := some (Int32.ofNat n) }
  | 3, .bytes bs => { m with value_ := some (WireString.ofBytes bs) }
  | 4, .varint n => { m with port_ := some (Int32.ofNat n) }
  | 5, .varint n => { m with status_ := some (Int32.ofNat n) }
  | _, _ => m

theorem mem_fields {m : Msg} {f : Field} (member : f ∈ m.fields) :
    (∃ t, m.type_ = some t ∧ f = ⟨1, .varint t.number⟩) ∨
    (∃ k, m.key_ = some k ∧ f = ⟨2, int32 k⟩) ∨
    (∃ v, m.value_ = some v ∧ f = ⟨3, .bytes v.bytes⟩) ∨
    (∃ p, m.port_ = some p ∧ f = ⟨4, int32 p⟩) ∨
    (∃ s, m.status_ = some s ∧ f = ⟨5, int32 s⟩) := by
  simp only [fields, List.mem_append, Option.mem_toList, Option.map_eq_some_iff,
    or_assoc] at member
  simpa only [eq_comm (a := f)] using member

theorem fields_valid (m : Msg) : ∀ f ∈ m.fields, f.Valid := by
  intro f member
  rcases mem_fields member with ⟨t, _, rfl⟩ | ⟨k, _, rfl⟩ | ⟨v, _, rfl⟩ | ⟨p, _, rfl⟩ | ⟨s, _, rfl⟩
  · exact ⟨by simp, by simp, by cases t <;> simp [OperationType.number, Payload.Valid]⟩
  · exact ⟨by simp, by simp, int32_valid k⟩
  · exact ⟨by simp, by simp, v.short⟩
  · exact ⟨by simp, by simp, int32_valid p⟩
  · exact ⟨by simp, by simp, int32_valid s⟩

@[simp] theorem merge_type (m : Msg) (t : OperationType) :
    m.merge ⟨1, .varint t.number⟩ = { m with type_ := some t } := by
  simp [merge]

@[simp] theorem merge_key (m : Msg) (k : Int32) :
    m.merge ⟨2, int32 k⟩ = { m with key_ := some k } := by
  simp [merge, int32]

@[simp] theorem merge_value (m : Msg) (v : WireString) :
    m.merge ⟨3, .bytes v.bytes⟩ = { m with value_ := some v } := by
  simp [merge]

@[simp] theorem merge_port (m : Msg) (p : Int32) :
    m.merge ⟨4, int32 p⟩ = { m with port_ := some p } := by
  simp [merge, int32]

@[simp] theorem merge_status (m : Msg) (s : Int32) :
    m.merge ⟨5, int32 s⟩ = { m with status_ := some s } := by
  simp [merge, int32]

theorem foldl_merge_fields (m : Msg) : m.fields.foldl merge {} = m := by
  rcases m with ⟨type, key, value, port, status⟩
  cases type <;> cases key <;> cases value <;> cases port <;> cases status <;> simp [fields]

def schema : Schema Msg where
  fields := fields
  empty := {}
  merge := merge
  mergeCut m _ _ := m
  initialized m := m.type_.isSome
  valid := fields_valid
  merge_fields := foldl_merge_fields

def serializeToString (m : Msg) : Bytes := schema.serializeToString m

theorem serializeToString_eq (m : Msg) : m.serializeToString = encodeAll m.fields := rfl

/-- The parser that keeps every completely read field: the assumption on the library wherever no
other parser is named. -/
def parseFromString (bs : Bytes) : Parsed Msg := schema.parseFromString bs

/-- Four integers and one string always fit a frame. -/
theorem length_serialize_lt (m : Msg) : m.serializeToString.length < 2 ^ 32 := by
  have type := length_optional_le (fun t => length_varintField_le 1 (OperationType.number t)) m.type_
  have key := length_optional_le (fun k => length_varintField_le 2 (signExtend k)) m.key_
  have value := length_optional_le (length_stringField_le 3) m.value_
  have port := length_optional_le (fun p => length_varintField_le 4 (signExtend p)) m.port_
  have status := length_optional_le (fun s => length_varintField_le 5 (signExtend s)) m.status_
  simp only [serializeToString_eq, fields, encodeAll_append, List.length_append, sizeLimit,
    int32] at *
  omega

end Msg

/-- What a server tells the master when it starts. -/
def serverMessage (port : Int32) : Msg := { type_ := some .server, port_ := some port }

end CloudLab.Sharding
