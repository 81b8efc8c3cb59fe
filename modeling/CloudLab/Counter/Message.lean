import CloudLab.Library.Schema

/-!
# `sockets::message` of task 0 (`message.proto`)
-/
namespace CloudLab.Counter

open Library Library.Wire

/-- The constants of `utils.h` have the same numbers. -/
inductive OperationType where
  | add
  | sub
  | termination
  | counter
  deriving DecidableEq, Repr

def OperationType.number : OperationType → Nat
  | .add => 1
  | .sub => 2
  | .termination => 3
  | .counter => 4

/-- `message_OperationType_IsValid` and the cast behind it. -/
def OperationType.ofNumber (n : Int32) : Option OperationType :=
  if n = 1 then some .add
  else if n = 2 then some .sub
  else if n = 3 then some .termination
  else if n = 4 then some .counter
  else none

@[simp] theorem OperationType.ofNumber_number (t : OperationType) :
    OperationType.ofNumber (Int32.ofNat t.number) = some t := by
  cases t <;> rfl

structure Message where
  type_ : Option OperationType := none
  argument_ : Option Int64 := none
  deriving DecidableEq

namespace Message

def type (m : Message) : OperationType := m.type_.getD .add
def argument (m : Message) : Int64 := m.argument_.getD 0

def fields (m : Message) : List Field :=
  (m.type_.map fun t => ⟨1, .varint t.number⟩).toList ++
  (m.argument_.map fun a => ⟨2, int64 a⟩).toList

def merge (m : Message) (f : Field) : Message :=
  match f.number, f.payload with
  | 1, .varint n =>
    match OperationType.ofNumber (Int32.ofNat n) with
    | some t => { m with type_ := some t }
    | none => m
  | 2, .varint n => { m with argument_ := some (Int64.ofNat n) }
  | _, _ => m

theorem fields_valid (m : Message) : ∀ f ∈ m.fields, f.Valid := by
  intro f member
  simp only [fields, List.mem_append, Option.mem_toList, Option.map_eq_some_iff] at member
  rcases member with ⟨t, _, rfl⟩ | ⟨a, _, rfl⟩
  · exact ⟨by simp, by simp, by cases t <;> simp [OperationType.number, Payload.Valid]⟩
  · exact ⟨by simp, by simp, int64_valid a⟩

theorem foldl_merge_fields (m : Message) : m.fields.foldl merge {} = m := by
  rcases m with ⟨type, argument⟩
  cases type <;> cases argument <;> simp [fields, merge, int64]

def schema : Schema Message where
  fields := fields
  empty := {}
  merge := merge
  mergeCut m _ _ := m
  initialized m := m.type_.isSome
  valid := fields_valid
  merge_fields := foldl_merge_fields

def serializeToString (m : Message) : Bytes := schema.serializeToString m

def parseFromString (bs : Bytes) : Parsed Message := schema.parseFromString bs

theorem parse_serializeToString (m : Message) :
    parseFromString m.serializeToString = ⟨m.type_.isSome, m⟩ := schema.parse_serialize m

/-- Type and argument take between four and thirteen bytes. -/
theorem length_serialize (t : OperationType) (a : Int64) :
    4 ≤ (serializeToString ⟨some t, some a⟩).length ∧
      (serializeToString ⟨some t, some a⟩).length ≤ 13 := by
  have upper := length_varint_le a.toUInt64.toNat
  have lower := List.length_pos_iff.mpr (varint_ne_nil a.toUInt64.toNat)
  have kind : (Field.encode ⟨1, .varint t.number⟩).length = 2 := by cases t <;> rfl
  have tag : (Field.tag ⟨2, int64 a⟩).length = 1 := rfl
  have bytes : (serializeToString ⟨some t, some a⟩).length =
      2 + (1 + (varint a.toUInt64.toNat).length) := by
    simp only [serializeToString, Schema.serializeToString, schema, fields, Option.map_some,
      Option.toList_some, List.singleton_append, encodeAll_cons, encodeAll_nil, List.append_nil,
      List.length_append, kind]
    rw [Field.encode, List.length_append, tag]
    rfl
  omega

/-- The length depends on the argument only. -/
theorem length_serialize_eq (t u : OperationType) (a : Int64) :
    (serializeToString ⟨some t, some a⟩).length = (serializeToString ⟨some u, some a⟩).length := by
  have kind : ∀ t : OperationType, (Field.encode ⟨1, .varint t.number⟩).length = 2 := by
    intro t
    cases t <;> rfl
  simp only [serializeToString, Schema.serializeToString, schema, fields, Option.map_some,
    Option.toList_some, List.singleton_append, encodeAll_cons, List.length_append, kind]

/-- A single byte holds no field. -/
theorem type_of_short {bs : Bytes} (short : bs.length ≤ 1) :
    (parseFromString bs).message.type = .add := by
  have flat : ∀ (m : Message) number part, schema.mergeCut m number part = m := fun _ _ _ => rfl
  have none : (scan bs).fields = [] := by
    rcases bs with _ | ⟨b, _ | ⟨c, rest⟩⟩
    · rfl
    -- Behind a tag of one byte the payload is missing.
    · have missing : ∀ wireType, readPayload wireType [] = none := by
        intro wireType
        unfold readPayload
        split <;> simp [readVarint, splitExact, readSize]
      have refused : readField [b] = .malformed := by
        by_cases last : b.toNat < 128
        · simp [readField, readTag, readVarint, last, missing, skipGroup, readSize]
        · simp [readField, readTag, readVarint, last]
      simp [scan, scanFuel, refused]
    · simp at short
  rw [parseFromString, schema.message_eq flat, none]
  rfl

end Message

end CloudLab.Counter
