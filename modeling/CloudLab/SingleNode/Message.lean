import CloudLab.Library.Schema

/-!
# The messages of task 1 (`client_message.proto`, `server_message.proto`)
-/
namespace CloudLab.SingleNode

open Library Library.Wire

/-! ## Requests -/

inductive OperationType where
  | put
  | get
  | txnStart
  | txnPut
  | txnGet
  | txnGetAndExecute
  | txnCommit
  | txnAbort
  | init
  deriving DecidableEq, Repr

def OperationType.number : OperationType → Nat
  | .put => 0
  | .get => 1
  | .txnStart => 2
  | .txnPut => 3
  | .txnGet => 4
  | .txnGetAndExecute => 5
  | .txnCommit => 6
  | .txnAbort => 7
  | .init => 8

/-- `client_msg_OperationType_IsValid` and the cast behind it. -/
def OperationType.ofNumber (n : Int32) : Option OperationType :=
  if n = 0 then some .put
  else if n = 1 then some .get
  else if n = 2 then some .txnStart
  else if n = 3 then some .txnPut
  else if n = 4 then some .txnGet
  else if n = 5 then some .txnGetAndExecute
  else if n = 6 then some .txnCommit
  else if n = 7 then some .txnAbort
  else if n = 8 then some .init
  else none

@[simp] theorem OperationType.ofNumber_number (t : OperationType) :
    OperationType.ofNumber (Int32.ofNat t.number) = some t := by
  cases t <;> rfl

structure OperationData where
  type_ : Option OperationType := none
  opId_ : Option Int32 := none
  txnId_ : Option Int32 := none
  key_ : Option Int32 := none
  value_ : Option WireString := none
  clientId_ : Option Int32 := none
  port_ : Option Int32 := none
  deriving DecidableEq, Repr

namespace OperationData

def type (od : OperationData) : OperationType := od.type_.getD .put
def opId (od : OperationData) : Int32 := od.opId_.getD 0
def key (od : OperationData) : Int32 := od.key_.getD 0
def value (od : OperationData) : WireString := od.value_.getD default
def port (od : OperationData) : Int32 := od.port_.getD 0

def fields (od : OperationData) : List Field :=
  (od.type_.map fun t => ⟨1, .varint t.number⟩).toList ++
  (od.opId_.map fun i => ⟨2, int32 i⟩).toList ++
  (od.txnId_.map fun i => ⟨3, int32 i⟩).toList ++
  (od.key_.map fun k => ⟨4, int32 k⟩).toList ++
  (od.value_.map fun v => ⟨5, .bytes v.bytes⟩).toList ++
  (od.clientId_.map fun i => ⟨6, int32 i⟩).toList ++
  (od.port_.map fun p => ⟨7, int32 p⟩).toList

def merge (od : OperationData) (f : Field) : OperationData :=
  match f.number, f.payload with
  | 1, .varint n =>
    match OperationType.ofNumber (Int32.ofNat n) with
    | some t => { od with type_ := some t }
    | none => od
  | 2, .varint n => { od with opId_ := some (Int32.ofNat n) }
  | 3, .varint n => { od with txnId_ := some (Int32.ofNat n) }
  | 4, .varint n => { od with key_ := some (Int32.ofNat n) }
  | 5, .bytes bs => { od with value_ := some (WireString.ofBytes bs) }
  | 6, .varint n => { od with clientId_ := some (Int32.ofNat n) }
  | 7, .varint n => { od with port_ := some (Int32.ofNat n) }
  | _, _ => od

theorem fields_valid (od : OperationData) : ∀ f ∈ od.fields, f.Valid := by
  intro f member
  simp only [fields, List.mem_append, Option.mem_toList, Option.map_eq_some_iff] at member
  rcases member with (((((⟨t, _, rfl⟩ | ⟨i, _, rfl⟩) | ⟨i, _, rfl⟩) | ⟨k, _, rfl⟩) | ⟨v, _, rfl⟩) |
    ⟨i, _, rfl⟩) | ⟨p, _, rfl⟩
  · exact ⟨by simp, by simp, by cases t <;> simp [OperationType.number, Payload.Valid]⟩
  · exact ⟨by simp, by simp, int32_valid i⟩
  · exact ⟨by simp, by simp, int32_valid i⟩
  · exact ⟨by simp, by simp, int32_valid k⟩
  · exact ⟨by simp, by simp, v.short⟩
  · exact ⟨by simp, by simp, int32_valid i⟩
  · exact ⟨by simp, by simp, int32_valid p⟩

private theorem foldl_type (od : OperationData) (o : Option OperationType) :
    (o.map fun t => ⟨1, .varint t.number⟩).toList.foldl merge od =
      { od with type_ := o.or od.type_ } := by
  cases o <;> simp [merge]

private theorem foldl_value (od : OperationData) (o : Option WireString) :
    (o.map fun v => ⟨5, .bytes v.bytes⟩).toList.foldl merge od =
      { od with value_ := o.or od.value_ } := by
  cases o <;> simp [merge]

private theorem foldl_int32 (od : OperationData) (number : Nat) (o : Option Int32) :
    (o.map fun i => ⟨number, int32 i⟩).toList.foldl merge od =
      match number with
      | 2 => { od with opId_ := o.or od.opId_ }
      | 3 => { od with txnId_ := o.or od.txnId_ }
      | 4 => { od with key_ := o.or od.key_ }
      | 6 => { od with clientId_ := o.or od.clientId_ }
      | 7 => { od with port_ := o.or od.port_ }
      | _ => (o.map fun i => ⟨number, int32 i⟩).toList.foldl merge od := by
  split <;> cases o <;> simp [merge, int32]

theorem foldl_merge_fields (od : OperationData) : od.fields.foldl merge {} = od := by
  simp only [fields, List.foldl_append, foldl_type, foldl_int32, foldl_value, Option.or_none]

def schema : Schema OperationData where
  fields := fields
  empty := {}
  merge := merge
  mergeCut od _ _ := od
  initialized od := od.type_.isSome
  valid := fields_valid
  merge_fields := foldl_merge_fields

end OperationData

structure ClientMsg where
  ops_ : List OperationData := []
  deriving DecidableEq, Repr

namespace ClientMsg

/-- `msg.Clear()` -/
def clear (_ : ClientMsg) : ClientMsg := {}

/-- `msg.ops(i)`. Behind the last element the access is undefined; `outOfRange` is the
element the returned reference stands for, or nothing if the process is stopped. -/
def ops (outOfRange : Option OperationData) (msg : ClientMsg) (i : Nat) : Option OperationData :=
  msg.ops_[i]?.or outOfRange

/-- The elements of field 8, up to the first that is cut off inside; whether none is,
and whether each has its required field. -/
def mergeOps : List Field → List OperationData × Bool × Bool
  | [] => ([], true, true)
  | ⟨8, .bytes bs⟩ :: rest =>
    let parsed := OperationData.schema.parseFromString bs
    if (scan bs).ending = .complete then
      let others := mergeOps rest
      (parsed.message :: others.1, others.2.1, parsed.ok && others.2.2)
    else ([parsed.message], false, false)
  | _ :: rest => mergeOps rest

def parseFromString (bs : Bytes) : Parsed ClientMsg :=
  let read := mergeOps (scan bs).fields
  match (scan bs).ending with
  | .complete => ⟨read.2.1 && read.2.2, ⟨read.1⟩⟩
  | .truncated 8 part =>
    if read.2.1 then ⟨false, ⟨read.1 ++ [(OperationData.schema.parseFromString part).message]⟩⟩
    else ⟨false, ⟨read.1⟩⟩
  | _ => ⟨false, ⟨read.1⟩⟩

example : parseFromString [66, 6, 8, 8, 56, 164, 238, 1] =
    ⟨true, ⟨[{ type_ := some .init, port_ := some 30500 }]⟩⟩ := by decide

end ClientMsg

/-! ## Replies -/

structure ServerReply where
  opId_ : Option Int32 := none
  success_ : Option Bool := none
  txnId_ : Option Int32 := none
  value_ : Option WireString := none
  deriving DecidableEq, Repr

namespace ServerReply

def success (r : ServerReply) : Bool := r.success_.getD false
def value (r : ServerReply) : WireString := r.value_.getD default

def fields (r : ServerReply) : List Field :=
  (r.opId_.map fun i => ⟨1, int32 i⟩).toList ++
  (r.success_.map fun s => ⟨2, .varint s.toNat⟩).toList ++
  (r.txnId_.map fun i => ⟨3, int32 i⟩).toList ++
  (r.value_.map fun v => ⟨4, .bytes v.bytes⟩).toList

def merge (r : ServerReply) (f : Field) : ServerReply :=
  match f.number, f.payload with
  | 1, .varint n => { r with opId_ := some (Int32.ofNat n) }
  | 2, .varint n => { r with success_ := some (n != 0) }
  | 3, .varint n => { r with txnId_ := some (Int32.ofNat n) }
  | 4, .bytes bs => { r with value_ := some (WireString.ofBytes bs) }
  | _, _ => r

theorem fields_valid (r : ServerReply) : ∀ f ∈ r.fields, f.Valid := by
  intro f member
  simp only [fields, List.mem_append, Option.mem_toList, Option.map_eq_some_iff] at member
  rcases member with ((⟨i, _, rfl⟩ | ⟨s, _, rfl⟩) | ⟨i, _, rfl⟩) | ⟨v, _, rfl⟩
  · exact ⟨by simp, by simp, int32_valid i⟩
  · exact ⟨by simp, by simp, by cases s <;> simp [Payload.Valid]⟩
  · exact ⟨by simp, by simp, int32_valid i⟩
  · exact ⟨by simp, by simp, v.short⟩

theorem foldl_merge_fields (r : ServerReply) : r.fields.foldl merge {} = r := by
  rcases r with ⟨opId, success, txnId, value⟩
  cases opId <;> rcases success with _ | _ | _ <;> cases txnId <;> cases value <;>
    simp [fields, merge, int32]

def schema : Schema ServerReply where
  fields := fields
  empty := {}
  merge := merge
  mergeCut r _ _ := r
  initialized r := r.opId_.isSome && r.success_.isSome
  valid := fields_valid
  merge_fields := foldl_merge_fields

def serializeToString (r : ServerReply) : Bytes := schema.serializeToString r

theorem length_serialize_lt (r : ServerReply) : r.serializeToString.length < 2 ^ 32 := by
  have opId := length_optional_le (fun i => length_varintField_le 1 (signExtend i)) r.opId_
  have success := length_optional_le (fun s => length_varintField_le 2 (Bool.toNat s)) r.success_
  have txnId := length_optional_le (fun i => length_varintField_le 3 (signExtend i)) r.txnId_
  have value := length_optional_le (length_stringField_le 4) r.value_
  simp only [serializeToString, Schema.serializeToString, schema, fields, encodeAll_append,
    List.length_append, sizeLimit, int32] at *
  omega

end ServerReply

end CloudLab.SingleNode
