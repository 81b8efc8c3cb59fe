import CloudLab.Library.Schema

/-!
# The messages of task 3 (`kvs.proto`, `raft.proto`)

Join messages and log entries arrive on one listening socket, and a receiver decodes
either as the type it expects. The fields a message writes and those another type reads
are therefore kept apart: `asRequest` is what a follower makes of any message.
-/
namespace CloudLab.Replication

open Library Library.Wire

inductive OperationType where
  | put
  | get
  | directGet
  deriving DecidableEq, Repr

def OperationType.number : OperationType → Nat
  | .put => 1
  | .get => 2
  | .directGet => 3

def OperationType.ofNumber (n : Int32) : Option OperationType :=
  if n = 1 then some .put
  else if n = 2 then some .get
  else if n = 3 then some .directGet
  else none

@[simp] theorem OperationType.ofNumber_number (t : OperationType) :
    OperationType.ofNumber (Int32.ofNat t.number) = some t := by
  cases t <;> rfl

/-- The four fields that `kvs::client_msg` and `raft::Entry` have in common. -/
structure Operation where
  id_ : Option Int32 := none
  type_ : Option OperationType := none
  key_ : Option WireString := none
  value_ : Option WireString := none
  deriving DecidableEq, Repr

namespace Operation

def id (m : Operation) : Int32 := m.id_.getD 0
def type (m : Operation) : OperationType := m.type_.getD .put
def key (m : Operation) : WireString := m.key_.getD default
def value (m : Operation) : WireString := m.value_.getD default

def fields (m : Operation) : List Field :=
  (m.id_.map fun i => ⟨1, int32 i⟩).toList ++
  (m.type_.map fun t => ⟨2, .varint t.number⟩).toList ++
  (m.key_.map fun k => ⟨3, .bytes k.bytes⟩).toList ++
  (m.value_.map fun v => ⟨4, .bytes v.bytes⟩).toList

def merge (m : Operation) (f : Field) : Operation :=
  match f.number, f.payload with
  | 1, .varint n => { m with id_ := some (Int32.ofNat n) }
  | 2, .varint n =>
    match OperationType.ofNumber (Int32.ofNat n) with
    | some t => { m with type_ := some t }
    | none => m
  | 3, .bytes bs => { m with key_ := some (WireString.ofBytes bs) }
  | 4, .bytes bs => { m with value_ := some (WireString.ofBytes bs) }
  | _, _ => m

theorem fields_valid (m : Operation) : ∀ f ∈ m.fields, f.Valid := by
  intro f member
  simp only [fields, List.mem_append, Option.mem_toList, Option.map_eq_some_iff] at member
  rcases member with ((⟨i, _, rfl⟩ | ⟨t, _, rfl⟩) | ⟨k, _, rfl⟩) | ⟨v, _, rfl⟩
  · exact ⟨by simp, by simp, int32_valid i⟩
  · exact ⟨by simp, by simp, by cases t <;> simp [OperationType.number, Payload.Valid]⟩
  · exact ⟨by simp, by simp, k.short⟩
  · exact ⟨by simp, by simp, v.short⟩

theorem foldl_merge_fields (m : Operation) : m.fields.foldl merge {} = m := by
  rcases m with ⟨id, type, key, value⟩
  cases id <;> cases type <;> cases key <;> cases value <;> simp [fields, merge, int32]

def schema : Schema Operation where
  fields := fields
  empty := {}
  merge := merge
  mergeCut m _ _ := m
  initialized m := m.id_.isSome && m.type_.isSome && m.key_.isSome
  valid := fields_valid
  merge_fields := foldl_merge_fields

end Operation

/-- `kvs::client_msg` -/
abbrev ClientMsg := Operation

/-- `raft::Entry` -/
abbrev Entry := Operation

/-- `raft::AppendEntriesRequest` -/
structure AppendEntriesRequest where
  term_ : Option UInt64 := none
  leaderID_ : Option UInt64 := none
  prevLogIndex_ : Option UInt64 := none
  prevLogTerm_ : Option Int64 := none
  entries : List Entry := []
  leaderCommit_ : Option UInt64 := none
  deriving DecidableEq

namespace AppendEntriesRequest

def merge (r : AppendEntriesRequest) (f : Field) : AppendEntriesRequest :=
  match f.number, f.payload with
  | 1, .varint n => { r with term_ := some (UInt64.ofNat n) }
  | 2, .varint n => { r with leaderID_ := some (UInt64.ofNat n) }
  | 3, .varint n => { r with prevLogIndex_ := some (UInt64.ofNat n) }
  | 4, .varint n => { r with prevLogTerm_ := some (Int64.ofNat n) }
  | 5, .bytes bs =>
    { r with entries := r.entries ++ [(Operation.schema.parseFromString bs).message] }
  | 6, .varint n => { r with leaderCommit_ := some (UInt64.ofNat n) }
  | _, _ => r

/-- Only field 5 holds entries. -/
theorem entries_foldl_merge (r : AppendEntriesRequest) (fs : List Field)
    (low : ∀ f ∈ fs, f.number < 5) : (fs.foldl merge r).entries = r.entries := by
  induction fs generalizing r with
  | nil => rfl
  | cons f fs ih =>
    have number := low f (by simp)
    rw [List.foldl_cons, ih _ fun g member => low g (by simp [member])]
    unfold merge
    split <;> first | rfl | omega

end AppendEntriesRequest

inductive Status where
  | ok
  | noKey
  | error
  | notLeader
  deriving DecidableEq, Repr

def Status.number : Status → Nat
  | .ok => 1
  | .noKey => 2
  | .error => 3
  | .notLeader => 4

/-- `kvs::server_response` -/
structure ServerResponse where
  id_ : Option Int32 := none
  status_ : Option Status := none
  value_ : Option WireString := none
  deriving DecidableEq, Repr

def ServerResponse.fields (m : ServerResponse) : List Field :=
  (m.id_.map fun i => ⟨1, int32 i⟩).toList ++
  (m.status_.map fun s => ⟨2, .varint s.number⟩).toList ++
  (m.value_.map fun v => ⟨3, .bytes v.bytes⟩).toList

theorem ServerResponse.fields_low (m : ServerResponse) : ∀ f ∈ m.fields, f.number < 5 := by
  intro f member
  simp only [fields, List.mem_append, Option.mem_toList, Option.map_eq_some_iff] at member
  rcases member with (⟨i, _, rfl⟩ | ⟨s, _, rfl⟩) | ⟨v, _, rfl⟩ <;> simp

/-- A connection to the port of a server, by what was sent on it. -/
inductive Incoming where
  | join (m : ServerResponse)
  | appendEntries (r : AppendEntriesRequest)
  deriving DecidableEq

/-- What a follower reads: a request decodes to itself; of a join it reads the fields in
front of the first with a zero byte, as fields of a request. -/
def Incoming.asRequest : Incoming → AppendEntriesRequest
  | .join m => (m.fields.takeWhile fun f => f.payload.Survives).foldl AppendEntriesRequest.merge {}
  | .appendEntries r => r

/-- A join message holds no entry, in whatever part of it is read. -/
@[simp] theorem Incoming.entries_join (m : ServerResponse) :
    (Incoming.join m).asRequest.entries = [] := by
  rw [asRequest, AppendEntriesRequest.entries_foldl_merge]
  intro f member
  exact m.fields_low f ((List.takeWhile_sublist _).subset member)

end CloudLab.Replication
