import CloudLab.Sharding.Server
import CloudLab.Sharding.Transport

/-!
# What a shard makes of bytes that are no message (`task2/source/server.cpp`)

The result of `ParseFromString` is dropped, so a round goes on with whatever fields were read
in front of the failure and the defaults of the others; the default of the type is PUT. Which
fields these are is up to the parser of the protocol buffer library, a parameter here.
-/
namespace CloudLab.Sharding

open Library Library.Wire

/-- A round of the loop on what `secure_recv` returned, and what it sends. -/
def Shard.round (parse : Bytes → Parsed Msg) (s : Shard) (res : Nat × Option Bytes) :
    Shard × Pending :=
  match parseReceived parse res with
  | none => (s, {})
  | some parsed => (s.handle parsed.message, (s.receive parsed.message).2)

/-- The database and the list of keys are as before, and the master is told of nothing. -/
def Untouched (s : Shard) (r : Shard × Pending) : Prop :=
  r.1.db = s.db ∧ r.1.keys = s.keys ∧ r.2.masterPut = none

/-- The message read from the C string of a payload, as far as it was read. -/
def readMessage (parse : Bytes → Parsed Msg) (payload : Bytes) : Msg := (parse (cStr payload)).message

/-- A type that a shard ignores or answers only; a REORG has an effect if there are keys. -/
def Inert (s : Shard) (t : OperationType) : Prop :=
  match t with
  | .get | .server | .reply | .masterPut => True
  | .reorg => s.keys = []
  | .put | .reorgPut => False

instance (s : Shard) (t : OperationType) : Decidable (Inert s t) := by
  cases t <;> unfold Inert <;> infer_instance

/-- Only the type decides whether a round leaves a trace, whatever else was read. -/
theorem untouched_handle_iff (s : Shard) (m : Msg) :
    Untouched s (s.handle m, (s.receive m).2) ↔ Inert s m.type := by
  cases kind : m.type with
  | put =>
    -- The key is listed, and MASTER_PUT is sent.
    simp [Untouched, Inert, Shard.receive, kind]
  | reorgPut =>
    simp [Untouched, Inert, Shard.handle_reorgPut kind, Shard.store]
  | reorg =>
    simp only [Untouched, Inert, Shard.handle_reorg kind]
    constructor
    · rintro ⟨_, keys, _⟩
      exact keys.symm
    · intro none
      refine ⟨?_, none.symm, ?_⟩
      · rw [none]
        rfl
      · simp [Shard.receive, kind]
  | get => simp [Untouched, Inert, Shard.handle_get kind, Shard.receive, kind]
  | server | reply | masterPut =>
    simp [Untouched, Inert, Shard.handle, Shard.receive, Shard.finish, kind]

/-- What an undecodable payload should come to; `decoded` says which bytes were to decode. -/
def UndecodableIgnored (parse : Bytes → Parsed Msg) (s : Shard) (decoded payload : Bytes) : Prop :=
  (parse decoded).ok = false → Untouched s (s.round parse (payload.length, some payload))

/-- A payload that does not decode, as it was sent or as the C string that is parsed, leaves a
shard alone exactly when it is empty or the type read from it is inert. -/
theorem undecodableIgnored_iff (parse : Bytes → Parsed Msg) (s : Shard) (payload : Bytes) :
    (UndecodableIgnored parse s payload payload ↔
      (parse payload).ok = true ∨ payload = [] ∨ Inert s (readMessage parse payload).type) ∧
    (UndecodableIgnored parse s (cStr payload) payload ↔
      (parse (cStr payload)).ok = true ∨ payload = [] ∨
        Inert s (readMessage parse payload).type) := by
  have round : Untouched s (s.round parse (payload.length, some payload)) ↔
      payload = [] ∨ Inert s (readMessage parse payload).type := by
    by_cases empty : payload = []
    · simp [Untouched, Shard.round, parseReceived, empty]
    · have size : payload.length ≠ 0 := fun zero => empty (List.eq_nil_of_length_eq_zero zero)
      rw [Shard.round, parseReceived_some parse size]
      exact (untouched_handle_iff s (readMessage parse payload)).trans (by simp [empty])
  have reading : ∀ decoded, UndecodableIgnored parse s decoded payload ↔
      (parse decoded).ok = true ∨ payload = [] ∨ Inert s (readMessage parse payload).type := by
    intro decoded
    rw [UndecodableIgnored, round]
    cases (parse decoded).ok <;> simp
  exact ⟨reading payload, reading (cStr payload)⟩

/-- A key without a type is stored with an empty value, and the master is told. -/
theorem not_undecodableIgnored_untyped :
    ¬UndecodableIgnored Msg.parseFromString {} [16, 5] [16, 5] ∧
      ¬UndecodableIgnored Msg.parseFromString {} (cStr [16, 5]) [16, 5] := by
  have read : readMessage Msg.parseFromString [16, 5] = { key_ := some 5 } := by decide
  have touched : ¬Untouched {}
      (Shard.round Msg.parseFromString {} ([16, 5].length, some [16, 5])) := by
    rw [Shard.round, parseReceived_some _ (by decide)]
    intro same
    have inert := (untouched_handle_iff {} (readMessage Msg.parseFromString [16, 5])).mp same
    rw [read] at inert
    exact inert
  exact ⟨fun ignored => touched (ignored (by decide)), fun ignored => touched (ignored (by decide))⟩

end CloudLab.Sharding
