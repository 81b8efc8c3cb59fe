import CloudLab.SingleNode.Message
import CloudLab.Transport.Framing

/-!
# The client's verification (`task1/source/client.cpp`, `kv_store.h`)

Behind a test run the client asks the server for the keys of `local_kv` and compares. The
loop takes the keys 0 and -1 for its end, and the comparison is over the length of what the
server returned. `sound_iff` says what can be told from `verify_all` returning.
-/
namespace CloudLab.SingleNode

open Library Library.Wire CloudLab.Transport

/-- `local_kv`, in the order in which the hash map is iterated. -/
structure LocalKv where
  entries : List (Int32 × Bytes)
  distinct : (entries.map Prod.fst).Nodup

def LocalKv.get (kv : LocalKv) (key : Int32) : Option Bytes :=
  (kv.entries.find? fun e => e.1 = key).map Prod.snd

theorem LocalKv.get_of_mem {kv : LocalKv} {e : Int32 × Bytes} (member : e ∈ kv.entries) :
    kv.get e.1 = some e.2 := by
  have general : ∀ entries : List (Int32 × Bytes), (entries.map Prod.fst).Nodup → e ∈ entries →
      (entries.find? fun f => f.1 = e.1).map Prod.snd = some e.2 := by
    intro entries distinct member
    induction entries with
    | nil => cases member
    | cons f entries ih =>
      obtain ⟨fresh, distinct⟩ := List.nodup_cons.mp distinct
      by_cases same : f.1 = e.1
      -- There is no second entry of this key.
      · rcases List.mem_cons.mp member with rfl | later
        · simp
        · exact absurd (same ▸ List.mem_map_of_mem later) fresh
      · rw [List.find?_cons_of_neg (by simpa using same)]
        rcases List.mem_cons.mp member with rfl | later
        · exact absurd rfl same
        · exact ih distinct later
  exact general kv.entries kv.distinct member

/-- How the process ends in the middle of the verification. -/
inductive Exit where
  | code (n : Nat)
  /-- `std::string` throws on a size that is negative as an `int`. -/
  | lengthError
  /-- `memcmp` reads behind the memory that is there. -/
  | fault
  deriving DecidableEq

/-- `recv_ack` -/
def recvAck : Nat × Option Bytes → Except Exit Bytes
  | (_, none) => .error (.code 2)
  | (bytecount, some buffer) => if bytecount = 0 then .error (.code 2) else .ok buffer

/-- `msg.value()` behind `ParseFromString` on the whole payload. -/
def replyValue (payload : Bytes) : Bytes :=
  (ServerReply.schema.parseFromString payload).message.value.bytes

/-- `verify`; behind the expected string and its terminator the memory goes on with `behind`. -/
def verify (kv : LocalKv) (behind : Bytes) (key : Int32) (retVal : Bytes) : Except Exit Unit :=
  match kv.get key with
  | none => if retVal.length ≠ 0 then .error (.code 8) else .ok ()
  | some expected =>
    if retVal <+: expected ++ 0 :: behind then .ok ()
    else if expected ++ 0 :: behind <+: retVal then .error .fault
    else .error (.code 1)

variable (kv : LocalKv) (behind : Int32 → Bytes) (answer : Int32 → Option Bytes)

/-- The body of the loop. `answer` is the frame that the server sends for a key, if any. -/
def verifyKey (key : Int32) : Except Exit Unit :=
  (recvAck (received (answer key).toList)).bind fun payload =>
    if payload.length < 2 ^ 31 then verify kv (behind key) key (replyValue payload)
    else .error .lengthError

/-- The loop over the iterator: `get_next_key` returns -1 at the end, and the condition is
false for the key 0. -/
def verifyLoop : List (Int32 × Bytes) → Except Exit Unit
  | [] => .ok ()
  | (key, _) :: rest =>
    if key = 0 then .ok ()
    else if key = -1 then .ok ()
    else (verifyKey kv behind answer key).bind fun _ => verifyLoop rest

def verifyAll : Except Exit Unit := verifyLoop kv behind answer kv.entries

/-- The value the server returned; none where there is no answer or an empty one. -/
def returned (answer : Option Bytes) : Option Bytes :=
  (answer.filter (· ≠ [])).map replyValue

/-- If `verify_all` returns, the server returned what `local_kv` holds, for every key. -/
def Sound : Prop :=
  verifyAll kv behind answer = .ok () → ∀ e ∈ kv.entries, returned (answer e.1) = some e.2

/-- The keys that the loop asks for. -/
def asked (entries : List (Int32 × Bytes)) : List (Int32 × Bytes) :=
  entries.takeWhile fun e => e.1 ≠ 0 ∧ e.1 ≠ -1

/-- The key 0 or -1, and what the iterator has behind it. -/
def passedOver (entries : List (Int32 × Bytes)) : List (Int32 × Bytes) :=
  entries.dropWhile fun e => e.1 ≠ 0 ∧ e.1 ≠ -1

/-- An answer that ends the process: none, an empty or an overlong one, or a value that differs
from the expected one, the byte 0 and the memory behind it within its own length. -/
def Stops (behind expected : Bytes) (answer : Option Bytes) : Prop :=
  ∀ payload, answer = some payload → payload ≠ [] → payload.length < 2 ^ 31 →
    ¬replyValue payload <+: expected ++ 0 :: behind

theorem verifyKey_ok_iff {kv : LocalKv} {e : Int32 × Bytes} (member : e ∈ kv.entries) :
    verifyKey kv behind answer e.1 = .ok () ↔ ¬Stops (behind e.1) e.2 (answer e.1) := by
  unfold verifyKey Stops
  cases sent : answer e.1 with
  -- Without an answer, or with an empty one, `recv_ack` exits.
  | none => simp [received, recvAck, Except.bind]
  | some payload =>
    by_cases empty : payload = []
    · simp [received, recvAck, Except.bind, empty]
    · have size : payload.length ≠ 0 := fun zero => empty (List.eq_nil_of_length_eq_zero zero)
      have acked : recvAck (received (some payload).toList) = .ok payload := by
        simp [received, recvAck, size]
      rw [acked, Except.bind]
      by_cases short : payload.length < 2 ^ 31
      · rw [if_pos short, verify, LocalKv.get_of_mem member]
        by_cases same : replyValue payload <+: e.2 ++ 0 :: behind e.1
        · simp only [same, if_true, true_iff]
          exact fun differs => differs payload rfl empty short same
        -- `memcmp` reaches a byte that differs, or the end of the memory.
        · simp only [same, if_false]
          constructor
          · intro passed
            split at passed <;> cases passed
          · intro passes
            refine absurd ?_ passes
            rintro _ ⟨⟩ _ _
            exact same
      -- The size is negative as an `int`.
      · rw [if_neg short]
        simp only [reduceCtorEq, false_iff, not_not]
        rintro _ ⟨⟩ _ within
        exact absurd within short

/-- The loop comes to its end when no key it asks for stops it. -/
theorem verifyLoop_ok_iff {entries : List (Int32 × Bytes)}
    (members : ∀ e ∈ entries, e ∈ kv.entries) :
    verifyLoop kv behind answer entries = .ok () ↔
      ∀ e ∈ asked entries, ¬Stops (behind e.1) e.2 (answer e.1) := by
  induction entries with
  | nil => simp [verifyLoop, asked]
  | cons e entries ih =>
    have rest := ih fun f member => members f (by simp [member])
    have this := verifyKey_ok_iff behind answer (members e (by simp))
    rw [verifyLoop]
    by_cases ends : e.1 ≠ 0 ∧ e.1 ≠ -1
    · rw [if_neg ends.1, if_neg ends.2, asked, List.takeWhile_cons_of_pos (by simpa using ends)]
      rw [List.forall_mem_cons, ← this, ← asked, ← rest]
      cases verifyKey kv behind answer e.1 <;> simp [Except.bind]
    -- The loop ends at this key, which is not asked for.
    · rw [asked, List.takeWhile_cons_of_neg (by simpa using ends)]
      by_cases zero : e.1 = 0
      · simp [zero]
      · have last : e.1 = -1 := by
          by_contra other
          exact ends ⟨zero, other⟩
        simp [last]

/-- A value of the expected length that passes the comparison is the expected one. -/
theorem returned_of_not_stops {behind expected : Bytes} {answer : Option Bytes}
    (passes : ¬Stops behind expected answer)
    (size : ∀ value ∈ returned answer, value.length = expected.length) :
    returned answer = some expected := by
  simp only [Stops, not_forall, not_not] at passes
  obtain ⟨payload, rfl, nonempty, _, same⟩ := passes
  have given : returned (some payload) = some (replyValue payload) := by
    simp [returned, nonempty]
  have within : replyValue payload <+: expected :=
    List.prefix_of_prefix_length_le same (List.prefix_append _ _) (size _ given).le
  rw [given, within.eq_of_length (size _ given)]

/-- The verification is sound exactly when an answer to a key that is asked for stops it, or
these answers have the expected lengths and those to the keys passed over are right. -/
theorem sound_iff : Sound kv behind answer ↔
    (∃ e ∈ asked kv.entries, Stops (behind e.1) e.2 (answer e.1)) ∨
      (∀ e ∈ asked kv.entries, ∀ value ∈ returned (answer e.1), value.length = e.2.length) ∧
        ∀ e ∈ passedOver kv.entries, returned (answer e.1) = some e.2 := by
  have ends : verifyLoop kv behind answer kv.entries = .ok () ↔
      ∀ e ∈ asked kv.entries, ¬Stops (behind e.1) e.2 (answer e.1) :=
    verifyLoop_ok_iff kv behind answer fun _ member => member
  rw [Sound, verifyAll, ends]
  constructor
  · intro sound
    by_cases stopped : ∃ e ∈ asked kv.entries, Stops (behind e.1) e.2 (answer e.1)
    · exact Or.inl stopped
    · right
      -- Nothing stops the loop, so all answers are to be right.
      have right := sound fun e member stops => stopped ⟨e, member, stops⟩
      constructor
      · intro e member value given
        rw [right e ((List.takeWhile_subset _) member)] at given
        rw [Option.some.inj given]
      · intro e member
        exact right e ((List.dropWhile_subset _) member)
  · rintro (⟨e, member, stops⟩ | ⟨sizes, others⟩) passed f listed
    · exact absurd stops (passed e member)
    -- Nothing stopped it: asked for, or passed over.
    · rw [← List.takeWhile_append_dropWhile (p := fun e => e.1 ≠ 0 ∧ e.1 ≠ -1)
        (l := kv.entries)] at listed
      rcases List.mem_append.mp listed with early | late
      · exact returned_of_not_stops (passed f early) (sizes f early)
      · exact others f late

/-- One key. -/
def LocalKv.one (key : Int32) (value : Bytes) : LocalKv := ⟨[(key, value)], by simp⟩

/-- The reply "a" passes for the value "ab", and for the key 0 nothing is compared. -/
theorem not_sound_one :
    ¬Sound (.one 1 [97, 98]) (fun _ => []) (fun _ => some [34, 1, 97]) ∧
    ¬Sound (.one 0 [97, 98]) (fun _ => []) (fun _ => some [34, 1, 120]) := by
  constructor
  · intro sound
    have right := sound rfl (1, [97, 98]) (by simp [LocalKv.one])
    revert right
    decide
  · intro sound
    have right := sound rfl (0, [97, 98]) (by simp [LocalKv.one])
    revert right
    decide

end CloudLab.SingleNode
