import CloudLab.Replication.ClientPort

/-!
# What an acknowledged PUT is worth (`task3/source/server.cpp`)

The leader sends the entry of a PUT to the other servers without looking at what
`connect_socket` and `secure_send` return, and answers OK when its own database took the
value. So the answer says how many servers got the entry only if few enough of them failed.
-/
namespace CloudLab.Replication

open Library Library.Wire CloudLab.Transport

/-- The entry got through: the message that holds it is on the wire to its last byte. -/
def Delivered (m : ClientMsg) (sent : Sent) : Prop :=
  sent.wire = constructMessage (encodeAll (constructAppendEntryMessage m).fields)

instance (m : ClientMsg) (sent : Sent) : Decidable (Delivered m sent) :=
  inferInstanceAs (Decidable (_ = _))

def Round.delivered (m : ClientMsg) (r : Round) : Nat := r.entries.countP fun e => Delivered m e.2

/-- OK means that the leader and the servers that got the entry are more than half of all. -/
def AckedByMajority (c : Cluster) (m : ClientMsg) (r : Round) : Prop :=
  ∀ resp, r.response = some resp → resp.status_ = some .ok →
    c.allPorts.length < 2 * (r.delivered m + 1)

/-- The message of the entry can be written at all. -/
def Fits (m : ClientMsg) : Prop :=
  (encodeAll (constructAppendEntryMessage m).fields).length ≤ intMax

/-- `connect` or a `send` to the server fails, or there is no message to send. -/
def Lost (net : Net) (m : ClientMsg) (port : UInt16) : Prop :=
  ¬Fits m ∨ net.connects port = false ∨
    (secureSend (net.peer port) 0
      (constructMessage (constructAppendEntryMessage m).serializeToString)).result = none

instance (net : Net) (m : ClientMsg) : DecidablePred (Lost net m) := fun _ =>
  inferInstanceAs (Decidable (¬_ ≤ _ ∨ _ = _ ∨ _ = _))

theorem serializeToString_of_fits {m : ClientMsg} (fits : Fits m) :
    (constructAppendEntryMessage m).serializeToString =
      encodeAll (constructAppendEntryMessage m).fields := if_pos fits

theorem delivered_iff_not_lost (net : Net) (m : ClientMsg) (port : UInt16) :
    Delivered m (sendWrapper (connectSocket net port)
      (constructAppendEntryMessage m).serializeToString) ↔ ¬Lost net m port := by
  by_cases fits : Fits m
  · have written := serializeToString_of_fits fits
    cases up : net.connects port with
    | true =>
      have failed := secureSend_failed_iff (net.peer port) 0
        (constructMessage (constructAppendEntryMessage m).serializeToString)
      simp only [Lost, fits, not_true, up, reduceCtorEq, false_or, failed, not_not]
      simp only [Delivered, sendWrapper, connectSocket, up, ite_true, written]
    | false =>
      -- On the descriptor -1 nothing goes out.
      have silent := (secureSend_silent_iff (fun _ => .error) 0
        (constructMessage_ne_nil (constructAppendEntryMessage m).serializeToString)).mpr rfl
      simp only [Lost, up, or_true, true_or, not_true, iff_false]
      simp only [Delivered, sendWrapper, connectSocket, up, Bool.false_eq_true, ite_false, silent]
      exact (constructMessage_ne_nil _).symm
  -- What is sent instead is an empty frame, too short for the entry.
  · have empty : (constructAppendEntryMessage m).serializeToString = [] := if_neg fits
    simp only [Lost, fits, not_false_eq_true, true_or, not_true, iff_false]
    intro through
    have front := (secureSend_isPrefix (connectSocket net port) 0 (constructMessage [])).length_le
    rw [Delivered, empty] at through
    rw [show (secureSend (connectSocket net port) 0 (constructMessage [])).wire = _ from through]
      at front
    have long : intMax < (encodeAll (constructAppendEntryMessage m).fields).length :=
      Nat.lt_of_not_le fits
    simp only [constructMessage, convertIntToByteArray, storeWord, List.length_append,
      List.length_cons, List.length_nil, intMax] at front long
    omega

theorem delivered_add_lost (c : Cluster) (net : Net) (db : Database) {m : ClientMsg}
    (kind : m.type = .put) :
    (leaderHandle c net db m).delivered m + c.followers.countP (fun p => Lost net m p) + 1 =
      c.allPorts.length := by
  -- Every follower either gets the entry or loses it.
  have got : (leaderHandle c net db m).delivered m =
      c.followers.countP fun p => !decide (Lost net m p) := by
    simp only [Round.delivered, leaderHandle, kind, sendEntries, List.countP_map]
    apply List.countP_congr
    intro port _
    simp [delivered_iff_not_lost]
  have all := List.length_eq_countP_add_countP (fun p => decide (Lost net m p)) (l := c.followers)
  have servers := c.length_followers
  simp only [got, Bool.not_eq_true, Bool.decide_eq_false] at all ⊢
  omega

/-- PUT of "k" with the value "v". -/
def putK : ClientMsg :=
  request 1 .put (WireString.ofBytes [107]) (some (WireString.ofBytes [118]))

/-- Both other servers are down. -/
def Net.alone : Net := { Net.healthy with connects := fun _ => false }

/-- One of the two other servers is down. -/
def Net.oneDown : Net := { Net.healthy with connects := fun port => port ≠ 31002 }

end CloudLab.Replication
