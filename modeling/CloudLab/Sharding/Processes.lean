import CloudLab.Sharding.Cluster

/-!
# Processes and their connections

What the models have in common in which the messages of clients, shards and master pass each other
on the way.
-/
namespace CloudLab.Sharding

open Library

/-- A connection that waits to be accepted, with its message. -/
structure Connection (T : Type) where
  /-- The client that waits for a reply. -/
  client : Option T
  message : Msg
  deriving DecidableEq

/-- A round of a shard's loop behind `receive`. -/
structure Round (T : Type) where
  client : Option T
  pending : Pending
  deriving DecidableEq

section Replies

variable {T C : Type} [DecidableEq T] (clients : T → C) (f : Msg → C → C)

/-- The clients behind a reply on a connection. -/
def hear : Option T → Option Msg → T → C
  | some x, some m => Function.update clients x (f m (clients x))
  | _, _ => clients

/-- Only the client at the other end hears of a reply. -/
theorem hear_or (client : Option T) (reply : Option Msg) (x : T) :
    hear clients f client reply x = clients x ∨
      client = some x ∧ ∃ m, reply = some m ∧ hear clients f client reply x = f m (clients x) := by
  cases client with
  | none => exact Or.inl rfl
  | some y =>
    cases reply with
    | none => exact Or.inl rfl
    | some m =>
      by_cases here : x = y
      -- This is the client at the other end.
      · subst here
        exact Or.inr ⟨rfl, m, rfl, Function.update_self ..⟩
      · exact Or.inl (Function.update_of_ne here ..)

end Replies

end CloudLab.Sharding
