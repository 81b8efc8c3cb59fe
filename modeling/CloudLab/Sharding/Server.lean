import CloudLab.Sharding.Message
import CloudLab.Library.Maps

/-!
# The shard server (`task2/source/server.cpp`)

One round of the loop of `main` for a message that was received and parsed. A PUT
is answered before the master is told of it and before its key is listed, so a
round is split there: `receive` runs up to the first message to be sent,
`Pending` is what is left to send, and `finish` is the rest of the round.
-/
namespace CloudLab.Sharding

open Library Library.Wire

structure Shard where
  db : Store Bytes WireString := Store.empty
  /-- The keys to be deleted at the next REORG, duplicates included. -/
  keys : List Bytes := []

structure Pending where
  reply : Option Msg := none
  /-- MASTER_PUT for the master, and the key that is listed behind it. -/
  masterPut : Option (Msg × Bytes) := none
  deriving DecidableEq

def generateMessage (status : Bool) : Msg :=
  { status_ := some (if status then 1 else 0), type_ := some .reply }

/-- `std::to_string(temp_msg.key())` -/
def Msg.keyText (m : Msg) : Bytes := stdToString m.key.toInt

/-- The key of a GET goes through `static_cast<char>`, a signed byte. -/
def Msg.charText (m : Msg) : Bytes := stdToString m.key.toInt8.toInt

namespace Shard

def receive (s : Shard) (m : Msg) : Shard × Pending :=
  match m.type with
  | .reorg => ({ db := s.keys.foldl Store.delete s.db, keys := [] }, {})
  | .reorgPut =>
    ({ db := s.db.put m.keyText m.value.cStr, keys := s.keys ++ [m.keyText] }, {})
  | .put =>
    ({ s with db := s.db.put m.keyText m.value.cStr },
      { reply := some (generateMessage true)
        masterPut := some ({ m with type_ := some .masterPut }, m.keyText) })
  | .get =>
    (s, { reply := some { generateMessage (s.db m.charText).isSome with
            value_ := some ((s.db m.charText).getD default) } })
  | .server | .reply | .masterPut => (s, {})

def finish (s : Shard) (p : Pending) : Shard :=
  match p.masterPut with
  | some (_, key) => { s with keys := s.keys ++ [key] }
  | none => s

/-- A whole round of the loop. -/
def handle (s : Shard) (m : Msg) : Shard := (s.receive m).1.finish (s.receive m).2

/-- The effect of PUT and REORG_PUT: the value is stored and the key is listed. -/
def store (s : Shard) (key : Int32) (v : WireString) : Shard :=
  { db := s.db.put (stdToString key.toInt) v, keys := s.keys ++ [stdToString key.toInt] }

/-- What the database holds under the text of a key. -/
def find (s : Shard) (key : Int32) : Option WireString := s.db (stdToString key.toInt)

theorem find_store (s : Shard) (j k : Int32) (v : WireString) :
    (s.store k v).find j = if j = k then some v else s.find j := by
  simp only [find, store, Store.put_apply, stdToString_inj, Int32.toInt_inj]

@[simp] theorem find_empty (k : Int32) : find {} k = none := rfl

theorem handle_reorg {s : Shard} {m : Msg} (kind : m.type = .reorg) :
    s.handle m = { db := s.keys.foldl Store.delete s.db, keys := [] } := by
  simp [handle, receive, finish, kind]

theorem handle_reorgPut {s : Shard} {m : Msg} (kind : m.type = .reorgPut) :
    s.handle m = s.store m.key m.value.cStr := by
  simp [handle, receive, finish, store, Msg.keyText, kind]

theorem handle_put {s : Shard} {m : Msg} (kind : m.type = .put) :
    s.handle m = s.store m.key m.value.cStr := by
  simp [handle, receive, finish, store, Msg.keyText, kind]

theorem handle_get {s : Shard} {m : Msg} (kind : m.type = .get) : s.handle m = s := by
  simp [handle, receive, finish, kind]

/-- Every stored key is listed, so a REORG deletes it. -/
def Tracked (s : Shard) : Prop := ∀ k, (s.db k).isSome = true → k ∈ s.keys

theorem tracked_empty : Tracked {} := by
  intro k stored
  simp at stored

theorem reorg_empties {s : Shard} (tracked : s.Tracked) {m : Msg} (kind : m.type = .reorg) :
    s.handle m = {} := by
  rw [handle_reorg kind]
  congr 1
  funext k
  rw [Store.foldl_delete, Store.empty_apply]
  split
  · rfl
  next unlisted =>
    by_contra stored
    exact unlisted (tracked k (Option.isSome_iff_ne_none.mpr stored))

theorem store_tracked {s : Shard} (tracked : s.Tracked) (key : Int32) (v : WireString) :
    (s.store key v).Tracked := by
  intro k stored
  simp only [store, Store.put_apply] at stored ⊢
  split at stored
  next same => simp [same]
  next => exact List.mem_append_left _ (tracked k stored)

/-- The list of keys covers the database through any sequence of rounds. -/
theorem handle_tracked {s : Shard} (tracked : s.Tracked) (m : Msg) : (s.handle m).Tracked := by
  cases kind : m.type with
  | reorg => rw [reorg_empties tracked kind]; exact tracked_empty
  | reorgPut => rw [handle_reorgPut kind]; exact store_tracked tracked _ _
  | put => rw [handle_put kind]; exact store_tracked tracked _ _
  | get => rwa [handle_get kind]
  | server | reply | masterPut => simpa [handle, receive, finish, kind] using tracked

theorem foldl_handle_tracked {s : Shard} (tracked : s.Tracked) (ms : List Msg) :
    (ms.foldl handle s).Tracked := by
  induction ms generalizing s with
  | nil => exact tracked
  | cons m ms ih => exact ih (handle_tracked tracked m)

end Shard

end CloudLab.Sharding
