import CloudLab.Sharding.Delivery

/-!
# Histories of PUT and GET with fixed membership

The map a history of requests describes, what the shards and the master hold after
it, and when the two agree. `answer` is what a client is told, as a function of the
requests in front of it; `Served` is the invariant behind it.
-/
namespace CloudLab.Sharding

open Library Library.Wire

/-- The value a request writes under a key. -/
def Request.written (k : Int32) : Request → Option Argument
  | .put j v => if j = k then some v else none
  | .get _ => none

def lastPut (k : Int32) (h : List Request) : Option Argument :=
  h.reverse.findSome? (Request.written k)

def firstPut (k : Int32) (h : List Request) : Option Argument := h.findSome? (Request.written k)

@[simp] theorem lastPut_nil (k : Int32) : lastPut k [] = none := rfl

@[simp] theorem firstPut_nil (k : Int32) : firstPut k [] = none := rfl

theorem lastPut_append (k : Int32) (h : List Request) (r : Request) :
    lastPut k (h ++ [r]) = (r.written k).or (lastPut k h) := by
  rw [lastPut, List.reverse_append, List.reverse_singleton, List.findSome?_append]
  cases written : r.written k <;> simp [lastPut, written]

theorem firstPut_append (k : Int32) (h : List Request) (r : Request) :
    firstPut k (h ++ [r]) = (firstPut k h).or (r.written k) := by
  rw [firstPut, List.findSome?_append]
  cases written : r.written k <;> simp [firstPut, written]

@[simp] theorem lastPut_get (j k : Int32) (h : List Request) :
    lastPut j (h ++ [.get k]) = lastPut j h := by
  simp [lastPut_append, Request.written]

theorem lastPut_put (j k : Int32) (h : List Request) (v : Argument) :
    lastPut j (h ++ [.put k v]) = if j = k then some v else lastPut j h := by
  by_cases same : k = j
  · simp [lastPut_append, Request.written, same]
  · simp [lastPut_append, Request.written, same, Ne.symm same]

@[simp] theorem firstPut_get (j k : Int32) (h : List Request) :
    firstPut j (h ++ [.get k]) = firstPut j h := by
  simp [firstPut_append, Request.written]

theorem firstPut_put (j k : Int32) (h : List Request) (v : Argument) :
    firstPut j (h ++ [.put k v]) =
      if j = k then some ((firstPut k h).getD v) else firstPut j h := by
  by_cases same : k = j
  · subst same
    cases first : firstPut k h <;> simp [firstPut_append, Request.written, first]
  · simp [firstPut_append, Request.written, same, Ne.symm same]

/-- What a shard holds for a key, the last value as it came over the wire. -/
def stored (k : Int32) (h : List Request) : Option WireString :=
  (lastPut k h).map fun v => wireKeep k v.string

/-- What the master holds for a key: `insert` never overwrites. -/
def copied (k : Int32) (h : List Request) : Option WireString :=
  (firstPut k h).map fun v => wireKeep k v.string

theorem stored_plain {k : Int32} {h : List Request} {w : WireString} (present : stored k h = some w) :
    ZeroFree w.bytes := by
  obtain ⟨v, _, rfl⟩ := Option.map_eq_some_iff.mp present
  unfold wireKeep
  split
  · simp
  · exact v.plain

/-- What a GET finds, empty values apart: they do not survive the way back. -/
def lookup (n : Nat) (h : List Request) (k : Int32) : Option WireString :=
  if Master.shardIndex n (charKey k).toInt = Master.shardIndex n k.toInt then
    (stored (charKey k) h).filter (· ≠ default)
  else none

def answer (n : Nat) (h : List Request) : Request → Outcome
  | .put _ _ => ⟨0, some (generateMessage true)⟩
  | .get k =>
    match lookup n h k with
    | some w => ⟨0, some { type_ := some .reply, value_ := some w, status_ := some 1 }⟩
    | none => ⟨2, some { type_ := some .reply }⟩

def answers (n : Nat) : List Request → List Request → List (Request × Outcome)
  | _, [] => []
  | h, r :: rest => (r, answer n h r) :: answers n (h ++ [r]) rest

/-- The state behind a history: each shard holds the last values of its keys, the
master the first values of all keys. -/
structure Served (l : Layout) (h : List Request) (c : Cluster) : Prop where
  registered : c.master.Registered l.ports
  shards : ∀ i (bound : i < l.ports.length), ∃ s, c.shardAt l.ports[i] = some s ∧ ∀ k : Int32,
    s.find k = if Master.shardIndex l.ports.length k.toInt = i then stored k h else none
  copy : ∀ k : Int32, c.master.kvMap.find? k.toInt = copied k h
  keys : ∀ x v, c.master.kvMap.find? x = some v → ∃ k : Int32, k.toInt = x

theorem Layout.fresh_served (l : Layout) : Served l [] l.fresh where
  registered := l.fresh_registered
  shards i bound := ⟨{}, by simp [fresh], fun k => by simp [stored]⟩
  copy k := by simp [l.fresh_kvMap, copied]
  keys x v present := by simp [l.fresh_kvMap] at present

section

variable {l : Layout} {h : List Request} {c : Cluster}

/-- The server the master names for a routable key. -/
theorem Served.route (served : Served l h c) {k : Int32}
    (routable : Master.Routable l.ports.length k.toInt) :
    ∃ i, ∃ bound : i < l.ports.length, i = Master.shardIndex l.ports.length k.toInt ∧
      c.master.route k.toInt = some l.ports[i] :=
  ⟨_, Master.shardIndex_lt l.nonempty routable, rfl, by
    rw [Master.route_of_registered served.registered l.nonempty routable,
      List.getElem?_eq_getElem (Master.shardIndex_lt l.nonempty routable)]⟩

theorem Served.put (served : Served l h c) {k : Int32} (v : Argument)
    (routable : Master.Routable l.ports.length k.toInt) :
    ∃ c', c.run wireDeliver (.put k v) = some (c', ⟨0, some (generateMessage true)⟩) ∧
      Served l (h ++ [.put k v]) c' := by
  obtain ⟨i, bound, index, routed⟩ := served.route routable
  obtain ⟨s, live, holds⟩ := served.shards i bound
  have told := wireDeliver_port (l.nonzero l.ports[i] (List.getElem_mem bound)) .reply
  refine ⟨_, Cluster.run_put delivery_wire routed told live, served.registered.learned _, ?_, ?_, ?_⟩
  -- The databases: only the shard of the key changes, and only there.
  · intro j inside
    by_cases here : i = j
    · subst here
      refine ⟨s.store k (wireKeep k v.string), by simp, fun q => ?_⟩
      rw [Shard.find_store, holds]
      by_cases same : q = k
      · simp [stored, lastPut_put, same, index]
      · simp [stored, lastPut_put, same]
    · have other : l.ports[j] ≠ l.ports[i] := fun same =>
        here ((List.Nodup.getElem_inj_iff l.distinct).mp same).symm
      obtain ⟨t, alive, keeps⟩ := served.shards j inside
      refine ⟨t, by simpa [Function.update_of_ne other] using alive, fun q => ?_⟩
      rw [keeps, stored, stored, lastPut_put]
      by_cases same : q = k
      · simp [same, ← index, here]
      · simp [same]
  -- The map of the master: the first value of a key stays.
  · intro q
    rw [StdMap.find?_insert, served.copy, served.copy, copied, copied, copied, firstPut_put]
    by_cases same : q = k
    · subst same
      cases firstPut q h <;> simp
    · simp [same, Int32.toInt_inj]
  · intro x w present
    rw [StdMap.find?_insert] at present
    split at present
    next same => exact ⟨k, same.symm⟩
    next => exact served.keys x w present

private theorem outcome_of_arrives {deliver : Msg → Option Msg} {reply m : Msg}
    (arrives : deliver reply = some m) :
    Cluster.outcome deliver reply = ⟨if m.status ≠ 0 then 0 else 2, some m⟩ := by
  rw [Cluster.outcome, arrives]

private theorem wireDeliver_empty_reply (status : Option Int32) :
    wireDeliver { type_ := some .reply, value_ := some default, status_ := status } =
      some { type_ := some .reply } := by
  have tag := survives_type .reply
  have lost : ¬(Payload.bytes []).Survives := by simp [Payload.Survives]
  rw [wireDeliver_eq rfl]
  simp [Msg.fields, tag, lost]

/-- Of an answer with an empty value only the type arrives. -/
private theorem outcome_empty_reply (status : Option Int32) :
    Cluster.outcome wireDeliver { type_ := some .reply, value_ := some default, status_ := status } =
      ⟨2, some { type_ := some .reply }⟩ :=
  outcome_of_arrives (wireDeliver_empty_reply status)

private theorem outcome_filled_reply {w : WireString} (filled : w ≠ default) (plain : ZeroFree w.bytes) :
    Cluster.outcome wireDeliver { type_ := some .reply, value_ := some w, status_ := some 1 } =
      ⟨0, some { type_ := some .reply, value_ := some w, status_ := some 1 }⟩ := by
  have survives : Msg.Survives { type_ := some .reply, value_ := some w, status_ := some 1 } := by
    refine ⟨by simp, by simp, by simp, ?_⟩
    intro v same
    cases same
    exact ⟨fun none => filled (WireString.bytes_eq_nil_iff.mp none), plain⟩
  exact outcome_of_arrives (wireDeliver_of_survives rfl survives)

/-- The client learns a value that is not empty, and only the type of any other answer. -/
theorem outcome_getReply {found : Option WireString}
    (plain : ∀ w, found = some w → ZeroFree w.bytes) :
    Cluster.outcome wireDeliver (Cluster.getReply found) =
      match found.filter (· ≠ default) with
      | some w => ⟨0, some { type_ := some .reply, value_ := some w, status_ := some 1 }⟩
      | none => ⟨2, some { type_ := some .reply }⟩ := by
  have reply : Cluster.getReply found = { type_ := some .reply, value_ := some (found.getD default)
                                          status_ := some (if found.isSome then 1 else 0) } := rfl
  rw [reply]
  cases found with
  | none => exact outcome_empty_reply _
  | some w =>
    by_cases empty : w = default
    · subst empty
      exact outcome_empty_reply _
    · have kept : (some w).filter (· ≠ default) = some w := by simp [Option.filter_some, empty]
      rw [kept]
      exact outcome_filled_reply empty (plain w rfl)

theorem Served.get (served : Served l h c) {k : Int32}
    (routable : Master.Routable l.ports.length k.toInt) :
    ∃ c', c.run wireDeliver (.get k) = some (c', answer l.ports.length h (.get k)) ∧
      Served l (h ++ [.get k]) c' := by
  obtain ⟨i, bound, index, routed⟩ := served.route routable
  obtain ⟨s, live, holds⟩ := served.shards i bound
  have told := wireDeliver_port (l.nonzero l.ports[i] (List.getElem_mem bound)) .reply
  have found : s.find (charKey k) =
      if Master.shardIndex l.ports.length (charKey k).toInt =
        Master.shardIndex l.ports.length k.toInt then stored (charKey k) h else none := by
    rw [holds, index]
  -- What the shard finds under the cast key is what the history says.
  have looked : lookup l.ports.length h k = (s.find (charKey k)).filter (· ≠ default) := by
    rw [found, lookup]
    split <;> rfl
  have plain : ∀ w, s.find (charKey k) = some w → ZeroFree w.bytes := by
    intro w held
    rw [found] at held
    split at held
    · exact stored_plain held
    · cases held
  refine ⟨c, ?_, served.registered, by simpa [stored] using served.shards,
    by simpa [copied] using served.copy, served.keys⟩
  rw [Cluster.run_get delivery_wire routed told live, outcome_getReply plain, ← looked]
  rfl

/-- A request for a key with a negative remainder is undefined behaviour in the master. -/
theorem Served.run_of_not_routable (served : Served l h c) {r : Request}
    (negative : ¬Master.Routable l.ports.length r.key.toInt) : c.run wireDeliver r = none :=
  Cluster.run_unrouted delivery_wire (Master.route_of_not_routable served.registered negative)

theorem Served.run (served : Served l h c) {r : Request}
    (routable : Master.Routable l.ports.length r.key.toInt) :
    ∃ c', c.run wireDeliver r = some (c', answer l.ports.length h r) ∧ Served l (h ++ [r]) c' := by
  cases r with
  | put k v => exact served.put v routable
  | get k => exact served.get routable

/-- Every history of routable requests runs to its end and is answered by `answers`. -/
theorem Served.runAll (served : Served l h c) (rs : List Request)
    (routable : ∀ r ∈ rs, Master.Routable l.ports.length r.key.toInt) :
    ∃ c', c.runAll wireDeliver rs = some (c', answers l.ports.length h rs) ∧
      Served l (h ++ rs) c' := by
  induction rs generalizing h c with
  | nil => exact ⟨c, rfl, by simpa using served⟩
  | cons r rs ih =>
    obtain ⟨c₁, ran, served₁⟩ := served.run (routable r (by simp))
    obtain ⟨c₂, rest, served₂⟩ := ih served₁ (fun q hq => routable q (by simp [hq]))
    exact ⟨c₂, by simp [Cluster.runAll, ran, rest, answers], by simpa using served₂⟩

theorem Served.routable_of_runAll (served : Served l h c) {rs : List Request}
    {c' : Cluster} {trace : List (Request × Outcome)}
    (ran : c.runAll wireDeliver rs = some (c', trace)) :
    ∀ r ∈ rs, Master.Routable l.ports.length r.key.toInt := by
  induction rs generalizing h c c' trace with
  | nil => simp
  | cons r rs ih =>
    obtain ⟨⟨c₁, o⟩, first, others⟩ := Option.bind_eq_some_iff.mp ran
    obtain ⟨⟨c₂, trace₂⟩, rest, _⟩ := Option.map_eq_some_iff.mp others
    have routable : Master.Routable l.ports.length r.key.toInt := by
      by_contra negative
      rw [served.run_of_not_routable negative] at first
      cases first
    obtain ⟨c₁', ran', served₁⟩ := served.run routable
    rw [first] at ran'
    cases ran'
    intro q member
    rcases List.mem_cons.mp member with rfl | later
    · exact routable
    · exact ih served₁ rest q later

end

end CloudLab.Sharding
