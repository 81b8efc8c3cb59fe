import CloudLab.Sharding.History

/-!
# The sharded store against a map

Two questions about a history of requests, each answered exactly: when the clients
are told what a map would tell them, and when the master's copy, from which the next
join redistributes, holds the last value of every key.
-/
namespace CloudLab.Sharding

open Library Library.Wire

/-! ## Traces -/

/-- The last value whose PUT was acknowledged. -/
def lastAcked (k : Int32) (trace : List (Request × Outcome)) : Option Argument :=
  lastPut k ((trace.filter fun e => e.2.exit = 0).map Prod.fst)

/-- What a client of a map is told: the value under the key, or exit code 2. -/
def GetAnswered : Option Argument → Outcome → Prop
  | some v, o => o.exit = 0 ∧ ∃ m, o.reply = some m ∧ m.value = v.string
  | none, o => o.exit = 2

/-- Every GET of the trace is answered from the acknowledged PUTs in front of it. -/
def MapLike (trace : List (Request × Outcome)) : Prop :=
  ∀ before k o after, trace = before ++ (.get k, o) :: after → GetAnswered (lastAcked k before) o

theorem answers_append (n : Nat) (h xs ys : List Request) :
    answers n h (xs ++ ys) = answers n h xs ++ answers n (h ++ xs) ys := by
  induction xs generalizing h with
  | nil => simp [answers]
  | cons x xs ih => simp [answers, ih]

@[simp] theorem answers_requests (n : Nat) (h rs : List Request) :
    (answers n h rs).map Prod.fst = rs := by
  induction rs generalizing h with
  | nil => rfl
  | cons r rs ih => simp [answers, ih]

theorem lastAcked_append (k : Int32) (trace : List (Request × Outcome)) (r : Request) (o : Outcome) :
    lastAcked k (trace ++ [(r, o)]) =
      (if o.exit = 0 then r.written k else none).or (lastAcked k trace) := by
  rw [lastAcked, List.filter_append, List.map_append, List.filter_cons, List.filter_nil]
  simp only [decide_eq_true_eq]
  split
  · rw [List.map_singleton, lastPut_append, lastAcked]
  · rw [List.map_nil, List.append_nil, Option.none_or, lastAcked]

/-- Every PUT is acknowledged. -/
theorem lastAcked_answers (n : Nat) (k : Int32) (h rs : List Request) :
    lastAcked k (answers n h rs) = lastPut k rs := by
  induction rs using List.reverseRecOn with
  | nil => rfl
  | append_singleton rs r ih =>
    have last : answers n (h ++ rs) [r] = [(r, answer n (h ++ rs) r)] := rfl
    rw [answers_append, last, lastAcked_append, ih, lastPut_append]
    cases r with
    | put j v =>
      have acked : (answer n (h ++ rs) (.put j v)).exit = 0 := rfl
      rw [if_pos acked]
    | get j => rw [Request.written, ite_self]

/-- An entry of the answers, by the requests in front of it. -/
theorem answers_split {n : Nat} {h rs : List Request} {before after : List (Request × Outcome)}
    {r : Request} {o : Outcome} (split : answers n h rs = before ++ (r, o) :: after) :
    rs = before.map Prod.fst ++ r :: after.map Prod.fst ∧
      before = answers n h (before.map Prod.fst) ∧ o = answer n (h ++ before.map Prod.fst) r := by
  have requests : rs = before.map Prod.fst ++ r :: after.map Prod.fst := by
    rw [← answers_requests n h rs, split]
    simp
  rw [requests, answers_append] at split
  have sameLength : (answers n h (before.map Prod.fst)).length = before.length := by
    rw [← List.length_map Prod.fst, answers_requests, List.length_map]
  obtain ⟨front, rest⟩ := List.append_inj split sameLength
  exact ⟨requests, front.symm, (Prod.mk.inj (List.cons.inj rest).1).2.symm⟩

/-! ## When the clients see a map -/

/-- A GET finds the value of its own key: the key is not changed by the conversion to
`char`, or the key it is changed to holds the same value on the same shard, and
neither that key is zero nor the value empty. A GET of a key that was not put finds
nothing. -/
def GetMatches (n : Nat) (before : List Request) (k : Int32) : Prop :=
  match lastPut k before with
  | some v => v.string ≠ default ∧ charKey k ≠ 0 ∧ lastPut (charKey k) before = some v ∧
      Master.shardIndex n (charKey k).toInt = Master.shardIndex n k.toInt
  | none => ∀ w, lastPut (charKey k) before = some w →
      Master.shardIndex n (charKey k).toInt = Master.shardIndex n k.toInt →
      charKey k = 0 ∨ w.string = default

theorem getAnswered_iff_lookup (n : Nat) (before : List Request) (k : Int32) (v : Option Argument) :
    GetAnswered v (answer n before (.get k)) ↔ lookup n before k = v.map Argument.string := by
  cases found : lookup n before k <;> cases v <;>
    simp [GetAnswered, answer, found, Msg.value]

theorem lookup_eq_some_iff (n : Nat) (before : List Request) (k : Int32) (w : WireString) :
    lookup n before k = some w ↔
      Master.shardIndex n (charKey k).toInt = Master.shardIndex n k.toInt ∧ charKey k ≠ 0 ∧
        w ≠ default ∧ ∃ v, lastPut (charKey k) before = some v ∧ v.string = w := by
  unfold lookup stored
  split
  next same =>
    simp only [same, true_and, Option.filter_eq_some_iff, Option.map_eq_some_iff, decide_eq_true_eq]
    by_cases zero : charKey k = 0
    · simp only [zero, wireKeep, ite_true, ne_eq, not_true_eq_false, false_and, iff_false]
      rintro ⟨⟨v, _, empty⟩, filled⟩
      exact filled empty.symm
    · simp only [wireKeep, ne_eq, zero, not_false_eq_true, true_and]
      exact and_comm
  next other => simp [other]

theorem Argument.string_inj {v w : Argument} : v.string = w.string ↔ v = w := by
  cases v
  cases w
  simp

theorem getMatches_iff (n : Nat) (before : List Request) (k : Int32) :
    GetAnswered (lastPut k before) (answer n before (.get k)) ↔ GetMatches n before k := by
  rw [getAnswered_iff_lookup]
  unfold GetMatches
  cases last : lastPut k before with
  | some v =>
    simp only [Option.map_some, lookup_eq_some_iff, Argument.string_inj, exists_eq_right]
    tauto
  | none =>
    simp only [Option.map_none, Option.eq_none_iff_forall_ne_some, ne_eq, lookup_eq_some_iff]
    constructor
    -- Nothing may be found under the cast key where nothing was put.
    · intro missing w held same
      by_contra visible
      push Not at visible
      exact missing w.string ⟨same, visible.1, visible.2, w, held, rfl⟩
    · rintro hidden _ ⟨same, nonzero, filled, v, held, rfl⟩
      rcases hidden v held same with zero | empty
      · exact nonzero zero
      · exact filled empty

/-- Clients see a map exactly when every key can be routed and every GET matches. -/
theorem mapLike_iff (l : Layout) (h : List Request) :
    (∃ c trace, l.fresh.runAll wireDeliver h = some (c, trace) ∧ MapLike trace) ↔
      (∀ r ∈ h, Master.Routable l.ports.length r.key.toInt) ∧
        ∀ before k after, h = before ++ .get k :: after → GetMatches l.ports.length before k := by
  constructor
  · rintro ⟨c, trace, ran, mapLike⟩
    -- A run that goes through has only routable keys.
    have routable := l.fresh_served.routable_of_runAll ran
    obtain ⟨_, answered, _⟩ := l.fresh_served.runAll h routable
    rw [ran] at answered
    obtain ⟨_, rfl⟩ := Prod.mk.inj (Option.some.inj answered)
    refine ⟨routable, ?_⟩
    rintro before k after rfl
    rw [← getMatches_iff, ← lastAcked_answers l.ports.length k []]
    apply mapLike _ k _ (answers l.ports.length (before ++ [.get k]) after)
    rw [answers_append, answers, List.nil_append]
  · rintro ⟨routable, answered⟩
    obtain ⟨c, ran, _⟩ := l.fresh_served.runAll h routable
    refine ⟨c, _, ran, ?_⟩
    intro before k o after split
    -- The answer in question is the one to the history in front of it.
    obtain ⟨requests, front, rfl⟩ := answers_split split
    rw [front, lastAcked_answers, answers_requests, List.nil_append, getMatches_iff]
    exact answered _ k _ requests

/-- A cluster of one shard. -/
def Layout.single : Layout := ⟨[25001], by decide, by decide, by decide⟩

/-- 200 is cast to -56: the GET does not find the acknowledged PUT. -/
theorem not_mapLike_200 :
    ¬∃ c trace, Layout.single.fresh.runAll wireDeliver
      [.put 200 (letter 97 (by decide)), .get 200] = some (c, trace) ∧ MapLike trace := by
  rintro ⟨c, trace, ran, mapLike⟩
  obtain ⟨_, answered, _⟩ := Layout.single.fresh_served.runAll
    [.put 200 (letter 97 (by decide)), .get 200] (by decide)
  rw [ran] at answered
  obtain ⟨_, rfl⟩ := Prod.mk.inj (Option.some.inj answered)
  have found := mapLike [(.put 200 (letter 97 (by decide)), ⟨0, some (generateMessage true)⟩)]
    200 ⟨2, some { type_ := some .reply }⟩ [] (by decide)
  exact absurd found.1 (by decide)

/-! ## The master's copy -/

/-- The master's map holds the last value of every key that was put, and no other key. -/
def CopyCurrent (m : Master) (h : List Request) : Prop :=
  (∀ k : Int32, m.kvMap.find? k.toInt = (lastPut k h).map Argument.string) ∧
    ∀ x v, m.kvMap.find? x = some v → ∃ k : Int32, k.toInt = x

/-- Whatever a later join redistributes is the last value of its key. -/
def JoinKeeps (m : Master) (h : List Request) : Prop :=
  ∀ (port : Int32) (m' : Master) (sends : Sends),
    m.handle { type_ := some .server, port_ := some port } = some (m', sends) →
    ∀ e ∈ sends.messages, e.2.type = .reorgPut →
      ∃ w, lastPut e.2.key h = some w ∧ e.2.value = w.string

/-- The first PUT of every key carries its last value; only an empty value can be kept
under the key zero. -/
def FirstIsLast (h : List Request) : Prop :=
  ∀ k w, lastPut k h = some w → if k = 0 then w.string = default else firstPut k h = some w

theorem joinKeeps_of_current {m : Master} {h : List Request} (current : CopyCurrent m h) :
    JoinKeeps m h := by
  intro port m' sends handled e member kind
  simp only [Master.handle, Msg.type, Option.getD_some] at handled
  split at handled
  · obtain ⟨puts, all, same⟩ := Option.map_eq_some_iff.mp handled
    obtain ⟨_, rfl⟩ := Prod.mk.inj same
    -- Only REORG_PUTs carry a value, and each is an entry of the map.
    rcases List.mem_append.mp member with reorg | put
    · obtain ⟨_, _, rfl⟩ := List.mem_map.mp reorg
      cases kind
    · obtain ⟨x, v, held, _, message⟩ := Master.mem_reorgPutMessages all put
      obtain ⟨k, rfl⟩ := current.2 x v held
      have last := (current.1 k).symm.trans held
      obtain ⟨w, lastly, rfl⟩ := Option.map_eq_some_iff.mp last
      have key : e.2.key = k := by
        rw [message]
        exact Int32.ofInt_toInt k
      exact ⟨w, by rwa [key], by rw [message]; rfl⟩
  · obtain ⟨_, rfl⟩ := Prod.mk.inj (Option.some.inj handled)
    cases member

theorem firstPut_isSome_iff (k : Int32) (h : List Request) :
    (firstPut k h).isSome = (lastPut k h).isSome := by
  simp [firstPut, lastPut, List.isSome_findSome?]

theorem copied_eq_last_iff (h : List Request) :
    (∀ k, copied k h = (lastPut k h).map Argument.string) ↔ FirstIsLast h := by
  apply forall_congr'
  intro k
  have both := firstPut_isSome_iff k h
  unfold copied wireKeep
  -- A key was put first if and only if it was put last.
  cases first : firstPut k h <;> cases last : lastPut k h
  · simp
  · simp [first, last] at both
  · simp [first, last] at both
  · by_cases zero : k = 0
    · simp [zero, eq_comm]
    · simp [zero, Argument.string_inj]

/-- The master's copy is current, and what a later join sends out is, exactly when the
first PUT of every key carries its last value. -/
theorem copyCurrent_iff (l : Layout) (h : List Request) :
    (∃ c trace, l.fresh.runAll wireDeliver h = some (c, trace) ∧
      (∀ k v o, (.put k v, o) ∈ trace → o.exit = 0) ∧
      CopyCurrent c.master h ∧ JoinKeeps c.master h) ↔
    (∀ r ∈ h, Master.Routable l.ports.length r.key.toInt) ∧ FirstIsLast h := by
  constructor
  · rintro ⟨c, trace, ran, _, current, _⟩
    have routable := l.fresh_served.routable_of_runAll ran
    obtain ⟨_, answered, served⟩ := l.fresh_served.runAll h routable
    rw [ran] at answered
    obtain ⟨rfl, _⟩ := Prod.mk.inj (Option.some.inj answered)
    refine ⟨routable, (copied_eq_last_iff h).mp fun k => ?_⟩
    rw [← current.1 k, served.copy, List.nil_append]
  · rintro ⟨routable, same⟩
    obtain ⟨c, ran, served⟩ := l.fresh_served.runAll h routable
    -- The map holds the first values, which are the last ones.
    have current : CopyCurrent c.master h :=
      ⟨fun k => by rw [served.copy, List.nil_append, (copied_eq_last_iff h).mpr same],
        served.keys⟩
    refine ⟨c, _, ran, fun k v o member => ?_, current, joinKeeps_of_current current⟩
    obtain ⟨before, after, split⟩ := List.append_of_mem member
    obtain ⟨_, _, rfl⟩ := answers_split split
    rfl

/-- The second PUT of a key does not reach the master's copy. -/
theorem not_copyCurrent_overwritten :
    ¬∃ c trace, Layout.single.fresh.runAll wireDeliver
        [.put 1 (letter 97 (by decide)), .put 1 (letter 98 (by decide))] = some (c, trace) ∧
      (∀ k v o, (.put k v, o) ∈ trace → o.exit = 0) ∧
      CopyCurrent c.master [.put 1 (letter 97 (by decide)), .put 1 (letter 98 (by decide))] ∧
      JoinKeeps c.master [.put 1 (letter 97 (by decide)), .put 1 (letter 98 (by decide))] := by
  rintro ⟨c, trace, ran, _, current, _⟩
  obtain ⟨_, answered, served⟩ := Layout.single.fresh_served.runAll
    [.put 1 (letter 97 (by decide)), .put 1 (letter 98 (by decide))] (by decide)
  rw [ran] at answered
  obtain ⟨rfl, _⟩ := Prod.mk.inj (Option.some.inj answered)
  have same := (served.copy 1).symm.trans (current.1 1)
  exact absurd same (by decide)

end CloudLab.Sharding
