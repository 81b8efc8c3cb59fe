import CloudLab.Replication.Log

/-!
# The join phase (`task3/source/server.cpp`)

A server listens, connects to every other server in order and sends it a join, then
accepts as many connections as its connects were refused. A leader that is through with
this sends its entries to the same ports. Servers stand for their places in `allPorts`,
whose ports are distinct.
-/
namespace CloudLab.Replication.Startup

open Library

inductive Pc (n : Nat) where
  | down
  /-- The loop of connects, with the servers that are left. -/
  | connecting (left : List (Fin n))
  /-- The loop of accepts, with the number of rounds that are left. -/
  | accepting (need : Nat)
  | serving
  /-- The loop of a leader that sends a request. -/
  | sending (request : AppendEntriesRequest) (left : List (Fin n))
  deriving DecidableEq

structure Connection (n : Nat) where
  sender : Fin n
  content : Incoming
  deriving DecidableEq

structure Server (n : Nat) where
  pc : Pc n := .down
  /-- The servers whose connect succeeded. -/
  made : List (Fin n) := []
  /-- The connections accepted in the join phase. -/
  accepted : List (Connection n) := []
  /-- The connections nobody has accepted yet. -/
  queue : List (Connection n) := []
  deriving DecidableEq

abbrev State (n : Nat) := Fin n → Server n

inductive Action (n : Nat) where
  | listen (a : Fin n)
  | connect (a : Fin n)
  | accept (a : Fin n)
  | put (a : Fin n) (m : ClientMsg)
  | send (a : Fin n)
  | apply (a : Fin n)

variable {n : Nat}

def Server.senders (v : Server n) : List (Fin n) := v.accepted.map Connection.sender

def joinMessage (a : Fin n) : ServerResponse :=
  { id_ := some (Int32.ofNat a), status_ := some .ok }

def set (s : State n) (a : Fin n) (v : Server n) : State n := Function.update s a v

/-- A connection to the port of `b`. -/
def push (s : State n) (b : Fin n) (c : Connection n) : State n :=
  set s b { s b with queue := (s b).queue ++ [c] }

def listening (s : State n) (b : Fin n) : Bool := (s b).pc ≠ .down

def stepConnect (s : State n) (a : Fin n) : Option (State n) :=
  match (s a).pc with
  | .connecting [] => some (set s a { s a with pc := .accepting (n - (s a).made.length - 1) })
  | .connecting (b :: left) =>
    if b ≠ a ∧ listening s b then
      some (set (push s b ⟨a, .join (joinMessage a)⟩) a
        { s a with pc := .connecting left, made := (s a).made ++ [b] })
    else some (set s a { s a with pc := .connecting left })
  | _ => none

def stepAccept (s : State n) (a : Fin n) : Option (State n) :=
  match (s a).pc, (s a).queue with
  | .accepting 0, _ => some (set s a { s a with pc := .serving })
  | .accepting (need + 1), c :: rest =>
    some (set s a { s a with
      pc := .accepting need, accepted := (s a).accepted ++ [c], queue := rest })
  | _, _ => none

def stepSend (s : State n) (a : Fin n) : Option (State n) :=
  match (s a).pc with
  | .sending _ [] => some (set s a { s a with pc := .serving })
  | .sending request (b :: left) =>
    if b ≠ a ∧ listening s b then
      some (set (push s b ⟨a, .appendEntries request⟩) a { s a with pc := .sending request left })
    else some (set s a { s a with pc := .sending request left })
  | _ => none

/-- `leader` are the servers started with `--leader`. -/
def startup (leader : Fin n → Bool) : System (State n) (Action n) where
  init s := s = fun _ => {}
  next s
    | .listen a =>
      if (s a).pc = .down then some (set s a { s a with pc := .connecting (List.finRange n) })
      else none
    | .connect a => stepConnect s a
    | .accept a => stepAccept s a
    | .put a m =>
      if leader a ∧ (s a).pc = .serving then
        some (set s a { s a with
          pc := .sending (constructAppendEntryMessage m) (List.finRange n) })
      else none
    | .send a => stepSend s a
    | .apply a =>
      match (s a).queue with
      | _ :: rest =>
        if ¬leader a ∧ (s a).pc = .serving then some (set s a { s a with queue := rest }) else none
      | [] => none

/-! ## The barrier -/

def Pc.left : Pc n → Bool
  | .serving | .sending _ _ => true
  | _ => false

def Connection.isJoin (c : Connection n) : Bool :=
  match c.content with
  | .join _ => true
  | .appendEntries _ => false

/-- A server that has left the join phase is connected with every other server, and what
it accepted in that phase are joins. -/
structure Barrier (s : State n) (a : Fin n) : Prop where
  connected : (s a).pc.left = true → ∀ b, b ≠ a → b ∈ (s a).made ∨ b ∈ (s a).senders
  joins : ∀ c ∈ (s a).accepted, c.isJoin = true

/-- The connection that the next round of the loop of accepts takes. -/
def Server.incoming (v : Server n) : Option (Connection n) :=
  match v.pc, v.queue with
  | .accepting (_ + 1), c :: _ => some c
  | _, _ => none

/-- A server accepts a connection in its join phase only from a server it is not
connected with yet. -/
def NewPeer (s : State n) : Action n → Prop
  | .accept a => ∀ c ∈ (s a).incoming, c.sender ∉ (s a).made ∧ c.sender ∉ (s a).senders
  | _ => True

instance (s : State n) : DecidablePred (NewPeer s)
  | .accept a => inferInstanceAs
      (Decidable (∀ c ∈ (s a).incoming, c.sender ∉ (s a).made ∧ c.sender ∉ (s a).senders))
  | .listen _ | .connect _ | .put _ _ | .send _ | .apply _ => .isTrue trivial

/-! ## What holds of one server -/

structure Local (a : Fin n) (v : Server n) : Prop where
  loop : ∀ left, v.pc = .connecting left → left.Nodup ∧ ∀ b ∈ v.made, b ∉ left
  distinct : (a :: (v.made ++ v.senders)).Nodup
  budget : match v.pc with
    | .down => v.made = [] ∧ v.accepted = []
    | .connecting _ => v.accepted = []
    | .accepting need => need + v.accepted.length + v.made.length + 1 = n
    | .serving | .sending _ _ => v.accepted.length + v.made.length + 1 = n
  joins : ∀ c ∈ v.accepted, c.isJoin = true

/-- As many distinct peers as there are other servers are all of them. -/
theorem Local.connected {a : Fin n} {v : Server n} (ok : Local a v) (left : v.pc.left = true)
    (b : Fin n) (other : b ≠ a) : b ∈ v.made ∨ b ∈ v.senders := by
  have budget := ok.budget
  have count : v.accepted.length + v.made.length + 1 = n := by
    cases pc : v.pc <;> simp_all [Pc.left]
  have all : (a :: (v.made ++ v.senders)).toFinset = Finset.univ := by
    apply Finset.eq_univ_of_card
    rw [List.toFinset_card_of_nodup ok.distinct, Fintype.card_fin]
    simp only [List.length_cons, List.length_append, Server.senders, List.length_map]
    omega
  have member : b ∈ a :: (v.made ++ v.senders) := by
    rw [← List.mem_toFinset, all]
    exact Finset.mem_univ b
  simpa [other] using member

theorem Local.made_lt {a : Fin n} {v : Server n} (ok : Local a v) : v.made.length + 1 ≤ n := by
  have bound := ok.distinct.length_le_card
  simp only [List.length_cons, List.length_append, Fintype.card_fin] at bound
  omega

/-- The loop of connects goes past `b` without a connection. -/
theorem Local.skip {a b : Fin n} {v : Server n} {left : List (Fin n)} (ok : Local a v)
    (pc : v.pc = .connecting (b :: left)) : Local a { v with pc := .connecting left } := by
  have accepted : v.accepted = [] := by simpa [pc] using ok.budget
  obtain ⟨nodup, fresh⟩ := ok.loop _ pc
  refine { ok with loop := ?_, budget := accepted }
  intro rest same
  obtain rfl := Pc.connecting.inj same
  exact ⟨(List.nodup_cons.mp nodup).2,
    fun x member later => fresh x member (List.mem_cons_of_mem b later)⟩

/-- The loop of connects goes past `b` with a connection, which is a new one. -/
theorem Local.connect {a b : Fin n} {v : Server n} {left : List (Fin n)} (ok : Local a v)
    (pc : v.pc = .connecting (b :: left)) (other : b ≠ a) :
    Local a { v with pc := .connecting left, made := v.made ++ [b] } := by
  have accepted : v.accepted = [] := by simpa [pc] using ok.budget
  obtain ⟨nodup, fresh⟩ := ok.loop _ pc
  obtain ⟨notLeft, nodup⟩ := List.nodup_cons.mp nodup
  refine { ok with loop := ?_, distinct := ?_, budget := accepted }
  · intro rest same
    obtain rfl := Pc.connecting.inj same
    refine ⟨nodup, fun x member => ?_⟩
    rcases List.mem_append.mp member with old | new
    · exact fun later => fresh x old (List.mem_cons_of_mem b later)
    · rwa [List.mem_singleton.mp new]
  · have distinct := ok.distinct
    have unmade : b ∉ v.made := fun member => fresh b member List.mem_cons_self
    simp only [Server.senders, accepted, List.map_nil, List.append_nil, List.nodup_cons,
      List.mem_append, List.mem_singleton, not_or] at distinct ⊢
    exact ⟨⟨distinct.1, Ne.symm other⟩, List.nodup_append.mpr
      ⟨distinct.2, List.nodup_singleton b, by grind⟩⟩

/-! ## What holds between servers -/

/-- The loop of connects is past `b`. -/
def Pc.passed (pc : Pc n) (b : Fin n) : Prop :=
  match pc with
  | .down => False
  | .connecting left => b ∉ left
  | _ => True

/-- The join of `b` waits in `queue` or has been accepted, or the join phase is over. -/
def Server.Met (v : Server n) (queue : List (Connection n)) (b : Fin n) : Prop :=
  (∃ j ∈ queue, j.sender = b ∧ j.isJoin = true) ∨ b ∈ v.senders ∨ v.pc.left = true

/-- Of two servers past each other one has connected to the other; a connect leaves a join
in the queue until it is accepted, and the entries of a leader are behind its join. -/
structure Ordered (s : State n) : Prop where
  ok : ∀ a, Local a (s a)
  foreign : ∀ a, ∀ c ∈ (s a).queue, c.sender ≠ a
  entries : ∀ a, ∀ c ∈ (s a).queue, c.isJoin = false → (s c.sender).pc.left = true
  pair : ∀ a b, a ≠ b → (s a).pc.passed b → (s b).pc.passed a → b ∈ (s a).made ∨ a ∈ (s b).made
  joined : ∀ a b, a ∈ (s b).made → (s a).Met (s a).queue b
  behind : ∀ a front c rest, (s a).queue = front ++ c :: rest → c.isJoin = false →
    a ∈ (s c.sender).made → (s a).Met front c.sender

section

variable {s : State n} {a b : Fin n} {v : Server n}

@[simp] theorem set_self (s : State n) (a : Fin n) (v : Server n) : set s a v a = v :=
  Function.update_self ..

theorem set_other (other : b ≠ a) : set s a v b = s b := Function.update_of_ne other ..

@[simp] theorem push_pc (s : State n) (b x : Fin n) (c : Connection n) :
    (push s b c x).pc = (s x).pc := by
  by_cases here : x = b
  · simp [push, here]
  · rw [push, set_other here]

@[simp] theorem push_made (s : State n) (b x : Fin n) (c : Connection n) :
    (push s b c x).made = (s x).made := by
  by_cases here : x = b
  · simp [push, here]
  · rw [push, set_other here]

@[simp] theorem push_senders (s : State n) (b x : Fin n) (c : Connection n) :
    (push s b c x).senders = (s x).senders := by
  by_cases here : x = b
  · simp [push, here, Server.senders]
  · rw [push, set_other here]

theorem push_queue (s : State n) (b x : Fin n) (c : Connection n) :
    (push s b c x).queue = if x = b then (s b).queue ++ [c] else (s x).queue := by
  by_cases here : x = b
  · simp [push, here]
  · rw [push, set_other here, if_neg here]

theorem mem_queue_push {x : Fin n} {c d : Connection n} (member : d ∈ (push s b c x).queue) :
    d ∈ (s x).queue ∨ x = b ∧ d = c := by
  rw [push_queue] at member
  split at member
  next here =>
    subst here
    simpa using member
  next => exact Or.inl member

theorem mem_queue_push_of_mem {x : Fin n} {d : Connection n} (c : Connection n)
    (member : d ∈ (s x).queue) : d ∈ (push s b c x).queue := by
  rw [push_queue]
  split
  next here => exact List.mem_append_left _ (here ▸ member)
  next => exact member

theorem Local.of_same {a : Fin n} {v w : Server n} (ok : Local a v) (pc : w.pc = v.pc)
    (made : w.made = v.made) (accepted : w.accepted = v.accepted) : Local a w := by
  obtain ⟨loop, distinct, budget, joins⟩ := ok
  refine ⟨?_, ?_, ?_, ?_⟩
  · rwa [pc, made]
  · rwa [made, Server.senders, accepted]
  · rwa [pc, made, accepted]
  · rwa [accepted]

/-- A new connection comes last in a queue: behind the join that its sender left there. -/
theorem Ordered.of_push (ordered : Ordered s) {c : Connection n} (foreign : c.sender ≠ b)
    (late : c.isJoin = false → (s c.sender).pc.left = true) : Ordered (push s b c) where
  -- Only a queue changes.
  ok x := (ordered.ok x).of_same (by simp) (by simp) (by
    by_cases here : x = b
    · simp [push, here]
    · rw [push, set_other here])
  foreign x d member := by
    rcases mem_queue_push member with old | ⟨rfl, rfl⟩
    · exact ordered.foreign x d old
    · exact foreign
  entries x d member entry := by
    rw [push_pc]
    rcases mem_queue_push member with old | ⟨rfl, rfl⟩
    · exact ordered.entries x d old entry
    · exact late entry
  pair x y apart px py := by
    simp only [push_pc, push_made] at px py ⊢
    exact ordered.pair x y apart px py
  joined x y made := by
    simp only [Server.Met, push_made, push_senders, push_pc] at made ⊢
    rcases ordered.joined x y made with ⟨j, member, sender, join⟩ | done
    · exact Or.inl ⟨j, mem_queue_push_of_mem c member, sender, join⟩
    · exact Or.inr done
  behind x front d rest split entry made := by
    simp only [Server.Met, push_made, push_senders, push_pc] at made ⊢
    rw [push_queue] at split
    split_ifs at split with here
    · subst here
      -- Either `d` is the new connection itself, or it was in the queue before.
      rcases List.eq_nil_or_concat rest with rfl | ⟨others, last, rfl⟩
      · obtain ⟨rfl, same⟩ := List.append_inj' split rfl
        obtain rfl := (List.cons.inj same).1
        exact ordered.joined x _ made
      · rw [List.concat_eq_append, ← List.cons_append, ← List.append_assoc] at split
        obtain ⟨old, _⟩ := List.append_inj' split rfl
        exact ordered.behind x front d others old entry made
    · exact ordered.behind x front d rest split entry made

/-- A step of one server: connections leave its queue from the front, by being accepted or
behind the join phase, and it gets past other servers only by a connect. -/
theorem Ordered.change (ordered : Ordered s) (ok : Local a v) (dropped : List (Connection n))
    (queue : (s a).queue = dropped ++ v.queue)
    (settled : ∀ d ∈ dropped, d.sender ∈ v.senders ∨ v.pc.left = true)
    (senders : ∀ b ∈ (s a).senders, b ∈ v.senders)
    (left : (s a).pc.left = true → v.pc.left = true)
    (keeps : ∀ b ∈ (s a).made, b ∈ v.made)
    (makes : ∀ b ∈ v.made, b ∈ (s a).made ∨
      (s a).pc.left = false ∧ ∃ c ∈ (s b).queue, c.sender = a ∧ c.isJoin = true)
    (passed : ∀ b, b ≠ a → v.pc.passed b →
      (s a).pc.passed b ∨ b ∈ v.made ∨ (s b).pc = .down) : Ordered (set s a v) := by
  -- A server is not connected with itself.
  have own : a ∉ v.made := fun member =>
    (List.nodup_cons.mp ok.distinct).1 (List.mem_append_left _ member)
  -- Whom `a` had met it has met still: what left its queue is accounted for by `settled`.
  have met : ∀ front b, (s a).Met (dropped ++ front) b → v.Met front b := by
    rintro front b (⟨j, member, rfl, join⟩ | accepted | phase)
    · rcases List.mem_append.mp member with gone | waiting
      · exact Or.inr (settled j gone)
      · exact Or.inl ⟨j, waiting, rfl, join⟩
    · exact Or.inr (Or.inl (senders b accepted))
    · exact Or.inr (Or.inr (left phase))
  have queues : ∀ x, ∀ c ∈ (set s a v x).queue, c ∈ (s x).queue := by
    intro x c member
    by_cases here : x = a
    · subst here
      rw [set_self] at member
      rw [queue]
      exact List.mem_append_right _ member
    · rwa [set_other here] at member
  -- Getting past `b` in this step takes a connect, unless `b` is not there yet.
  have meets : ∀ b, b ≠ a → v.pc.passed b → (s b).pc.passed a → b ∈ v.made ∨ a ∈ (s b).made := by
    intro b apart pa pb
    rcases passed b apart pa with old | made | down
    · exact (ordered.pair a b (Ne.symm apart) old pb).imp_left (keeps b)
    · exact Or.inl made
    · rw [down] at pb
      exact pb.elim
  exact {
    -- Every server on its own.
    ok x := by
      by_cases here : x = a
      · subst here
        rwa [set_self]
      · rw [set_other here]
        exact ordered.ok x
    -- No queue has grown.
    foreign x c member := ordered.foreign x c (queues x c member)
    -- An entry in a queue: its sender stays past the join phase.
    entries x c member entry := by
      have before := ordered.entries x c (queues x c member) entry
      by_cases here : c.sender = a
      · rw [here, set_self]
        exact left (here ▸ before)
      · rwa [set_other here]
    -- Two servers that are past each other; `meets` where one of them is `a`.
    pair x y apart px py := by
      by_cases hx : x = a
      · subst hx
        rw [set_other (Ne.symm apart)] at py ⊢
        rw [set_self] at px ⊢
        exact meets y (Ne.symm apart) px py
      · rw [set_other hx] at px ⊢
        by_cases hy : y = a
        · subst hy
          rw [set_self] at py ⊢
          exact (meets x hx py px).symm
        · rw [set_other hy] at py ⊢
          exact ordered.pair x y apart px py
    -- A connection that was made: by `a` in this step, or before.
    joined x y made := by
      by_cases hy : y = a
      · subst hy
        rw [set_self] at made
        have hx : x ≠ y := fun same => own (same ▸ made)
        rw [set_other hx]
        rcases makes x made with old | ⟨_, new⟩
        · exact ordered.joined x y old
        · exact Or.inl new
      · rw [set_other hy] at made
        by_cases hx : x = a
        · subst hx
          rw [set_self]
          exact met _ _ (queue ▸ ordered.joined x y made)
        · rw [set_other hx]
          exact ordered.joined x y made
    -- What lies in front of an entry, in the queue of `a` and in another one.
    behind x front d rest split entry made := by
      by_cases hx : x = a
      · subst hx
        rw [set_self] at split ⊢
        have whole : (s x).queue = (dropped ++ front) ++ d :: rest := by
          rw [queue, split, List.append_assoc]
        have foreign : d.sender ≠ x := ordered.foreign x d (by simp [whole])
        rw [set_other foreign] at made
        exact met _ _ (ordered.behind x _ d rest whole entry made)
      · rw [set_other hx] at split ⊢
        by_cases hd : d.sender = a
        · rw [hd, set_self] at made
          -- A connection that `a` makes now has no entry in front of it: `a` sends none yet.
          rcases makes x made with old | ⟨early, _⟩
          · exact ordered.behind x front d rest split entry (hd ▸ old)
          · have late := ordered.entries x d (by simp [split]) entry
            rw [hd, early] at late
            exact absurd late Bool.false_ne_true
        · rw [set_other hd] at made
          exact ordered.behind x front d rest split entry made }

/-- A step of one server that moves no connection. -/
theorem Ordered.phase (ordered : Ordered s) {pc : Pc n} (ok : Local a { s a with pc })
    (left : (s a).pc.left = true → pc.left = true)
    (passed : ∀ b, b ≠ a → pc.passed b → (s a).pc.passed b ∨ (s b).pc = .down) :
    Ordered (set s a { s a with pc }) :=
  ordered.change ok [] rfl (by simp) (fun _ member => member) left
    (fun _ member => member) (fun _ member => Or.inl member)
    fun b apart p => (passed b apart p).imp_right Or.inr

end

/-! ## One lemma for each step -/

section

variable {s t : State n} {a : Fin n}

theorem Ordered.of_listen (ordered : Ordered s) (pc : (s a).pc = .down) :
    Ordered (set s a { s a with pc := .connecting (List.finRange n) }) := by
  obtain ⟨made, accepted⟩ : (s a).made = [] ∧ (s a).accepted = [] := by
    simpa [pc] using (ordered.ok a).budget
  refine ordered.phase { ordered.ok a with loop := ?_, budget := accepted } ?_ ?_
  · intro left same
    obtain rfl := Pc.connecting.inj same
    exact ⟨List.nodup_finRange n, by simp [made]⟩
  · simp [pc, Pc.left]
  · exact fun b _ p => absurd (List.mem_finRange b) p

theorem Ordered.of_connect (ordered : Ordered s) (taken : stepConnect s a = some t) :
    Ordered t := by
  have ok := ordered.ok a
  unfold stepConnect at taken
  split at taken
  -- The loop over the ports is done, and the server begins to accept.
  next pc =>
    obtain rfl := Option.some.inj taken
    have accepted : (s a).accepted = [] := by simpa [pc] using ok.budget
    have bound := ok.made_lt
    refine ordered.phase { ok with loop := by simp, budget := ?_ } ?_ ?_
    · simp only [accepted, List.length_nil]
      omega
    · simp [pc, Pc.left]
    · exact fun b _ _ => Or.inl (by simp [pc, Pc.passed])
  -- The next port is that of `b`.
  next b left pc =>
    split_ifs at taken with reached
    -- `b` listens: the join goes into its queue, and then `a` goes past `b`.
    · obtain ⟨other, -⟩ := reached
      obtain rfl := Option.some.inj taken
      have pushed : Ordered (push s b ⟨a, .join (joinMessage a)⟩) :=
        ordered.of_push (Ne.symm other) (by simp [Connection.isJoin])
      apply pushed.change (ok.connect pc other) []
      · rw [push_queue, if_neg (Ne.symm other)]
        rfl
      · simp
      · intro x member
        rwa [push_senders] at member
      · simp [pc, Pc.left]
      · intro x member
        rw [push_made] at member
        exact List.mem_append_left _ member
      · intro x member
        rcases List.mem_append.mp member with old | new
        · exact Or.inl (by rwa [push_made])
        -- The join of the connection made now is in the queue of `b`.
        · obtain rfl := List.mem_singleton.mp new
          refine Or.inr ⟨by simp [pc, Pc.left], ⟨a, .join (joinMessage a)⟩, ?_, rfl, rfl⟩
          rw [push_queue, if_pos rfl]
          exact List.mem_append_right _ (List.mem_singleton_self _)
      · intro x _ past
        by_cases here : x = b
        · exact Or.inr (Or.inl (by simp [here]))
        · refine Or.inl ?_
          rw [push_pc, pc]
          simp only [Pc.passed, List.mem_cons, not_or] at past ⊢
          exact ⟨here, past⟩
    -- `b` is this server, or does not listen.
    · obtain rfl := Option.some.inj taken
      apply ordered.phase (ok.skip pc)
      · simp [pc, Pc.left]
      · intro x apart past
        by_cases here : x = b
        · subst here
          refine Or.inr ?_
          by_contra up
          exact reached ⟨apart, by simp [listening, up]⟩
        · refine Or.inl ?_
          rw [pc]
          simp only [Pc.passed, List.mem_cons, not_or] at past ⊢
          exact ⟨here, past⟩
  next => cases taken

/-- The entries of a leader are not accepted from a server that is not connected yet: the
leader is past this server and so has connected to it, and its join comes first. -/
theorem Ordered.isJoin (ordered : Ordered s) {need : Nat} {c : Connection n}
    {rest : List (Connection n)} (pc : (s a).pc = .accepting need)
    (queue : (s a).queue = c :: rest) (unmade : c.sender ∉ (s a).made)
    (unaccepted : c.sender ∉ (s a).senders) : c.isJoin = true := by
  by_contra entry
  rw [Bool.not_eq_true] at entry
  have member : c ∈ (s a).queue := by simp [queue]
  have late := ordered.entries a c member entry
  have there : (s c.sender).pc.passed a := by
    cases phase : (s c.sender).pc <;> simp_all [Pc.left, Pc.passed]
  have here : (s a).pc.passed c.sender := by simp [pc, Pc.passed]
  rcases ordered.pair a c.sender (Ne.symm (ordered.foreign a c member)) here there with
    made | made
  · exact unmade made
  · rcases ordered.behind a [] c rest queue entry made with ⟨j, nothing, -⟩ | accepted | left
    · exact absurd nothing List.not_mem_nil
    · exact unaccepted accepted
    · simp [pc, Pc.left] at left

theorem Ordered.of_accept (ordered : Ordered s) (peer : NewPeer s (.accept a))
    (taken : stepAccept s a = some t) : Ordered t := by
  have ok := ordered.ok a
  have budget := ok.budget
  unfold stepAccept at taken
  split at taken
  -- Nobody is missing any more, and the server leaves its join phase.
  next pc =>
    obtain rfl := Option.some.inj taken
    rw [pc] at budget
    refine ordered.phase { ok with loop := by simp, budget := ?_ } ?_ ?_
    · change (s a).accepted.length + (s a).made.length + 1 = n
      omega
    · simp [Pc.left]
    · exact fun b _ _ => Or.inl (by simp [pc, Pc.passed])
  -- The next connection in the queue is accepted; it is a join.
  next need c rest pc queue =>
    obtain rfl := Option.some.inj taken
    obtain ⟨unmade, unaccepted⟩ := peer c (by simp [Server.incoming, pc, queue])
    have join := ordered.isJoin pc queue unmade unaccepted
    have foreign := ordered.foreign a c (by simp [queue])
    rw [pc] at budget
    refine ordered.change { loop := by simp, distinct := ?_, budget := ?_, joins := ?_ } [c] queue ?_ ?_ ?_ ?_ ?_ ?_
    · have distinct := ok.distinct
      simp only [Server.senders, List.map_append, List.map_cons, List.map_nil] at unaccepted ⊢ distinct
      grind
    · simp only [List.length_append, List.length_cons, List.length_nil]
      omega
    · intro d member
      rcases List.mem_append.mp member with old | new
      · exact ok.joins d old
      · rwa [List.mem_singleton.mp new]
    · intro d member
      obtain rfl := List.mem_singleton.mp member
      exact Or.inl (by simp [Server.senders])
    · intro b member
      simp only [Server.senders, List.map_append, List.mem_append] at member ⊢
      exact Or.inl member
    · simp [pc, Pc.left]
    · exact fun _ member => member
    · exact fun _ member => Or.inl member
    · exact fun b _ _ => Or.inl (by simp [pc, Pc.passed])
  next => cases taken

/-- Past the join phase nothing changes for the barrier. -/
theorem Ordered.later (ordered : Ordered s) {pc : Pc n} (before : (s a).pc.left = true)
    (after : pc.left = true) : Ordered (set s a { s a with pc }) := by
  have budget := (ordered.ok a).budget
  refine ordered.phase { ordered.ok a with loop := ?_, budget := ?_ } (fun _ => after) ?_
  · rintro left rfl
    cases after
  · cases phase : (s a).pc <;> cases pc <;> simp_all [Pc.left]
  · intro b _ _
    refine Or.inl ?_
    cases phase : (s a).pc <;> simp_all [Pc.left, Pc.passed]

theorem Ordered.of_send (ordered : Ordered s) (taken : stepSend s a = some t) : Ordered t := by
  unfold stepSend at taken
  split at taken
  next request pc =>
    obtain rfl := Option.some.inj taken
    exact ordered.later (by simp [pc, Pc.left]) rfl
  next request b left pc =>
    split_ifs at taken with reached
    · obtain ⟨other, -⟩ := reached
      obtain rfl := Option.some.inj taken
      have late : (s a).pc.left = true := by simp [pc, Pc.left]
      have pushed : Ordered (push s b ⟨a, .appendEntries request⟩) :=
        ordered.of_push (Ne.symm other) fun _ => late
      have unchanged : push s b ⟨a, .appendEntries request⟩ a = s a := set_other (Ne.symm other)
      have moved := pushed.later (a := a) (by rwa [unchanged])
        (rfl : (Pc.sending request left).left = true)
      rwa [unchanged] at moved
    · obtain rfl := Option.some.inj taken
      exact ordered.later (by simp [pc, Pc.left]) rfl
  next => cases taken

theorem Ordered.of_apply (ordered : Ordered s) {c : Connection n} {rest : List (Connection n)}
    (queue : (s a).queue = c :: rest) (pc : (s a).pc = .serving) :
    Ordered (set s a { s a with queue := rest }) := by
  refine ordered.change { ordered.ok a with } [c] queue ?_ (fun _ member => member)
    (fun left => left) (fun _ member => member) (fun _ member => Or.inl member)
    fun _ _ past => Or.inl past
  intro d _
  exact Or.inr (by simp [pc, Pc.left])

end

theorem ordered_init : Ordered (fun _ => {} : State n) where
  ok a := ⟨by simp, by simp [Server.senders], ⟨rfl, rfl⟩, by simp⟩
  foreign := by simp
  entries := by simp
  pair a b _ pa _ := pa.elim
  joined := by simp
  behind := by simp

theorem Ordered.next {leader : Fin n → Bool} {s t : State n} {action : Action n}
    (ordered : Ordered s) (peer : NewPeer s action)
    (taken : (startup leader).next s action = some t) : Ordered t := by
  cases action with
  | listen a =>
    obtain ⟨pc, rfl⟩ : _ ∧ _ := by simpa [startup] using taken
    exact ordered.of_listen pc
  | connect a => exact ordered.of_connect taken
  | accept a => exact ordered.of_accept peer taken
  | put a m =>
    obtain ⟨⟨-, pc⟩, rfl⟩ : _ ∧ _ := by simpa [startup] using taken
    exact ordered.later (by simp [pc, Pc.left]) rfl
  | send a => exact ordered.of_send taken
  | apply a =>
    simp only [startup] at taken
    split at taken
    next c rest queue =>
      split_ifs at taken with serving
      obtain rfl := Option.some.inj taken
      exact ordered.of_apply queue serving.2
    next => cases taken

theorem ordered_of_reachable {leader : Fin n → Bool} {s : State n}
    (reachable : (startup leader).Reachable NewPeer s) : Ordered s :=
  reachable.invariant (fun _ initial => initial ▸ ordered_init)
    fun _ _ _ ordered peer taken => ordered.next peer taken

/-- In every run in which no server accepts a connection in its join phase from a server it
is connected with already, the join phase is a barrier. -/
theorem barrier_of_newPeer {leader : Fin n → Bool} {s : State n}
    (reachable : (startup leader).Reachable NewPeer s) (a : Fin n) : Barrier s a :=
  have ok := (ordered_of_reachable reachable).ok a
  ⟨fun left b other => ok.connected left b other, ok.joins⟩

def anyPut : ClientMsg := { type_ := some .put }

/-- The second of three servers listens first; the leader sends an entry before the second
has accepted its join. -/
def orderly : List (Action 3) :=
  [.listen 1, .connect 1, .connect 1, .connect 1, .connect 1,
   .listen 0, .connect 0, .connect 0, .connect 0, .connect 0,
   .listen 2, .connect 2, .connect 2, .connect 2, .connect 2, .accept 2,
   .accept 0, .accept 0, .put 0 anyPut, .send 0, .send 0, .send 0, .send 0,
   .accept 1, .accept 1, .accept 1]

def orderlyEnd : State 3 :=
  (((startup (· == 0)).guarded NewPeer).run (fun _ => {}) orderly).get (by decide)

theorem barrier_of_newPeer_orderly :
    ((orderlyEnd 1).pc.left = true ∧ (orderlyEnd 1).queue.map Connection.isJoin = [false]) ∧
      Barrier orderlyEnd 1 :=
  ⟨by decide, barrier_of_newPeer (.guarded (.start rfl) (Option.some_get _).symm) 1⟩

/-- The first two of three servers have connected to each other, and the first takes the
join of the second for that of the third. -/
def crossed : List (Action 3) :=
  [.listen 0, .listen 1, .connect 0, .connect 0, .connect 0, .connect 0,
   .connect 1, .connect 1, .connect 1, .connect 1, .accept 0, .accept 0]

theorem not_barrier_crossed :
    ¬∀ (n : Nat) (leader : Fin n → Bool) (s : State n), 2 ≤ n →
      (startup leader).Reachable System.Always s → ∀ a, Barrier s a := by
  intro barrier
  have held := barrier 3 (· == 0) (((startup (· == 0)).run (fun _ => {}) crossed).get (by decide))
    (by decide) (.run (.start rfl) (Option.some_get _).symm) 0
  have third := held.connected (by decide) 2 (by decide)
  revert third
  decide

end CloudLab.Replication.Startup
