import CloudLab.SingleNode.Server
import CloudLab.Library.Transition

/-!
# Client threads that share one `ClientOP` (`task1/source/client.cpp`)

A thread takes its next operation from the traces, and with a PUT writes `local_kv` at once.
Then it sends the operation and waits for the reply. Nothing orders the writes of two threads
to `local_kv` as the server applies them. The server is the one the client assumes: it applies
an operation atomically and then acknowledges it.
-/
namespace CloudLab.SingleNode.Mirror

open Library Library.Wire

/-! ## The operations -/

/-- `Workload::TraceCmd` -/
inductive TraceOp where
  | put
  | get
  | txnStart
  | txnPut
  | txnGet
  | txnGetAndExecute
  | txnCommit
  | txnRollback
  deriving DecidableEq, Repr

/-- The first element of `operation`, the only one that is read. -/
structure TraceCmd where
  op : TraceOp
  keyHash : UInt32

/-- `charset`: the digits, the capital and the small letters. -/
def charset (i : Nat) : UInt8 :=
  if i < 10 then UInt8.ofNat (48 + i)
  else if i < 36 then UInt8.ofNat (55 + i)
  else UInt8.ofNat (61 + i)

/-- `rand_str`, by what `rand` returns. -/
def randStr (rand : Nat → Nat) : Bytes := 100 :: (List.range 64).map fun i => charset (rand i % 62)

def getOperationPut (localKv : KeyMap) (cmd : TraceCmd) (rand : Nat → Nat) :
    KeyMap × OperationData :=
  let rstring := WireString.ofBytes (randStr rand)
  (localKv.put cmd.keyHash.toInt32 rstring,
    { type_ := some .put, key_ := some cmd.keyHash.toInt32, value_ := some rstring })

def getOperationGet (localKv : KeyMap) (cmd : TraceCmd) : KeyMap × OperationData :=
  (localKv, { type_ := some .get, key_ := some cmd.keyHash.toInt32 })

/-- `get_operation`, in front of the iterator. For a transaction it has no function to call. -/
def getOperation (localKv : KeyMap) (cmd : TraceCmd) (rand : Nat → Nat) :
    Option (KeyMap × OperationData) :=
  match cmd.op with
  | .put => some (getOperationPut localKv cmd rand)
  | .get => some (getOperationGet localKv cmd)
  | _ => none

variable (traces : List TraceCmd) (nbClients nbMessages : Nat)

/-- The iterator behind an operation; with one client the jump back divides by zero. -/
def advance (it jump : Nat) : Option Nat :=
  if it ≠ traces.length - 1 then some (it + 1)
  else if nbClients = 1 then none
  else some (traces.length / nbClients * (jump % (nbClients - 1)))

/-! ## Threads and steps -/

inductive Phase where
  | idle
  /-- The operation is taken from the traces, and a PUT recorded. -/
  | recorded (od : OperationData)
  | sent (od : OperationData)
  | applied
  deriving DecidableEq

structure Thread where
  it : Nat
  i : Nat := 0
  phase : Phase := .idle

variable {nbClients}

/-- The PUT of `t` that the server has still to apply. -/
def Phase.writes (t : Fin nbClients) : Phase → List (Write (Fin nbClients) Int32 WireString)
  | .recorded od | .sent od => if od.type = .put then [⟨t, od.key, od.value⟩] else []
  | .idle | .applied => []

variable (nbClients)

structure State where
  localKv : KeyMap
  server : KeyMap
  threads : Fin nbClients → Thread
  /-- The PUTs that the server has still to apply, in the order in which they were recorded. -/
  pending : List (Write (Fin nbClients) Int32 WireString)

inductive Label where
  /-- `get_operation`; `rand` and `jump` are what the calls of `rand` return. -/
  | record (t : Fin nbClients) (rand : Nat → Nat) (jump : Nat)
  | send (t : Fin nbClients)
  | apply (t : Fin nbClients)
  | receive (t : Fin nbClients)

/-- The thread `id` begins at its share of the traces. -/
def start : State nbClients where
  localKv := Store.empty
  server := Store.empty
  threads id := { it := traces.length / nbClients * id }
  pending := []

variable {nbClients}

namespace State

def setThread (s : State nbClients) (t : Fin nbClients) (thread : Thread) : State nbClients :=
  { s with threads := Function.update s.threads t thread }

def stepRecord (s : State nbClients) (t : Fin nbClients) (rand : Nat → Nat) (jump : Nat) :
    Option (State nbClients) :=
  let thread := s.threads t
  if thread.phase = .idle ∧ thread.i < nbMessages then
    traces[thread.it]?.bind fun cmd =>
    (getOperation s.localKv cmd rand).bind fun taken =>
    (advance traces nbClients thread.it jump).map fun it =>
      { s with
        localKv := taken.1
        threads := Function.update s.threads t { thread with it := it, phase := .recorded taken.2 }
        pending := s.pending ++ (Phase.recorded taken.2).writes t }
  else none

def stepSend (s : State nbClients) (t : Fin nbClients) : Option (State nbClients) :=
  match (s.threads t).phase with
  | .recorded od => some (s.setThread t { s.threads t with phase := .sent od })
  | _ => none

/-- The server applies the operation and sends its acknowledgement. -/
def stepApply (s : State nbClients) (t : Fin nbClients) : Option (State nbClients) :=
  match (s.threads t).phase with
  | .sent od =>
    some { s.setThread t { s.threads t with phase := .applied } with
      server := execute s.server od
      pending := s.pending.filter fun w => w.owner ≠ t }
  | _ => none

def stepReceive (s : State nbClients) (t : Fin nbClients) : Option (State nbClients) :=
  match (s.threads t).phase with
  | .applied => some (s.setThread t { s.threads t with i := (s.threads t).i + 1, phase := .idle })
  | _ => none

end State

variable (nbClients)

def system : System (State nbClients) (Label nbClients) where
  init s := s = start traces nbClients
  next s l :=
    match l with
    | .record t rand jump => s.stepRecord traces nbMessages t rand jump
    | .send t => s.stepSend t
    | .apply t => s.stepApply t
    | .receive t => s.stepReceive t

variable {nbClients}

/-- Every thread has taken its operations and received the replies. -/
def Done (s : State nbClients) : Prop :=
  ∀ t, (s.threads t).phase = .idle ∧ (s.threads t).i = nbMessages

/-- No PUT is applied that was recorded last for its key while an earlier one is on its way. -/
def InOrder (s : State nbClients) : Label nbClients → Prop
  | .apply t => ∀ w ∈ (s.threads t).phase.writes t, ¬Overtakes s.pending w
  | _ => True

instance (s : State nbClients) : DecidablePred (InOrder s)
  | .apply _ => decidableForallMemList _ _
  | .record _ _ _ | .send _ | .receive _ => .isTrue trivial

/-! ## One step -/

theorem getOperation_eq {kv kv' : KeyMap} {cmd : TraceCmd} {rand : Nat → Nat} {od : OperationData}
    (got : getOperation kv cmd rand = some (kv', od)) :
    kv' = execute kv od ∧ (od.type = .put ∨ od.type = .get) := by
  unfold getOperation at got
  split at got
  · cases got
    exact ⟨rfl, Or.inl rfl⟩
  · cases got
    exact ⟨rfl, Or.inr rfl⟩
  · cases got

theorem Phase.owner_of_mem_writes {phase : Phase} {t : Fin nbClients}
    {w : Write (Fin nbClients) Int32 WireString} (member : w ∈ phase.writes t) : w.owner = t := by
  cases phase with
  | recorded od | sent od =>
    obtain ⟨_, member⟩ := List.mem_ite_nil_right.mp member
    rw [List.mem_singleton.mp member]
  | idle | applied => cases member

/-- `local_kv` is what the server will hold, and `pending` is what the threads have under way. -/
structure Mirrored (s : State nbClients) : Prop where
  mirror : s.localKv = s.server.flush s.pending
  owners : (s.pending.map Write.owner).Nodup
  tracks : ∀ w, w ∈ s.pending ↔ w ∈ (s.threads w.owner).phase.writes w.owner

/-- What the threads have under way, when one of them goes on. -/
theorem mem_writes_update {s : State nbClients} {t : Fin nbClients} (thread : Thread)
    (w : Write (Fin nbClients) Int32 WireString) :
    w ∈ (Function.update s.threads t thread w.owner).phase.writes w.owner ↔
      w ∈ thread.phase.writes t ∨ w.owner ≠ t ∧ w ∈ (s.threads w.owner).phase.writes w.owner := by
  by_cases own : w.owner = t
  · subst own
    simp
  · rw [Function.update_of_ne own]
    constructor
    · exact fun member => Or.inr ⟨own, member⟩
    · rintro (member | ⟨_, member⟩)
      · exact absurd (Phase.owner_of_mem_writes member) own
      · exact member

/-- A step of one thread that leaves the stores and what it has under way alone. -/
theorem Mirrored.setThread {s : State nbClients} {t : Fin nbClients} {thread : Thread}
    (mirrored : Mirrored s) (same : thread.phase.writes t = (s.threads t).phase.writes t) :
    Mirrored (s.setThread t thread) := by
  refine ⟨mirrored.mirror, mirrored.owners, fun w => ?_⟩
  have before := mem_writes_update (s := s) (t := t) (s.threads t) w
  rw [Function.update_eq_self, ← same] at before
  exact (mirrored.tracks w).trans (before.trans (mem_writes_update thread w).symm)

/-- A PUT is recorded behind those that are under way. -/
theorem Mirrored.record {s : State nbClients} {t : Fin nbClients} {od : OperationData}
    (mirrored : Mirrored s) (it : Nat) (idle : (s.threads t).phase = .idle) :
    Mirrored { s with
      localKv := execute s.localKv od
      threads := Function.update s.threads t { s.threads t with it := it, phase := .recorded od }
      pending := s.pending ++ (Phase.recorded od).writes t } := by
  -- An idle thread has nothing under way.
  have others : ∀ w ∈ s.pending, w.owner ≠ t := by
    rintro w member rfl
    rw [mirrored.tracks, idle] at member
    cases member
  refine ⟨?_, ?_, fun w => ?_⟩
  -- A PUT is the last write to `local_kv`, and the last on its way to the server.
  · by_cases kind : od.type = .put
    · simp only [Phase.writes, execute, if_pos kind, Store.flush_append, mirrored.mirror]
    · simp only [Phase.writes, execute, if_neg kind, List.append_nil, mirrored.mirror]
  · rw [List.map_append, List.nodup_append]
    refine ⟨mirrored.owners, ?_, ?_⟩
    · by_cases kind : od.type = .put <;> simp [Phase.writes, kind]
    · intro u earlier v new
      obtain ⟨w, member, rfl⟩ := List.mem_map.mp earlier
      obtain ⟨w', member', rfl⟩ := List.mem_map.mp new
      rw [Phase.owner_of_mem_writes member']
      exact others w member
  · rw [mem_writes_update, List.mem_append, mirrored.tracks]
    constructor
    · rintro (member | member)
      · exact Or.inr ⟨others w ((mirrored.tracks w).mpr member), member⟩
      · exact Or.inl member
    · rintro (member | ⟨_, member⟩)
      · exact Or.inr member
      · exact Or.inl member

/-- The server applies an operation that overtakes none. -/
theorem Mirrored.apply {s : State nbClients} {t : Fin nbClients} {od : OperationData}
    (mirrored : Mirrored s) (sent : (s.threads t).phase = .sent od)
    (next : ∀ w ∈ (s.threads t).phase.writes t, ¬Overtakes s.pending w) :
    Mirrored { s.setThread t { s.threads t with phase := .applied } with
      server := execute s.server od
      pending := s.pending.filter fun w => w.owner ≠ t } := by
  refine ⟨?_, ?_, fun w => ?_⟩
  · show s.localKv = (execute s.server od).flush (s.pending.filter fun w => w.owner ≠ t)
    rw [mirrored.mirror]
    by_cases kind : od.type = .put
    · have under : (⟨t, od.key, od.value⟩ : Write _ _ _) ∈ (s.threads t).phase.writes t := by
        simp [sent, Phase.writes, kind]
      have member := (mirrored.tracks _).mpr under
      rw [execute, if_pos kind]
      exact (Store.flush_arrived mirrored.owners member (next _ under)).symm
    -- A GET is not among the writes under way.
    · have kept : (s.pending.filter fun w => w.owner ≠ t) = s.pending := by
        rw [List.filter_eq_self]
        intro w member
        rw [decide_eq_true_iff]
        rintro rfl
        rw [mirrored.tracks, sent, Phase.writes, if_neg kind] at member
        cases member
      rw [execute, if_neg kind, kept]
  · exact mirrored.owners.sublist (List.filter_sublist.map _)
  · have left : w ∈ (Phase.applied).writes t ↔ False := by simp [Phase.writes]
    refine Iff.trans ?_ (mem_writes_update _ w).symm
    rw [List.mem_filter, mirrored.tracks, left, false_or, decide_eq_true_iff, and_comm]

theorem Mirrored.step {s s' : State nbClients} {l : Label nbClients} (mirrored : Mirrored s)
    (ordered : InOrder s l) (taken : (system traces nbClients nbMessages).next s l = some s') :
    Mirrored s' := by
  cases l with
  | record t rand jump =>
    obtain ⟨⟨idle, _⟩, taken⟩ := Option.ite_none_right_eq_some.mp taken
    obtain ⟨cmd, _, taken⟩ := Option.bind_eq_some_iff.mp taken
    obtain ⟨⟨kv, od⟩, got, taken⟩ := Option.bind_eq_some_iff.mp taken
    obtain ⟨it, _, rfl⟩ := Option.map_eq_some_iff.mp taken
    obtain ⟨rfl, _⟩ := getOperation_eq got
    exact mirrored.record it idle
  | send t =>
    simp only [system, State.stepSend] at taken
    split at taken
    next od recorded =>
      cases taken
      exact mirrored.setThread (by rw [recorded]; rfl)
    · cases taken
  | apply t =>
    simp only [system, State.stepApply] at taken
    split at taken
    next od sent =>
      cases taken
      exact mirrored.apply sent ordered
    · cases taken
  | receive t =>
    simp only [system, State.stepReceive] at taken
    split at taken
    next applied =>
      cases taken
      exact mirrored.setThread (by rw [applied]; rfl)
    · cases taken

/-! ## The end of a run -/

/-- Whenever no thread waits for a reply, the mirror and the server hold the same. -/
theorem Mirrored.agrees {s : State nbClients} (mirrored : Mirrored s)
    (quiet : ∀ t, (s.threads t).phase = .idle) : s.localKv = s.server := by
  have none : s.pending = [] := by
    rw [List.eq_nil_iff_forall_not_mem]
    intro w member
    rw [mirrored.tracks, quiet] at member
    cases member
  rw [mirrored.mirror, none, Store.flush_nil]

/-- In every run in which no PUT that was recorded last for its key overtakes another one, the
mirror agrees with the server once all replies are there. -/
theorem mirror_agrees {s : State nbClients}
    (reachable : (system traces nbClients nbMessages).Reachable InOrder s)
    (done : Done nbMessages s) (key : Int32) : s.localKv key = s.server key := by
  have mirrored : Mirrored s := by
    apply reachable.invariant
    -- At the start both stores are empty.
    · rintro _ rfl
      exact ⟨rfl, List.nodup_nil, fun w => Iff.rfl⟩
    · intro s l s' mirrored ordered taken
      exact mirrored.step traces nbMessages ordered taken
  rw [mirrored.agrees fun t => (done t).1]

/-! ## Two threads, one key -/

/-- A PUT of the key 1 for each of the threads. -/
def bothPut : List TraceCmd := [⟨.put, 1⟩, ⟨.put, 1⟩]

/-- The threads record their PUTs one after the other and send them; the server applies them in
the order of `first` and `second`. -/
def recordedThenApplied (first second : Fin 2) : List (Label 2) :=
  [.record 0 (fun _ => 10) 0, .record 1 (fun _ => 11) 0, .send 0, .send 1, .apply first,
    .apply second, .receive 0, .receive 1]

theorem mirror_agrees_bothPut : ∃ s, (system bothPut 2 1).Reachable InOrder s ∧ Done 1 s ∧
    s.localKv 1 = some (WireString.ofBytes (randStr fun _ => 11)) ∧ s.localKv 1 = s.server 1 := by
  obtain ⟨s, ran⟩ : ∃ s, ((system bothPut 2 1).guarded InOrder).run (start bothPut 2)
      (recordedThenApplied 0 1) = some s := Option.isSome_iff_exists.mp (by decide)
  have reachable := System.Reachable.guarded (.start rfl) ran
  have ended : ∀ t ∈ ((system bothPut 2 1).guarded InOrder).run (start bothPut 2)
      (recordedThenApplied 0 1), (∀ id, (t.threads id).phase = .idle ∧ (t.threads id).i = 1) ∧
        t.localKv 1 = some (WireString.ofBytes (randStr fun _ => 11)) := by
    decide
  obtain ⟨done, held⟩ := ended s ran
  exact ⟨s, reachable, done, held, mirror_agrees bothPut 1 reachable done 1⟩

/-- `local_kv` keeps the PUT of the second thread, and the server that of the first. -/
theorem not_mirror_agrees_bothPut : ¬∀ s, (system bothPut 2 1).Reachable System.Always s →
    Done 1 s → ∀ key, s.localKv key = s.server key := by
  intro agrees
  obtain ⟨s, ran⟩ : ∃ s, (system bothPut 2 1).run (start bothPut 2)
      (recordedThenApplied 1 0) = some s := Option.isSome_iff_exists.mp (by decide)
  have ended : ∀ t ∈ (system bothPut 2 1).run (start bothPut 2) (recordedThenApplied 1 0),
      (∀ id, (t.threads id).phase = .idle ∧ (t.threads id).i = 1) ∧
        t.localKv 1 ≠ t.server 1 := by
    decide
  obtain ⟨done, differ⟩ := ended s ran
  exact differ (agrees s (System.Reachable.run (.start rfl) ran) done 1)

end CloudLab.SingleNode.Mirror
