import CloudLab.KvStore.Methods

/-!
# What a store holds after a history of calls

The contents are described by the calls made so far and what they returned: the direct puts,
and at each commit what its transaction has put since it was last started. A history is listed
from the latest call on. `contents_run`: after any sequence of calls the store holds just that.
-/
namespace CloudLab.KvStore

open Library

structure Event where
  call : Call
  result : Result
  deriving DecidableEq, Repr

/-! ## Histories -/

def Event.Starts (e : Event) (txId : Int32) : Prop := e = ⟨.txStart txId, .done true⟩

def Event.Ends (e : Event) (txId : Int32) : Prop :=
  e.call = .txCommit txId ∨ e.call = .txAbort txId

instance (e : Event) : DecidablePred e.Starts := fun _ => decEq _ _

instance (e : Event) : DecidablePred e.Ends := fun _ => instDecidableOr

/-- What an event puts for a key into the write set of a transaction. -/
def Event.written (e : Event) (txId key : Int32) : Option Bytes :=
  match e with
  | ⟨.txPut t k value, .done true⟩ => if t = txId ∧ k = key then some value else none
  | _ => none

/-- The events since the transaction was last started. -/
def sinceStart (past : List Event) (txId : Int32) : List Event :=
  past.takeWhile fun e => ¬e.Starts txId

/-- The transaction has been started, and has not ended since. -/
def Live (past : List Event) (txId : Int32) : Prop :=
  (∃ e ∈ past, e.Starts txId) ∧ ∀ e ∈ sinceStart past txId, ¬e.Ends txId

instance (past : List Event) : DecidablePred (Live past) := fun _ => instDecidableAnd

/-- The last value counts. -/
def writtenSince (past : List Event) (txId : Int32) : Store Int32 Bytes := fun key =>
  (sinceStart past txId).findSome? fun e => e.written txId key

def writeSet (past : List Event) (txId : Int32) : Store Int32 Bytes :=
  if Live past txId then writtenSince past txId else Store.empty

/-- The direct puts and the committed write sets. -/
def contents : List Event → Store Int32 Bytes
  | [] => Store.empty
  | e :: past =>
    match e.call with
    | .put key value => (contents past).put key value
    | .txCommit txId => overlay (writeSet past txId) (contents past)
    | _ => contents past

/-! ## Calls with their history -/

def record (iteration : Iteration (Int32 × Bytes)) (s : KvStore × List Event) (c : Call) :
    Option (KvStore × List Event) :=
  (s.1.call iteration c).map fun (t, r) => (t, ⟨c, r⟩ :: s.2)

/-- The calls one after another, on an empty store. -/
def run (iteration : Iteration (Int32 × Bytes)) (calls : List Call) :
    Option (KvStore × List Event) :=
  calls.foldlM (record iteration) (init, [])

/-- Every key that `tx_get` is called on is stored at that point. -/
def GetsStored (iteration : Iteration (Int32 × Bytes)) : KvStore → List Call → Prop
  | _, [] => True
  | s, c :: rest =>
    c.OnStored s ∧ ∀ after ∈ s.call iteration c, GetsStored iteration after.1 rest

instance (iteration : Iteration (Int32 × Bytes)) :
    ∀ s calls, Decidable (GetsStored iteration s calls)
  | _, [] => .isTrue trivial
  | s, c :: rest =>
    haveI (after : KvStore × Result) : Decidable (GetsStored iteration after.1 rest) :=
      instDecidableGetsStored iteration after.1 rest
    inferInstanceAs (Decidable (c.OnStored s ∧ ∀ after ∈ s.call iteration c, _))

/-! ## Buffers and histories -/

theorem sinceStart_cons (e : Event) (past : List Event) (txId : Int32) :
    sinceStart (e :: past) txId = if e.Starts txId then [] else e :: sinceStart past txId := by
  rw [sinceStart, List.takeWhile_cons]
  by_cases starts : e.Starts txId <;> simp [starts, sinceStart]

theorem live_cons (e : Event) (past : List Event) (txId : Int32) :
    Live (e :: past) txId ↔ e.Starts txId ∨ (¬e.Ends txId ∧ Live past txId) := by
  by_cases starts : e.Starts txId
  · simp [Live, sinceStart_cons, starts]
  · simp [Live, sinceStart_cons, starts]
    tauto

theorem writtenSince_cons (e : Event) (past : List Event) (txId key : Int32) :
    writtenSince (e :: past) txId key =
      if e.Starts txId then none else (e.written txId key).or (writtenSince past txId key) := by
  rw [writtenSince, sinceStart_cons]
  by_cases starts : e.Starts txId
  · simp [starts]
  · rw [if_neg starts, if_neg starts, List.findSome?_cons, writtenSince]
    cases e.written txId key <;> rfl

/-- The buffer of a live transaction is what it has written; the others have none. -/
def Buffers (past : List Event) (txId : Int32) : Option (UnorderedMap Int32 Bytes) → Prop
  | none => ¬Live past txId
  | some txBuf => Live past txId ∧ txBuf.find? = writtenSince past txId

structure Described (past : List Event) (s : KvStore) : Prop where
  stored : s.kvStore = contents past
  buffers : ∀ txId, Buffers past txId (s.liveTxs txId)

/-- An event of another kind, or of another transaction. -/
theorem Buffers.frame {e : Event} {past : List Event} {txId : Int32}
    {buffer : Option (UnorderedMap Int32 Bytes)} (before : Buffers past txId buffer)
    (starts : ¬e.Starts txId) (ends : ¬e.Ends txId) (written : ∀ key, e.written txId key = none) :
    Buffers (e :: past) txId buffer := by
  cases buffer with
  | none =>
    rw [Buffers, live_cons]
    rintro (started | ⟨_, live⟩)
    · exact starts started
    · exact before live
  | some txBuf =>
    refine ⟨(live_cons e past txId).mpr (.inr ⟨ends, before.1⟩), ?_⟩
    funext key
    rw [writtenSince_cons, if_neg starts, written, before.2, Option.none_or]

theorem Described.curTx {past : List Event} {s : KvStore} (described : Described past s)
    (txId : Int32) : (s.curTx txId).find? = writeSet past txId := by
  have buffer := described.buffers txId
  rw [KvStore.curTx, writeSet]
  cases found : s.liveTxs txId with
  | none =>
    rw [found] at buffer
    rw [if_neg buffer]
    rfl
  | some txBuf =>
    rw [found] at buffer
    rw [if_pos buffer.1]
    exact buffer.2

theorem Buffers.ended {e : Event} {past : List Event} {txId : Int32} (starts : ¬e.Starts txId)
    (ends : e.Ends txId) : Buffers (e :: past) txId none := by
  rw [Buffers, live_cons]
  rintro (started | ⟨running, _⟩)
  · exact starts started
  · exact running ends

/-- One call keeps the buffers and the history together. -/
theorem Described.call {iteration : Iteration (Int32 × Bytes)} {past : List Event} {s t : KvStore}
    {c : Call} {r : Result} (described : Described past s)
    (called : s.call iteration c = some (t, r)) : Described (⟨c, r⟩ :: past) t := by
  have effect := call_iff.mp called
  cases effect with
  | put key value =>
    refine ⟨?_, fun txId => (described.buffers txId).frame ?_ ?_ fun _ => rfl⟩
    · simp [contents, described.stored]
    · simp [Event.Starts]
    · simp [Event.Ends]
  | get | notStarted | notBuffered | read | refused =>
    refine ⟨described.stored, fun txId => (described.buffers txId).frame ?_ ?_ fun _ => rfl⟩
    · simp [Event.Starts]
    · simp [Event.Ends]
  | @started own fresh =>
    refine ⟨described.stored, fun txId => ?_⟩
    simp only [Store.put_apply]
    split
    -- The new transaction is live, and has written nothing yet.
    next same =>
      subst same
      refine ⟨(live_cons _ _ _).mpr (.inl rfl), ?_⟩
      funext key
      have starts : Event.Starts ⟨.txStart txId, .done true⟩ txId := rfl
      rw [writtenSince_cons, if_pos starts, UnorderedMap.find?_empty]
    next other =>
      refine (described.buffers txId).frame ?_ ?_ fun _ => rfl
      · simpa [Event.Starts] using Ne.symm other
      · simp [Event.Ends]
  | @buffered own txBuf key value live =>
    refine ⟨described.stored, fun txId => ?_⟩
    simp only [Store.put_apply]
    split
    -- The value is found from now on, in the buffer and in the history.
    next same =>
      subst same
      have buffer := described.buffers txId
      rw [live] at buffer
      refine ⟨(live_cons _ _ _).mpr (.inr ⟨by simp [Event.Ends], buffer.1⟩), ?_⟩
      funext j
      rw [writtenSince_cons, if_neg (by simp [Event.Starts]), UnorderedMap.find?_insertOrAssign,
        buffer.2]
      by_cases here : j = key
      · simp [Event.written, here]
      · simp [Event.written, here, Ne.symm here]
    next other =>
      refine (described.buffers txId).frame ?_ ?_ fun j => ?_
      · simp [Event.Starts]
      · simp [Event.Ends]
      · simp [Event.written, Ne.symm other]
  | committed own | aborted own =>
    refine ⟨by simp only [contents, described.curTx, described.stored], fun txId => ?_⟩
    simp only [Store.delete_apply]
    split
    next same => exact .ended (by simp [Event.Starts]) (by simp [Event.Ends, same])
    next other =>
      refine (described.buffers txId).frame ?_ ?_ fun _ => rfl
      · simp [Event.Starts]
      · simpa [Event.Ends] using Ne.symm other

/-! ## Runs -/

theorem described_init : Described [] init where
  stored := rfl
  buffers := fun _ live => by
    obtain ⟨⟨e, member, _⟩, _⟩ := live
    cases member

theorem Described.foldlM {iteration : Iteration (Int32 × Bytes)} {past : List Event} {s : KvStore}
    {calls : List Call} (described : Described past s) (stored : GetsStored iteration s calls) :
    ∃ t now, calls.foldlM (record iteration) (s, past) = some (t, now) ∧
      now.map Event.call = calls.reverse ++ past.map Event.call ∧ Described now t := by
  induction calls generalizing s past with
  | nil => exact ⟨s, past, rfl, rfl, described⟩
  | cons c rest ih =>
    obtain ⟨t, r, called⟩ := call_defined iteration stored.1
    obtain ⟨u, now, ran, calls, described⟩ := ih (described.call called) (stored.2 _ called)
    refine ⟨u, now, ?_, ?_, described⟩
    · rw [List.foldlM_cons, record, called]
      exact ran
    · simp [calls]

/-- Whatever is called, the store holds what was put directly and what was committed. -/
theorem contents_run (iteration : Iteration (Int32 × Bytes)) (calls : List Call)
    (stored : GetsStored iteration init calls) :
    ∃ s past, run iteration calls = some (s, past) ∧ past.map Event.call = calls.reverse ∧
      s.kvStore = contents past := by
  obtain ⟨s, past, ran, made, described⟩ := described_init.foldlM stored
  exact ⟨s, past, ran, by simpa using made, described.stored⟩

/-- A transaction that overwrites its own put, and one of the same id that is aborted. -/
def overwritten : List Call :=
  [.put 1 [1], .txStart 7, .txGet 7 1, .txPut 7 1 [2], .txPut 7 1 [3], .txCommit 7, .txStart 7,
    .txPut 7 1 [4], .txAbort 7]

theorem contents_run_overwritten :
    GetsStored .asListed init overwritten ∧
      ∃ s past, run .asListed overwritten = some (s, past) ∧
        past.map Event.call = overwritten.reverse ∧ s.kvStore = contents past :=
  have stored : GetsStored .asListed init overwritten := by decide
  ⟨stored, contents_run .asListed overwritten stored⟩

end CloudLab.KvStore
